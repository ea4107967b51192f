import DisciplinedConvex.Node.Composition
import DisciplinedConvex.Node.Walk
import DisciplinedConvex.Task
import Std.Data.TreeMap

namespace DisciplinedConvex

variable {α : Type} [Scalar α]

/-- The signs and curvatures found so far. They are remembered for each object, so that nodes of one
identity that were built apart are asked apart. -/
structure Verdicts where
  signs : Std.TreeMap Nat Sign
  vexities : Std.TreeMap Nat Vexity

namespace Verdicts

def empty : Verdicts := ⟨∅, ∅⟩

def sign? (v : Verdicts) : Node α → Option Sign
  | .constant c => some (.ofEntries c.value.vec)
  | .unknown u => some u.sign
  | n => v.signs[n.ref]?

def vexity? (v : Verdicts) (n : Node α) : Option Vexity := v.vexities[n.ref]?

def setSign (n : Node α) (s : Sign) (v : Verdicts) : Verdicts :=
  { v with signs := v.signs.insert n.ref s }

def setVexity (n : Node α) (w : Vexity) (v : Verdicts) : Verdicts :=
  { v with vexities := v.vexities.insert n.ref w }

end Verdicts

namespace Node

def signRule (n : Node α) (ask : (c : Node α) → c.weight < n.weight → Task Verdicts Sign) :
    Task Verdicts Sign :=
  match n with
  | constant c => return .ofEntries c.value.vec
  | unknown u => return u.sign
  | product tag l r => do
    let s ← ask l (left_lt_product tag l r)
    let t ← ask r (right_lt_product tag l r)
    return s * t
  | weighted tag c x => do
    let s ← ask (constant c) (weight_lt_weighted tag c x)
    let t ← ask x (operand_lt_weighted tag c x)
    return s * t
  | square tag x => do
    let s ← ask x (operand_lt_square tag x)
    return squareSign s
  | bare tag kind arity args => throw (.noRule .sign (bare tag kind arity args).kind)

/-- The sign of a node. Whatever below it is not yet known is found from the bottom up and
remembered; a child that the walk took for an equal node met before is asked for in turn. -/
def askSign (n : Node α) : Task Verdicts Sign := do
  let known ← get
  match known.sign? n with
  | some s => return s
  | none =>
    (postOrder (fun m => (known.sign? m).isSome) n).order.attach.forM fun ⟨m, _hm⟩ => do
      let s ← signRule m fun c _hc => askSign c
      modify (Verdicts.setSign m s)
    return ((← get).sign? n).getD .indeterminate
termination_by n.weight
decreasing_by exact Nat.lt_of_lt_of_le _hc (weight_le_of_mem_postOrder _hm)

def askMonotonicity : Node α → Task Verdicts (List Monotonicity)
  | product _ l r => do
    let s ← r.askSign
    let t ← l.askSign
    return [s * Monotonicity.nondecreasing, t * Monotonicity.nondecreasing]
  | weighted _ c x => do
    let s ← x.askSign
    let t ← (constant c).askSign
    return [s * Monotonicity.nondecreasing, t * Monotonicity.nondecreasing]
  | square _ x => do
    let s ← x.askSign
    return [s * Monotonicity.nondecreasing]
  | constant _ | unknown _ | bare .. => return []

def curvatureRule (n : Node α) (ask : (c : Node α) → c.weight < n.weight → Task Verdicts Vexity) :
    Task Verdicts Vexity :=
  match n with
  | constant _ => return .constant
  | unknown _ => return .affine
  | product tag l r => do
    let v ← ask l (left_lt_product tag l r)
    if v = .constant then return .constant
    let w ← ask r (right_lt_product tag l r)
    return if w = .constant then .constant else .notDcp
  | weighted tag c x => do
    let v ← ask x (operand_lt_weighted tag c x)
    return if v = .constant then .constant else .affine
  | square _ _ => return .convex
  | bare tag kind arity args => throw (.noRule .curvature (bare tag kind arity args).kind)

def joinChildren (own : Vexity) (args : List (Monotonicity × Node α)) : Task Verdicts Vexity := do
  let known ← get
  args.foldlM (fun v (m, c) =>
    match known.vexity? c with
    | some w => return v + m * w
    | none => throw .unaskedChild) own

def vexityRule (n : Node α) (ask : (c : Node α) → c.weight < n.weight → Task Verdicts Vexity) :
    Task Verdicts Vexity := do
  let known ← get
  if !n.children.isEmpty && n.children.all fun c => known.vexity? c = some .constant then
    return .constant
  let own ← curvatureRule n ask
  let ms ← n.askMonotonicity
  joinChildren own (ms.zip n.children)

def askVexity (n : Node α) : Task Verdicts Vexity := do
  let known ← get
  match known.vexity? n with
  | some v => return v
  | none =>
    (postOrder (fun m => (known.vexity? m).isSome) n).order.attach.forM fun ⟨m, _hm⟩ => do
      let v ← vexityRule m fun c _hc => askVexity c
      modify (Verdicts.setVexity m v)
    return ((← get).vexity? n).getD .notDcp
termination_by n.weight
decreasing_by exact Nat.lt_of_lt_of_le _hc (weight_le_of_mem_postOrder _hm)

def askCurvature (n : Node α) : Task Verdicts Vexity := curvatureRule n fun c _ => c.askVexity

def askConstant (n : Node α) : Task Verdicts Bool := return (← n.askVexity) = .constant

end Node

end DisciplinedConvex
