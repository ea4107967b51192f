import DisciplinedConvex.Node.Text
import DisciplinedConvex.Pass
import DisciplinedConvex.Workspace.Construction

namespace DisciplinedConvex

namespace Compilation

variable {α : Type} [Zero α] [One α] [Add α] [Mul α] [Scalar α]

def isConstant (n : Node α) : Task (Compilation α) Bool :=
  onWorkspace (Workspace.onVerdicts n.askConstant)

def width : Task (Compilation α) Nat := do
  Extent.columns (← get).layout.size

def lookup (id : String) (find : Task (Compilation α) (Form α)) :
    Task (Compilation α) (Form α) := do
  match (← get).pass.find? id with
  | some F => return F
  | none => find

def record (n : Node α) (find : Task (Compilation α) (Form α)) : Task (Compilation α) (Form α) := do
  let F ← find
  if (← get).pass.config.rejectNonfinite && !F.isFinite then throw (.nonfiniteForm n.text)
  modifyPass (Pass.store n.id F)
  return F

def lowerConstant (A : Dense α) : Task (Compilation α) (Form α) := return .constant A.vec (← width)

def slotColumns (u : Unknown) : Task (Compilation α) (Form α) := do
  let slot ← (← get).layout.slotOf (.unknown u)
  let n ← Extent.vector u.size.count
  let length ← Extent.vector slot.length
  let cols ← width
  if 0 < length ∧ !Extent.addressable slot.start slot.stop then throw .numberTooLarge
  if length ≠ n then throw .misfit
  if 0 < n ∧ (slot.start < 0 ∨ cols < slot.stop) then throw .misfit
  return ⟨cols, Array.ofFn fun i : Fin n => .column (slot.start.toNat + i)⟩

def lowerUnknown (u : Unknown) : Task (Compilation α) (Form α) := do
  register u
  slotColumns u

def multiple (c : Node α) (find : Task (Compilation α) (Form α)) :
    Task (Compilation α) (Form α) := do
  let F ← find
  let A ← c.constantValue
  if c.size = .scalar then return F.scale A.item
  match F.rows.toList with
  | [row] => return .broadcast F.cols row A.vec
  | _ => throw .misfit

def lowerProduct (size : Size) (l r : Node α) (left right : Task (Compilation α) (Form α)) :
    Task (Compilation α) (Form α) := do
  if l.size = .scalar ∨ r.size = .scalar then
    if ← isConstant l then multiple l right
    else if ← isConstant r then multiple r left
    else throw .nonconstantProduct
  else if ← isConstant l then
    let F ← right
    let n ← Extent.order size.cols
    let A ← l.constantValue
    F.premultiply (.onColumns n A)
  else if ← isConstant r then
    let F ← left
    let B ← r.constantValue
    let n ← Extent.order size.rows
    F.premultiply (.onRows n B)
  else throw .nonconstantProduct

def introduce (square? : Option (Node α)) (size : Size) : Task (Compilation α) Unknown := do
  let name := "_aux" ++ toString (← get).pass.auxiliaries.length
  let u ← onWorkspace (Unknown.build name size (.ok .indeterminate))
  modifyPass fun P => { P with auxiliaries := ⟨u, square?⟩ :: P.auxiliaries }
  register u
  return u

def newAuxiliary (size : Size) : Task (Compilation α) Unknown := introduce none size

/-- The rows `t + 1`, `2 x` and `t - 1`: the first bounds the norm of the others exactly when
`x ^ 2` is at most `t`. -/
def epigraphRows [Neg α] (x t : AffineRow α) : Array (AffineRow α) :=
  #[⟨t.coefficients, t.offset + 1⟩, x.scale (1 + 1), ⟨t.coefficients, t.offset + -1⟩]

def epigraphs [Neg α] (count : Nat) (X T : Form α) : Array (Constraint α) :=
  Array.ofFn fun i : Fin count =>
    ⟨"SOC", ⟨T.cols, epigraphRows (X.rows.getD i (.constant 0)) (T.rows.getD i (.constant 0))⟩⟩

def bound [Neg α] (n : Node α) (u : Unknown) (X : Form α) : Task (Compilation α) (Form α) := do
  let T ← lookup u.id (record (.unknown u) (lowerUnknown u))
  let cols := (← get).layout.size
  let X ← X.withColumns cols
  let T ← T.withColumns cols
  modifyPass (Pass.addConstraints (epigraphs n.size.count.toNat X T))
  return T

def lowerSquare [Neg α] (n x : Node α) (find : Task (Compilation α) (Form α)) :
    Task (Compilation α) (Form α) := do
  if ← isConstant x then
    return ← lowerConstant (← n.constantValue)
  let X ← find
  bound n (← introduce (some n) x.size) X

def compute [Neg α] : Node α → Task (Compilation α) (Form α)
  | .constant c => record (.constant c) (lowerConstant c.value)
  | .unknown u => record (.unknown u) (lowerUnknown u)
  | .product tag l r =>
    record (.product tag l r)
      (lowerProduct tag.size l r (lookup l.id (compute l)) (lookup r.id (compute r)))
  | .weighted tag c x =>
    record (.weighted tag c x) do
      (← lookup x.id (compute x)).premultiply (.diagonal c.value.vec)
  | .square tag x =>
    record (.square tag x) (lowerSquare (.square tag x) x (lookup x.id (compute x)))
  | .bare tag kind arity args => throw (.noRule .form (Node.bare tag kind arity args).kind)

/-- The form of a node. What the pass does not hold yet is found from the bottom up, each identity
once; every node at which the walk stops short counts as a hit. -/
def lower [Neg α] (n : Node α) : Task (Compilation α) (Form α) := do
  let held := (← get).pass
  match held.find? n.id with
  | some F =>
    modifyPass (Pass.hit 1)
    return F
  | none =>
    let walk := Node.postOrder (fun m => held.contains m.id) n
    modifyPass (Pass.hit (walk.met.countP fun m => held.contains m.id))
    walk.order.forM fun m => discard (compute m)
    (← get).pass.get n.id

def conicForm [Neg α] (n : Node α) : Task (Compilation α) (Form α) := do
  if (← get).pass.config.checkDcp then
    if (← onWorkspace (Workspace.onVerdicts n.askVexity)) = .notDcp then
      throw (.notCompliant n.text)
  let F ← lower n
  F.withColumns (← get).layout.size

end Compilation

end DisciplinedConvex
