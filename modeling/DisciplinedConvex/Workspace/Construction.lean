import DisciplinedConvex.Node.Value
import DisciplinedConvex.Workspace

namespace DisciplinedConvex

open Workspace

variable {α : Type}

namespace Constant

def listing [Zero α] (A : Dense α) : List α :=
  (List.range A.rows).flatMap fun i => (List.range A.cols).map fun j => A.entry i j

def build [Zero α] [Scalar α] (A : Dense α) : Task Workspace (Constant α) := do
  let ref ← newObject
  return ⟨ref, Identity.ofConstant [A.rows, A.cols] (listing A), A⟩

end Constant

namespace Unknown

def build (name : String) (size : Size) (sign : Except Failure Sign) : Task Workspace Unknown := do
  let ref ← newObject
  let serial ← newSerial
  return ⟨ref, Identity.ofUnknown serial, serial, name, size, ← sign⟩

end Unknown

namespace Node

def buildProduct (l r : Node α) : Task Workspace (Node α) :=
  match l.size.product? r.size with
  | none => throw (.unmultipliable l.size r.size)
  | some size => do
    let ref ← newObject
    return product ⟨ref, size, Identity.ofOperation "*" [l.id, r.id]⟩ l r

def buildWeighted (c : Constant α) (x : Node α) : Task Workspace (Node α) := do
  if c.value.size ≠ x.size then throw (.unequalSizes c.value.size x.size)
  let ref ← newObject
  return weighted ⟨ref, x.size, Identity.ofOperation ".*" [c.id, x.id]⟩ c x

def buildSquare (x : Node α) : Task Workspace (Node α) := do
  let ref ← newObject
  return square ⟨ref, x.size, Identity.ofOperation "square" [x.id]⟩ x

def buildLeaf (size : Size) (id : String) : Task Workspace (Node α) := do
  let ref ← newObject
  return bare ⟨ref, size, id⟩ .leaf 0 Fin.elim0

def buildOperation (size : Size) (args : List (Node α)) : Task Workspace (Node α) := do
  let ref ← newObject
  return bare ⟨ref, size, Identity.ofOperation "expr" (args.map id)⟩ .operation args.length args.get

variable [Zero α] [One α] [Neg α] [Add α] [Mul α] [Scalar α]

def isConstant (x : Node α) : Task Workspace Bool := onVerdicts x.askConstant

def fold : Node α → Task Workspace (Constant α)
  | constant c => return c
  | x => do Constant.build (← x.constantValue)

/-- The product `x @ y`. A scalar times itself is a square, whose curvature the rule for products
cannot certify. -/
def multiply (x y : Node α) : Task Workspace (Node α) :=
  if x.size = .scalar ∧ x.same y then buildSquare x else buildProduct x y

/-- The entrywise product `x * y`. The square of what is not constant is recognised first; a scalar
on either side makes it a plain product; otherwise the constant factor becomes the weight. -/
def dotMultiply (x y : Node α) : Task Workspace (Node α) := do
  if x.same y then
    if !(← x.isConstant) then return ← buildSquare x
  if x.size = .scalar ∨ y.size = .scalar then return ← multiply x y
  if ← x.isConstant then
    buildWeighted (← x.fold) y
  else if ← y.isConstant then
    buildWeighted (← y.fold) x
  else
    throw .nonconstantElementwise

def divide (x c : Node α) : Task Workspace (Node α) := do
  if !(← c.isConstant) then throw .nonconstantDivisor
  let reciprocal := (← c.constantValue).map Scalar.recip
  if !reciprocal.vec.all Scalar.isFinite then warn
  let r ← Constant.build reciprocal
  if c.size = .scalar then multiply x (constant r) else dotMultiply (constant r) x

def negated (x : Node α) : Task Workspace (Node α) := do
  multiply (constant (← Constant.build (Dense.scalar (-1)))) x

end Node

inductive Operand (α : Type) where
  | node (n : Node α)
  | literal (kind : String) (data : Except Failure (Tensor α))

namespace Operand

def kind : Operand α → String
  | node n => n.kind
  | literal kind _ => kind

variable [Zero α] [One α] [Neg α] [Add α] [Mul α] [Scalar α]

def toNode : Operand α → Task Workspace (Node α)
  | node n => return n
  | literal _ data => do return .constant (← Constant.build (← Dense.ofTensor (← data)))

def apply (build : Node α → Node α → Task Workspace (Node α)) (x y : Operand α) :
    Task Workspace (Node α) := do
  let l ← x.toNode
  let r ← y.toNode
  build l r

def weigh (c x : Operand α) : Task Workspace (Node α) := do
  let operand ← x.toNode
  match c with
  | node (.constant weight) => Node.buildWeighted weight operand
  | other => throw (.nonconstantWeight other.kind)

def quotient (x c : Operand α) : Task Workspace (Node α) :=
  match x with
  | node n => do n.divide (← c.toNode)
  | literal _ _ => throw .nonconstantDivisor

end Operand

end DisciplinedConvex
