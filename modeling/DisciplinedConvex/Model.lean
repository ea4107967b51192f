import DisciplinedConvex.Node
import DisciplinedConvex.Task

namespace DisciplinedConvex

structure Symbol where
  label : String
  shape : List Int
  nonneg : Bool
  nonpos : Bool
  deriving DecidableEq

inductive Model (α : Type) where
  | constant (value : Dense α)
  | symbol (name : String) (s : Symbol)
  | multiply (left right : Model α)
  | matmul (left right : Model α)
  | square (arg : Model α)

structure Bridge where
  symbols : Array (String × Symbol)

namespace Bridge

def empty : Bridge := ⟨#[]⟩

def names (B : Bridge) : List String := B.symbols.toList.map (·.1)

def find? (B : Bridge) (name : String) : Option Symbol := (B.symbols.find? (·.1 == name)).map (·.2)

def register (B : Bridge) (name : String) (s : Symbol) : Bridge :=
  if (B.find? name).isSome then
    ⟨B.symbols.map fun (m, t) => if m = name then (m, s) else (m, t)⟩
  else ⟨B.symbols.push (name, s)⟩

theorem find?_isSome (B : Bridge) (name : String) :
    (B.find? name).isSome = true ↔ name ∈ B.names := by
  simp [find?, names]

def ofShapes (shapes : List (String × List Int)) : Bridge :=
  shapes.foldl (fun B (name, shape) => B.register name ⟨name, shape, false, false⟩) empty

def symbolOf (u : Unknown) : Task Bridge Symbol := do
  match (← get).find? u.name with
  | some s => return s
  | none =>
    let s : Symbol := ⟨u.name, [u.size.rows, u.size.cols], u.sign = .positive, u.sign = .negative⟩
    modify fun B => B.register u.name s
    return s

variable {α : Type}

def translate : Node α → Task Bridge (Model α)
  | .constant c => return .constant c.value
  | .unknown u => do return .symbol u.name (← symbolOf u)
  | .product _ l r => do
    let a ← translate l
    let b ← translate r
    return if l.size = .scalar ∨ r.size = .scalar then .multiply a b else .matmul a b
  | .weighted _ c x => do return .multiply (.constant c.value) (← translate x)
  | .square _ x => do return .square (← translate x)
  | .bare tag kind arity args => throw (.noRule .model (Node.bare tag kind arity args).kind)

end Bridge

end DisciplinedConvex
