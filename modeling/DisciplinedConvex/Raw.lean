import DisciplinedConvex.Dense
import DisciplinedConvex.Double

namespace DisciplinedConvex

inductive Raw where
  | null
  | bool (b : Bool)
  | int (n : Int)
  | float (x : Double)
  | text (s : String)
  | list (xs : List Raw)
  | record (keys : List String)

namespace Raw

instance : Inhabited Raw := ⟨null⟩

def kind : Raw → String
  | null => "NoneType"
  | bool _ => "bool"
  | int _ => "int"
  | float _ => "float"
  | text _ => "str"
  | list _ => "list"
  | record _ => "dict"

def truth : Raw → Bool
  | null => false
  | bool b => b
  | int n => n ≠ 0
  | float x => !Scalar.isZero x
  | text s => s ≠ ""
  | list xs => !xs.isEmpty
  | record keys => !keys.isEmpty

def toNumber : Raw → Except Failure Double
  | null => .ok Double.nan
  | bool b => .ok (if b then 1 else 0)
  | int n => match Double.ofInt? n with
    | some x => .ok x
    | none => .error .numberTooLarge
  | float x => .ok x
  | text s => match Text.readNumeral s with
    | some n => .ok (Double.ofNumeral n)
    | none => .error .unreadableNumber
  | list _ | record _ => .error .notNumeric

def commonShape : List (Except Failure (List Nat)) → Except Failure (List Nat)
  | [] => .ok []
  | s :: ss => do
    let first ← s
    for t in ss do
      if (← t) ≠ first then throw .ragged
    return first

def shape : Raw → Except Failure (List Nat)
  | list xs => do return xs.length :: (← commonShape (xs.attach.map fun ⟨x, _⟩ => x.shape))
  | _ => .ok []

def leaves : Raw → List Raw
  | list xs => xs.attach.flatMap fun ⟨x, _⟩ => x.leaves
  | x => [x]

def arrangement (r : Raw) : Except Failure (List Nat) := do
  let shape ← r.shape
  if Tensor.maxDepth < shape.length then throw .tooDeep
  return shape

def toTensor (r : Raw) : Except Failure (Tensor Double) := do
  let shape ← r.arrangement
  return ⟨shape, (← r.leaves.mapM toNumber).toArray⟩

/-- The number as which a value is compared with zero. Whole numbers may be of any size, since all
beyond the doubles compare alike, and what is no number does not compare. -/
def toComparable : Raw → Except Failure Double
  | bool b => .ok (if b then 1 else 0)
  | int n => .ok (Double.ofDecimal (n < 0) n.natAbs 0)
  | float x => .ok x
  | null | text _ | list _ | record _ => .error .notNumeric

def toSign (r : Raw) : Except Failure Sign := do
  let _ ← r.arrangement
  return .ofEntries (← r.leaves.mapM toComparable).toArray

def toFactor : Raw → Except Failure Double
  | null => .error .notNumeric
  | r => r.toNumber

def toDimension : Raw → Except Failure Int
  | bool b => .ok (if b then 1 else 0)
  | int n => .ok n
  | float x =>
    if x.isNaN then .error .unreadableNumber
    else if x.toFloat.isInf then .error .numberTooLarge
    else .ok (Double.truncate x)
  | text s => match Text.readInt s with
    | some n => .ok n
    | none => .error .unreadableNumber
  | null | list _ | record _ => .error .notNumeric

def toShape : Raw → Except Failure (List Int)
  | bool b => .ok [if b then 1 else 0]
  | int n => .ok [n]
  | text s => s.toList.mapM fun c => toDimension (text (String.singleton c))
  | list xs => xs.mapM toDimension
  | record keys => keys.mapM fun k => toDimension (text k)
  | null | float _ => .error .notNumeric

def toSize (r : Raw) : Except Failure Size := do Size.ofShape (← r.toShape)

end Raw

end DisciplinedConvex
