import DisciplinedConvex.Extent
import DisciplinedConvex.Node.Value

namespace DisciplinedConvex

inductive Holder where
  | unknown (u : Unknown)
  | other (id : String) (size : Size)
  deriving DecidableEq

namespace Holder

def id : Holder → String
  | unknown u => u.id
  | other id _ => id

def size : Holder → Size
  | unknown u => u.size
  | other _ size => size

def name : Holder → Except Failure String
  | unknown u => .ok u.name
  | other .. => .error .nameless

end Holder

def Node.holder {α : Type} : Node α → Holder
  | .unknown u => .unknown u
  | n => .other n.id n.size

structure Slot where
  holder : Holder
  start : Int
  deriving DecidableEq

namespace Slot

def stop (s : Slot) : Int := s.start + s.holder.size.count

def length (s : Slot) : Nat := (s.stop - s.start).toNat

def text (s : Slot) : Except Failure String := do
  let name ← s.holder.name
  match Text.writeInt? s.start, Text.writeInt? s.stop with
  | some start, some stop => return name ++ "[" ++ start ++ ":" ++ stop ++ "]"
  | _, _ => throw .numberTooLong

end Slot

/-- The stacked vector of all unknowns: one slot for each identity, in the order of registration. -/
structure Layout where
  slots : Array Slot
  deriving DecidableEq

namespace Layout

def empty : Layout := ⟨#[]⟩

def size (L : Layout) : Int :=
  match L.slots.back? with
  | none => 0
  | some s => s.stop

def find? (L : Layout) (id : String) : Option Slot := L.slots.find? (·.holder.id == id)

def contains (L : Layout) (id : String) : Bool := (L.find? id).isSome

def register (L : Layout) (h : Holder) : Layout :=
  if L.contains h.id then L else ⟨L.slots.push ⟨h, L.size⟩⟩

def ofList (hs : List Holder) : Layout := hs.foldl register empty

def slotOf (L : Layout) (h : Holder) : Except Failure Slot :=
  match L.find? h.id with
  | some s => .ok s
  | none => do throw (.unplaced (← h.name))

theorem register_of_contains {L : Layout} {h : Holder} (hc : L.contains h.id = true) :
    L.register h = L := by
  simp [register, hc]

theorem contains_register (L : Layout) (h : Holder) : (L.register h).contains h.id = true := by
  cases hc : L.contains h.id with
  | true => rw [register_of_contains hc, hc]
  | false =>
    rw [register, if_neg (by simp [hc])]
    simp [contains, find?]

theorem find?_register {L : Layout} {id : String} {slot : Slot} (h : Holder)
    (hs : L.find? id = some slot) : (L.register h).find? id = some slot := by
  by_cases hc : L.contains h.id
  · rwa [register_of_contains hc]
  · rw [register, if_neg hc, find?, Array.find?_push, ← find?, hs]
    rfl

theorem size_register {L : Layout} {h : Holder} (hc : L.contains h.id = false) :
    (L.register h).size = L.size + h.size.count := by
  simp [register, hc, size, Slot.stop]

def writeSlot {α : Type} [Zero α] (values : Assignment α) (length : Nat) (written : Array α)
    (s : Slot) : Except Failure (Array α) := do
  match s.holder with
  | .other .. => throw .nameless
  | .unknown u =>
    let A ← u.valueIn values
    if 1 < A.vec.size && length < written.size + A.vec.size then throw .misfit
    return written ++ A.vec

def stack {α : Type} [Zero α] (L : Layout) (values : Assignment α) : Except Failure (Array α) := do
  let length ← Extent.vector L.size
  L.slots.foldlM (writeSlot values length) #[]

def text (L : Layout) : Except Failure String := do
  return "StackedUnknowns(" ++ String.intercalate ", " (← L.slots.toList.mapM Slot.text) ++ ")"

end Layout

end DisciplinedConvex
