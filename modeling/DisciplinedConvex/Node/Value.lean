import DisciplinedConvex.Extent
import DisciplinedConvex.Node

namespace DisciplinedConvex

variable {α : Type}

abbrev Assignment (α : Type) : Type := String → Option (Except Failure (Tensor α))

namespace Unknown

/-- Arranges as many numbers as the unknown has entries in its rows and columns. They are taken, and
laid down, with the first index moving fastest. -/
def coerce [Zero α] (u : Unknown) (t : Tensor α) : Except Failure (Dense α) :=
  if hc : (t.entries.size : Int) = u.size.count then
    if hd : 0 ≤ u.size.rows ∧ 0 ≤ u.size.cols then
      if Extent.fits u.size.rows.toNat u.size.cols.toNat then .ok
        { rows := u.size.rows.toNat
          cols := u.size.cols.toNat
          vec := t.columnMajor
          size_vec := by
            rw [t.size_columnMajor]
            obtain ⟨r, hr⟩ := Int.eq_ofNat_of_zero_le hd.1
            obtain ⟨c, hc'⟩ := Int.eq_ofNat_of_zero_le hd.2
            rw [Size.count, hr, hc'] at hc
            rw [hr, hc']
            exact Int.ofNat.inj hc }
      else .error .arrayTooLarge
    else .error .negativeDimension
  else .error (.wrongCount u.name t.entries.size u.size)

def valueIn [Zero α] (u : Unknown) (values : Assignment α) : Except Failure (Dense α) :=
  match values u.id with
  | none => .error (.missingValue u.name)
  | some given => do u.coerce (← given)

end Unknown

namespace Node

variable [Zero α] [Add α] [Mul α]

def multiplyValues (left right : Size) (A B : Dense α) : Except Failure (Dense α) :=
  if left = .scalar then .ok (B.map (A.item * ·))
  else if right = .scalar then .ok (A.map (· * B.item))
  else if Extent.fits A.rows B.cols then .ok (A.mul B)
  else .error .arrayTooLarge

def evaluate (values : Assignment α) : Node α → Except Failure (Dense α)
  | constant c => .ok c.value
  | unknown u => u.valueIn values
  | product _ l r => do
    let A ← l.evaluate values
    let B ← r.evaluate values
    multiplyValues l.size r.size A B
  | weighted _ c x => do return c.value.hadamard (← x.evaluate values)
  | square _ x => do return (← x.evaluate values).map fun a => a * a
  | n@(bare ..) => .error (.noRule .value n.kind)

def constantValue (n : Node α) : Except Failure (Dense α) := n.evaluate fun _ => none

end Node

end DisciplinedConvex
