import DisciplinedConvex.Failure

namespace DisciplinedConvex.Extent

/-- The doubles of an array fill fewer than `2 ^ 63` bytes. -/
def entryLimit : Nat := Nat.pow 2 60

/-- Columns of sparse rows are counted in 63 bits. -/
def columnLimit : Nat := Nat.pow 2 63

def reckoned (d : Nat) : Nat := if d = 0 then 1 else d

def fits (rows cols : Nat) : Bool := decide (reckoned rows * reckoned cols < entryLimit)

def vector (n : Int) : Except Failure Nat :=
  if n < 0 then .error .negativeDimension
  else if fits n.toNat 1 then .ok n.toNat
  else .error .arrayTooLarge

def columns (n : Int) : Except Failure Nat :=
  if n < 0 then .error .negativeDimension
  else if columnLimit ≤ n.toNat then .error .numberTooLarge
  else .ok n.toNat

def order (n : Int) : Except Failure Nat :=
  if n < -columnLimit then .error .numberTooLarge else vector n

def addressable (start stop : Int) : Bool := decide (-columnLimit ≤ start ∧ stop < 2 * columnLimit)

def levelsOverflow (depth : Int) : Bool :=
  decide (depth < -columnLimit) || decide ((columnLimit : Int) ≤ 2 * depth)

theorem fits_one (n : Nat) : fits n 1 = decide (n < entryLimit) := by
  have h : 1 < entryLimit := by decide
  have h1 : reckoned 1 = 1 := rfl
  rw [fits, h1, Nat.mul_one, decide_eq_decide, reckoned]
  split <;> omega

theorem vector_eq_ok_iff (n : Int) (k : Nat) : vector n = .ok k ↔ n = k ∧ k < entryLimit := by
  unfold vector
  split
  · simp only [reduceCtorEq, false_iff]
    omega
  · rw [fits_one]
    split
    · next h =>
      simp only [decide_eq_true_eq] at h
      simp only [Except.ok.injEq]
      omega
    · next h =>
      simp only [decide_eq_true_eq] at h
      simp only [reduceCtorEq, false_iff]
      omega

theorem columns_eq_ok_iff (n : Int) (k : Nat) : columns n = .ok k ↔ n = k ∧ k < columnLimit := by
  unfold columns
  split
  · simp only [reduceCtorEq, false_iff]
    omega
  · split
    · simp only [reduceCtorEq, false_iff]
      omega
    · simp only [Except.ok.injEq]
      omega

theorem eq_of_order {n : Int} {k : Nat} (h : order n = .ok k) : n = k := by
  unfold order at h
  split at h
  · cases h
  · exact ((vector_eq_ok_iff n k).mp h).1

end DisciplinedConvex.Extent
