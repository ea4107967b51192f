namespace DisciplinedConvex

/-- Numbers in a rectangular arrangement of any depth, listed with the last index moving fastest. -/
structure Tensor (α : Type) where
  shape : List Nat
  entries : Array α

namespace Tensor

variable {α : Type}

def maxDepth : Nat := 64

def volume (shape : List Nat) : Nat := shape.foldr (· * ·) 1

def columnMajorIndex : List Nat → Nat → Nat
  | [], _ => 0
  | d :: ds, k => k % d * volume ds + columnMajorIndex ds (k / d)

def columnMajor [Zero α] (t : Tensor α) : Array α :=
  Array.ofFn fun k : Fin t.entries.size => t.entries.getD (columnMajorIndex t.shape k) 0

theorem size_columnMajor [Zero α] (t : Tensor α) : t.columnMajor.size = t.entries.size := by
  simp [columnMajor]

def vector (xs : Array α) : Tensor α := ⟨[xs.size], xs⟩

theorem columnMajor_vector [Zero α] (xs : Array α) : (vector xs).columnMajor = xs := by
  apply Array.ext
  · simp [columnMajor, vector]
  · intro k hk hk'
    simp [columnMajor, vector, columnMajorIndex, volume, Nat.mod_eq_of_lt hk', hk']

theorem mem_columnMajor [Zero α] {t : Tensor α} {a : α} (h : a ∈ t.columnMajor) :
    a = 0 ∨ a ∈ t.entries := by
  obtain ⟨k, hk, rfl⟩ := Array.mem_iff_getElem.mp h
  simp only [columnMajor, Array.getElem_ofFn, Array.getD_eq_getD_getElem?]
  by_cases hi : columnMajorIndex t.shape k < t.entries.size
  · rw [Array.getElem?_eq_getElem hi, Option.getD_some]
    exact .inr (Array.getElem_mem hi)
  · rw [Array.getElem?_eq_none (Nat.le_of_not_lt hi)]
    exact .inl rfl

end Tensor

end DisciplinedConvex
