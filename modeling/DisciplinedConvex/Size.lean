namespace DisciplinedConvex

def shapeText : List Int → String
  | [d] => "(" ++ toString d ++ ",)"
  | ds => "(" ++ String.intercalate ", " (ds.map toString) ++ ")"

/-- The rows and columns of an expression. Declared sizes are taken as they are, so that an unknown
may have a negative number of rows or columns until it is given a value or compiled. -/
structure Size where
  rows : Int
  cols : Int
  deriving DecidableEq, Repr

namespace Size

def scalar : Size := ⟨1, 1⟩

def count (s : Size) : Int := s.rows * s.cols

def product? (left right : Size) : Option Size :=
  if left = scalar then some right
  else if right = scalar then some left
  else if left.cols = right.rows then some ⟨left.rows, right.cols⟩
  else none

theorem product?_comm {left right : Size} (h : left = scalar ∨ right = scalar) :
    left.product? right = right.product? left := by
  unfold product?
  by_cases hl : left = scalar
  · by_cases hr : right = scalar
    · simp [hl, hr]
    · simp [hl, hr]
  · simp [hl, h.resolve_left hl]

theorem product?_of_ne_scalar {left right s : Size} (hl : left ≠ scalar) (hr : right ≠ scalar)
    (h : left.product? right = some s) : left.cols = right.rows ∧ s = ⟨left.rows, right.cols⟩ := by
  rw [product?, if_neg hl, if_neg hr] at h
  split at h
  · next hinner => exact ⟨hinner, (Option.some.inj h).symm⟩
  · cases h

def text (s : Size) : String := shapeText [s.rows, s.cols]

end Size

end DisciplinedConvex
