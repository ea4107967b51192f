import DisciplinedConvex.Identity
import Mathlib.Algebra.Order.Field.Rat

namespace DisciplinedConvex

/-- Numbers of an ordered field that are tested without error and are all finite. -/
class ExactScalar (α : Type) [Field α] [LinearOrder α] [Scalar α] : Prop where
  recip_eq (a : α) : Scalar.recip a = a⁻¹
  isZero_iff (a : α) : Scalar.isZero a = true ↔ a = 0
  isNonneg_iff (a : α) : Scalar.isNonneg a = true ↔ 0 ≤ a
  isNonpos_iff (a : α) : Scalar.isNonpos a = true ↔ a ≤ 0
  isFinite_eq (a : α) : Scalar.isFinite a = true

attribute [simp] ExactScalar.isZero_iff ExactScalar.isNonneg_iff ExactScalar.isNonpos_iff
  ExactScalar.isFinite_eq

instance : Scalar ℚ where
  recip a := a⁻¹
  isZero a := a == 0
  isNonneg a := decide (0 ≤ a)
  isNonpos a := decide (a ≤ 0)
  isFinite _ := true
  bytes a := Identity.utf8 (toString a ++ ";")
  text a := toString a

instance : ExactScalar ℚ where
  recip_eq _ := rfl
  isZero_iff _ := beq_iff_eq
  isNonneg_iff _ := decide_eq_true_iff
  isNonpos_iff _ := decide_eq_true_iff
  isFinite_eq _ := rfl

end DisciplinedConvex
