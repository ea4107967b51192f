namespace DisciplinedConvex

/-- What expressions ask of their numbers beyond zero, one, negation, sum and product: the
reciprocal, the tests that signs and sparse rows are read off, and two written forms, one for
identities and one for display. -/
class Scalar (α : Type) where
  recip : α → α
  isZero : α → Bool
  isNonneg : α → Bool
  isNonpos : α → Bool
  isFinite : α → Bool
  bytes : α → List UInt8
  text : α → String

end DisciplinedConvex
