import DisciplinedConvex.Size
import DisciplinedConvex.Text.Numeral
import DisciplinedConvex.Text.Quoted

namespace DisciplinedConvex

inductive Rule where
  | sign
  | curvature
  | value
  | form
  | model
  deriving DecidableEq, Repr

inductive Failure where
  | tooManyDimensions (shape : List Int)
  | unmultipliable (left right : Size)
  | unequalSizes (left right : Size)
  | wrongCount (name : String) (count : Nat) (size : Size)
  | nonconstantProduct
  | nonconstantElementwise
  | nonconstantDivisor
  | notCompliant (shown : String)
  | missingValue (name : String)
  | unplaced (name : String)
  | nonfiniteForm (shown : String)
  | shrunkForm (cols : Nat) (requested : Int)
  | shortVector (count needed : Nat)
  | nonconstantWeight (kind : String)
  | noRule (rule : Rule) (kind : String)
  | uncached (id : String)
  | unaskedChild
  | nameless
  | ragged
  | tooDeep
  | unreadableNumber
  | notNumeric
  | numberTooLarge
  | negativeDimension
  | arrayTooLarge
  | numberTooLong
  | misfit
  | unknownName
  | unknownOption
  | wrongOperand
  deriving DecidableEq, Repr

namespace Failure

def message : Failure → Option String
  | tooManyDimensions shape =>
    some ("Expressions are at most two-dimensional, got shape " ++ shapeText shape)
  | unmultipliable left right =>
    some ("Cannot multiply two expressions of sizes " ++ left.text ++ " and " ++ right.text)
  | unequalSizes left right =>
    some ("Cannot dot multiply two expressions of sizes " ++ left.text ++ " and " ++ right.text)
  | wrongCount name count size =>
    some ("Value for variable " ++ Text.quoted name ++ " has " ++ toString count ++
      " entries, expected size " ++ size.text)
  | nonconstantProduct =>
    some "Multiplication of two non-constant expressions is not DCP compliant"
  | nonconstantElementwise =>
    some "Elementwise multiplication of two non-constant expressions is not DCP compliant"
  | nonconstantDivisor => some "Division by a non-constant expression is not DCP compliant"
  | notCompliant shown => some ("Expression " ++ shown ++ " is not DCP compliant")
  | missingValue name => some ("No value provided for variable " ++ Text.quoted name)
  | unplaced name => some ("Variable " ++ Text.quoted name ++ " has no slice assigned")
  | nonfiniteForm shown => some ("Conic form of " ++ shown ++ " contains non-finite values")
  | shrunkForm cols requested => do
    return "Cannot shrink conic form from " ++ toString cols ++ " to " ++
      (← Text.writeInt? requested) ++ " columns"
  | shortVector count needed =>
    some ("Stacked vector has " ++ toString count ++ " entries, conic form needs " ++
      toString needed)
  | nonconstantWeight kind => some ("DotMultiplyAtom requires a Constant factor, got " ++ kind)
  | noRule .sign kind => some ("sign() not implemented for " ++ kind)
  | noRule .curvature kind => some ("curvature() not implemented for " ++ kind)
  | noRule .value kind => some ("evaluate() not implemented for " ++ kind)
  | noRule .form kind => some ("Lowering not implemented for " ++ kind)
  | noRule .model kind => some ("'CvxpyLowerer' has no visitor for " ++ kind)
  | uncached id => some id
  | unaskedChild | nameless | ragged | tooDeep | unreadableNumber | notNumeric | numberTooLarge
  | negativeDimension | arrayTooLarge | numberTooLong | misfit | unknownName | unknownOption
  | wrongOperand => none

end Failure

end DisciplinedConvex
