import DisciplinedConvex.Scalar
import DisciplinedConvex.Text.Decimal
import DisciplinedConvex.Text.Numeral

namespace DisciplinedConvex

/-- A double is its 64 bits: zeros differ in sign, and what is not a number in sign and payload. -/
structure Double where
  bits : UInt64
  deriving DecidableEq

namespace Double

def toFloat (x : Double) : Float := .ofBits x.bits

def ofFloat (x : Float) : Double := ⟨x.toBits⟩

def infinity : Double := ⟨0x7ff0000000000000⟩

def nan : Double := ⟨0x7ff8000000000000⟩

def isNaN (x : Double) : Bool := x.toFloat.isNaN

def quiet (x : Double) : Double := ⟨x.bits ||| 0x0008000000000000⟩

instance : Zero Double := ⟨⟨0⟩⟩

instance : One Double := ⟨ofFloat 1⟩

instance : Neg Double := ⟨fun x => ⟨x.bits ^^^ 0x8000000000000000⟩⟩

instance : Inhabited Double := ⟨0⟩

/-- The first operand that is not a number is handed on. Two numbers without a result give the value
that is not a number and has its sign bit set. -/
def operate (op : Float → Float → Float) (x y : Double) : Double :=
  if x.isNaN then x.quiet
  else if y.isNaN then y.quiet
  else
    let z := op x.toFloat y.toFloat
    if z.isNaN then -nan else ofFloat z

instance : Add Double := ⟨operate (· + ·)⟩

instance : Mul Double := ⟨operate (· * ·)⟩

def littleEndian (count n : Nat) : List UInt8 :=
  (List.range count).map fun k => UInt8.ofNat (n / Nat.pow 256 k)

theorem littleEndian_length (count n : Nat) : (littleEndian count n).length = count := by
  simp [littleEndian]

def isNegative (x : Double) : Bool := decide (x.bits.toNat >>> 63 = 1)

def window (x : Double) : Text.Window :=
  let bits : Nat := x.bits.toNat
  let exponent : Nat := (bits >>> 52) % 2048
  let fraction : Nat := bits % Nat.pow 2 52
  if exponent = 0 then .ofBinary fraction (-1074) false
  else .ofBinary (Nat.pow 2 52 + fraction) ((exponent : Int) - 1075) (fraction = 0 && exponent ≠ 1)

def style : Text.DecimalStyle := ⟨-4, 16, 2⟩

def text (x : Double) : String :=
  if x.isNaN then "nan"
  else
    let magnitude :=
      if x.toFloat.isInf then "inf"
      else if x.toFloat == 0 then "0.0"
      else let (d, k) := (window x).shortest; style.render d k
    if isNegative x then "-" ++ magnitude else magnitude

def ofDecimal (negative : Bool) (digits : Nat) (exponent : Int) : Double :=
  let top := ((Nat.toDigits 10 digits).length : Int) + exponent
  let magnitude :=
    if digits = 0 ∨ top < -400 then 0
    else if 400 < top then infinity
    else ofFloat (Float.ofScientific digits (exponent < 0) exponent.natAbs)
  if negative then -magnitude else magnitude

def ofNumeral : Text.Numeral → Double
  | .decimal negative digits exponent => ofDecimal negative digits exponent
  | .infinity negative => if negative then -infinity else infinity
  | .notANumber negative => if negative then -nan else nan

def ofInt? (n : Int) : Option Double :=
  let x := ofDecimal (n < 0) n.natAbs 0
  if x.toFloat.isFinite then some x else none

def truncate (x : Double) : Int :=
  let w := window x
  let magnitude := w.value / w.unit
  if isNegative x then -(magnitude : Int) else magnitude

instance : Scalar Double where
  recip := operate (· / ·) 1
  isZero x := x.toFloat == 0
  isNonneg x := decide (0 ≤ x.toFloat)
  isNonpos x := decide (x.toFloat ≤ 0)
  isFinite x := x.toFloat.isFinite
  bytes x := littleEndian 8 x.bits.toNat
  text := text

end Double

end DisciplinedConvex
