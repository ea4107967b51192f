namespace DisciplinedConvex.Text

/-- A positive number `value / unit` with the open or closed interval of the numbers that are read
back as it. -/
structure Window where
  low : Nat
  value : Nat
  high : Nat
  unit : Nat
  closed : Bool

namespace Window

def ofBinary (m : Nat) (q : Int) (powerOfTwo : Bool) : Window :=
  let scale := Nat.pow 2 (q - 2).toNat
  ⟨(4 * m - if powerOfTwo then 1 else 2) * scale, 4 * m * scale, (4 * m + 2) * scale,
    Nat.pow 2 (2 - q).toNat, m % 2 = 0⟩

def holds (w : Window) (d : Nat) (k : Int) : Bool :=
  let x := d * Nat.pow 10 k.toNat * w.unit
  let low := w.low * Nat.pow 10 (-k).toNat
  let high := w.high * Nat.pow 10 (-k).toNat
  (low < x && x < high) || (w.closed && (x = low || x = high))

def onGrid (w : Window) (k : Int) : Option Nat :=
  let n := w.value * Nat.pow 10 (-k).toNat
  let d := w.unit * Nat.pow 10 k.toNat
  let below := n / d
  match w.holds below k, w.holds (below + 1) k with
  | false, false => none
  | true, false => some below
  | false, true => some (below + 1)
  | true, true =>
    let twice := 2 * (n % d)
    if twice < d ∨ twice = d ∧ below % 2 = 0 then some below else some (below + 1)

def leading (w : Window) : Int :=
  if w.unit ≤ w.value then ((Nat.toDigits 10 (w.value / w.unit)).length : Int) - 1
  else
    let places := (Nat.toDigits 10 (w.unit / w.value)).length
    if w.unit ≤ w.value * Nat.pow 10 (places - 1) then 1 - (places : Int) else -(places : Int)

/-- The fewest decimal digits that are read back as the value, as `d · 10 ^ k`; seventeen always
suffice for a binary number of 53 bits. -/
def shortest (w : Window) : Nat × Int :=
  ((List.range 17).findSome? fun p : Nat =>
    let k := w.leading - (p : Int)
    (w.onGrid k).map (·, k)).getD (w.value / w.unit, 0)

end Window

structure DecimalStyle where
  plainFrom : Int
  plainBelow : Int
  exponentDigits : Nat

namespace DecimalStyle

def exponentText (style : DecimalStyle) (e : Int) : List Char :=
  let digits := Nat.toDigits 10 e.natAbs
  (if e < 0 then '-' else '+') ::
    List.replicate (style.exponentDigits - digits.length) '0' ++ digits

def render (style : DecimalStyle) (d : Nat) (k : Int) : String :=
  let all := Nat.toDigits 10 d
  let digits := (all.reverse.dropWhile (· = '0')).reverse
  let top := k + all.length - 1
  String.ofList <|
    if style.plainFrom ≤ top ∧ top < style.plainBelow then
      if top < 0 then '0' :: '.' :: List.replicate (-top - 1).toNat '0' ++ digits
      else
        let whole := (top + 1).toNat
        let rest := digits.drop whole
        digits.take whole ++ List.replicate (whole - digits.length) '0' ++
          '.' :: if rest.isEmpty then ['0'] else rest
    else
      digits.take 1 ++ (if digits.length ≤ 1 then [] else '.' :: digits.drop 1) ++
        'e' :: style.exponentText top

end DecimalStyle

end DisciplinedConvex.Text
