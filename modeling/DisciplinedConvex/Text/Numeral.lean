namespace DisciplinedConvex.Text

def isBlank (c : Char) : Bool :=
  let n := c.toNat
  (9 ≤ n && n ≤ 13) || n = 32 || n = 0x85 || n = 0xa0 || n = 0x1680 || (0x2000 ≤ n && n ≤ 0x200a) ||
    n = 0x2028 || n = 0x2029 || n = 0x202f || n = 0x205f || n = 0x3000

/-- The zeros of the decimal digits of Unicode 14, each followed by its nine successors. -/
def digitZeros : List Nat :=
  [0x30, 0x660, 0x6f0, 0x7c0, 0x966, 0x9e6, 0xa66, 0xae6, 0xb66, 0xbe6, 0xc66, 0xce6, 0xd66, 0xde6,
    0xe50, 0xed0, 0xf20, 0x1040, 0x1090, 0x17e0, 0x1810, 0x1946, 0x19d0, 0x1a80, 0x1a90, 0x1b50,
    0x1bb0, 0x1c40, 0x1c50, 0xa620, 0xa8d0, 0xa900, 0xa9d0, 0xa9f0, 0xaa50, 0xabf0, 0xff10, 0x104a0,
    0x10d30, 0x11066, 0x110f0, 0x11136, 0x111d0, 0x112f0, 0x11450, 0x114d0, 0x11650, 0x116c0,
    0x11730, 0x118e0, 0x11950, 0x11c50, 0x11d50, 0x11da0, 0x16a60, 0x16ac0, 0x16b50, 0x1d7ce,
    0x1d7d8, 0x1d7e2, 0x1d7ec, 0x1d7f6, 0x1e140, 0x1e2f0, 0x1e950, 0x1fbf0]

def digit? (c : Char) : Option Nat :=
  (digitZeros.find? fun z => z ≤ c.toNat && c.toNat ≤ z + 9).map (c.toNat - ·)

def strip (cs : List Char) : List Char :=
  ((cs.dropWhile isBlank).reverse.dropWhile isBlank).reverse

def splitSign : List Char → Bool × List Char
  | '-' :: cs => (true, cs)
  | '+' :: cs => (false, cs)
  | cs => (false, cs)

def joinDigits : List Char → Option (List Char)
  | [] => some []
  | '_' :: _ => none
  | [c] => some [c]
  | c :: '_' :: d :: cs =>
    if (digit? c).isSome ∧ (digit? d).isSome then (joinDigits (d :: cs)).map (c :: ·) else none
  | c :: d :: cs => (joinDigits (d :: cs)).map (c :: ·)

def takeDigits : List Char → List Nat × List Char
  | [] => ([], [])
  | c :: cs =>
    match digit? c with
    | some d => let (ds, rest) := takeDigits cs; (d :: ds, rest)
    | none => ([], c :: cs)

def ofDigits (ds : List Nat) : Nat := ds.foldl (fun n d => 10 * n + d) 0

/-- Longer texts are not read as whole numbers, and none are written. Leading zeros count. -/
def maxDigits : Nat := 4300

def writeInt? (n : Int) : Option String :=
  if (toString n.natAbs).length ≤ maxDigits then some (toString n) else none

def readInt (s : String) : Option Int := do
  let (negative, body) := splitSign (strip s.toList)
  let (digits, rest) := takeDigits (← joinDigits body)
  guard (!digits.isEmpty && rest.isEmpty && digits.length ≤ maxDigits)
  return if negative then -(ofDigits digits : Int) else ofDigits digits

inductive Numeral where
  | decimal (negative : Bool) (digits : Nat) (exponent : Int)
  | infinity (negative : Bool)
  | notANumber (negative : Bool)

def readExponent : List Char → Option Int
  | [] => some 0
  | e :: cs => do
    guard (e = 'e' || e = 'E')
    let (negative, body) := splitSign cs
    let (digits, rest) := takeDigits body
    guard (!digits.isEmpty && rest.isEmpty)
    return if negative then -(ofDigits digits : Int) else ofDigits digits

def readNumeral (s : String) : Option Numeral := do
  let (negative, body) := splitSign (← joinDigits (strip s.toList))
  let word := String.ofList (body.map Char.toLower)
  if word == "inf" || word == "infinity" then return .infinity negative
  if word == "nan" then return .notANumber negative
  let (whole, rest) := takeDigits body
  let (places, rest) := match rest with
    | '.' :: cs => takeDigits cs
    | cs => ([], cs)
  guard (!whole.isEmpty || !places.isEmpty)
  let exponent ← readExponent rest
  return .decimal negative (ofDigits (whole ++ places)) (exponent - (places.length : Int))

end DisciplinedConvex.Text
