namespace DisciplinedConvex

inductive Sign where
  | positive
  | negative
  | zero
  | indeterminate
  deriving DecidableEq, Repr

namespace Sign

def all : List Sign := [positive, negative, zero, indeterminate]

def name : Sign → String
  | positive => "positive"
  | negative => "negative"
  | zero => "zero"
  | indeterminate => "indeterminate"

def ofName? (s : String) : Option Sign := all.find? (·.name == s)

def isNonneg : Sign → Bool
  | positive | zero => true
  | negative | indeterminate => false

def isNonpos : Sign → Bool
  | negative | zero => true
  | positive | indeterminate => false

def negate : Sign → Sign
  | positive => negative
  | negative => positive
  | s => s

instance : Neg Sign := ⟨negate⟩

def times : Sign → Sign → Sign
  | zero, _ | _, zero => zero
  | indeterminate, _ | _, indeterminate => indeterminate
  | s, t => if s = t then positive else negative

instance : Mul Sign := ⟨times⟩

theorem mul_comm (s t : Sign) : s * t = t * s := by
  cases s <;> cases t <;> rfl

theorem positive_mul (s : Sign) : positive * s = s := by
  cases s <;> rfl

end Sign

end DisciplinedConvex
