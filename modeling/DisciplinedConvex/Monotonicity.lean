import DisciplinedConvex.Sign

namespace DisciplinedConvex

inductive Monotonicity where
  | nondecreasing
  | nonincreasing
  | constant
  | nonmonotone
  deriving DecidableEq, Repr

namespace Monotonicity

def all : List Monotonicity := [nondecreasing, nonincreasing, constant, nonmonotone]

def name : Monotonicity → String
  | nondecreasing => "nondecreasing"
  | nonincreasing => "nonincreasing"
  | constant => "constant"
  | nonmonotone => "nonmonotone"

def ofName? (s : String) : Option Monotonicity := all.find? (·.name == s)

def negate : Monotonicity → Monotonicity
  | nondecreasing => nonincreasing
  | nonincreasing => nondecreasing
  | m => m

instance : Neg Monotonicity := ⟨negate⟩

/-- The monotonicity of `c * f` for a factor `c` of the given sign: a nonnegative factor keeps it, a
nonpositive one reverses it, and only a constant survives a factor of unknown sign. -/
def scale (s : Sign) (m : Monotonicity) : Monotonicity :=
  if m = constant then constant
  else if s.isNonneg then m
  else if s.isNonpos then -m
  else nonmonotone

instance : HMul Sign Monotonicity Monotonicity := ⟨scale⟩

end Monotonicity

end DisciplinedConvex
