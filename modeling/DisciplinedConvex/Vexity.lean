import DisciplinedConvex.Monotonicity

namespace DisciplinedConvex

inductive Vexity where
  | constant
  | affine
  | convex
  | concave
  | notDcp
  deriving DecidableEq, Repr

namespace Vexity

def all : List Vexity := [constant, affine, convex, concave, notDcp]

def name : Vexity → String
  | constant => "constant"
  | affine => "affine"
  | convex => "convex"
  | concave => "concave"
  | notDcp => "not_dcp"

def ofName? (s : String) : Option Vexity := all.find? (·.name == s)

def negate : Vexity → Vexity
  | convex => concave
  | concave => convex
  | v => v

instance : Neg Vexity := ⟨negate⟩

/-- The curvature that an argument of curvature `v` contributes through an operation of monotonicity
`m` in it: a nonmonotone operation admits affine and constant arguments only. -/
def through (m : Monotonicity) (v : Vexity) : Vexity :=
  match m with
  | .nondecreasing => v
  | .nonincreasing => -v
  | .constant => constant
  | .nonmonotone => if v = constant ∨ v = affine then v else notDcp

instance : HMul Monotonicity Vexity Vexity := ⟨through⟩

/-- The least curvature above both: `constant` below `affine` below `convex` and `concave`, and
`notDcp` above all. -/
def join : Vexity → Vexity → Vexity
  | notDcp, _ | _, notDcp => notDcp
  | constant, v | v, constant => v
  | affine, v | v, affine => v
  | v, w => if v = w then v else notDcp

instance : Add Vexity := ⟨join⟩

theorem constant_add (v : Vexity) : constant + v = v := by
  cases v <;> rfl

theorem add_constant (v : Vexity) : v + constant = v := by
  cases v <;> rfl

theorem notDcp_add (v : Vexity) : notDcp + v = notDcp := by
  cases v <;> rfl

theorem ne_constant_of_add {v : Vexity} (hv : v ≠ constant) (w : Vexity) : v + w ≠ constant := by
  cases v <;> cases w <;> first | exact absurd rfl hv | decide

theorem mul_constant (m : Monotonicity) : m * constant = constant := by
  cases m <;> rfl

end Vexity

end DisciplinedConvex
