import DisciplinedConvex.Node
import DisciplinedConvex.Vexity

namespace DisciplinedConvex.Node

variable {α : Type} [Scalar α]

def squareSign (s : Sign) : Sign := if s = .zero then .zero else .positive

def sign : Node α → Sign
  | constant c => .ofEntries c.value.vec
  | unknown u => u.sign
  | product _ l r => l.sign * r.sign
  | weighted _ c x => .ofEntries c.value.vec * x.sign
  | square _ x => squareSign x.sign
  | bare .. => .indeterminate

def compose (own : Vexity) (args : List (Monotonicity × Vexity)) : Vexity :=
  if !args.isEmpty && args.all (·.2 = .constant) then .constant
  else args.foldl (fun v (m, w) => v + m * w) own

/-- The curvature that the composition rules certify, read off the unfolded tree. A product is
certified only if one factor is constant, and then it is monotone in the other one according to the
sign of the constant. -/
def vexity : Node α → Vexity
  | constant _ => .constant
  | unknown _ => .affine
  | product _ l r =>
    compose (if l.vexity ≠ .constant ∧ r.vexity ≠ .constant then .notDcp else .constant)
      [(r.sign * Monotonicity.nondecreasing, l.vexity),
        (l.sign * Monotonicity.nondecreasing, r.vexity)]
  | weighted _ c x =>
    compose (if x.vexity = .constant then .constant else .affine)
      [(x.sign * Monotonicity.nondecreasing, .constant),
        (Sign.ofEntries c.value.vec * Monotonicity.nondecreasing, x.vexity)]
  | square _ x => compose .convex [(x.sign * Monotonicity.nondecreasing, x.vexity)]
  | bare _ _ n args => if 0 < n ∧ ∀ i, (args i).vexity = .constant then .constant else .notDcp

end DisciplinedConvex.Node
