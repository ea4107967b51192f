import DisciplinedConvex.Proofs.Curvature
import DisciplinedConvex.Proofs.Judgement

namespace DisciplinedConvex.Node

variable {α : Type} {n : Node α}

def Ground (n : Node α) : Prop := ∀ u, .unknown u ∉ n.preorder

theorem Ground.child {c : Node α} (h : n.Ground) (hc : c ∈ n.children) : c.Ground :=
  fun u hu => h u (mem_preorder_of_child hc hu)

theorem ground_constant (c : Constant α) : (constant c).Ground := by
  simp [Ground, preorder]

section Composition

variable [Scalar α]

theorem vexity_eq_constant_iff (hn : n.Formed) : n.vexity = .constant ↔ n.Ground := by
  constructor
  · exact not_unknown_below hn
  · intro h
    induction n using children_induction with
    | step n ih =>
      have hchildren : ∀ c ∈ n.children, c.vexity = .constant :=
        fun c hc => ih c hc (hn.child hc) (h.child hc)
      cases n with
      | constant c => rfl
      | unknown u => exact absurd (self_mem_preorder _) (h u)
      | product tag l r => exact vexity_of_children hn (by simp [children]) hchildren
      | weighted tag c x => exact vexity_of_children hn (by simp [children]) hchildren
      | square tag x => exact vexity_of_children hn (by simp [children]) hchildren
      | bare => exact hn.elim

end Composition

section Values

variable [Zero α] [Add α] [Mul α] {values p q : Assignment α} {A : Dense α}

theorem evaluate_congr (h : ∀ u, .unknown u ∈ n.preorder → u.valueIn p = u.valueIn q) :
    n.evaluate p = n.evaluate q := by
  induction n with
  | constant c => rfl
  | unknown u => exact h u (self_mem_preorder _)
  | product tag l r hl hr =>
    rw [evaluate, evaluate, hl fun u hu => h u (mem_preorder_of_child (left_mem_children tag l r) hu),
      hr fun u hu => h u (mem_preorder_of_child (right_mem_children tag l r) hu)]
  | weighted tag c x hx =>
    rw [evaluate, evaluate,
      hx fun u hu => h u (mem_preorder_of_child (weighted_mem_children tag c x) hu)]
  | square tag x hx =>
    rw [evaluate, evaluate,
      hx fun u hu => h u (mem_preorder_of_child (square_mem_children tag x) hu)]
  | bare => rfl

theorem Ground.evaluate_eq (h : n.Ground) (values : Assignment α) :
    n.evaluate values = n.constantValue :=
  evaluate_congr fun u hu => absurd hu (h u)

theorem valueIn_of_evaluate {u : Unknown} (h : n.evaluate values = .ok A)
    (hu : .unknown u ∈ n.preorder) : ∃ B, u.valueIn values = .ok B := by
  induction n generalizing A with
  | constant c => simp [preorder] at hu
  | unknown v =>
    obtain rfl : u = v := by simpa [preorder] using hu
    exact ⟨A, h⟩
  | product tag l r hl hr =>
    obtain ⟨B, hB, h⟩ := bind_eq_ok h
    obtain ⟨C, hC, -⟩ := bind_eq_ok h
    have hu : .unknown u ∈ l.preorder ∨ .unknown u ∈ r.preorder := by simpa [preorder] using hu
    rcases hu with hu | hu
    · exact hl hB hu
    · exact hr hC hu
  | weighted tag c x hx =>
    obtain ⟨B, hB, -⟩ := bind_eq_ok h
    exact hx hB (by simpa [preorder] using hu)
  | square tag x hx =>
    obtain ⟨B, hB, -⟩ := bind_eq_ok h
    exact hx hB (by simpa [preorder] using hu)
  | bare => cases h

theorem ground_of_constantValue (h : n.constantValue = .ok A) : n.Ground := by
  intro u hu
  obtain ⟨B, hB⟩ := valueIn_of_evaluate h hu
  cases hB

theorem evaluate_of_constantValue (h : n.constantValue = .ok A) (values : Assignment α) :
    n.evaluate values = .ok A := by
  rw [(ground_of_constantValue h).evaluate_eq, h]

theorem Ground.constantValue_error {f : Failure} (h : n.Ground) (hn : n.Formed)
    (he : n.constantValue = .error f) : f = .arrayTooLarge ∧ ¬n.Fits := by
  rcases error_of_evaluate hn he with ⟨u, hu, -⟩ | hlarge
  · exact absurd hu (h u)
  · exact hlarge

end Values

end DisciplinedConvex.Node
