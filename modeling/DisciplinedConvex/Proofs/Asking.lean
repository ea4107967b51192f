import DisciplinedConvex.Proofs.Exact
import DisciplinedConvex.Proofs.History

namespace DisciplinedConvex.Compilation

variable {α : Type} [Zero α] [One α] [Neg α] [Add α] [Mul α] [Scalar α]
variable {config : Config} {s : Compilation α} {ns : List (Node α)} {n : Node α}

/-- A question for a curvature goes unanswered only if a child is read that the walk has passed over
for its twin, and never if equal identities below the node are one object. -/
theorem Reached.askVexity_answers (h : Reached config s ns) (hn : n ∈ s.nodes ns) :
    ((n.askVexity s.workspace.verdicts).1 = .ok n.vexity ↔
        (Node.settle s.workspace.verdicts.known n).isSome) ∧
      ((n.askVexity s.workspace.verdicts).1 = .error .unaskedChild ↔
        Node.settle s.workspace.verdicts.known n = none) ∧
      ((∀ a ∈ n.preorder, ∀ b ∈ n.preorder, a.id = b.id → a = b) →
        (n.askVexity s.workspace.verdicts).1 = .ok n.vexity) := by
  refine ⟨?_, ?_, h.askVexity_of_objects hn⟩
  · rw [h.askVexity_eq hn]
    cases Node.settle s.workspace.verdicts.known n <;> simp
  · rw [h.askVexity_eq hn]
    cases Node.settle s.workspace.verdicts.known n <;> simp

def two (ref : Nat) : Node ℚ :=
  .constant ⟨ref, Identity.ofConstant [1, 1] (Constant.listing (Dense.scalar (2 : ℚ))), .scalar 2⟩

def four (left right : Nat) : Node ℚ :=
  .product ⟨2, .scalar, Identity.ofOperation "*" [(two left).id, (two right).id]⟩
    (two left) (two right)

theorem four_id_ne (left right : Nat) : (four left right).id ≠ (two 0).id := by
  change (four 0 0).id ≠ (two 0).id
  decide +kernel

theorem reached_twos : Reached {} (untouched 2 0) [two 1, two 0] :=
  (Reached.start.step (.constant (.scalar (2 : ℚ))) nofun).step (.constant (.scalar (2 : ℚ))) nofun

theorem reached_four_shared :
    Reached {} (untouched 3 0) ((four 0 0).preorder ++ [two 1, two 0]) :=
  reached_twos.step (.product (two 0) (two 0)) (by simp [Request.operands, nodes])

theorem reached_four_twins :
    Reached {} (untouched 3 0) ((four 0 1).preorder ++ [two 1, two 0]) :=
  reached_twos.step (.product (two 0) (two 1)) (by simp [Request.operands, nodes])

theorem four_shared_answers : ((four 0 0).askVexity .empty).1 = .ok .constant := by
  have hids := four_id_ne 0 0
  refine (reached_four_shared.askVexity_answers ?_).2.2 ?_
  · exact List.mem_append_right _ (List.mem_append_left _ (Node.self_mem_preorder _))
  · intro a ha b hb he
    have hmem (m : Node ℚ) (hm : m ∈ (four 0 0).preorder) : m = four 0 0 ∨ m = two 0 := by
      simpa [four, two, Node.preorder] using hm
    rcases hmem a ha with rfl | rfl <;> rcases hmem b hb with rfl | rfl
    · rfl
    · exact absurd he hids
    · exact absurd he.symm hids
    · rfl

theorem four_twins_settle : Node.settle Verdicts.empty.known (four 0 1) = none := by
  have hids := four_id_ne 0 1
  have hknown (r : Nat) : Verdicts.empty.known r = false := by simp [Verdicts.known, Verdicts.empty]
  have horder : (Node.postOrder (fun m => Verdicts.empty.known m.ref) (four 0 1)).order =
      [two 0, four 0 1] := by
    have htwo : (two 1).id = (two 0).id := rfl
    have hleaf : (two 0).children = [] := rfl
    rw [Node.postOrder_eq_visit, Node.visit_eq, if_neg (by simp [Node.Walk.empty]),
      if_neg (by simp [hknown])]
    change ((Node.visit _ (two 1) (Node.visit _ (two 0) _)).leave (four 0 1)).order = _
    rw [Node.visit_eq _ (two 0), if_neg (by simp [Node.Walk.empty, Node.Walk.meet, hids]),
      if_neg (by simp [hknown]), Node.visit_eq _ (two 1),
      if_pos (by simp [Node.Walk.meet, Node.Walk.leave, hleaf, htwo])]
    rfl
  rw [Node.settle_eq, horder, if_neg (by simp [hknown])]
  have hasked : (four 0 1).asked = [two 0] := by
    simp [four, two, Node.asked, Node.vexity]
  have hchildren : (four 0 1).children = [two 0, two 1] := rfl
  rw [List.foldlM_cons, Node.turn, Node.plan_of_known (n := two 0) fun c hc => by cases hc]
  change List.foldlM Node.turn (fun r => decide (0 = r) || Verdicts.empty.known r) [four 0 1] = none
  rw [List.foldlM_cons, Node.turn, Node.plan, hasked,
    Node.foldlM_settle_of_known _ (by simp [two, Node.ref]),
    hchildren]
  simp [two, Node.ref, hknown]

/-- Two equal numbers built apart leave their product without a curvature: the walk enters the first
alone, and the product reads the second. -/
theorem four_twins_unanswered :
    Reached {} (untouched 3 0) ((four 0 1).preorder ++ [two 1, two 0]) ∧
      (four 0 1).vexity = .constant ∧
      ((four 0 1).askVexity (untouched (α := ℚ) 3 0).workspace.verdicts).1 =
        .error .unaskedChild := by
  refine ⟨reached_four_twins, rfl, ?_⟩
  rw [reached_four_twins.askVexity_eq
    (List.mem_append_right _ (List.mem_append_left _ (Node.self_mem_preorder _)))]
  have hsettle : Node.settle (untouched (α := ℚ) 3 0).workspace.verdicts.known (four 0 1) = none :=
    four_twins_settle
  rw [hsettle]
  rfl

end DisciplinedConvex.Compilation
