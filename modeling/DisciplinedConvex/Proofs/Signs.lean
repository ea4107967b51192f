import DisciplinedConvex.Proofs.Convexity

namespace DisciplinedConvex

variable {α : Type} [Field α] [LinearOrder α]

theorem Dense.Holds.admits {A : Dense α} {s : Size} {f : Nat → Nat → α} {σ : Sign}
    (hA : A.Holds s f) (h : ∀ i < s.height, ∀ j < s.width, σ.Admits (f i j)) :
    ∀ a ∈ A.vec, σ.Admits a := by
  intro a ha
  obtain ⟨k, hk, rfl⟩ := Array.mem_iff_getElem.mp ha
  obtain ⟨hi, hj, he⟩ := index_split (A.size_vec ▸ hk)
  have hi' : k % A.rows < s.height := hi.trans_eq (rows_eq hA.size)
  have hj' : k / A.rows < s.width := hj.trans_eq (cols_eq hA.size)
  have hentry : A.vec[k] = A.entry (k % A.rows) (k / A.rows) := by
    rw [← A.getD_vec hi, he]
    simp [hk]
  rw [hentry, hA.entry _ hi' _ hj']
  exact h _ hi' _ hj'

variable [IsStrictOrderedRing α]

namespace Node

variable [Scalar α] [ExactScalar α]

theorem evaluate_admits {n : Node α} {values : Assignment α} {A : Dense α} (hn : n.Formed)
    (hs : n.Sized) (hv : n.Covered values) (hr : ∀ u, .unknown u ∈ n.preorder → values.Respects u)
    (hA : n.evaluate values = .ok A) : ∀ a ∈ A.vec, n.sign.Admits a :=
  (evaluate_holds hn hA).admits <| sign_admits hn fun u hu _ hi _ _ =>
    (hr u hu).admits (hv u hu) (hs _ hu) hi

end Node

namespace Compilation

variable [Scalar α] [ExactScalar α]
variable {config : Config} {s : Compilation α} {ns : List (Node α)} {n : Node α}

/-- A question for a sign is answered with the sign of the unfolded tree, whatever was asked before,
and that sign holds of every entry of a value at which the unknowns keep to theirs. -/
theorem Reached.askSign_sound (h : Reached config s ns) (hn : n ∈ s.nodes ns) (hs : n.Sized) :
    (n.askSign s.workspace.verdicts).1 = .ok n.sign ∧
      ∀ values, n.Covered values → (∀ u, .unknown u ∈ n.preorder → values.Respects u) →
        (∃ A, n.evaluate values = .ok A ∧ A.size = n.size ∧ ∀ a ∈ A.vec, n.sign.Admits a) ∨
          (¬n.Fits ∧ n.evaluate values = .error .arrayTooLarge) := by
  have hform := h.sound.family.formed n hn
  refine ⟨(Node.askSign_ends h.sound.family hn h.sound.judges).answer, fun values hv hr => ?_⟩
  cases hA : n.evaluate values with
  | ok A =>
    exact .inl ⟨A, rfl, Node.evaluate_size hform hA, Node.evaluate_admits hform hs hv hr hA⟩
  | error e =>
    obtain ⟨rfl, hfit⟩ := Node.evaluate_error hform hs hv hA
    exact .inr ⟨hfit, rfl⟩

theorem area_sign_nonneg :
    (area.askSign (untouched (α := ℚ) 2 1).workspace.verdicts).1 = .ok .positive ∧
      ∃ A, area.evaluate (sideIs (-3)) = .ok A ∧ ∀ a ∈ A.vec, 0 ≤ a := by
  obtain ⟨hanswer, hsound⟩ := reached_area.askSign_sound (area_mem _) area_sized
  refine ⟨hanswer, ?_⟩
  rcases hsound (sideIs (-3)) (fun u hu => unknown_mem_area hu ▸ gives_sideIs _)
    (fun u hu => unknown_mem_area hu ▸ fun _ _ _ _ => trivial) with ⟨A, hA, -, h⟩ | h
  · exact ⟨A, hA, h⟩
  · exact absurd area_fits h.1

end Compilation

end DisciplinedConvex
