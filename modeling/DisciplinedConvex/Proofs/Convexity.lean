import DisciplinedConvex.Proofs.Curvature
import DisciplinedConvex.Proofs.History
import Mathlib.Algebra.BigOperators.Ring.Finset
import Mathlib.Tactic.Ring

namespace DisciplinedConvex

variable {α : Type} [Field α]

namespace Tensor

def mix (w : α) (s t : Tensor α) : Tensor α :=
  vector (Array.zipWith (fun a b => w * a + (1 - w) * b) s.columnMajor t.columnMajor)

theorem size_mix (w : α) {s t : Tensor α} (h : s.entries.size = t.entries.size) :
    (s.mix w t).entries.size = t.entries.size := by
  simp [mix, vector, size_columnMajor, h]

theorem getD_mix (w : α) {s t : Tensor α} (h : s.entries.size = t.entries.size) (k : Nat) :
    (s.mix w t).columnMajor.getD k 0 =
      w * s.columnMajor.getD k 0 + (1 - w) * t.columnMajor.getD k 0 := by
  rw [mix, columnMajor_vector]
  by_cases hk : k < t.entries.size
  · have hs : k < s.columnMajor.size := by rw [size_columnMajor, h]; exact hk
    have ht : k < t.columnMajor.size := by rw [size_columnMajor]; exact hk
    simp [hs, ht]
  · have hs : ¬k < s.columnMajor.size := by rw [size_columnMajor, h]; exact hk
    have ht : ¬k < t.columnMajor.size := by rw [size_columnMajor]; exact hk
    simp [hs, ht]

end Tensor

namespace Assignment

def mix (w : α) (p q : Assignment α) : Assignment α := fun id =>
  match p id, q id with
  | some (.ok s), some (.ok t) => some (.ok (s.mix w t))
  | _, _ => none

variable {p q : Assignment α} {u : Unknown} {w : α}

theorem Gives.mix (hp : p.Gives u) (hq : q.Gives u) : (p.mix w q).Gives u := by
  obtain ⟨s, hs, hcs⟩ := hp
  obtain ⟨t, ht, hct⟩ := hq
  refine ⟨s.mix w t, by rw [Assignment.mix, hs, ht], ?_⟩
  rw [s.size_mix w (Int.ofNat.inj (hcs.trans hct.symm)), hct]

theorem entries_mix (hp : p.Gives u) (hq : q.Gives u) (hu : u.size.Nonneg) {i j : Nat}
    (hi : i < u.size.height) :
    (p.mix w q).entries u i j = w * p.entries u i j + (1 - w) * q.entries u i j := by
  obtain ⟨s, hs, hcs⟩ := hp
  obtain ⟨t, ht, hct⟩ := hq
  have hsize : s.entries.size = t.entries.size := Int.ofNat.inj (hcs.trans hct.symm)
  have hm : (p.mix w q) u.id = some (.ok (s.mix w t)) := by rw [mix, hs, ht]
  rw [entries_of_given hm (by rw [s.size_mix w hsize, hct]) hu hi, entries_of_given hs hcs hu hi,
    entries_of_given ht hct hu hi]
  split
  · exact s.getD_mix w hsize _
  · simp

variable [LinearOrder α]

def Respects (values : Assignment α) (u : Unknown) : Prop :=
  ∀ t, values u.id = some (.ok t) → ∀ a ∈ t.entries, u.sign.Admits a

theorem Respects.admits (h : p.Respects u) (hp : p.Gives u) (hu : u.size.Nonneg) {i j : Nat}
    (hi : i < u.size.height) : u.sign.Admits (p.entries u i j) := by
  obtain ⟨t, ht, hc⟩ := hp
  rw [entries_of_given ht hc hu hi]
  split
  · by_cases hk : j * u.size.height + i < t.columnMajor.size
    · have hmem : t.columnMajor.getD (j * u.size.height + i) 0 ∈ t.columnMajor := by
        simp [hk]
      rcases Tensor.mem_columnMajor hmem with h0 | h0
      · rw [h0]
        exact Sign.admits_zero _
      · exact h t ht _ h0
    · rw [Array.getD, dif_neg hk]
      exact Sign.admits_zero _
  · exact Sign.admits_zero _

end Assignment

namespace Node

def mixed (w : α) (x y : Unknown → Nat → Nat → α) (n : Node α) (i j : Nat) : α :=
  w * n.entry x plain i j + (1 - w) * n.entry y plain i j

variable [LinearOrder α] [IsStrictOrderedRing α] [Scalar α]

theorem mixed_relaxes {n : Node α} {w : α} {x y z : Unknown → Nat → Nat → α} (hn : n.Formed)
    (h0 : 0 ≤ w) (h1 : w ≤ 1)
    (hz : ∀ u, .unknown u ∈ n.preorder → ∀ i < u.size.height, ∀ j < u.size.width,
      z u i j = w * x u i j + (1 - w) * y u i j) :
    Relaxes z (mixed w x y) n where
  unknowns := hz
  constants m hm hv i hi j hj := by
    have hform := hn.of_mem hm
    rw [mixed, entry_of_constant x z hform hv (fun _ _ _ => rfl) i hi j hj,
      entry_of_constant y z hform hv (fun _ _ _ => rfl) i hi j hj, ← add_mul, add_sub_cancel, one_mul]
  left tag l r hm hv i hi j hj := by
    have hform := hn.of_mem hm
    obtain ⟨len, p, q, hpq, hsum⟩ := times_eq_sum (α := α) hform.1 hi hj
    simp only [mixed, entry, hsum, Finset.mul_sum, ← Finset.sum_add_distrib]
    refine Finset.sum_congr rfl fun k hk => ?_
    obtain ⟨hp1, hp2, -, -⟩ := hpq k (Finset.mem_range.mp hk)
    rw [entry_of_constant x z hform.2.1 hv (fun _ _ _ => rfl) _ hp1 _ hp2,
      entry_of_constant y z hform.2.1 hv (fun _ _ _ => rfl) _ hp1 _ hp2]
    ring
  right tag l r hm hv i hi j hj := by
    have hform := hn.of_mem hm
    obtain ⟨len, p, q, hpq, hsum⟩ := times_eq_sum (α := α) hform.1 hi hj
    simp only [mixed, entry, hsum, Finset.mul_sum, ← Finset.sum_add_distrib]
    refine Finset.sum_congr rfl fun k hk => ?_
    obtain ⟨-, -, hq1, hq2⟩ := hpq k (Finset.mem_range.mp hk)
    rw [entry_of_constant x z hform.2.2 hv (fun _ _ _ => rfl) _ hq1 _ hq2,
      entry_of_constant y z hform.2.2 hv (fun _ _ _ => rfl) _ hq1 _ hq2]
    ring
  weights tag c y' hm i hi j hj := by
    simp only [mixed, entry]
    ring
  squares tag y' hm hv i hi j hj := by
    have hgap : 0 ≤ w * (1 - w) * (y'.entry x plain i j - y'.entry y plain i j) ^ 2 :=
      mul_nonneg (mul_nonneg h0 (sub_nonneg.mpr h1)) (sq_nonneg _)
    simp only [mixed, entry, plain] at hgap ⊢
    nlinarith

variable [ExactScalar α]

theorem entry_mix_promises {n : Node α} {w : α} {p q : Assignment α} (hn : n.Formed) (hs : n.Sized)
    (h0 : 0 ≤ w) (h1 : w ≤ 1) (hp : n.Covered p) (hq : n.Covered q)
    (hrp : ∀ u, .unknown u ∈ n.preorder → p.Respects u)
    (hrq : ∀ u, .unknown u ∈ n.preorder → q.Respects u) :
    ∀ i < n.size.height, ∀ j < n.size.width,
      n.vexity.Promises (n.entry (p.mix w q).entries plain i j)
        (mixed w p.entries q.entries n i j) := by
  have hmix : ∀ u, .unknown u ∈ n.preorder → ∀ i < u.size.height, ∀ j < u.size.width,
      (p.mix w q).entries u i j = w * p.entries u i j + (1 - w) * q.entries u i j :=
    fun u hu i hi _ _ => Assignment.entries_mix (hp u hu) (hq u hu) (hs _ hu) hi
  refine (mixed_relaxes hn h0 h1 hmix).promises hn fun u hu i hi j hj => ?_
  rw [hmix u hu i hi j hj]
  have hscale (c a : α) (hc : 0 ≤ c) (ha : u.sign.Admits a) : u.sign.Admits (c * a) := by
    rw [← Sign.positive_mul u.sign]
    exact Sign.Admits.mul (s := .positive) hc ha
  exact (hscale w _ h0 ((hrp u hu).admits (hp u hu) (hs _ hu) hi)).add
    (hscale (1 - w) _ (sub_nonneg.mpr h1) ((hrq u hu).admits (hq u hu) (hs _ hu) hi))

end Node

namespace Compilation

open Node

variable [LinearOrder α] [IsStrictOrderedRing α] [Scalar α] [ExactScalar α]
variable {config : Config} {s : Compilation α} {ns : List (Node α)} {n : Node α}

/-- The curvature that a question is answered with is one of the function that the expression
stands for: values at a mix of two points lie on the side of the mix of values that it promises. The
three values are found together, or some array on the way to them is too large. -/
theorem Reached.askVexity_sound (h : Reached config s ns) (hn : n ∈ s.nodes ns) (hs : n.Sized)
    {v : Vexity} (hv : (n.askVexity s.workspace.verdicts).1 = .ok v) {w : α} (h0 : 0 ≤ w)
    (h1 : w ≤ 1) {p q : Assignment α} (hp : n.Covered p) (hq : n.Covered q)
    (hrp : ∀ u, .unknown u ∈ n.preorder → p.Respects u)
    (hrq : ∀ u, .unknown u ∈ n.preorder → q.Respects u) :
    (∃ A B C, n.evaluate p = .ok A ∧ n.evaluate q = .ok B ∧ n.evaluate (p.mix w q) = .ok C ∧
      A.size = n.size ∧ B.size = n.size ∧ C.size = n.size ∧
      (∀ i < n.size.height, ∀ j < n.size.width,
        v.Promises (C.entry i j) (w * A.entry i j + (1 - w) * B.entry i j)) ∧
      (v = .constant → A = B)) ∨
    (¬n.Fits ∧ n.evaluate p = .error .arrayTooLarge ∧ n.evaluate q = .error .arrayTooLarge ∧
      n.evaluate (p.mix w q) = .error .arrayTooLarge) := by
  have hform := h.sound.family.formed n hn
  have hm : n.Covered (p.mix w q) := fun u hu => (hp u hu).mix (hq u hu)
  rw [h.eq_vexity hn hv]
  cases hA : n.evaluate p with
  | ok A =>
    obtain ⟨B, hB⟩ := evaluate_isOk hform hs hp hq ⟨A, hA⟩
    obtain ⟨C, hC⟩ := evaluate_isOk hform hs hp hm ⟨A, hA⟩
    have hA := evaluate_holds hform hA
    have hB' := evaluate_holds hform hB
    have hC' := evaluate_holds hform hC
    refine .inl ⟨A, B, C, rfl, hB, hC, hA.size, hB'.size, hC'.size, fun i hi j hj => ?_,
      fun hconst => ?_⟩
    · rw [hA.entry i hi j hj, hB'.entry i hi j hj, hC'.entry i hi j hj]
      exact entry_mix_promises hform hs h0 h1 hp hq hrp hrq i hi j hj
    · exact hA.eq hB' (entry_of_constant _ _ hform hconst fun _ _ _ => rfl)
  | error e =>
    have hfail {r : Assignment α} (hr : n.Covered r) :
        n.evaluate r = .error .arrayTooLarge := by
      cases hR : n.evaluate r with
      | error f => rw [(evaluate_error hform hs hr hR).1]
      | ok R =>
        obtain ⟨A, hA'⟩ := evaluate_isOk hform hs hr hp ⟨R, hR⟩
        rw [hA] at hA'
        cases hA'
    obtain ⟨rfl, hfit⟩ := evaluate_error hform hs hp hA
    exact .inr ⟨hfit, rfl, hfail hq, hfail hm⟩

def side : Unknown := ⟨0, Identity.ofUnknown 0, 0, "side", .scalar, .indeterminate⟩

def area : Node ℚ :=
  .square ⟨1, .scalar, Identity.ofOperation "square" [side.id]⟩ (.unknown side)

def sideIs (a : ℚ) : Assignment ℚ := fun id =>
  if id = side.id then some (.ok (.vector #[a])) else none

theorem gives_sideIs (a : ℚ) : (sideIs a).Gives side := ⟨_, if_pos rfl, rfl⟩

theorem area_id_ne : area.id ≠ side.id := by decide +kernel

def drawn : List (Node ℚ) := [area, .unknown side, .unknown side]

theorem reached_area : Reached {} (untouched 2 1) drawn := by
  have hside : Reached {} (untouched (α := ℚ) 1 1) [.unknown side] :=
    Reached.start.step (.unknown "side" .scalar (.ok .indeterminate)) nofun
  exact hside.step (.square (.unknown side)) fun _ h => h

theorem area_mem (s : Compilation ℚ) : area ∈ s.nodes drawn :=
  List.mem_append_right _ (List.mem_cons_self ..)

theorem mem_area {m : Node ℚ} (h : m ∈ area.preorder) : m = area ∨ m = .unknown side := by
  simpa [area, Node.preorder] using h

theorem unknown_mem_area {u : Unknown} (h : .unknown u ∈ area.preorder) : u = side := by
  rcases mem_area h with h | h
  · cases h
  · exact Node.unknown.inj h

theorem askVexity_area {s : Compilation ℚ} (h : Reached {} s drawn) :
    (area.askVexity s.workspace.verdicts).1 = .ok .convex := by
  refine h.askVexity_of_objects (area_mem _) fun a ha b hb he => ?_
  rcases mem_area ha with rfl | rfl <;> rcases mem_area hb with rfl | rfl
  · rfl
  · exact absurd he area_id_ne
  · exact absurd he.symm area_id_ne
  · rfl

theorem area_sized : area.Sized := by
  intro m hm
  rcases mem_area hm with rfl | rfl <;> exact ⟨by decide, by decide⟩

theorem area_fits : area.Fits := by
  intro m hm
  rcases mem_area hm with rfl | rfl <;> decide

theorem evaluate_area (a : ℚ) : area.evaluate (sideIs a) = .ok (.scalar (a * a)) := by
  have hside : side.valueIn (sideIs a) = .ok (.scalar a) := by
    rw [Unknown.valueIn, sideIs, if_pos rfl]
    rfl
  rw [area, evaluate, evaluate, hside]
  exact congrArg Except.ok (by simp [Dense.map, Dense.scalar])

theorem area_mean_le : ∃ A B C, area.evaluate (sideIs 1) = .ok A ∧
    area.evaluate (sideIs 3) = .ok B ∧ area.evaluate ((sideIs 1).mix (1 / 2) (sideIs 3)) = .ok C ∧
    C.entry 0 0 ≤ 1 / 2 * A.entry 0 0 + (1 - 1 / 2) * B.entry 0 0 := by
  have hcovered (a : ℚ) : area.Covered (sideIs a) := fun u hu =>
    unknown_mem_area hu ▸ gives_sideIs a
  have hrespects (a : ℚ) : ∀ u, .unknown u ∈ area.preorder → (sideIs a).Respects u :=
    fun u hu => unknown_mem_area hu ▸ fun _ _ _ _ => trivial
  have hvexity := askVexity_area reached_area
  rcases reached_area.askVexity_sound (area_mem _) area_sized hvexity (w := 1 / 2) (by norm_num)
    (by norm_num) (hcovered 1) (hcovered 3) (hrespects 1) (hrespects 3) with h | h
  · obtain ⟨A, B, C, hA, hB, hC, -, -, -, h, -⟩ := h
    exact ⟨A, B, C, hA, hB, hC, h 0 Nat.one_pos 0 Nat.one_pos⟩
  · exact absurd area_fits h.1

end Compilation

end DisciplinedConvex
