import DisciplinedConvex.Proofs.Convexity
import DisciplinedConvex.Proofs.Epigraph

namespace DisciplinedConvex

variable {α : Type} [Field α]

def Slot.slice (slot : Slot) (z : Array α) : Array α :=
  Array.ofFn fun k : Fin slot.length => z.getD (slot.start.toNat + k) 0

theorem Slot.slice_holds {slot : Slot} {z : Array α} {k : Nat} (hk : k < slot.length) :
    (slot.slice z).getD k 0 = z.getD (slot.start.toNat + k) 0 := by
  simp [slice, hk]

def Layout.values (L : Layout) (z : Array α) : Assignment α := fun id =>
  (L.find? id).map fun slot => .ok (.vector (slot.slice z))

namespace Layout

variable {L : Layout} {z : Array α} {u : Unknown} {slot : Slot}

theorem values_eq (h : L.find? u.id = some slot) :
    L.values z u.id = some (.ok (.vector (slot.slice z))) := by
  rw [values, h]
  rfl

theorem gives_values (h : L.find? u.id = some slot) (hs : (slot.length : Int) = u.size.count) :
    (L.values z).Gives u := by
  refine ⟨_, values_eq h, ?_⟩
  rw [Tensor.vector, Slot.slice, Array.size_ofFn]
  exact hs

theorem entries_values (h : L.find? u.id = some slot)
    {A : Dense α} (hA : u.valueIn (L.values z) = .ok A) {i j : Nat} (hi : i < u.size.height)
    (hj : j < u.size.width) : (L.values z).entries u i j = L.reading z u i j := by
  obtain ⟨t, ht, hsize, hvec⟩ := Unknown.given_of_valueIn hA
  rw [values_eq h] at ht
  obtain rfl := Except.ok.inj (Option.some.inj ht)
  have hr := Dense.rows_eq hsize
  have hk : j * A.rows + i < A.vec.size := by
    rw [A.size_vec]
    exact Dense.index_lt (hr ▸ hi) (Dense.cols_eq hsize ▸ hj)
  rw [Assignment.entries, hA, reading, h]
  dsimp only
  rw [← hr, ← A.getD_vec (hr ▸ hi), hvec, Tensor.columnMajor_vector]
  apply Slot.slice_holds
  rw [hvec, Tensor.columnMajor_vector, Slot.slice, Array.size_ofFn] at hk
  exact hk

end Layout

variable [Scalar α]

namespace Compilation

variable {s : Compilation α} {ns : List (Node α)} {z : Array α} {e : Node α}

theorem Right.covered (hs : s.Sound ns) (hP : s.Right ns) (he : e ∈ s.nodes ns)
    (hc : s.pass.contains e.id = true) : e.Covered (s.layout.values z) := by
  intro u hu
  obtain ⟨slot, hslot, hlen⟩ :=
    hP.slots u (hs.family.preorder_subset he hu) (hP.below hs.family he hc hu)
  exact Layout.gives_values hslot hlen

variable [LinearOrder α] [IsStrictOrderedRing α]

theorem Right.relaxes (hs : s.Sound ns) (hP : s.Right ns) (hN : Node.Faithful (s.nodes ns))
    (hz : ∀ c ∈ s.pass.constraints, c.Holds z) (he : e ∈ s.nodes ns)
    (hc : s.pass.contains e.id = true) {A : Dense α}
    (hA : e.evaluate (s.layout.values z) = .ok A) :
    e.Relaxes (s.layout.values z).entries (s.pass.means s.layout z) := by
  have hmem {m : Node α} (hm : m ∈ e.preorder) : m ∈ s.nodes ns := hs.family.preorder_subset he hm
  have hheld {m : Node α} (hm : m ∈ e.preorder) := hP.below hs.family he hc hm
  have hconstant : ∀ m ∈ s.nodes ns, m.vexity = .constant → ∀ i < m.size.height,
      ∀ j < m.size.width, m.entry (s.layout.values z).entries Node.plain i j =
        s.pass.means s.layout z m i j := by
    intro m hm hv i hi j hj
    have hform := hs.family.formed m hm
    refine (Node.entry_of_constant _ _ hform hv (fun tag y hy => ?_) i hi j hj).symm
    rw [hP.auxiliary?_of_constant hs.family hN (hs.family.preorder_subset hm hy)
      (Node.vexity_below hform hv hy)]
    rfl
  refine ⟨fun u hu i hi j hj => ?_, fun m hm => hconstant m (hmem hm), ?_, ?_,
    fun _ _ _ _ _ _ _ _ => rfl, ?_⟩
  · obtain ⟨slot, hslot, -⟩ := hP.slots u (hmem hu) (hheld hu)
    obtain ⟨B, hB⟩ := Node.evaluate_below hA hu
    exact Layout.entries_values hslot hB hi hj
  · intro tag l r hm hv i hi j hj
    have hl := hs.family.children _ (hmem hm) l (Node.left_mem_children tag l r)
    exact (Node.times_congr (hs.family.formed _ (hmem hm)).1 (hconstant l hl hv)
      (fun _ _ _ _ => rfl) i hi j hj).symm
  · intro tag l r hm hv i hi j hj
    have hr := hs.family.children _ (hmem hm) r (Node.right_mem_children tag l r)
    exact (Node.times_congr (hs.family.formed _ (hmem hm)).1 (fun _ _ _ _ => rfl)
      (hconstant r hr hv) i hi j hj).symm
  · intro tag y hm hv i hi j hj
    obtain ⟨c, hcc, hb⟩ := hP.bounded hN tag y (hmem hm) (hheld hm) hv i hi j hj
    exact (hb z).holds_iff.mp (hz c hcc)

variable [ExactScalar α]

/-- The compiled problem relaxes an expression in the direction that its curvature announces:
wherever the cones hold and the unknowns have their declared signs, its form lies on that side of
its value. -/
theorem Reached.form_bounds_value {config : Config} (h : Reached config s ns)
    (hN : Node.Faithful (s.nodes ns)) (hsize : ∀ n ∈ s.nodes ns, n.size.Nonneg)
    (he : e ∈ s.nodes ns) {v : Vexity} (hv : (e.askVexity s.workspace.verdicts).1 = .ok v)
    {F : Form α} (hF : s.pass.find? e.id = some F) (hz : ∀ c ∈ s.pass.constraints, c.Holds z)
    (hsigns : ∀ u, .unknown u ∈ e.preorder → (s.layout.values z).Respects u) :
    (e.Fits → ∃ A, e.evaluate (s.layout.values z) = .ok A) ∧
      ∀ A, e.evaluate (s.layout.values z) = .ok A → ∀ n G, F.withColumns n = .ok G →
        G.cols ≤ z.size → ∃ xs, G.apply z = .ok xs ∧ xs.size = A.vec.size ∧
          ∀ k < xs.size, v.Promises (A.vec.getD k 0) (xs.getD k 0) := by
  have hs := h.sound
  have hP := h.right hN hsize
  have hform := hs.family.formed e he
  have hc := Pass.contains_of_find? hF
  have hcov : e.Covered (s.layout.values z) := hP.covered hs he hc
  have hsized : e.Sized := fun m hm => hsize m (hs.family.preorder_subset he hm)
  refine ⟨fun hfits => ?_, fun A hA n G hG hcols => ?_⟩
  · cases hA : e.evaluate (s.layout.values z) with
    | ok A => exact ⟨A, rfl⟩
    | error f => exact absurd hfits (Node.evaluate_error hform hsized hcov hA).2
  · obtain ⟨xs, hxs, hlen, hentry⟩ := ((hP.forms e he F hF z).widen hG).apply_ok hcols
    have hholds := Node.evaluate_holds hform hA
    have hr := Dense.rows_eq hholds.size
    have hvec : A.vec.size = e.size.height * e.size.width := by
      rw [A.size_vec, hr, Dense.cols_eq hholds.size]
    refine ⟨xs, hxs, hlen.trans hvec.symm, fun k hk => ?_⟩
    obtain ⟨hi, hj, hk⟩ := Dense.index_split (hlen ▸ hk)
    have hpromise := (hP.relaxes hs hN hz he hc hA).promises hform (fun u hu i hi j hj =>
      (hsigns u hu).admits (hcov u hu) (hsized _ hu) hi) _ hi _ hj
    rw [← hholds.entry _ hi _ hj, ← hentry _ hi _ hj, ← A.getD_vec (hr ▸ hi), hr, hk] at hpromise
    rw [h.eq_vexity he hv]
    exact hpromise

theorem means_side (a b : ℚ) :
    lowered.pass.means lowered.layout #[a, b] (.unknown side) 0 0 = a := by
  rw [Pass.means, Node.entry, Layout.reading, find?_side]
  rfl

theorem lowered_holds {a b : ℚ} (h : a * a ≤ b) :
    ∀ c ∈ lowered.pass.constraints, c.Holds #[a, b] := by
  intro c hc
  have hP := reached_lowered.right lowered_faithful lowered_nonneg
  obtain ⟨tag, x, hx, -, -, i, hi, j, hj, hb⟩ := hP.bounds c hc
  obtain ⟨rfl, rfl⟩ := Node.square.inj (square_mem_lowered hx)
  obtain rfl : i = 0 := Nat.lt_one_iff.mp hi
  obtain rfl : j = 0 := Nat.lt_one_iff.mp hj
  rw [(hb #[a, b]).holds_iff, means_side, Pass.means_square auxiliary?_area, Layout.reading,
    find?_bounding]
  exact h

theorem area_form_bounds : ∃ (F : Form ℚ) (A : Dense ℚ) (xs : Array ℚ),
    lowered.pass.find? area.id = some F ∧
    area.evaluate (lowered.layout.values #[3, 10]) = .ok A ∧ F.apply #[3, 10] = .ok xs ∧
    xs.size = A.vec.size ∧ ∀ k < xs.size, A.vec.getD k 0 ≤ xs.getD k 0 := by
  obtain ⟨F, hF, hcols⟩ := Option.map_eq_some_iff.mp lowered_eq.2.2.1
  have hvexity : (area.askVexity lowered.workspace.verdicts).1 = .ok .convex :=
    askVexity_area reached_lowered
  have hsigns : ∀ u, .unknown u ∈ area.preorder →
      (lowered.layout.values (α := ℚ) #[3, 10]).Respects u := by
    intro u hu t _ a _
    rw [unknown_mem_area hu]
    trivial
  have hcones : ∀ c ∈ lowered.pass.constraints, c.Holds #[3, 10] := lowered_holds (by norm_num)
  obtain ⟨hvalue, hforms⟩ := reached_lowered.form_bounds_value lowered_faithful lowered_nonneg
    (area_mem _) hvexity hF hcones hsigns
  obtain ⟨A, hA⟩ := hvalue area_fits
  obtain ⟨xs, hxs, hsize, hpromise⟩ := hforms A hA F.cols F F.withColumns_cols (le_of_eq hcols)
  exact ⟨F, A, xs, hF, hA, hxs, hsize, hpromise⟩

end Compilation

end DisciplinedConvex
