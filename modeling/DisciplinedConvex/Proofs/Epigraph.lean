import DisciplinedConvex.Proofs.Convexity
import DisciplinedConvex.Proofs.Lowering

namespace DisciplinedConvex

variable {α : Type}

def Slot.Holds (slot : Slot) (z xs : Array α) : Prop :=
  ∀ k < xs.size, z[slot.start.toNat + k]? = xs[k]?

variable [Field α]

theorem Slot.Holds.getD_eq {slot : Slot} {z xs : Array α} (h : slot.Holds z xs) {k : Nat}
    (hk : k < xs.size) : z.getD (slot.start.toNat + k) 0 = xs.getD k 0 := by
  rw [Array.getD_eq_getD_getElem?, h k hk, Array.getD_eq_getD_getElem?]

theorem Layout.reading_of_holds {L : Layout} {z : Array α} {u : Unknown} {slot : Slot} {A : Dense α}
    (hslot : L.find? u.id = some slot) (h : slot.Holds z A.vec) (hA : A.size = u.size) {i j : Nat}
    (hi : i < u.size.height) (hj : j < u.size.width) : L.reading z u i j = A.entry i j := by
  have hr := Dense.rows_eq hA
  have hk : j * A.rows + i < A.vec.size := by
    rw [A.size_vec]
    exact Dense.index_lt (hr ▸ hi) (Dense.cols_eq hA ▸ hj)
  rw [reading, hslot]
  dsimp only
  rw [← hr, h.getD_eq hk, A.getD_vec (hr ▸ hi)]

namespace Node

theorem evaluate_below {m n : Node α} {values : Assignment α} {A : Dense α}
    (h : n.evaluate values = .ok A) (hm : m ∈ n.preorder) : ∃ B, m.evaluate values = .ok B := by
  induction n using children_induction generalizing A with
  | step n ih =>
    have hchild : ∀ c ∈ n.children, ∃ B, c.evaluate values = .ok B := by
      intro c hc
      cases n with
      | constant | unknown => exact absurd hc List.not_mem_nil
      | product tag l r =>
        obtain ⟨B, hB, h⟩ := bind_eq_ok h
        obtain ⟨C, hC, -⟩ := bind_eq_ok h
        rcases List.mem_pair.mp hc with rfl | rfl
        · exact ⟨B, hB⟩
        · exact ⟨C, hC⟩
      | weighted tag w x =>
        obtain ⟨B, hB, -⟩ := bind_eq_ok h
        rcases List.mem_pair.mp hc with rfl | rfl
        · exact ⟨w.value, rfl⟩
        · exact ⟨B, hB⟩
      | square tag x =>
        obtain ⟨B, hB, -⟩ := bind_eq_ok h
        exact ⟨B, List.mem_singleton.mp hc ▸ hB⟩
      | bare => cases h
    rw [preorder_eq] at hm
    rcases List.mem_cons.mp hm with rfl | hm
    · exact ⟨A, h⟩
    · obtain ⟨c, hc, hmc⟩ := List.mem_flatMap.mp hm
      obtain ⟨B, hB⟩ := hchild c hc
      exact ih c hc hB hmc

end Node

theorem Unknown.given_of_valueIn {u : Unknown} {values : Assignment α} {A : Dense α}
    (h : u.valueIn values = .ok A) :
    ∃ t, values u.id = some (.ok t) ∧ A.size = u.size ∧ A.vec = t.columnMajor := by
  obtain ⟨t, hgiven, ht⟩ := valueIn_eq_ok_iff.mp h
  exact ⟨t, hgiven, coerce_eq_ok ht⟩

variable [Scalar α]

namespace Compilation

variable {s : Compilation α} {ns : List (Node α)} {values : Assignment α} {z : Array α} {e : Node α}

/-- A stacked vector that holds the values given to the unknowns, and in the slot of the auxiliary of
every square that was lowered the value of that square. -/
structure Tight (s : Compilation α) (ns : List (Node α)) (values : Assignment α) (z : Array α) :
    Prop where
  unknowns : ∀ u t slot, .unknown u ∈ s.nodes ns → values u.id = some (.ok t) →
    s.layout.find? u.id = some slot → slot.Holds z t.columnMajor
  squares : ∀ tag x, .square tag x ∈ s.nodes ns → s.pass.contains tag.id = true →
    (Node.square tag x).vexity ≠ .constant → ∃ A u slot,
      (Node.square tag x).evaluate values = .ok A ∧ s.pass.auxiliary? tag.id = some u ∧
      s.layout.find? u.id = some slot ∧ slot.Holds z A.vec

theorem Tight.means_eq (h : s.Tight ns values z) (hs : s.Sound ns) (hP : s.Right ns)
    (hN : Node.Faithful (s.nodes ns)) (he : e ∈ s.nodes ns) (hc : s.pass.contains e.id = true)
    {A : Dense α} (hA : e.evaluate values = .ok A) :
    A.Holds e.size (s.pass.means s.layout z e) := by
  have hform := hs.family.formed e he
  have hholds := Node.evaluate_holds hform hA
  refine ⟨hholds.size, fun i hi j hj => ?_⟩
  rw [hholds.entry i hi j hj]
  refine (Node.entry_congr hform (fun u hu i hi j hj => ?_) (fun tag y hy => ?_) i hi j hj).symm
  · obtain ⟨B, hB⟩ := Node.evaluate_below hA hu
    have hB : u.valueIn values = .ok B := hB
    obtain ⟨t, ht, hsize, hvec⟩ := Unknown.given_of_valueIn hB
    have huN := hs.family.preorder_subset he hu
    obtain ⟨slot, hslot, -⟩ := hP.slots u huN (hP.below hs.family he hc hu)
    have hz := h.unknowns u t slot huN ht hslot
    rw [← hvec] at hz
    rw [Layout.reading_of_holds hslot hz hsize hi hj, Assignment.entries, hB]
  · have hyN := hs.family.preorder_subset he hy
    have hyc := hP.below hs.family he hc hy
    by_cases hv : (Node.square tag y).vexity = .constant
    · left
      rw [hP.auxiliary?_of_constant hs.family hN hyN hv]
      rfl
    · right
      obtain ⟨B, u, slot, hB, hu, hslot, hz⟩ := h.squares tag y hyN hyc hv
      have hBholds := Node.evaluate_holds (hs.family.formed _ hyN) hB
      refine ⟨s.layout.reading z u, by rw [hu]; rfl, fun i hi j hj => ?_⟩
      obtain ⟨u', hu', hsize⟩ := hP.squares tag y hyN hyc fun hvy => hv (by
        rw [Node.vexity_square, if_pos hvy])
      obtain rfl : u = u' := Option.some.inj (hu.symm.trans hu')
      rw [Layout.reading_of_holds hslot hz (hBholds.size.trans hsize.symm) (hsize ▸ hi) (hsize ▸ hj)]
      exact hBholds.entry i hi j hj

omit [Scalar α] [Field α] in
theorem square_of_auxiliary? {P : Pass α} {id : String} {u : Unknown}
    (h : P.auxiliary? id = some u) : ∃ q, ⟨u, some q⟩ ∈ P.auxiliaries ∧ q.id = id := by
  obtain ⟨a, hfind, rfl⟩ := Option.map_eq_some_iff.mp h
  have hid := List.find?_some hfind
  obtain ⟨q, hq, he⟩ := (Option.any_eq_true _ _).mp hid
  refine ⟨q, ?_, beq_iff_eq.mp he⟩
  rw [← hq]
  exact List.mem_of_find?_eq_some hfind

theorem auxiliary?_injective (hs : s.Sound ns) {id id' : String} {u : Unknown}
    (h : s.pass.auxiliary? id = some u) (h' : s.pass.auxiliary? id' = some u) : id = id' := by
  obtain ⟨q, hq, rfl⟩ := square_of_auxiliary? h
  obtain ⟨q', hq', rfl⟩ := square_of_auxiliary? h'
  have heq := List.inj_on_of_nodup_map hs.introduced hq hq' rfl
  exact congrArg Node.id (Option.some.inj (congrArg Auxiliary.square? heq))

structure Block (s : Compilation α) (ns : List (Node α)) (values : Assignment α) (slot : Slot)
    (xs : Array α) : Prop where
  length : xs.size = slot.length
  numbers : ∀ t, values slot.holder.id = some (.ok t) → xs = t.columnMajor
  squares : ∀ tag x u A, .square tag x ∈ s.nodes ns → s.pass.contains tag.id = true →
    x.vexity ≠ .constant → s.pass.auxiliary? tag.id = some u → u.id = slot.holder.id →
    (Node.square tag x).evaluate values = .ok A → xs = A.vec

theorem exists_block (hs : s.Sound ns) (hP : s.Right ns) (hN : Node.Faithful (s.nodes ns))
    (hsize : ∀ n ∈ s.nodes ns, n.size.Nonneg)
    (hgiven : ∀ u t, .unknown u ∈ s.nodes ns → values u.id = some (.ok t) →
      (t.entries.size : Int) = u.size.count)
    (hfree : ∀ a ∈ s.pass.auxiliaries, a.square?.isSome → values a.unknown.id = none)
    {slot : Slot} (hslot : slot ∈ s.layout.slots) : ∃ xs, s.Block ns values slot xs := by
  obtain ⟨u, hu, hum⟩ := hs.stacked.holders slot hslot
  have hid : slot.holder.id = u.id := congrArg Holder.id hu
  have hlength : slot.length = u.size.count.toNat := by
    rw [slot.length_eq, hu]
    rfl
  have hunknown {id : String} {v : Unknown} (hv : s.pass.auxiliary? id = some v) :
      .unknown v ∈ s.nodes ns ∧ values v.id = none := by
    obtain ⟨q, hq, -⟩ := square_of_auxiliary? hv
    exact ⟨List.mem_append_left _ (List.mem_map.mpr ⟨_, hq, rfl⟩), hfree _ hq rfl⟩
  have hsame {id : String} {v : Unknown} (hv : s.pass.auxiliary? id = some v)
      (hvid : v.id = slot.holder.id) : v = u :=
    Node.unknown.inj (hN _ (hunknown hv).1 _ hum (hvid.trans hid)).unknown_eq
  by_cases hnumbers : ∃ t, values u.id = some (.ok t)
  · obtain ⟨t, ht⟩ := hnumbers
    refine ⟨t.columnMajor, ?_, fun t' ht' => ?_, fun tag x v A _ _ _ hv hvid => ?_⟩
    · rw [t.size_columnMajor, hlength, ← hgiven u t hum ht, Int.toNat_natCast]
    · rw [hid, ht] at ht'
      rw [Except.ok.inj (Option.some.inj ht')]
    · have hnone := (hunknown hv).2
      rw [hvid, hid, ht] at hnone
      cases hnone
  have hnone : ∀ t, values slot.holder.id ≠ some (.ok t) := fun t ht => hnumbers ⟨t, hid ▸ ht⟩
  by_cases hsquare : ∃ tag x v A, .square tag x ∈ s.nodes ns ∧ s.pass.contains tag.id = true ∧
      x.vexity ≠ .constant ∧ s.pass.auxiliary? tag.id = some v ∧ v.id = slot.holder.id ∧
      (Node.square tag x).evaluate values = .ok A
  · obtain ⟨tag, x, v, A, hx, hcx, hvx, hv, hvid, hA⟩ := hsquare
    have hholds := Node.evaluate_holds (hs.family.formed _ hx) hA
    refine ⟨A.vec, ?_, fun t ht => absurd ht (hnone t), fun tag' x' v' A' hx' _ _ hv' hvid' hA' => ?_⟩
    · obtain ⟨v', hv', hvs⟩ := hP.squares tag x hx hcx hvx
      obtain rfl : v = v' := Option.some.inj (hv.symm.trans hv')
      have hnonneg : tag.size.Nonneg := hsize _ hx
      have hA : A.size = tag.size := hholds.size
      rw [hlength, ← hsame hv hvid, hvs, hnonneg.count_eq, Int.toNat_natCast, A.size_vec,
        Dense.rows_eq hA, Dense.cols_eq hA]
    · rw [← (hsame hv' hvid').trans (hsame hv hvid).symm] at hv
      have hal := hN _ hx _ hx' (auxiliary?_injective hs hv hv')
      have hholds' := Node.evaluate_holds (hs.family.formed _ hx') hA'
      rw [← hal.size_eq] at hholds'
      exact congrArg Dense.vec (hholds.eq hholds' fun i _ j _ => by rw [hal.entry_eq])
  · refine ⟨Array.replicate slot.length 0, Array.size_replicate, fun t ht => absurd ht (hnone t), ?_⟩
    exact fun tag x v A hx hcx hvx hv hvid hA =>
      absurd ⟨tag, x, v, A, hx, hcx, hvx, hv, hvid, hA⟩ hsquare

variable [LinearOrder α] [ExactScalar α]

/-- A tight vector exists for every assignment that gives numbers of the right count, and none to
the auxiliaries of squares. -/
theorem Reached.exists_tight {config : Config} (h : Reached config s ns)
    (hN : Node.Faithful (s.nodes ns)) (hsize : ∀ n ∈ s.nodes ns, n.size.Nonneg)
    (hgiven : ∀ u t, .unknown u ∈ s.nodes ns → values u.id = some (.ok t) →
      (t.entries.size : Int) = u.size.count)
    (hfree : ∀ a ∈ s.pass.auxiliaries, a.square?.isSome → values a.unknown.id = none)
    (hvalue : ∀ tag x, .square tag x ∈ s.nodes ns → s.pass.contains tag.id = true →
      (Node.square tag x).vexity ≠ .constant → ∃ A, (Node.square tag x).evaluate values = .ok A) :
    ∃ z : Array α, (z.size : Int) = s.layout.size ∧ s.Tight ns values z := by
  have hs := h.sound
  have hP := h.right hN hsize
  have hblock : ∀ slot ∈ s.layout.slots, ∃ xs, s.Block ns values slot xs := fun slot hslot =>
    exists_block hs hP hN hsize hgiven hfree hslot
  choose! block hblock using hblock
  obtain ⟨z, hz, hslots⟩ := hs.stacked.exists_vector hsize fun slot hslot =>
    (hblock slot hslot).length
  have hholds : ∀ slot ∈ s.layout.slots, slot.Holds z (block slot) := fun slot hslot k hk =>
    hslots slot hslot k ((hblock slot hslot).length ▸ hk)
  refine ⟨z, hz, ⟨fun u t slot _ ht hslot => ?_, fun tag x hx hcx hv => ?_⟩⟩
  · obtain ⟨hmem, hid⟩ := Layout.mem_of_find? hslot
    rw [← (hblock slot hmem).numbers t (hid ▸ ht)]
    exact hholds slot hmem
  · obtain ⟨A, hA⟩ := hvalue tag x hx hcx hv
    have hv' : x.vexity ≠ .constant := fun hc => hv (by rw [Node.vexity_square, if_pos hc])
    obtain ⟨u, hu, -⟩ := hP.squares tag x hx hcx hv'
    obtain ⟨q, hq, -⟩ := square_of_auxiliary? hu
    obtain ⟨slot, hslot⟩ := (hP.introduced _ hq).1
    obtain ⟨hmem, hid⟩ := Layout.mem_of_find? hslot
    refine ⟨A, u, slot, hA, hu, hslot, ?_⟩
    rw [← (hblock slot hmem).squares tag x u A hx hcx hv' hu hid.symm hA]
    exact hholds slot hmem

variable [IsStrictOrderedRing α]

omit [ExactScalar α] in
theorem Tight.holds (h : s.Tight ns values z) (hs : s.Sound ns) (hP : s.Right ns)
    (hN : Node.Faithful (s.nodes ns)) : ∀ c ∈ s.pass.constraints, c.Holds z := by
  intro c hc
  obtain ⟨tag, x, hx, hcx, hv, i, hi, j, hj, hb⟩ := hP.bounds c hc
  have hxc := Node.square_mem_children tag x
  have hsize : tag.size = x.size := (hs.family.formed _ hx).1
  have hv' : (Node.square tag x).vexity ≠ .constant := fun hconst =>
    hv (Node.vexity_children (hs.family.formed _ hx) hconst x hxc)
  obtain ⟨A, -, -, hA, -⟩ := h.squares tag x hx hcx hv'
  obtain ⟨B, hB, hBA⟩ := bind_eq_ok hA
  obtain rfl := Except.ok.inj hBA
  have hX := h.means_eq hs hP hN (hs.family.children _ hx x hxc) (hP.children _ hx hcx x hxc) hB
  have hT := h.means_eq hs hP hN hx hcx hA
  have hi' := hsize ▸ hi
  have hj' := hsize ▸ hj
  rw [(hb z).holds_iff, ← hX.entry i hi' j hj', ← hT.entry i hi j hj,
    Dense.entry_map _ _ (Dense.rows_eq hX.size ▸ hi') (Dense.cols_eq hX.size ▸ hj')]

/-- Lowering is exact at the tight point of the epigraphs. -/
theorem Reached.exact_of_tight {config : Config} (h : Reached config s ns)
    (hN : Node.Faithful (s.nodes ns)) (hsize : ∀ n ∈ s.nodes ns, n.size.Nonneg)
    (ht : s.Tight ns values z) :
    (∀ c ∈ s.pass.constraints, c.Holds z) ∧
      ∀ e ∈ s.nodes ns, ∀ F, s.pass.find? e.id = some F →
        (e.Covered values → e.Fits → ∃ A, e.evaluate values = .ok A) ∧
        ∀ A, e.evaluate values = .ok A → ∀ n G, F.withColumns n = .ok G → G.cols ≤ z.size →
          G.apply z = .ok A.vec := by
  have hs := h.sound
  have hP := h.right hN hsize
  refine ⟨ht.holds hs hP hN, fun e he F hF => ⟨fun hcov hfits => ?_, fun A hA n G hG hz => ?_⟩⟩
  · cases hA : e.evaluate values with
    | ok A => exact ⟨A, rfl⟩
    | error f =>
      have hsized : e.Sized := fun m hm => hsize m (hs.family.preorder_subset he hm)
      exact absurd hfits (Node.evaluate_error (hs.family.formed e he) hsized hcov hA).2
  · have hmeans := ht.means_eq hs hP hN he (Pass.contains_of_find? hF) hA
    exact ((hP.forms e he F hF z).widen hG).apply_eq hz hmeans

def lowered : Compilation ℚ := ((Request.lower area).serve (untouched 2 1)).2

def bounding : Unknown := ⟨2, Identity.ofUnknown 1, 1, "_aux0", .scalar, .indeterminate⟩

theorem lowered_eq : lowered.pass.auxiliaries.map (·.unknown) = [bounding] ∧
    lowered.layout.slots.toList = [⟨.unknown side, 0⟩, ⟨.unknown bounding, 1⟩] ∧
    (lowered.pass.find? area.id).map (·.cols) = some 2 ∧
    bounding.id ≠ side.id ∧ bounding.id ≠ area.id := by
  decide +kernel

theorem reached_lowered : Reached {} lowered drawn := by
  rw [lowered]
  exact reached_area.ask (.lower area) (List.cons_subset.mpr ⟨area_mem _, List.nil_subset _⟩)
    fun t => (Request.ask_eq _ t).1

theorem mem_bounded {s : Compilation ℚ} (hs : s.pass.auxiliaries.map (·.unknown) = [bounding])
    {m : Node ℚ} (h : m ∈ s.nodes drawn) : m = .unknown bounding ∨ m = area ∨ m = .unknown side := by
  rw [nodes_eq_of_auxiliaries hs] at h
  simpa [drawn] using h

theorem bounded_faithful {s : Compilation ℚ}
    (hs : s.pass.auxiliaries.map (·.unknown) = [bounding]) : Node.Faithful (s.nodes drawn) := by
  obtain ⟨-, -, -, hside, harea⟩ := lowered_eq
  have hids : ([.unknown bounding, area, .unknown side].map Node.id).Nodup := by
    simp only [List.map_cons, List.map_nil, List.nodup_cons, List.mem_cons, List.not_mem_nil,
      or_false, not_or, not_false_eq_true, List.nodup_nil, and_true]
    exact ⟨⟨harea, hside⟩, area_id_ne⟩
  refine (Node.faithful_of_nodup hids).mono fun m hm => ?_
  simpa using mem_bounded hs hm

theorem mem_lowered {m : Node ℚ} (h : m ∈ lowered.nodes drawn) :
    m = .unknown bounding ∨ m = area ∨ m = .unknown side :=
  mem_bounded lowered_eq.1 h

theorem lowered_faithful : Node.Faithful (lowered.nodes drawn) := bounded_faithful lowered_eq.1

theorem lowered_nonneg :
    ∀ n ∈ lowered.nodes drawn, n.size.Nonneg := by
  intro n hn
  rcases mem_lowered hn with rfl | rfl | rfl <;> exact ⟨by decide, by decide⟩

theorem find?_side : lowered.layout.find? side.id = some ⟨.unknown side, 0⟩ := by
  rw [Layout.find?, ← Array.find?_toList, lowered_eq.2.1, List.find?_cons_of_pos]
  exact beq_self_eq_true side.id

theorem find?_bounding : lowered.layout.find? bounding.id = some ⟨.unknown bounding, 1⟩ := by
  rw [Layout.find?, ← Array.find?_toList, lowered_eq.2.1, List.find?_cons_of_neg,
    List.find?_cons_of_pos]
  · exact beq_self_eq_true bounding.id
  · exact fun h => lowered_eq.2.2.2.1 (beq_iff_eq.mp h).symm

theorem auxiliary?_area : lowered.pass.auxiliary? area.id = some bounding := by
  obtain ⟨F, hF, -⟩ := Option.map_eq_some_iff.mp lowered_eq.2.2.1
  have hP := reached_lowered.right lowered_faithful lowered_nonneg
  obtain ⟨u, hu, -⟩ := hP.squares _ (.unknown side) (area_mem _) (Pass.contains_of_find? hF) nofun
  obtain ⟨q, hq, -⟩ := square_of_auxiliary? hu
  have hmem := List.mem_map_of_mem (f := Auxiliary.unknown) hq
  rw [lowered_eq.1] at hmem
  rw [← List.mem_singleton.mp hmem]
  exact hu

theorem square_mem_lowered {tag : Tag} {x : Node ℚ} (h : .square tag x ∈ lowered.nodes drawn) :
    Node.square tag x = area := by
  rcases mem_lowered h with h | h | h
  · cases h
  · exact h
  · cases h

theorem lowered_tight (a : ℚ) :
    lowered.Tight drawn (sideIs a) #[a, a * a] where
  unknowns u t slot hu ht hslot := by
    rw [sideIs] at ht
    split at ht
    · next hid =>
      obtain rfl := Except.ok.inj (Option.some.inj ht)
      rw [hid, find?_side] at hslot
      obtain rfl := Option.some.inj hslot
      rw [Tensor.columnMajor_vector]
      intro k hk
      obtain rfl : k = 0 := Nat.lt_one_iff.mp hk
      rfl
    · cases ht
  squares tag x hx _ _ := by
    have harea := square_mem_lowered hx
    have hu : lowered.pass.auxiliary? tag.id = some bounding := by
      rw [← auxiliary?_area, ← harea]
      rfl
    refine ⟨_, _, _, harea ▸ evaluate_area a, hu, find?_bounding, fun k hk => ?_⟩
    obtain rfl : k = 0 := Nat.lt_one_iff.mp hk
    rfl

theorem area_lowered_exactly : ∃ F, lowered.pass.find? area.id = some F ∧
    (∀ c ∈ lowered.pass.constraints, c.Holds #[3, 9]) ∧ F.apply #[3, 9] = .ok #[9] := by
  obtain ⟨F, hF, hcols⟩ := Option.map_eq_some_iff.mp lowered_eq.2.2.1
  have hnine : (3 : ℚ) * 3 = 9 := by norm_num
  have htight : lowered.Tight drawn (sideIs 3) #[3, 9] := hnine ▸ lowered_tight 3
  have hvalue : area.evaluate (sideIs 3) = .ok (.scalar 9) := hnine ▸ evaluate_area 3
  obtain ⟨hcones, hforms⟩ := reached_lowered.exact_of_tight lowered_faithful lowered_nonneg htight
  exact ⟨F, hF, hcones, (hforms area (area_mem _) F hF).2 _ hvalue F.cols F F.withColumns_cols
    (le_of_eq hcols)⟩

end Compilation

end DisciplinedConvex
