import DisciplinedConvex.Proofs.Columns
import DisciplinedConvex.Proofs.Epigraph

namespace DisciplinedConvex

variable {α : Type} [Scalar α]

/-- The expressions that a pass holds are chains: whatever varies below one of their squares stands
below all of them. -/
theorem Pass.Shaped.unknown_below_square {P : Pass α} {L : Layout} {N : List (Node α)} {e x : Node α}
    {tag : Tag} {u : Unknown} (hS : P.Shaped L N) (hN : Node.Family N) (he : e ∈ N)
    (hc : P.contains e.id = true) (hu : .unknown u ∈ e.preorder) (hx : .square tag x ∈ e.preorder)
    (hv : x.vexity ≠ .constant) : .unknown u ∈ x.preorder := by
  have hvaries {c : Node α} (hc : c ∈ N) (hconst : c.vexity = .constant)
      (hxc : .square tag x ∈ c.preorder) : False := by
    have hform := hN.formed c hc
    have hsquare := Node.vexity_below hform hconst hxc
    exact hv (Node.vexity_children (hform.of_mem hxc) hsquare x (Node.square_mem_children tag x))
  induction e using Node.children_induction with
  | step e ih =>
    have hchild {c : Node α} (hce : c ∈ e.children) (huc : .unknown u ∈ c.preorder)
        (hxc : .square tag x ∈ c.preorder) : .unknown u ∈ x.preorder :=
      ih c hce (hN.children e he c hce) (hS.children e he hc c hce) huc hxc
    cases e with
    | constant c => cases List.mem_singleton.mp hu
    | unknown v => cases List.mem_singleton.mp hx
    | product tag' l r =>
      have hl := Node.left_mem_children tag' l r
      have hr := Node.right_mem_children tag' l r
      have hlN := hN.children _ he l hl
      have hrN := hN.children _ he r hr
      simp only [Node.preorder, List.mem_cons, List.mem_append, reduceCtorEq, false_or] at hu hx
      rcases hS.factors tag' l r he hc with hconst | hconst
      · have hur := hu.resolve_left (Node.not_unknown_below (hN.formed l hlN) hconst u)
        exact hchild hr hur (hx.resolve_left fun hxl => hvaries hlN hconst hxl)
      · have hul := hu.resolve_right (Node.not_unknown_below (hN.formed r hrN) hconst u)
        exact hchild hl hul (hx.resolve_right fun hxr => hvaries hrN hconst hxr)
    | weighted tag' c y =>
      simp only [Node.preorder, List.mem_cons, reduceCtorEq, false_or] at hu hx
      exact hchild (Node.weighted_mem_children tag' c y) hu hx
    | square tag' y =>
      simp only [Node.preorder, List.mem_cons, reduceCtorEq, false_or] at hu hx
      rcases hx with hx | hx
      · obtain ⟨-, rfl⟩ := Node.square.inj hx
        exact hu
      · exact hchild (Node.square_mem_children tag' y) hu hx
    | bare => exact (hN.formed _ he).elim

variable [Field α]

omit [Scalar α] in
theorem Form.Computes.value_eq {F G : Form α} {z z' : Array α} {size : Size} {f g : Nat → Nat → α}
    (hF : F.Computes z size f) (hG : G.Computes z' size g)
    (hfg : ∀ i < size.height, ∀ j < size.width, f i j = g i j) (r : Nat) :
    (F.rows.getD r (.constant 0)).value z = (G.rows.getD r (.constant 0)).value z' := by
  by_cases hr : r < size.height * size.width
  · obtain ⟨hi, hj, hindex⟩ := Dense.index_split hr
    rw [← hindex, hF.value _ hi _ hj, hG.value _ hi _ hj, hfg _ hi _ hj]
  · have hF' : F.rows.size ≤ r := hF.size ▸ Nat.le_of_not_lt hr
    have hG' : G.rows.size ≤ r := hG.size ▸ Nat.le_of_not_lt hr
    rw [Array.getD_eq_getD_getElem?, Array.getD_eq_getD_getElem?, Array.getElem?_eq_none hF',
      Array.getElem?_eq_none hG']
    exact (AffineRow.value_constant 0 z).trans (AffineRow.value_constant 0 z').symm

namespace Constraint

omit [Scalar α] in
theorem Bounds.value_eq {c : Constraint α} {z : Array α} {x t : α} (h : c.Bounds z x t) :
    c.form.rows.size = 3 ∧ ∀ r, (c.form.rows.getD r (.constant 0)).value z =
      [t + 1, x * (1 + 1), t + -1].getD r 0 := by
  obtain ⟨-, hrows⟩ := h
  refine ⟨?_, fun r => ?_⟩
  · have hlength := congrArg List.length hrows
    rw [List.length_map] at hlength
    exact hlength
  · rw [← hrows, List.getD_eq_getElem?_getD, List.getElem?_map, Array.getElem?_toList,
      Array.getD_eq_getD_getElem?]
    cases c.form.rows[r]? with
    | none => exact AffineRow.value_constant 0 z
    | some row => rfl

omit [Scalar α] in
theorem Bounds.coefficient_eq {c : Constraint α} {x t : Array α → α}
    (h : ∀ z, c.Bounds z (x z) (t z)) (j : Nat) :
    c.form.coefficient 0 j = t (unitVector j) - t #[] := by
  rw [Form.coefficient_eq, (h _).value_eq.2, (h _).value_eq.2]
  exact add_sub_add_right_eq_sub ..

end Constraint

theorem flatMap_eq_of_nodup {β γ δ : Type} {l : List β} {f : β → List γ} {id : β → δ} {b : β}
    (hl : (l.map id).Nodup) (hb : b ∈ l) (h : ∀ c ∈ l, id c ≠ id b → f c = []) :
    l.flatMap f = f b := by
  induction l with
  | nil => exact absurd hb List.not_mem_nil
  | cons c l ih =>
    obtain ⟨hc, hl⟩ := List.nodup_cons.mp hl
    rw [List.flatMap_cons]
    rcases List.mem_cons.mp hb with rfl | hb
    · have hrest : l.flatMap f = [] := by
        rw [List.flatMap_eq_nil_iff]
        exact fun d hd => h d (List.mem_cons_of_mem _ hd) fun he => hc (he ▸ List.mem_map_of_mem hd)
      rw [hrest, List.append_nil]
    · have hcb : id c ≠ id b := fun he => hc (he ▸ List.mem_map_of_mem hb)
      rw [h c (List.mem_cons_self ..) hcb, List.nil_append]
      exact ih hl hb fun d hd => h d (List.mem_cons_of_mem _ hd)

theorem filter_eq_singleton {β : Type} {l : List β} {p : β → Bool} {k : Nat} {b : β}
    (hb : l[k]? = some b) (h : ∀ i c, l[i]? = some c → (p c = true ↔ i = k)) :
    l.filter p = [b] := by
  induction l generalizing k with
  | nil => cases hb
  | cons c l ih =>
    have hc := h 0 c rfl
    cases k with
    | zero =>
      obtain rfl := Option.some.inj hb
      have hrest : l.filter p = [] := by
        rw [List.filter_eq_nil_iff]
        intro d hd hpd
        obtain ⟨i, hi⟩ := List.mem_iff_getElem?.mp hd
        exact absurd ((h (i + 1) d hi).mp hpd) (Nat.succ_ne_zero i)
      rw [List.filter_cons_of_pos (hc.mpr rfl), hrest]
    | succ k =>
      rw [List.filter_cons_of_neg fun hpc => absurd (hc.mp hpc) (Nat.succ_ne_zero k).symm]
      exact ih hb fun i d hd => (h (i + 1) d hd).trans Nat.succ_inj

namespace Compilation

variable {s t : Compilation α} {ns ms : List (Node α)} {e m m' x x' : Node α} {a b a' b' : Slot}
variable {tag tag' : Tag} {u : Unknown} {F G : Form α} {z z' : Array α}

def problem (s : Compilation α) : Problem α :=
  ⟨s.layout, s.pass.auxiliary?, s.pass.constraints.toList⟩

/-- A compilation that holds the right form of a node, and of all nodes below. -/
structure Holding (s : Compilation α) (ns : List (Node α)) (e : Node α) : Prop where
  tidy : s.Tidy ns
  compiles : s.Compiles ns
  mem : e ∈ s.nodes ns
  held : s.pass.contains e.id = true

theorem Holding.below (h : s.Holding ns e) (hm : m ∈ e.preorder) : s.Holding ns m where
  tidy := h.tidy
  compiles := h.compiles
  mem := h.tidy.sound.family.preorder_subset h.mem hm
  held := h.tidy.shaped.below h.tidy.sound.family h.mem h.held hm

theorem Holding.auxiliary?_ne (h : s.Holding ns e) (hu : .unknown u ∈ e.preorder)
    (hx : .square tag x ∈ e.preorder) (hv : x.vexity ≠ .constant) :
    s.pass.auxiliary? tag.id ≠ some u := by
  intro hau
  have hfamily := h.tidy.sound.family
  have hux := h.tidy.shaped.unknown_below_square hfamily h.mem h.held hu hx hv
  obtain ⟨q, hq, hid⟩ := square_of_auxiliary? hau
  obtain ⟨tag', x', rfl, hqN, -, hlt⟩ := (h.compiles.introduced _ hq).2 q rfl
  have hal := h.tidy.faithful _ (h.below hx).mem _ hqN hid.symm
  have hbelow := Node.mem_preorder_of_child (Node.square_mem_children tag x) hux
  rcases hfamily.ref_lt hqN (hal.unknown_mem hbelow) with heq | hyounger
  · cases heq
  · exact absurd (Nat.lt_trans hyounger hlt) (Nat.lt_irrefl _)

theorem Tidy.holder_of_slot? (hs : s.Tidy ns) (hm : m ∈ s.nodes ns)
    (ha : s.problem.slot? m = some a) : a ∈ s.layout.slots ∧ 0 ≤ a.start ∧
      a.stop ≤ s.layout.size ∧ ∃ u, a.holder = .unknown u ∧
        (m = .unknown u ∨ ∃ tag x, m = .square tag x ∧ s.pass.auxiliary? tag.id = some u) := by
  have hslot {u : Unknown} (hu : .unknown u ∈ s.nodes ns) (ha : s.layout.find? u.id = some a) :
      a ∈ s.layout.slots ∧ 0 ≤ a.start ∧ a.stop ≤ s.layout.size ∧ a.holder = .unknown u := by
    obtain ⟨hholder, hstart, hstop⟩ := hs.sound.stacked.slot_of hs.faithful hs.nonneg hu ha
    exact ⟨(Layout.mem_of_find? ha).1, hstart, hstop, hholder⟩
  cases m with
  | unknown u =>
    obtain ⟨hmem, hstart, hstop, hholder⟩ := hslot hm ha
    exact ⟨hmem, hstart, hstop, u, hholder, .inl rfl⟩
  | square tag x =>
    obtain ⟨u, hu, ha⟩ := Option.bind_eq_some_iff.mp ha
    obtain ⟨q, hq, -⟩ := square_of_auxiliary? hu
    have huN : .unknown u ∈ s.nodes ns :=
      List.mem_append_left _ (List.mem_map.mpr ⟨_, hq, rfl⟩)
    obtain ⟨hmem, hstart, hstop, hholder⟩ := hslot huN ha
    exact ⟨hmem, hstart, hstop, u, hholder, .inr ⟨tag, x, rfl, hu⟩⟩
  | constant | product | weighted | bare => cases ha

theorem Holding.exists_slot? (h : s.Holding ns m) (hcolumns : m.HasColumns) :
    ∃ a, s.problem.slot? m = some a ∧ (a.length : Int) = m.size.count := by
  cases m with
  | unknown u => exact h.compiles.slots u h.mem h.held
  | square tag x =>
    obtain ⟨u, hu, hsize⟩ := h.compiles.squares tag x h.mem h.held hcolumns
    obtain ⟨q, hq, -⟩ := square_of_auxiliary? hu
    obtain ⟨a, ha⟩ := (h.compiles.introduced _ hq).1
    have hslot : s.problem.slot? (.square tag x) = some a :=
      Option.bind_eq_some_iff.mpr ⟨u, hu, ha⟩
    have huN : .unknown u ∈ s.nodes ns :=
      List.mem_append_left _ (List.mem_map.mpr ⟨_, hq, rfl⟩)
    have hholder := (h.tidy.sound.stacked.slot_of h.tidy.faithful h.tidy.nonneg huN ha).1
    have htag : tag.size.Nonneg := h.tidy.nonneg _ h.mem
    have hcount : (0 : Int) ≤ tag.size.count := htag.count_eq ▸ Int.natCast_nonneg _
    refine ⟨a, hslot, ?_⟩
    rw [a.length_eq, hholder]
    exact (congrArg (fun n : Size => (n.count.toNat : Int)) hsize).trans (Int.toNat_of_nonneg hcount)
  | constant | product | weighted | bare => exact hcolumns.elim

theorem Holding.means_of_slot? (h : s.Holding ns m) (hcolumns : m.HasColumns)
    (ha : s.problem.slot? m = some a) (z : Array α) (i j : Nat) :
    s.pass.means s.layout z m i j = z.getD (a.start.toNat + (j * m.size.height + i)) 0 := by
  cases m with
  | unknown u =>
    have ha : s.layout.find? u.id = some a := ha
    rw [Pass.means, Node.entry, Layout.reading, ha]
    rfl
  | square tag x =>
    obtain ⟨u, hu, ha⟩ := Option.bind_eq_some_iff.mp ha
    have ha : s.layout.find? u.id = some a := ha
    obtain ⟨v, hv, hsize⟩ := h.compiles.squares tag x h.mem h.held hcolumns
    obtain rfl : u = v := Option.some.inj (hu.symm.trans hv)
    rw [Pass.means_square hu, Layout.reading, ha, hsize]
    rfl
  | constant | product | weighted | bare => exact hcolumns.elim

theorem Tidy.eq_of_column (hs : s.Tidy ns) (hm : m ∈ s.nodes ns) (hm' : m' ∈ s.nodes ns)
    (ha : s.problem.slot? m = some a) (ha' : s.problem.slot? m' = some a') {k k' : Nat}
    (hk : k < a.length) (hk' : k' < a'.length) (heq : a.start.toNat + k = a'.start.toNat + k') :
    a = a' ∧ k = k' := by
  obtain ⟨hmem, hstart, -⟩ := hs.holder_of_slot? hm ha
  obtain ⟨hmem', hstart', -⟩ := hs.holder_of_slot? hm' ha'
  have hcolumn : a.start + k = a'.start + k' := by omega
  obtain rfl := hs.sound.stacked.eq_of_column hs.nonneg hmem hmem' hk hk' hcolumn
  exact ⟨rfl, Nat.add_left_cancel heq⟩

theorem Tidy.id_eq_of_slot? (hs : s.Tidy ns) (hx : .square tag x ∈ s.nodes ns)
    (hx' : .square tag' x' ∈ s.nodes ns) (ha : s.problem.slot? (.square tag x) = some a)
    (ha' : s.problem.slot? (.square tag' x') = some a) : tag.id = tag'.id := by
  obtain ⟨-, -, -, u, hholder, hu⟩ := hs.holder_of_slot? hx ha
  obtain ⟨-, -, -, u', hholder', hu'⟩ := hs.holder_of_slot? hx' ha'
  obtain rfl : u = u' := Holder.unknown.inj (hholder.symm.trans hholder')
  obtain ⟨_, _, heq, hu⟩ := hu.resolve_left nofun
  obtain ⟨_, _, heq', hu'⟩ := hu'.resolve_left nofun
  obtain ⟨rfl, rfl⟩ := Node.square.inj heq
  obtain ⟨rfl, rfl⟩ := Node.square.inj heq'
  exact auxiliary?_injective hs.sound hu hu'

theorem Holding.column_congr (h : s.Holding ns e) (hm : m ∈ e.preorder) (hm' : m' ∈ e.preorder)
    (hcolumns : m.HasColumns) (hcolumns' : m'.HasColumns) (ha : s.problem.slot? m = some a)
    (ha' : s.problem.slot? m' = some a') {Q : Problem α} (hb : Q.slot? m = some b)
    (hb' : Q.slot? m' = some b') {k k' : Nat} (hk : k < a.length) (hk' : k' < a'.length)
    (heq : a.start.toNat + k = a'.start.toNat + k') : b.start.toNat + k = b'.start.toNat + k' := by
  have hmN := (h.below hm).mem
  have hmN' := (h.below hm').mem
  obtain ⟨rfl, rfl⟩ := h.tidy.eq_of_column hmN hmN' ha ha' hk hk' heq
  obtain ⟨-, -, -, u, hholder, hu⟩ := h.tidy.holder_of_slot? hmN ha
  obtain ⟨-, -, -, u', hholder', hu'⟩ := h.tidy.holder_of_slot? hmN' ha'
  obtain rfl : u = u' := Holder.unknown.inj (hholder.symm.trans hholder')
  have hslot : Q.slot? m = Q.slot? m' := by
    rcases hu with rfl | ⟨tag, x, rfl, hu⟩ <;> rcases hu' with rfl | ⟨tag', x', rfl, hu'⟩
    · rfl
    · exact absurd hu' (h.auxiliary?_ne hm hm' hcolumns')
    · exact absurd hu (h.auxiliary?_ne hm' hm hcolumns)
    · rw [Problem.slot?, Problem.slot?, auxiliary?_injective h.tidy.sound hu hu']
  rw [hb, hb'] at hslot
  rw [Option.some.inj hslot]

theorem Holding.aligned (h : s.Holding ns e) (h' : t.Holding ms e) :
    s.problem.Aligned t.problem e := by
  have hlength {m : Node α} {a b : Slot} (hm : m ∈ e.preorder) (hcolumns : m.HasColumns)
      (ha : s.problem.slot? m = some a) (hb : t.problem.slot? m = some b) : a.length = b.length := by
    obtain ⟨_, ha₁, hcount⟩ := (h.below hm).exists_slot? hcolumns
    obtain ⟨_, hb₁, hcount'⟩ := (h'.below hm).exists_slot? hcolumns
    obtain rfl := Option.some.inj (ha.symm.trans ha₁)
    obtain rfl := Option.some.inj (hb.symm.trans hb₁)
    exact Int.ofNat.inj (hcount.trans hcount'.symm)
  rintro a b a' b' ⟨m, hm, hcolumns, ha, hb⟩ ⟨m', hm', hcolumns', ha', hb'⟩
  have hab := hlength hm hcolumns ha hb
  have hab' := hlength hm' hcolumns' ha' hb'
  refine ⟨hab, fun k hk k' hk' => ⟨fun heq => ?_, fun heq => ?_⟩⟩
  · exact h.column_congr hm hm' hcolumns hcolumns' ha ha' hb hb' hk hk' heq
  · exact h'.column_congr hm hm' hcolumns hcolumns' hb hb' ha ha' (hab ▸ hk) (hab' ▸ hk') heq

theorem Holding.index_lt (h : s.Holding ns m) (hcolumns : m.HasColumns)
    (ha : s.problem.slot? m = some a) {i j : Nat} (hi : i < m.size.height) (hj : j < m.size.width) :
    j * m.size.height + i < a.length := by
  obtain ⟨_, ha', hcount⟩ := h.exists_slot? hcolumns
  obtain rfl := Option.some.inj (ha.symm.trans ha')
  rw [(h.tidy.nonneg m h.mem).count_eq] at hcount
  exact Int.ofNat.inj hcount ▸ Dense.index_lt hi hj

theorem Holding.index_split (h : s.Holding ns m) (hcolumns : m.HasColumns)
    (ha : s.problem.slot? m = some a) {k : Nat} (hk : k < a.length) :
    ∃ i < m.size.height, ∃ j < m.size.width, k = j * m.size.height + i := by
  obtain ⟨_, ha', hcount⟩ := h.exists_slot? hcolumns
  obtain rfl := Option.some.inj (ha.symm.trans ha')
  rw [(h.tidy.nonneg m h.mem).count_eq] at hcount
  obtain ⟨hi, hj, hindex⟩ := Dense.index_split (Int.ofNat.inj hcount ▸ hk)
  exact ⟨_, hi, _, hj, hindex.symm⟩

theorem Holding.means_eq (h : s.Holding ns e) (h' : t.Holding ms e)
    (hz : s.problem.Agree t.problem e z z') : ∀ i < e.size.height, ∀ j < e.size.width,
      s.pass.means s.layout z e i j = t.pass.means t.layout z' e i j := by
  have hcolumn {m : Node α} (hm : m ∈ e.preorder) (hcolumns : m.HasColumns) :
      ∀ i < m.size.height, ∀ j < m.size.width,
        s.pass.means s.layout z m i j = t.pass.means t.layout z' m i j := by
    intro i hi j hj
    have hsm := h.below hm
    have htm := h'.below hm
    obtain ⟨a, ha, -⟩ := hsm.exists_slot? hcolumns
    obtain ⟨b, hb, -⟩ := htm.exists_slot? hcolumns
    rw [hsm.means_of_slot? hcolumns ha, htm.means_of_slot? hcolumns hb]
    exact hz a b ⟨m, hm, hcolumns, ha, hb⟩ _ (hsm.index_lt hcolumns ha hi hj)
  have hform := h.tidy.sound.family.formed e h.mem
  refine Node.entry_congr hform (fun u hu => hcolumn hu trivial) fun tag x hx => ?_
  by_cases hv : x.vexity = .constant
  · have hsquare : (Node.square tag x).vexity = .constant := by rw [Node.vexity_square, if_pos hv]
    left
    rw [h.compiles.auxiliary?_of_constant h.tidy.sound.family h.tidy.faithful (h.below hx).mem hsquare,
      h'.compiles.auxiliary?_of_constant h'.tidy.sound.family h'.tidy.faithful (h'.below hx).mem
        hsquare]
    rfl
  · obtain ⟨u, hu, -⟩ := h.compiles.squares tag x (h.below hx).mem (h.below hx).held hv
    refine .inr ⟨s.layout.reading z u, by rw [hu]; rfl, fun i hi j hj => ?_⟩
    rw [← Pass.means_square hu s.layout z x]
    exact hcolumn hx hv i hi j hj

theorem Holding.coefficient_cone {cs : List (Constraint α)} (h : s.Holding ns (.square tag x))
    (hcones : s.pass.Cones s.layout (s.nodes ns) tag x cs)
    (ha : s.problem.slot? (.square tag x) = some a) {k : Nat} {c : Constraint α}
    (hc : cs[k]? = some c) : k < a.length ∧ ∀ column,
      c.form.coefficient 0 column = if a.start.toNat + k = column then 1 else 0 := by
  obtain ⟨hk, -⟩ := List.getElem?_eq_some_iff.mp hc
  rw [hcones.length] at hk
  obtain ⟨hi, hj, hindex⟩ := Dense.index_split hk
  obtain ⟨c', hc', hb⟩ := hcones.bounds _ hi _ hj
  rw [hindex] at hc'
  obtain rfl := Option.some.inj (hc.symm.trans hc')
  have hmeans := h.means_of_slot? hcones.vexity ha
  refine ⟨hindex ▸ h.index_lt hcones.vexity ha hi hj, fun column => ?_⟩
  have hsize : (Node.square tag x).size.height = tag.size.height := rfl
  rw [Constraint.Bounds.coefficient_eq hb, hmeans, hmeans, hsize, hindex, getD_unitVector]
  exact sub_zero _

variable [LinearOrder α] [IsStrictOrderedRing α]

theorem Holding.bounding_eq (h : s.Holding ns (.square tag x)) (hv : x.vexity ≠ .constant)
    (ha : s.problem.slot? (.square tag x) = some a) {i j : Nat} (hi : i < tag.size.height)
    (hj : j < tag.size.width) :
    ∃ c, s.problem.bounding (a.start.toNat + (j * tag.size.height + i)) = [c] ∧ ∀ z,
      c.Bounds z (s.pass.means s.layout z x i j) (s.pass.means s.layout z (.square tag x) i j) := by
  have hk : j * tag.size.height + i < a.length := h.index_lt hv ha hi hj
  obtain ⟨demands, hemitted⟩ := h.compiles.emitted
  have hholding {d : Pass.Demand α} (hd : d ∈ demands) : s.Holding ns (.square d.tag d.operand) :=
    ⟨h.tidy, h.compiles, (hemitted.cones d hd).mem, (hemitted.cones d hd).held⟩
  obtain ⟨d, hd, hid⟩ := hemitted.held tag x h.mem h.held hv
  have hcones := hemitted.cones d hd
  obtain ⟨c, hc, hb⟩ := hcones.alike (h.tidy.faithful _ hcones.mem _ h.mem hid) i hi j hj
  refine ⟨c, ?_, hb⟩
  rw [Problem.bounding, problem, hemitted.constraints, List.filter_flatMap,
    flatMap_eq_of_nodup hemitted.ids hd fun d' hd' hne => ?_]
  · have ha' : s.problem.slot? (.square d.tag d.operand) = some a := by
      rw [← ha, Problem.slot?, Problem.slot?, hid]
    refine filter_eq_singleton hc fun k c' hc' => ?_
    rw [((hholding hd).coefficient_cone hcones ha' hc').2]
    simp
  · -- the cones of the other squares read other columns
    rw [List.filter_eq_nil_iff]
    intro c' hc'
    obtain ⟨k, hk'⟩ := List.mem_iff_getElem?.mp hc'
    obtain ⟨a', ha', -⟩ := (hholding hd').exists_slot? (hemitted.cones d' hd').vexity
    obtain ⟨hlt, hcoefficient⟩ := (hholding hd').coefficient_cone (hemitted.cones d' hd') ha' hk'
    rw [hcoefficient]
    simp only [ne_eq, ite_eq_right_iff, one_ne_zero, imp_false, not_not, decide_eq_true_eq]
    intro heq
    obtain ⟨rfl, -⟩ := h.tidy.eq_of_column (hholding hd').mem h.mem ha' ha hlt hk heq
    exact hne ((h.tidy.id_eq_of_slot? (hholding hd').mem h.mem ha' ha).trans hid.symm)

omit [IsStrictOrderedRing α] [LinearOrder α] in
theorem Holding.slots (h : s.Holding ns m) (hcolumns : m.HasColumns) :
    ∃ a, s.problem.slot? m = some a ∧ 0 ≤ a.start ∧ a.stop ≤ s.layout.size ∧
      (a.length : Int) = m.size.count := by
  obtain ⟨a, ha, hcount⟩ := h.exists_slot? hcolumns
  obtain ⟨-, hstart, hstop, -⟩ := h.tidy.holder_of_slot? h.mem ha
  exact ⟨a, ha, hstart, hstop, hcount⟩

theorem Holding.cones (h : s.Holding ns (.square tag x)) (h' : t.Holding ms (.square tag x))
    (hv : x.vexity ≠ .constant) (ha : s.problem.slot? (.square tag x) = some a)
    (hb : t.problem.slot? (.square tag x) = some b) {k : Nat} (hk : k < a.length) :
    ∃ c d, s.problem.bounding (a.start.toNat + k) = [c] ∧
      t.problem.bounding (b.start.toNat + k) = [d] ∧ c.cone = "SOC" ∧ d.cone = "SOC" ∧
      s.problem.Matches t.problem (.square tag x) c.form d.form := by
  obtain ⟨i, hi, j, hj, rfl⟩ := h.index_split hv ha hk
  obtain ⟨c, hc, hbounds⟩ := h.bounding_eq hv ha hi hj
  obtain ⟨d, hd, hbounds'⟩ := h'.bounding_eq hv hb hi hj
  refine ⟨c, d, hc, hd, (hbounds #[]).1, (hbounds' #[]).1, ?_⟩
  have hx := Node.child_mem_preorder (Node.square_mem_children tag x)
  have hxs : tag.size = x.size := (h.tidy.sound.family.formed _ h.mem).1
  apply (h.aligned h').matches
  · rw [(hbounds #[]).value_eq.1, (hbounds' #[]).value_eq.1]
  · intro z z' hz r
    have hsquare := h.means_eq h' hz i hi j hj
    have hoperand := (h.below hx).means_eq (h'.below hx) (hz.mono hx) i (hxs ▸ hi) j (hxs ▸ hj)
    rw [(hbounds z).value_eq.2, (hbounds' z').value_eq.2, hsquare, hoperand]

theorem Holding.corresponds (h : s.Holding ns e) (h' : t.Holding ms e)
    (hF : s.pass.find? e.id = some F) (hG : t.pass.find? e.id = some G) :
    s.problem.Corresponds t.problem e F G := by
  have hcomputes := h.compiles.forms e h.mem F hF
  have hcomputes' := h'.compiles.forms e h'.mem G hG
  have haligned := h.aligned h'
  have hmatches : s.problem.Matches t.problem e F G := by
    apply haligned.matches
    · rw [(hcomputes #[]).size, (hcomputes' #[]).size]
    · exact fun z z' hz => (hcomputes z).value_eq (hcomputes' z') (h.means_eq h' hz)
  refine ⟨hmatches, fun m hm hcolumns => ?_, haligned, fun tag x hx hv a b ha hb k hk => ?_⟩
  · obtain ⟨a, ha, hstart, hstop, hcount⟩ := (h.below hm).slots hcolumns
    obtain ⟨b, hb, hstart', hstop', hcount'⟩ := (h'.below hm).slots hcolumns
    exact ⟨a, b, ha, hb, hstart, hstop, hstart', hstop', hcount, hcount'⟩
  · exact (h.below hx).cones (h'.below hx) hv ha hb hk

end Compilation

end DisciplinedConvex
