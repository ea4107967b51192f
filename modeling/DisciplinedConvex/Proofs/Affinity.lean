import DisciplinedConvex.Proofs.Asking
import DisciplinedConvex.Proofs.Commuting
import DisciplinedConvex.Proofs.Epigraph
import DisciplinedConvex.Proofs.Gate
import DisciplinedConvex.Proofs.Turns

open DisciplinedConvex.Task

namespace DisciplinedConvex

namespace Vexity

def Flat (v : Vexity) : Prop := v = constant ∨ v = affine

instance (v : Vexity) : Decidable v.Flat := inferInstanceAs (Decidable (_ ∨ _))

theorem flat_constant : constant.Flat := .inl rfl

theorem flat_scale (s : Sign) (v : Vexity) :
    ((s * Monotonicity.nondecreasing) * v).Flat ↔ v.Flat := by
  cases s <;> cases v <;> decide

theorem flat_affine_add (v : Vexity) : (affine + v).Flat ↔ v.Flat := by
  cases v <;> decide

theorem not_flat_convex_add (v : Vexity) : ¬(convex + v).Flat := by
  cases v <;> decide

end Vexity

namespace Node

variable {α : Type} {l r x n : Node α}

/-- Below, every product has a factor without unknowns, and every square an argument without. -/
structure Affine (n : Node α) : Prop where
  products : ∀ tag l r, product tag l r ∈ n.preorder → l.Ground ∨ r.Ground
  squares : ∀ tag x, square tag x ∈ n.preorder → x.Ground

theorem affine_iff : n.Affine ↔
    (∀ tag l r, n = product tag l r → l.Ground ∨ r.Ground) ∧
      (∀ tag x, n = square tag x → x.Ground) ∧ ∀ c ∈ n.children, c.Affine := by
  constructor
  · refine fun h => ⟨fun tag l r hn => ?_, fun tag x hn => ?_, fun c hc => ⟨fun tag l r hm => ?_,
      fun tag x hm => ?_⟩⟩
    · exact h.products tag l r (hn ▸ self_mem_preorder _)
    · exact h.squares tag x (hn ▸ self_mem_preorder _)
    · exact h.products tag l r (mem_preorder_of_child hc hm)
    · exact h.squares tag x (mem_preorder_of_child hc hm)
  · rintro ⟨hproduct, hsquare, hchildren⟩
    constructor
    · intro tag l r hm
      rw [preorder_eq] at hm
      rcases List.mem_cons.mp hm with hn | hm
      · exact hproduct tag l r hn.symm
      · obtain ⟨c, hc, hmc⟩ := List.mem_flatMap.mp hm
        exact (hchildren c hc).products tag l r hmc
    · intro tag x hm
      rw [preorder_eq] at hm
      rcases List.mem_cons.mp hm with hn | hm
      · exact hsquare tag x hn.symm
      · obtain ⟨c, hc, hmc⟩ := List.mem_flatMap.mp hm
        exact (hchildren c hc).squares tag x hmc

theorem affine_constant (c : Constant α) : (constant c).Affine := by
  rw [affine_iff]
  simp [children]

theorem affine_unknown (u : Unknown) : (unknown u : Node α).Affine := by
  rw [affine_iff]
  simp [children]

theorem affine_product (tag : Tag) :
    (product tag l r).Affine ↔ (l.Ground ∨ r.Ground) ∧ l.Affine ∧ r.Affine := by
  rw [affine_iff]
  simp [children]

theorem affine_weighted (tag : Tag) (c : Constant α) : (weighted tag c x).Affine ↔ x.Affine := by
  rw [affine_iff]
  simp [children, affine_constant]

theorem affine_square (tag : Tag) : (square tag x).Affine ↔ x.Ground ∧ x.Affine := by
  rw [affine_iff]
  simp [children]

section Composition

variable [Scalar α]

theorem flat_vexity_iff (hn : n.Formed) : n.vexity.Flat ↔ n.Affine := by
  induction n using children_induction with
  | step n ih =>
    cases n with
    | constant c => exact iff_of_true (.inl rfl) (affine_constant c)
    | unknown u => exact iff_of_true (.inr rfl) (affine_unknown u)
    | product tag l r =>
      have hl := left_mem_children tag l r
      have hr := right_mem_children tag l r
      rw [affine_product, ← ih l hl (hn.child hl), ← ih r hr (hn.child hr),
        ← vexity_eq_constant_iff (hn.child hl), ← vexity_eq_constant_iff (hn.child hr),
        vexity_product]
      split
      · next hlc =>
        split
        · next hrc => simp [hlc, hrc, Vexity.flat_constant]
        · next hrc => simp [hlc, Vexity.flat_constant, Vexity.flat_scale]
      · next hlc =>
        split
        · next hrc => simp [hrc, Vexity.flat_constant, Vexity.flat_scale]
        · next hrc => simp [hlc, hrc, Vexity.Flat]
    | weighted tag c x =>
      have hx := weighted_mem_children tag c x
      rw [affine_weighted, ← ih x hx (hn.child hx), vexity_weighted]
      split
      · next hxc => simp [hxc, Vexity.flat_constant]
      · next hxc => rw [Vexity.flat_affine_add, Vexity.flat_scale]
    | square tag x =>
      have hx := square_mem_children tag x
      rw [affine_square, ← ih x hx (hn.child hx), ← vexity_eq_constant_iff (hn.child hx),
        vexity_square]
      split
      · next hxc => simp [hxc, Vexity.flat_constant]
      · next hxc => simp [hxc, Vexity.not_flat_convex_add]
    | bare => exact hn.elim

theorem Affine.operand_vexity (h : n.Affine) (hn : n.Formed) {tag : Tag}
    (hx : square tag x ∈ n.preorder) : x.vexity = .constant :=
  (vexity_eq_constant_iff ((hn.of_mem hx).child (square_mem_children tag x))).mpr (h.squares tag x hx)

theorem Affine.not_clashes (h : n.Affine) (hn : n.Formed) : ¬n.Clashes := by
  intro hclash
  have hflat := (flat_vexity_iff hn).mpr h
  rw [hclash.vexity_eq hn] at hflat
  cases hflat <;> contradiction

end Composition

end Node

namespace Compilation

section Frame

variable {α : Type}
variable {s s' t : Compilation α} {ns order : List (Node α)} {n : Node α}
variable {J : Compilation α → List (Node α) → Prop}

structure Spares (s t : Compilation α) : Prop where
  constraints : t.pass.constraints = s.pass.constraints
  auxiliaries : t.pass.auxiliaries = s.pass.auxiliaries

theorem Spares.refl (s : Compilation α) : s.Spares s := ⟨rfl, rfl⟩

theorem Spares.trans (h : s.Spares t) (h' : t.Spares s') : s.Spares s' :=
  ⟨h'.constraints.trans h.constraints, h'.auxiliaries.trans h.auxiliaries⟩

theorem spares_registered (s : Compilation α) (u : Unknown) : s.Spares (s.registered u) := ⟨rfl, rfl⟩

theorem spares_walked (s : Compilation α) (n : Node α) : s.Spares (s.walked n) := ⟨rfl, rfl⟩

variable [Zero α] [Scalar α]

theorem Same.spares (h : Same ns s t) : s.Spares t := by
  constructor <;> rw [h.pass]

def Plain (n : Node α) : Prop := ∀ tag x, n = .square tag x → x.vexity = .constant

variable [One α] [Neg α] [Add α] [Mul α]

theorem Prepared.spares (h : Prepared ns n s t) (hn : Plain n) : s.Spares t := by
  cases h with
  | plain hseat hst => exact hst.spares
  | placed u hu hst => exact (spares_registered s u).trans hst.spares
  | bounded tag x hx hv => exact absurd (hn tag x hx) hv

theorem Turn.spares {r : Except Failure (Form α)} (h : Turn ns n s r s') (hn : Plain n) :
    s.Spares s' := by
  cases h with
  | unasked hst f => exact hst.spares
  | introduced tag x hx hv => exact absurd (hn tag x hx) hv
  | stopped ht f => exact ht.spares hn
  | stored ht F hF => exact (ht.spares hn).trans ⟨rfl, rfl⟩

theorem Turns.spares {r : Except Failure Unit} (h : Turns ns order s r s')
    (hn : ∀ m ∈ order, Plain m) : s.Spares s' := by
  induction h with
  | done => exact .refl _
  | stopped hdue h => exact h.spares (hn _ (List.mem_cons_self ..))
  | next hdue h _ ih =>
    exact (h.spares (hn _ (List.mem_cons_self ..))).trans
      (ih fun m hm => hn m (List.mem_cons_of_mem _ hm))

theorem Run.spares {r : Except Failure (Form α)} (h : Run ns n s r s') (hn : n.Affine)
    (hform : n.Formed) : s.Spares s' := by
  have hplain : ∀ m ∈ (s.pending n).order, Plain m := by
    rintro m hm tag x rfl
    exact hn.operand_vexity hform (Node.mem_preorder_of_mem_postOrder hm)
  cases h with
  | found hF => exact ⟨rfl, rfl⟩
  | stopped hnew h => exact (spares_walked s n).trans (h.spares hplain)
  | computed hnew h hF => exact (spares_walked s n).trans (h.spares hplain)

theorem GatedRun.spares {r : Except Failure (Form α)} (h : GatedRun ns n s r s') (hn : n.Affine)
    (hform : n.Formed) : s.Spares s' := by
  cases h with
  | refused hst f => exact hst.spares
  | lowered hst h => exact hst.spares.trans (h.spares hn hform)

/-- The only reasons why the form of an affine expression may be missing. -/
def TooLarge (n : Node α) (s' : Compilation α) (f : Failure) : Prop :=
  f = .arrayTooLarge ∧ ¬n.Fits ∨
    f = .numberTooLarge ∧ (Extent.columnLimit : Int) ≤ s'.layout.size

omit [One α] [Neg α] [Add α] [Mul α] in
theorem Answered.tooLarge {r : Except Failure (Form α)} {f : Failure}
    (h : Answered J ns n s r s') (hs : s.Tidy ns) (hn : n ∈ s.nodes ns) (haff : n.Affine)
    (hknown : s.workspace.verdicts.known n.ref = true)
    (hfinite : s.pass.config.rejectNonfinite = false) (hr : r = .error f) : TooLarge n s' f :=
  (h.error hs hn hknown hfinite hr).resolve_left fun ⟨_, hclash⟩ =>
    haff.not_clashes (hs.sound.family.formed n hn) hclash

omit [One α] [Neg α] [Add α] [Mul α] in
theorem Gated.tooLarge {r : Except Failure (Form α)} {f : Failure}
    (h : Gated J ns n s r s') (hs : s.Tidy ns) (hn : n ∈ s.nodes ns) (hn' : n ∈ s'.nodes ns)
    (haff : n.Affine) (hknown : s.workspace.verdicts.known n.ref = true)
    (hfinite : s.pass.config.rejectNonfinite = false) (hr : r = .error f) : TooLarge n s' f := by
  have hflat := (Node.flat_vexity_iff (hs.sound.family.formed n hn)).mpr haff
  cases h with
  | unasked hst hcheck hsettle =>
    rw [Node.settle_of_known hknown] at hsettle
    cases hsettle
  | refused hst hcheck hv =>
    rw [hv] at hflat
    cases hflat <;> contradiction
  | @lowered t _ r hst hv h =>
    cases r with
    | error g =>
      exact h.tooLarge (hst.tidy hs) (hst.nodes_eq ▸ hn) haff
        (Verdicts.known_of_le hst.workspace hknown) (hst.pass ▸ hfinite) hr
    | ok G => exact .inr ((h.widened hn' rfl).2.1 f hr)

end Frame

variable {α : Type} [Field α] [LinearOrder α] [IsStrictOrderedRing α] [Scalar α]
variable {s : Compilation α} {ns : List (Node α)} {n : Node α} {F : Form α}

theorem Holding.column_of_affine (h : s.Holding ns n) (hn : n.Affine)
    (hF : s.pass.find? n.id = some F) {i j : Nat} (hj : F.coefficient i j ≠ 0) :
    ∃ u slot, .unknown u ∈ n.preorder ∧ s.layout.find? u.id = some slot ∧
      slot.start ≤ j ∧ j < slot.stop := by
  by_contra hnone
  -- against itself, the form reads the columns of what is below, and no square there varies
  refine hj ((h.corresponds h hF hF).left j (fun a b hab k hk he => hnone ?_) i)
  obtain ⟨m, hm, hcolumns, ha, -⟩ := hab
  cases m with
  | unknown u =>
    obtain ⟨_, ha', hstart, -, -⟩ := (h.below hm).slots hcolumns
    obtain rfl := Option.some.inj (ha.symm.trans ha')
    refine ⟨u, a, hm, ha, ?_, ?_⟩
    · omega
    · have hlength : k < (a.stop - a.start).toNat := hk
      omega
  | square tag x =>
    exact absurd (hn.operand_vexity (h.tidy.sound.family.formed n h.mem) hm) hcolumns
  | constant | product | weighted | bare => exact hcolumns.elim

inductive Attempts (s : Compilation α) (n : Node α) (r : Except Failure (Form α))
    (s' : Compilation α) : Prop
  | lower (h : lower n s = (r, s'))
  | conicForm (h : conicForm n s = (r, s'))

variable {config : Config} {s' : Compilation α} {r : Except Failure (Form α)}

omit [LinearOrder α] [IsStrictOrderedRing α] in
theorem Attempts.grows (h : s.Attempts n r s') (hs : Reached config s ns) (hn : n ∈ s.nodes ns) :
    s.nodes ns ⊆ s'.nodes ns := by
  have hoperands : [n] ⊆ s.nodes ns := List.cons_subset.mpr ⟨hn, List.nil_subset _⟩
  cases h with
  | lower h =>
    obtain rfl : (Compilation.lower n s).2 = s' := congrArg Prod.snd h
    exact (hs.asks (r := .lower n) rfl hoperands).2.1
  | conicForm h =>
    obtain rfl : (Compilation.conicForm n s).2 = s' := congrArg Prod.snd h
    exact (hs.asks (r := .conicForm n) rfl hoperands).2.1

variable [ExactScalar α]

section Affine

variable (hs : Reached config s ns) (hn : n ∈ s.nodes ns) (haff : n.Affine)
variable (hN : Node.Faithful (s'.nodes ns)) (h : s.Attempts n r s')

include hs hn haff hN h

omit [LinearOrder α] [IsStrictOrderedRing α] [ExactScalar α] in
theorem Attempts.spares : s.Spares s' := by
  have hgrows := h.grows hs hn
  have hlinked := (hs.linked (hN.mono hgrows)).1
  have hform := hs.sound.family.formed n hn
  cases h with
  | lower h =>
    have hrun := lower_run hlinked hn
    rw [Ends, h] at hrun
    exact (hrun hN).spares haff hform
  | conicForm h =>
    have hrun := conicForm_run hlinked hn
    rw [Ends, h] at hrun
    exact (hrun hN).spares haff hform

omit [LinearOrder α] [IsStrictOrderedRing α] [ExactScalar α] in
theorem Attempts.tooLarge (hsize : ∀ m ∈ s'.nodes ns, m.size.Nonneg)
    (hknown : s.workspace.verdicts.known n.ref = true) (hfinite : config.rejectNonfinite = false)
    {f : Failure} (hr : r = .error f) : TooLarge n s' f := by
  have hgrows := h.grows hs hn
  have htidy := hs.tidy (hN.mono hgrows) fun m hm => hsize m (hgrows hm)
  rw [← hs.config_eq] at hfinite
  cases h with
  | lower h =>
    have hanswer := lower_ends kept_trivial htidy trivial hn
    rw [Ends, h] at hanswer
    exact (hanswer hN).tooLarge htidy hn haff hknown hfinite hr
  | conicForm h =>
    have hgated := conicForm_ends kept_trivial htidy trivial hn
    rw [Ends, h] at hgated
    exact (hgated hN).tooLarge htidy hn (hgrows hn) haff hknown hfinite hr

theorem Attempts.column (hsize : ∀ m ∈ s'.nodes ns, m.size.Nonneg) (hr : r = .ok F) {i j : Nat}
    (hj : F.coefficient i j ≠ 0) : ∃ u slot, .unknown u ∈ n.preorder ∧
      s'.layout.find? u.id = some slot ∧ slot.start ≤ j ∧ j < slot.stop := by
  subst hr
  have hfinds : s.Finds n F s' := by
    cases h with
    | lower h => exact .lower h
    | conicForm h => exact .conicForm h
  have hfound := hs.found hn hfinds
  obtain ⟨G, hG, hrows⟩ := hfound.holds
  have hholding := hfound.reached.holding hN hsize (hfound.grows hn) hG
  refine hholding.column_of_affine haff hG (i := i) ?_
  rwa [Form.coefficient, ← hrows]

end Affine

/-- Affine expressions compile without cones. The composition rules call an expression constant or
affine exactly if every product below has a factor without unknowns, and every square an argument
without. A request for its form then introduces nothing and demands nothing, whatever the pass has
compiled before. It fails only where something is too large, and the form has no other columns than
those of the unknowns below. -/
theorem affine_compiled {β : Type} [Zero β] [One β] [Neg β] [Add β] [Mul β] [Scalar β] :
    (∀ (config : Config) (s : Compilation β) (ns : List (Node β)) (n : Node β) (v : Vexity),
      Reached config s ns → n ∈ s.nodes ns → s.workspace.verdicts.vexity? n = some v →
        (v = .constant ∨ v = .affine ↔
          (∀ tag l r, .product tag l r ∈ n.preorder → l.Ground ∨ r.Ground) ∧
            ∀ tag x, .square tag x ∈ n.preorder → x.Ground)) ∧
    ∀ (config : Config) (s s' : Compilation α) (ns : List (Node α)) (n : Node α) (v : Vexity)
      (r : Except Failure (Form α)), Reached config s ns → n ∈ s.nodes ns →
        s.workspace.verdicts.vexity? n = some v → v = .constant ∨ v = .affine →
        config.rejectNonfinite = false → s.Attempts n r s' → Node.Faithful (s'.nodes ns) →
        (∀ m ∈ s'.nodes ns, m.size.Nonneg) →
          s'.pass.constraints = s.pass.constraints ∧ s'.pass.auxiliaries = s.pass.auxiliaries ∧
          (∀ f, r = .error f → f = .arrayTooLarge ∧ ¬n.Fits ∨
            f = .numberTooLarge ∧ (Extent.columnLimit : Int) ≤ s'.layout.size) ∧
          ∀ F, r = .ok F → ∀ i j, F.coefficient i j ≠ 0 → ∃ u slot, .unknown u ∈ n.preorder ∧
            s'.layout.find? u.id = some slot ∧ slot.start ≤ j ∧ j < slot.stop := by
  constructor
  · intro config s ns n v hs hn hv
    obtain rfl := hs.sound.judges.vexities n hn v hv
    exact (Node.flat_vexity_iff (hs.sound.family.formed n hn)).trans
      ⟨fun h => ⟨h.products, h.squares⟩, fun h => ⟨h.1, h.2⟩⟩
  · intro config s s' ns n v r hs hn hv hflat hfinite h hN hsize
    obtain rfl := hs.sound.judges.vexities n hn v hv
    have haff := (Node.flat_vexity_iff (hs.sound.family.formed n hn)).mp hflat
    have hknown : s.workspace.verdicts.known n.ref = true := Option.isSome_iff_exists.mpr ⟨_, hv⟩
    have hspares := h.spares hs hn haff hN
    exact ⟨hspares.constraints, hspares.auxiliaries,
      fun f => h.tooLarge hs hn haff hN hsize hknown hfinite,
      fun F hr i j => h.column hs hn haff hN hsize hr⟩

def doubled : Node ℚ :=
  .product ⟨3, .scalar, Identity.ofOperation "*" [(two 2).id, side.id]⟩ (two 2) (.unknown side)

def sides : List (Node ℚ) :=
  [doubled, two 2, .unknown side, two 2, area, .unknown side, .unknown side]

def measured : Compilation ℚ :=
  ((Request.vexity doubled).serve ((Request.lower area).serve (untouched 4 1)).2).2

theorem reached_measured : Reached {} measured sides := by
  have htwo : Reached {} (untouched (α := ℚ) 3 1) [two 2, area, .unknown side, .unknown side] :=
    reached_area.step (.constant (.scalar 2)) (List.nil_subset _)
  have hdoubled : Reached {} (untouched (α := ℚ) 4 1) sides :=
    htwo.step (.product (two 2) (.unknown side)) (by simp [Request.operands, nodes])
  have harea := hdoubled.ask (.lower area) (by simp [Request.operands, nodes, sides])
    fun t => (Request.ask_eq _ t).1
  rw [measured]
  exact harea.ask (.vexity doubled) (List.cons_subset.mpr
    ⟨List.mem_append_right _ (List.mem_cons_self ..), List.nil_subset _⟩)
    fun t => (Request.ask_eq _ t).1

def measuredBound : Unknown := ⟨4, Identity.ofUnknown 1, 1, "_aux0", .scalar, .indeterminate⟩

def doubledForm : Except Failure (Form ℚ) × Compilation ℚ := lower doubled measured

def measuredNodes : List (Node ℚ) :=
  [.unknown measuredBound, doubled, two 2, area, .unknown side]

theorem doubledForm_eq : measured.workspace.verdicts.vexity? doubled = some .affine ∧
    doubledForm.1.map (·.coefficient 0 0) = .ok 2 ∧
    doubledForm.2.pass.auxiliaries.map (·.unknown) = [measuredBound] ∧
    doubledForm.2.layout.find? side.id = some ⟨.unknown side, 0⟩ ∧
    (measuredNodes.map Node.id).Nodup := by
  decide +kernel

theorem doubledForm_nodes : doubledForm.2.nodes sides ⊆ measuredNodes := by
  rw [nodes_eq_of_auxiliaries doubledForm_eq.2.2.1]
  refine List.append_subset.mpr ⟨by simp [measuredNodes], ?_⟩
  simp [sides, measuredNodes]

theorem doubled_compiled : doubledForm.2.pass.constraints = measured.pass.constraints ∧
    doubledForm.2.pass.auxiliaries = measured.pass.auxiliaries ∧
    ∃ F, doubledForm.1 = .ok F ∧ F.coefficient 0 0 = 2 ∧
      ∀ i j, j ≠ 0 → F.coefficient i j = 0 := by
  obtain ⟨hv, hF, -, hslot, hids⟩ := doubledForm_eq
  obtain ⟨F, hF, htwo⟩ := map_eq_ok hF
  have hfaithful : Node.Faithful (doubledForm.2.nodes sides) :=
    (Node.faithful_of_nodup hids).mono doubledForm_nodes
  have hnonneg : ∀ m ∈ doubledForm.2.nodes sides, m.size.Nonneg := by
    intro m hm
    have hm := doubledForm_nodes hm
    simp only [measuredNodes, List.mem_cons, List.not_mem_nil, or_false] at hm
    rcases hm with rfl | rfl | rfl | rfl | rfl <;> exact ⟨by decide, by decide⟩
  have hdoubled : doubled ∈ measured.nodes sides := List.mem_append_right _ (List.mem_cons_self ..)
  have heta : doubledForm = (doubledForm.1, doubledForm.2) := Prod.mk.eta.symm
  have hrun : measured.Attempts doubled doubledForm.1 doubledForm.2 := .lower heta
  have haffine : Vexity.affine = .constant ∨ Vexity.affine = .affine := .inr rfl
  obtain ⟨hconstraints, hauxiliaries, -, hcolumns⟩ := (affine_compiled (β := ℚ)).2 {} measured
    doubledForm.2 sides doubled .affine doubledForm.1 reached_measured hdoubled hv haffine rfl hrun
    hfaithful hnonneg
  refine ⟨hconstraints, hauxiliaries, F, hF, htwo, fun i j hj => ?_⟩
  by_contra hne
  obtain ⟨u, slot, hu, hfind, hstart, hstop⟩ := hcolumns F hF i j hne
  obtain rfl : u = side := by simpa [doubled, two, Node.preorder] using hu
  obtain rfl := Option.some.inj (hslot.symm.trans hfind)
  have hstop : (j : Int) < 0 + 1 := hstop
  omega

/-- An affine expression that gets no form: the columns of `small` come after the `2 ^ 63` of `vast`,
where they cannot be numbered. -/
theorem small_unnumbered : Reached {} crowded [.unknown small, .unknown vast] ∧
    .unknown small ∈ crowded.nodes [.unknown small, .unknown vast] ∧
    (∀ m ∈ crowded.nodes [.unknown small, .unknown vast], m.size.Nonneg) ∧
    crowded.workspace.verdicts.vexity? (.unknown (α := ℚ) small) = some .affine ∧
    (lower (.unknown small) crowded).1.map (·.cols) = .error .numberTooLarge := by
  have hnodes : crowded.nodes [.unknown small, .unknown vast] = [.unknown small, .unknown vast] := rfl
  rw [hnodes]
  refine ⟨reached_crowded, List.mem_cons_self .., fun m hm => ?_, ?_⟩
  · rcases List.mem_pair.mp hm with rfl | rfl <;> exact ⟨by decide, by decide⟩
  · decide +kernel

end Compilation

end DisciplinedConvex
