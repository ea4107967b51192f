import DisciplinedConvex.Proofs.Persistence
import DisciplinedConvex.Proofs.Runs

open DisciplinedConvex.Task

namespace DisciplinedConvex

variable {α : Type}

def Failure.Noncompliant : Failure → Prop
  | notCompliant _ | nonconstantProduct | nonconstantElementwise | nonconstantDivisor => True
  | _ => False

namespace Node

section Composition

variable [Scalar α] {n c : Node α}

/-- Somewhere below is a product of two factors that both vary. -/
def Clashes (n : Node α) : Prop :=
  ∃ tag l r, .product tag l r ∈ n.preorder ∧ l.vexity ≠ .constant ∧ r.vexity ≠ .constant

theorem scale_notDcp (s : Sign) : (s * Monotonicity.nondecreasing) * Vexity.notDcp = .notDcp := by
  cases s <;> rfl

theorem vexity_of_notDcp_child (hn : n.Formed) (hc : c ∈ n.children) (hv : c.vexity = .notDcp) :
    n.vexity = .notDcp := by
  cases n with
  | constant | unknown => exact absurd hc List.not_mem_nil
  | product tag l r =>
    rw [vexity_product]
    rcases List.mem_pair.mp hc with rfl | rfl
    · simp [hv, scale_notDcp]
    · simp [hv, scale_notDcp]
  | weighted tag w x =>
    rcases List.mem_pair.mp hc with rfl | rfl
    · cases hv
    · rw [vexity_weighted, hv, scale_notDcp]
      rfl
  | square tag x =>
    obtain rfl := List.mem_singleton.mp hc
    rw [vexity_square, hv, scale_notDcp]
    rfl
  | bare => exact hn.elim

theorem vexity_of_notDcp_below {m : Node α} (hn : n.Formed) (hm : m ∈ n.preorder)
    (hv : m.vexity = .notDcp) : n.vexity = .notDcp := by
  induction n using children_induction with
  | step n ih =>
    rw [preorder_eq] at hm
    rcases List.mem_cons.mp hm with rfl | hm
    · exact hv
    · obtain ⟨c, hc, hmc⟩ := List.mem_flatMap.mp hm
      exact vexity_of_notDcp_child hn hc (ih c hc (hn.child hc) hmc)

theorem Clashes.vexity_eq (h : n.Clashes) (hn : n.Formed) : n.vexity = .notDcp := by
  obtain ⟨tag, l, r, hm, hl, hr⟩ := h
  refine vexity_of_notDcp_below hn hm ?_
  rw [vexity_product, if_neg hl, if_neg hr]

end Composition

end Node

variable [Zero α] [One α] [Neg α] [Add α] [Mul α] [Scalar α]

namespace Compilation

variable {s s' t : Compilation α} {ns : List (Node α)} {n : Node α} {config : Config}
variable {J : Compilation α → List (Node α) → Prop}

theorem Reached.config_eq (h : Reached config s ns) : s.pass.config = config := by
  induction h with
  | start => rfl
  | @step s ns r h hr ih => exact (r.extends_serve s).2.2.1.symm.trans ih

omit [One α] [Neg α] [Add α] [Mul α] in
theorem Tidy.not_clashes (h : s.Tidy ns) (hn : n ∈ s.nodes ns)
    (hc : s.pass.contains n.id = true) : ¬n.Clashes := by
  rintro ⟨tag, l, r, hm, hl, hr⟩
  have hmn := h.sound.family.preorder_subset hn hm
  rcases h.shaped.factors tag l r hmn (h.shaped.below h.sound.family hn hc hm) with hv | hv
  · exact hl hv
  · exact hr hv

omit [One α] [Neg α] [Add α] [Mul α] in
theorem Answered.error {r : Except Failure (Form α)} {f : Failure}
    (h : Answered J ns n s r s') (hs : s.Tidy ns) (hn : n ∈ s.nodes ns)
    (hknown : s.workspace.verdicts.known n.ref = true)
    (hstrict : s.pass.config.rejectNonfinite = false) (hr : r = .error f) :
    f = .nonconstantProduct ∧ n.Clashes ∨ f = .arrayTooLarge ∧ ¬n.Fits ∨
      f = .numberTooLarge ∧ (Extent.columnLimit : Int) ≤ s'.layout.size := by
  obtain ⟨m, hm, hrefused⟩ := h.stopped f hr
  cases hrefused with
  | @product tag l y hmp hl hy => exact .inl ⟨rfl, tag, l, y, hmp ▸ hm, hl, hy⟩
  | array hfits =>
    exact .inr (.inl ⟨rfl, fun hn => hfits fun d hd => hn d (Node.mem_preorder_trans hm hd)⟩)
  | columns hle => exact .inr (.inr ⟨rfl, hle⟩)
  | @unasked c hc hk =>
    have hcn := Node.mem_preorder_trans hm (Node.child_mem_preorder hc)
    rw [hs.sound.judges.below hs.sound.family hn hknown hcn] at hk
    cases hk
  | nonfinite text h =>
    rw [hstrict] at h
    cases h

omit [One α] [Neg α] [Add α] [Mul α] in
theorem Answered.widened {r : Except Failure (Form α)} {G : Form α}
    (h : Answered J ns n s (.ok G) s') (hn : n ∈ s'.nodes ns) (hr : r = G.withColumns s'.layout.size) :
    ¬n.Clashes ∧
      (∀ f, r = .error f →
        f = .numberTooLarge ∧ (Extent.columnLimit : Int) ≤ s'.layout.size) ∧
      ∀ F, r = .ok F → (F.rows.size : Int) = n.size.count ∧ (F.cols : Int) = s'.layout.size := by
  have hG := h.done G rfl
  obtain ⟨hrows, hcols⟩ := h.tidy.shaped.fills n hn G hG
  refine ⟨h.tidy.not_clashes hn (Pass.contains_of_find? hG), fun f hf => ?_, fun F hF => ?_⟩
  · exact Extent.columns_error (Form.columns_of_withColumns (hr.symm.trans hf) hcols)
      (h.tidy.sound.stacked.size_nonneg h.tidy.nonneg)
  · obtain ⟨hFrows, hFcols, -⟩ := Form.withColumns_eq_ok_iff.mp (hr.symm.trans hF)
    exact ⟨by rw [hFrows, hrows, (h.tidy.nonneg n hn).count_eq], hFcols⟩

/-- The gate is exact. Once the curvature of an expression has been asked for, a pass with the gate
refuses exactly the expressions that are not certified, and a pass without it those that hold a
product of two factors that vary; whatever else is refused is too large. -/
theorem Reached.conicForm_gated {r : Except Failure (Form α)} {v : Vexity}
    (h : Reached config s ns) (hn : n ∈ s.nodes ns) (hrun : conicForm n s = (r, s'))
    (hN : Node.Faithful (s'.nodes ns)) (hsize : ∀ m ∈ s'.nodes ns, m.size.Nonneg)
    (hv : s.workspace.verdicts.vexity? n = some v) (hfinite : config.rejectNonfinite = false) :
    (config.checkDcp = true → ((∃ f, r = .error f ∧ f.Noncompliant) ↔ v = .notDcp)) ∧
      (config.checkDcp = false → n.Fits → s'.layout.size < Extent.columnLimit →
        ((∃ f, r = .error f ∧ f.Noncompliant) ↔ n.Clashes)) ∧
      (∀ f, r = .error f → f.Noncompliant ∨ f = .arrayTooLarge ∧ ¬n.Fits ∨
        f = .numberTooLarge ∧ (Extent.columnLimit : Int) ≤ s'.layout.size) ∧
      ∀ F, r = .ok F → (F.rows.size : Int) = n.size.count ∧ (F.cols : Int) = s'.layout.size := by
  have hgoes : Goes ns (fun _ => False) n.preorder (conicForm n) := goes_conicForm n
  have hmoves := hgoes s (h.sound.family.preorder_subset hn) (by simp)
  rw [Ends, hrun] at hmoves
  have hs := h.tidy (hN.mono hmoves.nodes_subset) fun m hm => hsize m (hmoves.nodes_subset hm)
  have hform := hs.sound.family.formed n hn
  obtain rfl := hs.sound.judges.vexities n hn v hv
  have hknown : s.workspace.verdicts.known n.ref = true := Option.isSome_iff_exists.mpr ⟨_, hv⟩
  have hgated := conicForm_ends kept_trivial hs trivial hn
  rw [Ends, hrun] at hgated
  dsimp only at hgated
  rw [← h.config_eq] at hfinite ⊢
  cases hgated hN with
  | unasked hst hcheck hsettle =>
    rw [Node.settle_of_known hknown] at hsettle
    cases hsettle
  | refused hst hcheck hvn =>
    refine ⟨fun _ => ⟨fun _ => hvn, fun _ => ⟨_, rfl, trivial⟩⟩, fun hc => ?_, fun f hf => ?_, (by simp)⟩
    · rw [hcheck] at hc
      cases hc
    · obtain rfl := Except.error.inj hf
      exact .inl trivial
  | @lowered t _ r hst hvn hanswer =>
    have hlarge {f : Failure} (h : f = .arrayTooLarge ∧ ¬n.Fits ∨
        f = .numberTooLarge ∧ (Extent.columnLimit : Int) ≤ s'.layout.size) :
        ¬f.Noncompliant ∧ (n.Fits → ¬s'.layout.size < Extent.columnLimit) := by
      rcases h with ⟨rfl, hfits⟩ | ⟨rfl, hle⟩
      · exact ⟨id, fun hn => absurd hn hfits⟩
      · exact ⟨id, fun _ => not_lt.mpr hle⟩
    cases r with
    | error f =>
      have hknown := Verdicts.known_of_le hst.workspace hknown
      rcases hanswer.error (hst.tidy hs) (hst.nodes_eq ▸ hn) hknown (hst.pass ▸ hfinite) rfl with
        ⟨rfl, hclash⟩ | h
      · refine ⟨fun hc => absurd (hclash.vexity_eq hform) (hvn hc), fun _ _ _ => ?_, fun f hf => ?_,
          by rintro _ ⟨⟩⟩
        · exact ⟨fun _ => hclash, fun _ => ⟨_, rfl, trivial⟩⟩
        · obtain rfl := Except.error.inj hf
          exact .inl trivial
      · obtain ⟨hf, hfits⟩ := hlarge h
        refine ⟨fun hc => iff_of_false ?_ (hvn hc), fun _ hn hlt => absurd hlt (hfits hn), ?_, by rintro _ ⟨⟩⟩
        · rintro ⟨_, ⟨⟩, hf'⟩
          exact hf hf'
        · rintro _ ⟨⟩
          exact .inr h
    | ok G =>
      obtain ⟨hclash, hwide, hshape⟩ := hanswer.widened (hmoves.nodes_subset hn) rfl
      have hcompliant : ¬∃ f, G.withColumns s'.layout.size = .error f ∧ f.Noncompliant := by
        rintro ⟨f, hf, hf'⟩
        obtain ⟨rfl, -⟩ := hwide f hf
        exact hf'
      exact ⟨fun hc => iff_of_false hcompliant (hvn hc), fun _ _ _ => iff_of_false hcompliant hclash,
        fun f hf => .inr (.inr (hwide f hf)), hshape⟩

theorem conicForm_of_notDcp (hcheck : s.pass.config.checkDcp = true)
    (hv : s.workspace.verdicts.vexity? n = some .notDcp) :
    conicForm n s = (.error (.notCompliant n.text), s) := by
  have hends : (conicForm n).Ends s fun r s' => r = .error (.notCompliant n.text) ∧ s' = s := by
    rw [conicForm, ends_bind, ends_get]
    dsimp only
    rw [if_pos hcheck, ends_bind, onWorkspace, ends_onPart, Workspace.onVerdicts, ends_onPart]
    apply (Node.askVexity_of_vexity? hv).imp
    rintro _ _ ⟨rfl, rfl⟩
    exact ⟨rfl, rfl⟩
  exact Prod.ext hends.1 hends.2

def factor (k : Nat) : Unknown :=
  ⟨k, Identity.ofUnknown k, k, "factor", .scalar, .indeterminate⟩

def clash : Node ℚ :=
  .product ⟨2, .scalar, Identity.ofOperation "*" [(factor 0).id, (factor 1).id]⟩
    (.unknown (factor 0)) (.unknown (factor 1))

def asked : Verdicts := (clash.askVexity .empty).2

def judged (v : Verdicts) (config : Config) : Compilation ℚ :=
  ⟨⟨3, 2, v, 0⟩, .empty, .empty config⟩

def ungated : Config := { checkDcp := false }

theorem judged_eq : asked.vexity? clash = some .notDcp ∧
    (conicForm clash (judged asked ungated)).2.pass.auxiliaries.length = 0 ∧
    (conicForm clash (judged asked ungated)).2.layout.size = 2 ∧
    (factor 0).id ≠ (factor 1).id ∧ clash.id ≠ (factor 0).id ∧ clash.id ≠ (factor 1).id := by
  decide +kernel

def factors : List (Node ℚ) := clash.preorder ++ [.unknown (factor 1), .unknown (factor 0)]

theorem reached_judged (config : Config) : Reached config (judged asked config) factors := by
  let built (objects unknowns : Nat) : Compilation ℚ :=
    ⟨⟨objects, unknowns, .empty, 0⟩, .empty, .empty config⟩
  have hone : Reached config (built 1 1) [.unknown (factor 0)] :=
    Reached.start.step (.unknown "factor" .scalar (.ok .indeterminate)) nofun
  have htwo : Reached config (built 2 2) [.unknown (factor 1), .unknown (factor 0)] :=
    hone.step (.unknown "factor" .scalar (.ok .indeterminate)) nofun
  have hclash : Reached config (built 3 2) factors :=
    htwo.step (.product (.unknown (factor 0)) (.unknown (factor 1)))
      (by simp [Request.operands, nodes])
  have hasked := hclash.step (.vexity clash)
    (by simp [Request.operands, nodes, factors, Node.self_mem_preorder])
  obtain ⟨hbuilt, hstate⟩ := Request.vexity_eq clash (built 3 2)
  rw [hbuilt, hstate] at hasked
  rw [judged, asked]
  exact hasked

theorem mem_factors {m : Node ℚ} (h : m ∈ factors) :
    m = clash ∨ m = .unknown (factor 0) ∨ m = .unknown (factor 1) := by
  simp [factors, clash, Node.preorder] at h ⊢
  tauto

theorem factors_faithful : Node.Faithful factors := by
  obtain ⟨-, -, -, h01, h20, h21⟩ := judged_eq
  intro m hm n hn he
  rcases mem_factors hm with rfl | rfl | rfl <;> rcases mem_factors hn with rfl | rfl | rfl <;>
    first
      | rfl
      | exact absurd he h20
      | exact absurd he h21
      | exact absurd he.symm h20
      | exact absurd he.symm h21
      | exact absurd he h01
      | exact absurd he.symm h01

theorem clash_refused :
    (∃ f, (conicForm clash (judged asked {})).1 = .error f ∧ f.Noncompliant) ∧
      ∃ f, (conicForm clash (judged asked ungated)).1 = .error f ∧ f.Noncompliant := by
  have hsize : ∀ m ∈ factors, m.size.Nonneg := by
    intro m hm
    rcases mem_factors hm with rfl | rfl | rfl <;> exact ⟨by decide, by decide⟩
  have hmem (v : Verdicts) (config : Config) : clash ∈ (judged v config).nodes factors :=
    List.mem_append_right _ (List.mem_append_left _ clash.self_mem_preorder)
  have hon := reached_judged {}
  have hoff := reached_judged ungated
  obtain ⟨hvexity, hlength, hlayout, -⟩ := judged_eq
  generalize asked = v at *
  have hgated : conicForm clash (judged v {}) = (.error (.notCompliant clash.text), judged v {}) :=
    conicForm_of_notDcp rfl hvexity
  have hrun : conicForm clash (judged v ungated) =
    ((conicForm clash (judged v ungated)).1, (conicForm clash (judged v ungated)).2) :=
    Prod.mk.eta.symm
  have hnodes : (conicForm clash (judged v ungated)).2.nodes factors = factors := by
    rw [nodes, List.eq_nil_of_length_eq_zero hlength]
    rfl
  obtain ⟨hon, -⟩ := hon.conicForm_gated (hmem _ _) hgated factors_faithful hsize hvexity rfl
  obtain ⟨-, hoff, -⟩ := hoff.conicForm_gated (hmem _ _) hrun (hnodes.symm ▸ factors_faithful)
    (hnodes.symm ▸ hsize) hvexity rfl
  rw [hgated]
  refine ⟨(hon rfl).mpr rfl, (hoff rfl ?_ ?_).mpr ?_⟩
  · intro m hm
    rcases mem_factors (List.mem_append_left _ hm) with rfl | rfl | rfl <;> decide
  · rw [hlayout]
    decide
  · exact ⟨_, _, _, clash.self_mem_preorder, by rintro ⟨⟩, by rintro ⟨⟩⟩

def vast : Unknown :=
  ⟨0, Identity.ofUnknown 0, 0, "vast", ⟨9223372036854775808, 1⟩, .indeterminate⟩

def small : Unknown := ⟨1, Identity.ofUnknown 1, 1, "small", ⟨2, 1⟩, .indeterminate⟩

def crowded : Compilation ℚ :=
  ⟨⟨2, 2, ((Node.unknown (α := ℚ) small).askVexity .empty).2, 0⟩,
    Layout.empty.register (.unknown vast), .empty {}⟩

theorem reached_crowded : Reached {} crowded [.unknown small, .unknown vast] := by
  have hvast : Reached (α := ℚ) {} (untouched 1 1) [.unknown vast] :=
    Reached.start.step (.unknown "vast" ⟨9223372036854775808, 1⟩ (.ok .indeterminate)) nofun
  have hsmall : Reached (α := ℚ) {} (untouched 2 2) [.unknown small, .unknown vast] :=
    hvast.step (.unknown "small" ⟨2, 1⟩ (.ok .indeterminate)) nofun
  have hasked := hsmall.step (.vexity (.unknown small)) (by simp [Request.operands, nodes])
  obtain ⟨hbuilt, hstate⟩ := Request.vexity_eq (Node.unknown (α := ℚ) small) (untouched 2 2)
  rw [hbuilt, hstate] at hasked
  exact hasked.step (.register vast) (by simp [Request.operands, nodes])

/-- Beside an unknown of `2 ^ 63` entries a compliant one of two entries has no form: its columns
cannot be numbered. -/
theorem small_crowded_out : Reached {} crowded [.unknown small, .unknown vast] ∧
    (∀ m ∈ crowded.nodes [.unknown small, .unknown vast], m.size.Nonneg) ∧
    crowded.workspace.verdicts.vexity? (.unknown (α := ℚ) small) = some .affine ∧
    (conicForm (.unknown small) crowded).1.map (·.cols) = .error .numberTooLarge := by
  refine ⟨reached_crowded, fun m hm => ?_, ?_⟩
  · have hm : m = .unknown small ∨ m = .unknown vast := by simpa [nodes, crowded, Pass.empty] using hm
    rcases hm with rfl | rfl <;> exact ⟨by decide, by decide⟩
  · decide +kernel

end Compilation

end DisciplinedConvex
