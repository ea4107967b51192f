import DisciplinedConvex.Proofs.Products

open DisciplinedConvex.Task

namespace DisciplinedConvex

variable {α : Type}

section Signs

variable [Field α] [LinearOrder α] [IsStrictOrderedRing α] [Scalar α] [ExactScalar α]

theorem Sign.ofEntries_recip (xs : Array α) :
    ofEntries (xs.map Scalar.recip) = ofEntries xs := by
  have hzero (a : α) : Scalar.isZero (Scalar.recip a) = Scalar.isZero a := by
    rw [Bool.eq_iff_iff, ExactScalar.isZero_iff, ExactScalar.isZero_iff, ExactScalar.recip_eq,
      inv_eq_zero]
  have hnonneg (a : α) : Scalar.isNonneg (Scalar.recip a) = Scalar.isNonneg a := by
    rw [Bool.eq_iff_iff, ExactScalar.isNonneg_iff, ExactScalar.isNonneg_iff, ExactScalar.recip_eq,
      inv_nonneg]
  have hnonpos (a : α) : Scalar.isNonpos (Scalar.recip a) = Scalar.isNonpos a := by
    rw [Bool.eq_iff_iff, ExactScalar.isNonpos_iff, ExactScalar.isNonpos_iff, ExactScalar.recip_eq,
      inv_nonpos]
  simp only [ofEntries, Array.all_map, Function.comp_def, hzero, hnonneg, hnonpos]

/-- What scaling by numbers of the given signs makes of a curvature. -/
structure Vexity.Scales (xs : Array α) (u v : Vexity) : Prop where
  constant : u = .constant → v = .constant
  kept : (∀ a ∈ xs, 0 < a) → v = u
  negated : xs ≠ #[] → (∀ a ∈ xs, a < 0) → v = -u
  mixed : (∃ a ∈ xs, 0 < a) → (∃ a ∈ xs, a < 0) →
    v = if u = .constant ∨ u = .affine then u else .notDcp

omit [IsStrictOrderedRing α] in
theorem Vexity.scales (xs : Array α) (u : Vexity) :
    Scales xs u ((Sign.ofEntries xs * Monotonicity.nondecreasing) * u) := by
  have hfails {p : α → Bool} {a : α} (ha : a ∈ xs) (hp : ¬p a = true) : ¬xs.all p = true :=
    fun h => hp (Array.all_eq_true'.mp h a ha)
  refine ⟨?_, ?_, ?_, ?_⟩
  · rintro rfl
    exact Vexity.mul_constant _
  · intro h
    have hnonneg : xs.all Scalar.isNonneg = true :=
      Array.all_eq_true'.mpr fun a ha => (ExactScalar.isNonneg_iff a).mpr (le_of_lt (h a ha))
    rw [Sign.ofEntries, if_pos hnonneg]
    split
    · rfl
    · rfl
  · intro hne h
    obtain ⟨a, ha⟩ := Array.exists_mem_of_ne_empty xs hne
    have hzero := hfails ha fun hz => (h a ha).ne ((ExactScalar.isZero_iff a).mp hz)
    have hnonneg := hfails ha fun hp => (h a ha).not_ge ((ExactScalar.isNonneg_iff a).mp hp)
    have hnonpos : xs.all Scalar.isNonpos = true :=
      Array.all_eq_true'.mpr fun a ha => (ExactScalar.isNonpos_iff a).mpr (le_of_lt (h a ha))
    rw [Sign.ofEntries, if_neg hzero, if_neg hnonneg, if_pos hnonpos]
    rfl
  · rintro ⟨a, ha, hpos⟩ ⟨b, hb, hneg⟩
    have hzero := hfails ha fun hz => hpos.ne' ((ExactScalar.isZero_iff a).mp hz)
    have hnonneg := hfails hb fun hp => hneg.not_ge ((ExactScalar.isNonneg_iff b).mp hp)
    have hnonpos := hfails ha fun hp => hpos.not_ge ((ExactScalar.isNonpos_iff a).mp hp)
    rw [Sign.ofEntries, if_neg hzero, if_neg hnonneg, if_neg hnonpos]
    rfl

end Signs

namespace Node

section Values

variable [Field α] {p x c k : Node α} {C K : Dense α}

theorem Entrywise.div [LinearOrder α] [Scalar α] [ExactScalar α] (h : p.Entrywise (· * ·) x k)
    (hs : x.size.Meets c.size) (hc : c.Formed) (hC : c.constantValue = .ok C)
    (hk : k.constantValue = .ok (C.map Scalar.recip)) (hsize : k.size = c.size) :
    p.Entrywise (· / ·) x c where
  size := by
    rw [h.size, hsize]
  value values := by
    have hcs : C.size = c.size := evaluate_size hc hC
    rw [h.value, evaluate_of_constantValue hk, evaluate_of_constantValue hC, hsize]
    cases x.evaluate values with
    | error e => rfl
    | ok A =>
      refine congrArg Except.ok (ofFn_congr fun i hi j hj => ?_)
      have hrecip {i j : Nat} (hi : i < c.size.height) (hj : j < c.size.width) :
          (C.map Scalar.recip).entry i j = (C.entry i j)⁻¹ := by
        rw [Dense.entry_map _ C (Dense.rows_eq hcs ▸ hi) (Dense.cols_eq hcs ▸ hj),
          ExactScalar.recip_eq]
      have hstretch : c.size.stretch (C.map Scalar.recip).entry i j =
          (c.size.stretch C.entry i j)⁻¹ := by
        unfold Size.stretch
        split
        · next hone => exact hrecip (hone ▸ Size.height_pos_scalar) (hone ▸ Size.width_pos_scalar)
        · next hone =>
          have hpc : p.size = c.size := by
            rw [h.size, hsize]
            split
            · rfl
            · next hx => exact (hs.resolve_left hx).resolve_left hone
          exact hrecip (hpc ▸ hi) (hpc ▸ hj)
      rw [hstretch, div_eq_mul_inv]

end Values

section Operations

variable [Scalar α]
variable {w : Workspace} {x c : Node α} {C : Dense α} {r : Except Failure (Node α)}

theorem vexity_scaled_right (tag : Tag) {l k : Node α} (hk : k.vexity = .constant) :
    (product tag l k).vexity = (k.sign * Monotonicity.nondecreasing) * l.vexity := by
  rw [vexity_product, if_pos hk, if_pos hk]
  split
  · next hl => rw [hl, Vexity.mul_constant]
  · rfl

theorem vexity_scaled_left (tag : Tag) {k y : Node α} (hk : k.vexity = .constant) :
    (product tag k y).vexity = (k.sign * Monotonicity.nondecreasing) * y.vexity := by
  rw [vexity_product, if_pos hk]
  split
  · next hy => rw [hy, Vexity.mul_constant]
  · rfl

theorem vexity_scaled_weighted (tag : Tag) (k : Constant α) (y : Node α) :
    (weighted tag k y).vexity =
      (Sign.ofEntries k.value.vec * Monotonicity.nondecreasing) * y.vexity := by
  have haffine {v : Vexity} (hv : v ≠ .constant) : .affine + v = v := by
    cases v
    · exact absurd rfl hv
    all_goals rfl
  rw [vexity_weighted]
  split
  · next hy => rw [hy, Vexity.mul_constant]
  · next hy => exact haffine (scale_ne_constant _ hy)

variable [Field α] [LinearOrder α] [IsStrictOrderedRing α] [ExactScalar α]

theorem Divides.outcome (h : Divides w x c r) (hx : x.Formed) (hc : c.Formed) (hask : w.Answers c)
    (hC : c.constantValue = .ok C)
    (hal : x.id = (constant (w.nextConstant (C.map Scalar.recip))).id →
      x.Alike (constant (w.nextConstant (C.map Scalar.recip)))) :
    (¬x.size.Meets c.size ∧ r = .error (.unequalSizes c.size x.size)) ∨
      x.size.Meets c.size ∧ ∃ p, r = .ok p ∧ p.Entrywise (· / ·) x c ∧
        p.vexity = (Sign.ofEntries C.vec * Monotonicity.nondecreasing) * x.vexity := by
  let k := constant (w.nextConstant (C.map Scalar.recip))
  have hk : k.constantValue = .ok (C.map Scalar.recip) := rfl
  have hsize : k.size = c.size := (evaluate_size hc hC : C.size = c.size)
  have hsign : k.sign = Sign.ofEntries C.vec := Sign.ofEntries_recip C.vec
  have hconst : c.vexity = .constant :=
    (vexity_eq_constant_iff hc).mpr (ground_of_constantValue hC)
  cases h with
  | unasked h => exact absurd hask h
  | varying h => exact absurd hconst h
  | failed _ hf =>
    rw [hC] at hf
    cases hf
  | scaled _ hA hone h =>
    obtain rfl := Except.ok.inj (hC.symm.trans hA)
    have hmeets : x.size.Meets c.size := .inr (.inl hone)
    cases h with
    | square hxy ht =>
      have hal := hal hxy.2
      refine .inr ⟨hmeets, _, rfl,
        (entrywise_square ⟨ht, hx⟩ hal).div hmeets hc hC hk hsize, ?_⟩
      have hxc : x.vexity = .constant := hal.vexity_eq
      rw [vexity_square, if_pos hxc, hxc, Vexity.mul_constant]
    | product _ ht =>
      have hentry := entrywise_product ⟨ht, hx, trivial⟩ (.inr (hsize.trans hone))
      refine .inr ⟨hmeets, _, rfl, hentry.div hmeets hc hC hk hsize, ?_⟩
      rw [vexity_scaled_right _ rfl]
      exact congrArg (fun s : Sign => (s * Monotonicity.nondecreasing) * x.vexity) hsign
    | unfit hnone =>
      rw [Size.product?_eq_none_iff] at hnone
      exact absurd (hsize.trans hone) hnone.2.1
  | @stretched _ tag _ hA hone hx1 ht =>
    obtain rfl := Except.ok.inj (hC.symm.trans hA)
    have hmeets : x.size.Meets c.size := .inl hx1
    have hp : k.size.product? x.size = some tag.size := by
      rw [Size.product?, if_neg (hsize ▸ hone), if_pos hx1, hsize, ← ht]
    have hentry : (product tag k x).Entrywise (· * ·) k x :=
      entrywise_product ⟨hp, trivial, hx⟩ (.inr hx1)
    refine .inr ⟨hmeets, _, rfl,
      (hentry.swap (hsize ▸ hmeets) hk).div hmeets hc hC hk hsize, ?_⟩
    rw [vexity_scaled_left _ rfl]
    exact congrArg (fun s : Sign => (s * Monotonicity.nondecreasing) * x.vexity) hsign
  | @weighted _ weights tag _ hA hone hxs hw ht =>
    obtain rfl := Except.ok.inj (hC.symm.trans hA)
    have hmeets : x.size.Meets c.size := .inr (.inr hxs.symm)
    have hwk : k.constantValue = .ok weights.value := by rw [hw, hk]
    have hform : (Node.weighted tag weights x).Formed :=
      weighted_formed (x := k) trivial hx hwk (hsize.trans hxs) ht
    have hentry := entrywise_weighted hform hwk (hsize.trans hxs)
    refine .inr ⟨hmeets, _, rfl,
      (hentry.swap (hsize ▸ hmeets) hk).div hmeets hc hC hk hsize, ?_⟩
    rw [vexity_scaled_weighted, hw]
    exact congrArg (fun s : Sign => (s * Monotonicity.nondecreasing) * x.vexity) hsign
  | unequal _ _ hone hxs =>
    refine .inl ⟨?_, rfl⟩
    rintro (h | h | h)
    · exact hone (.inr h)
    · exact hone (.inl h)
    · exact hxs h.symm

end Operations

end Node

theorem Operand.toNode_sound [Field α] [Scalar α] {w w' : Workspace} {N : List (Node α)}
    {c : Node α} {d : Operand α} (hw : w.Sound N) (hd : ∀ n, d = .node n → n ∈ N)
    (h : d.toNode w = (.ok c, w')) : w'.Sound (c :: N) := by
  have hends : d.toNode.Ends w fun r w' => ∀ c, r = .ok c → w'.Sound (c :: N) := by
    cases d with
    | node n =>
      rintro c hc
      obtain rfl := Except.ok.inj hc
      refine hw.congr fun m => ⟨fun hm => ?_, List.mem_cons_of_mem _⟩
      rcases List.mem_cons.mp hm with rfl | hm
      · exact hd m rfl
      · exact hm
    | literal kind data =>
      rw [toNode, ends_bind, ends_lift]
      cases data with
      | error e => simp
      | ok T =>
        dsimp only
        rw [ends_bind, ends_lift]
        cases Dense.ofTensor T with
        | error e => simp
        | ok A =>
          dsimp only
          rw [ends_bind]
          apply (Workspace.build_constant_ends A hw).imp
          rintro _ w₁ ⟨rfl, -, hw₁⟩ c hc
          obtain rfl := Except.ok.inj hc
          exact hw₁
  rw [Ends, h] at hends
  exact hends c rfl

namespace Compilation

variable [Field α] [LinearOrder α] [IsStrictOrderedRing α] [Scalar α] [ExactScalar α]
variable {config : Config} {s : Compilation α} {ns : List (Node α)} {x c : Node α}
variable {d : Operand α} {w : Workspace} {v : Vexity}

/-- Division by numbers, or by an expression that has been asked about, is entrywise division. What
a constant divisor makes of the curvature of the dividend depends on the signs of its entries. -/
theorem Reached.divide_exact (h : Reached config s ns) (hx : x ∈ s.nodes ns)
    (hd : ∀ n, d = .node n → n ∈ s.nodes ns) (hc : d.toNode s.workspace = (.ok c, w))
    (hv : (c.askVexity w.verdicts).1 = .ok v) :
    ((Operand.node x).quotient d).Ends s.workspace fun r _ =>
      (¬c.Ground → r = .error .nonconstantDivisor) ∧
      (c.Ground → ∀ f, c.constantValue = .error f →
        f = .arrayTooLarge ∧ ¬c.Fits ∧ r = .error f) ∧
      ∀ C, c.constantValue = .ok C → (∀ a ∈ C.vec, a ≠ 0) →
        Node.Faithful [x, .constant (w.nextConstant (C.map Scalar.recip))] →
        ((∃ a b, r = .error (.unequalSizes a b)) ↔
          x.size ≠ .scalar ∧ c.size ≠ .scalar ∧ x.size ≠ c.size) ∧
        (∀ f, r = .error f → ∃ a b, f = .unequalSizes a b) ∧
        ∀ p, r = .ok p → p.Entrywise (· / ·) x c ∧
          ∀ {config' : Config} {t : Compilation α} {ms : List (Node α)}, Reached config' t ms →
            p ∈ t.nodes ms → ∀ u v, (x.askVexity s.workspace.verdicts).1 = .ok u →
              (p.askVexity t.workspace.verdicts).1 = .ok v → Vexity.Scales C.vec u v := by
  have hs := h.sound.toSound
  have hw := Operand.toNode_sound hs hd hc
  have hmem : c ∈ c :: s.nodes ns := List.mem_cons_self ..
  have hfx := hs.family.formed x hx
  have hfc := hw.family.formed c hmem
  have hquotient : ((Operand.node x).quotient d).Ends s.workspace fun r _ => x.Divides w c r := by
    refine (ends_bind ..).mpr ?_
    rw [Ends, hc]
    exact Node.divide_ends hw (List.mem_cons_of_mem _ hx) hmem
  apply hquotient.imp
  intro r _ hr
  refine ⟨fun hg => ?_, fun hg f hf => ?_, fun C hC _ hN => ?_⟩
  · cases hr with
    | unasked h => exact absurd ⟨v, hv⟩ h
    | varying _ => rfl
    | failed hc | scaled hc | stretched hc | weighted hc | unequal hc =>
      exact absurd ((Node.vexity_eq_constant_iff hfc).mp hc) hg
  · obtain ⟨rfl, hfits⟩ := hg.constantValue_error hfc hf
    refine ⟨rfl, hfits, ?_⟩
    cases hr with
    | unasked h => exact absurd ⟨v, hv⟩ h
    | varying hc => exact absurd ((Node.vexity_eq_constant_iff hfc).mpr hg) hc
    | failed _ he => rw [Except.error.inj (hf.symm.trans he)]
    | scaled _ hA | stretched _ hA | weighted _ hA | unequal _ hA =>
      rw [hf] at hA
      cases hA
  · have hal : x.id = (Node.constant (w.nextConstant (C.map Scalar.recip))).id →
        x.Alike (.constant (w.nextConstant (C.map Scalar.recip))) := hN x (by simp) _ (by simp)
    rcases hr.outcome hfx hfc ⟨v, hv⟩ hC hal with ⟨hmeets, rfl⟩ | ⟨hmeets, p, rfl, hp, hvexity⟩
    · refine ⟨iff_of_true ⟨_, _, rfl⟩ ?_, fun f hf => ⟨_, _, (Except.error.inj hf).symm⟩, by simp⟩
      simpa [Size.Meets] using hmeets
    · refine ⟨iff_of_false (by simp) ?_, by simp, fun q hq => ?_⟩
      · rintro ⟨hx1, hc1, hxc⟩
        exact hmeets.elim hx1 fun h => h.elim hc1 hxc
      · obtain rfl := Except.ok.inj hq
        refine ⟨hp, fun {_ t ms} ht hpt u v hu hv => ?_⟩
        rw [hs.vexity_eq hx hu, ht.sound.toSound.vexity_eq hpt hv, hvexity]
        exact Vexity.scales C.vec x.vexity

theorem amounts_over_rates :
    ∃ p, ((Operand.node (.unknown amounts)).quotient (.node rates) pricing.workspace).1 = .ok p ∧
      p.evaluate (amountsAre 5 6) = .ok (.column #[5 / 2, -2]) := by
  have hids : ([.unknown amounts, .constant (pricing.workspace.nextConstant
      ((Dense.column #[(2 : ℚ), -3]).map Scalar.recip))].map Node.id).Nodup := by
    decide +kernel
  obtain ⟨-, -, hvalue⟩ := reached_pricing.divide_exact (x := .unknown amounts) (d := .node rates)
    (by simp [nodes, priced]) (by rintro _ ⟨⟩; simp [nodes, priced]) rfl askVexity_rates
  obtain ⟨hunequal, herror, hquotient⟩ := hvalue (.column #[2, -3]) rfl (by decide)
    fun m hm n hn he => congrArg Node.forget (List.inj_on_of_nodup_map hids hm hn he)
  cases hr : ((Operand.node (.unknown amounts)).quotient (.node rates) pricing.workspace).1 with
  | ok p =>
    obtain ⟨hp, -⟩ := hquotient p hr
    have hsize : p.size = ⟨2, 1⟩ := hp.size
    refine ⟨p, rfl, ?_⟩
    rw [hp.value, evaluate_amounts, hsize]
    exact congrArg Except.ok (Dense.ext_vec rfl rfl (by decide +kernel))
  | error f =>
    obtain ⟨a, b, rfl⟩ := herror f hr
    exact absurd rfl (hunequal.mp ⟨a, b, hr⟩).2.2

end Compilation

end DisciplinedConvex
