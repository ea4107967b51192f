import DisciplinedConvex.Proofs.Elementwise

open DisciplinedConvex.Task

namespace DisciplinedConvex

variable {α : Type}

def Size.stretch (s : Size) (f : Nat → Nat → α) (i j : Nat) : α :=
  if s = .scalar then f 0 0 else f i j

theorem Size.stretch_inside {s : Size} (f : Nat → Nat → α) {i j : Nat} (hi : i < s.height)
    (hj : j < s.width) : s.stretch f i j = f i j := by
  unfold stretch
  split
  · next hs =>
    subst hs
    obtain rfl : i = 0 := Nat.lt_one_iff.mp hi
    obtain rfl : j = 0 := Nat.lt_one_iff.mp hj
    rfl
  · rfl

def Size.Meets (s t : Size) : Prop := s = .scalar ∨ t = .scalar ∨ s = t

theorem Dense.Holds.eq_ofFn [Zero α] {A : Dense α} {s : Size} {f : Nat → Nat → α}
    (h : A.Holds s f) : A = .ofFn s.height s.width f := by
  refine h.eq (g := f) ⟨?_, fun i hi j hj => entry_ofFn f hi hj⟩ fun _ _ _ _ => rfl
  rw [← h.size]
  rfl

namespace Node

/-- A node whose value is found entry by entry from those of two others; the only entry of a scalar
is taken with every entry of the other one. -/
structure Entrywise [Zero α] [Add α] [Mul α] (op : α → α → α) (p x y : Node α) : Prop where
  size : p.size = if x.size = .scalar then y.size else x.size
  value : ∀ values, p.evaluate values = do
    let A ← x.evaluate values
    let B ← y.evaluate values
    return .ofFn p.size.height p.size.width fun i j =>
      op (x.size.stretch A.entry i j) (y.size.stretch B.entry i j)

section Values

variable [Field α] {p x y : Node α} {tag : Tag} {values : Assignment α}

structure Product (p x y : Node α) : Prop where
  size : x.size.product? y.size = some p.size
  value : ∀ values, p.evaluate values = do
    let A ← x.evaluate values
    let B ← y.evaluate values
    if x.size = .scalar ∨ y.size = .scalar ∨ Extent.fits A.rows B.cols then
      return .ofFn p.size.height p.size.width (times x.size y.size A.entry B.entry)
    else throw .arrayTooLarge

theorem holds_entry {A : Dense α} {s : Size} (h : A.size = s) : A.Holds s A.entry :=
  ⟨h, fun _ _ _ _ => rfl⟩

theorem evaluate_bind_congr (hx : x.Formed) (hy : y.Formed)
    {f g : Dense α → Dense α → Except Failure (Dense α)}
    (h : ∀ A B, A.size = x.size → B.size = y.size → f A B = g A B) :
    (do f (← x.evaluate values) (← y.evaluate values)) =
      (do g (← x.evaluate values) (← y.evaluate values)) := by
  cases hA : x.evaluate values with
  | error e => rfl
  | ok A =>
    cases hB : y.evaluate values with
    | error e => rfl
    | ok B => exact h A B (evaluate_size hx hA) (evaluate_size hy hB)

theorem multiplyValues_eq {left right s : Size} {A B : Dense α}
    (hs : left.product? right = some s) (hA : A.size = left) (hB : B.size = right) :
    multiplyValues left right A B =
      if left = .scalar ∨ right = .scalar ∨ Extent.fits A.rows B.cols then
        .ok (.ofFn s.height s.width (times left right A.entry B.entry))
      else .error .arrayTooLarge := by
  cases h : multiplyValues left right A B with
  | ok C =>
    have hfits : left = .scalar ∨ right = .scalar ∨ Extent.fits A.rows B.cols := by
      unfold multiplyValues at h
      split at h
      · next hl => exact .inl hl
      · split at h
        · next hr => exact .inr (.inl hr)
        · split at h
          · next hf => exact .inr (.inr hf)
          · cases h
    rw [if_pos hfits]
    exact congrArg _ (multiplyValues_holds hs (holds_entry hA) (holds_entry hB) h).eq_ofFn
  | error e =>
    unfold multiplyValues at h
    split at h
    · cases h
    · next hl =>
      split at h
      · cases h
      · next hr =>
        split at h
        · cases h
        · next hf =>
          rw [if_neg (by simp [hl, hr, hf])]
          exact h.symm

theorem product_product (hn : (product tag x y).Formed) : (product tag x y).Product x y where
  size := hn.1
  value _ := evaluate_bind_congr hn.2.1 hn.2.2 fun _ _ hA hB => multiplyValues_eq hn.1 hA hB

theorem times_eq_stretch {left right s : Size} (h : left = .scalar ∨ right = .scalar)
    (hs : left.product? right = some s) (f g : Nat → Nat → α) : ∀ i < s.height, ∀ j < s.width,
      times left right f g i j = left.stretch f i j * right.stretch g i j := by
  intro i hi j hj
  unfold Size.product? at hs
  unfold times
  by_cases hl : left = .scalar
  · rw [if_pos hl] at hs
    obtain rfl := Option.some.inj hs
    rw [if_pos hl, Size.stretch, if_pos hl, Size.stretch_inside g hi hj]
  · rw [if_neg hl, if_pos (h.resolve_left hl)] at hs
    obtain rfl := Option.some.inj hs
    rw [if_neg hl, if_pos (h.resolve_left hl), Size.stretch_inside f hi hj, Size.stretch,
      if_pos (h.resolve_left hl)]

theorem ofFn_congr {r c : Nat} {f g : Nat → Nat → α} (h : ∀ i < r, ∀ j < c, f i j = g i j) :
    Dense.ofFn r c f = .ofFn r c g := by
  refine Dense.Holds.eq (s := ⟨r, c⟩) (f := f) (g := g) ⟨rfl, fun i hi j hj => ?_⟩
    ⟨rfl, fun i hi j hj => ?_⟩ h
  · exact Dense.entry_ofFn f hi hj
  · exact Dense.entry_ofFn g hi hj

theorem entrywise_product (hn : (product tag x y).Formed)
    (hone : x.size = .scalar ∨ y.size = .scalar) :
    (product tag x y).Entrywise (· * ·) x y where
  size := by
    have hs : x.size.product? y.size = some tag.size := hn.1
    unfold Size.product? at hs
    split at hs
    · next hx => rw [if_pos hx]; exact (Option.some.inj hs).symm
    · next hx =>
      rw [if_pos (hone.resolve_left hx)] at hs
      rw [if_neg hx]
      exact (Option.some.inj hs).symm
  value values := by
    refine evaluate_bind_congr hn.2.1 hn.2.2 fun A B hA hB => ?_
    have hfits : x.size = .scalar ∨ y.size = .scalar ∨ Extent.fits A.rows B.cols := by
      rcases hone with h | h
      · exact .inl h
      · exact .inr (.inl h)
    rw [multiplyValues_eq hn.1 hA hB, if_pos hfits]
    exact congrArg _ (ofFn_congr (times_eq_stretch hone hn.1 _ _))

theorem entrywise_square (hn : (square tag x).Formed) (hxy : x.Alike y) :
    (square tag x).Entrywise (· * ·) x y where
  size := by
    have hs : tag.size = x.size := hn.1
    rw [← hxy.size_eq, ite_self]
    exact hs
  value values := by
    have hs : tag.size = x.size := hn.1
    rw [← hxy.evaluate_eq, ← hxy.size_eq, evaluate]
    cases hA : x.evaluate values with
    | error e => rfl
    | ok A =>
      have hA := evaluate_size hn.2 hA
      have hholds : (A.map fun a => a * a).Holds tag.size fun i j => x.size.stretch A.entry i j *
          x.size.stretch A.entry i j := by
        refine ⟨hA.trans hs.symm, fun i hi j hj => ?_⟩
        rw [hs] at hi hj
        rw [Size.stretch_inside _ hi hj]
        exact Dense.entry_map _ A (Dense.rows_eq hA ▸ hi) (Dense.cols_eq hA ▸ hj)
      exact congrArg Except.ok hholds.eq_ofFn

theorem entrywise_weighted {c : Constant α} (hn : (weighted tag c y).Formed)
    (hx : x.constantValue = .ok c.value) (hs : x.size = y.size) :
    (weighted tag c y).Entrywise (· * ·) x y where
  size := by
    rw [hs, ite_self]
    exact hn.2.1
  value values := by
    have ht : tag.size = y.size := hn.2.1
    rw [evaluate_of_constantValue hx, evaluate]
    cases hB : y.evaluate values with
    | error e => rfl
    | ok B =>
      have hB := evaluate_size hn.2.2 hB
      have hholds : (c.value.hadamard B).Holds tag.size fun i j =>
          x.size.stretch c.value.entry i j * y.size.stretch B.entry i j := by
        refine ⟨hn.1.trans ht.symm, fun i hi j hj => ?_⟩
        rw [ht] at hi hj
        rw [hs, Size.stretch_inside _ hi hj, Size.stretch_inside _ hi hj]
        exact Dense.entry_hadamard _ _ (Dense.rows_eq hn.1 ▸ hi) (Dense.cols_eq hn.1 ▸ hj)
      exact congrArg Except.ok hholds.eq_ofFn

theorem Entrywise.swap {x y : Node α} (h : p.Entrywise (· * ·) y x) (hs : x.size.Meets y.size)
    {A : Dense α} (hy : y.constantValue = .ok A) : p.Entrywise (· * ·) x y where
  size := by
    rw [h.size]
    rcases hs with hx | hy | hs
    · rw [if_pos hx, hx]
      split
      · next hy => exact hy.symm
      · rfl
    · rw [if_pos hy, hy]
      split
      · next hx => exact hx
      · rfl
    · rw [hs]
  value values := by
    rw [h.value, evaluate_of_constantValue hy]
    cases x.evaluate values with
    | error e => rfl
    | ok B =>
      change Except.ok _ = Except.ok _
      simp only [mul_comm]

theorem Entrywise.product (h : p.Entrywise (· * ·) x y) (hx : x.Formed) (hy : y.Formed)
    (hone : x.size = .scalar ∨ y.size = .scalar)
    (hs : x.size.product? y.size = some p.size) : p.Product x y where
  size := hs
  value values := by
    rw [h.value]
    refine evaluate_bind_congr hx hy fun A B _ _ => ?_
    have hfits : x.size = .scalar ∨ y.size = .scalar ∨ Extent.fits A.rows B.cols := by
      rcases hone with h | h
      · exact .inl h
      · exact .inr (.inl h)
    rw [if_pos hfits]
    exact congrArg _ (ofFn_congr (times_eq_stretch hone hs _ _)).symm

theorem weighted_formed {c : Constant α} (hx : x.Formed) (hy : y.Formed)
    (hc : x.constantValue = .ok c.value) (hs : x.size = y.size) (ht : tag.size = y.size) :
    (weighted tag c y).Formed :=
  ⟨(evaluate_size hx hc).trans hs, ht, hy⟩

theorem Multiplies.product_of_ok {r : Except Failure (Node α)} (h : x.Multiplies y r)
    (hx : x.Formed) (hy : y.Formed) (hxy : x.id = y.id → x.Alike y) :
    (∃ p, r = .ok p ∧ p.Product x y) ∨
      r = .error (.unmultipliable x.size y.size) ∧ x.size.product? y.size = none := by
  cases h with
  | @square tag hid ht =>
    have hal := hxy hid.2
    refine .inl ⟨_, rfl, (entrywise_square ⟨ht, hx⟩ hal).product hx hy (.inl hid.1) ?_⟩
    rw [← hal.size_eq, hid.1]
    exact congrArg some (hid.1.symm.trans ht.symm)
  | product _ ht => exact .inl ⟨_, rfl, product_product ⟨ht, hx, hy⟩⟩
  | unfit hs => exact .inr ⟨rfl, hs⟩

end Values

section Operations

variable [Field α] [Scalar α] {p x y : Node α} {w : Workspace} {r : Except Failure (Node α)}

theorem Weighs.outcome (h : x.Weighs y r) (hx : x.Formed) (hy : y.Formed)
    (hc : x.vexity = .constant) :
    (x.size = y.size ∧ ∃ p A, r = .ok p ∧ x.constantValue = .ok A ∧ p.Entrywise (· * ·) x y) ∨
      (x.size ≠ y.size ∧ r = .error (.unequalSizes x.size y.size)) ∨
      ¬x.Fits ∧ r = .error .arrayTooLarge := by
  cases h with
  | weighted hc hs ht =>
    exact .inl ⟨hs, _, _, rfl, hc, entrywise_weighted (weighted_formed hx hy hc hs ht) hc hs⟩
  | unequal _ hs => exact .inr (.inl ⟨hs, rfl⟩)
  | failed hf =>
    obtain ⟨rfl, hfits⟩ := ((vexity_eq_constant_iff hx).mp hc).constantValue_error hx hf
    exact .inr (.inr ⟨hfits, rfl⟩)

/-- Two nodes neither of which varies alone: their entrywise product has to be refused. -/
def Clash (x y : Node α) : Prop :=
  x.vexity ≠ .constant ∧ y.vexity ≠ .constant ∧ x.id ≠ y.id ∧ x.size ≠ .scalar ∧ y.size ≠ .scalar

/-- A constant and another node, neither of them a scalar, whose sizes differ. -/
def Misfit (x y : Node α) : Prop :=
  (x.vexity = .constant ∨ y.vexity = .constant) ∧ x.size ≠ .scalar ∧ y.size ≠ .scalar ∧
    x.size ≠ y.size

/-- Both operands answer a question about them, where it decides what is built. -/
def Heard (w : Workspace) (x y : Node α) : Prop :=
  x.id = y.id ∨ ¬(x.size = .scalar ∨ y.size = .scalar) → w.Answers x ∧ (w.asked x).Answers y

theorem Dots.outcome (h : Dots w x y r) (hx : x.Formed) (hy : y.Formed)
    (hxy : x.id = y.id → x.Alike y) (hask : Heard w x y) :
    (¬x.Clash y ∧ ¬x.Misfit y ∧ ∃ p, r = .ok p ∧ p.Entrywise (· * ·) x y) ∨
      (x.Clash y ∧ r = .error .nonconstantElementwise) ∨
      (x.Misfit y ∧ ∃ s t, r = .error (.unequalSizes s t)) ∨
      (¬x.Clash y ∧ (x.vexity = .constant ∧ ¬x.Fits ∨ y.vexity = .constant ∧ ¬y.Fits) ∧
        r = .error .arrayTooLarge) := by
  have hconst (h : x.vexity = .constant ∨ y.vexity = .constant) : ¬x.Clash y :=
    fun hclash => h.elim hclash.1 hclash.2.1
  cases h with
  | square hsq ht =>
    have hal := hxy hsq.1
    refine .inl ⟨fun h => h.2.2.1 hsq.1, fun h => h.2.2.2 hal.size_eq, _, rfl, ?_⟩
    exact entrywise_square ⟨ht, hx⟩ hal
  | product _ hone ht =>
    refine .inl ⟨fun h => ?_, fun h => ?_, _, rfl, entrywise_product ⟨ht, hx, hy⟩ hone⟩
    · exact hone.elim h.2.2.2.1 h.2.2.2.2
    · exact hone.elim h.2.1 h.2.2.1
  | left _ hone hc hweigh =>
    obtain ⟨hx1, hy1⟩ := not_or.mp hone
    rcases hweigh.outcome hx hy hc with ⟨hs, p, A, rfl, -, hp⟩ | ⟨hs, rfl⟩ | ⟨hfits, rfl⟩
    · exact .inl ⟨hconst (.inl hc), fun h => h.2.2.2 hs, p, rfl, hp⟩
    · exact .inr (.inr (.inl ⟨⟨.inl hc, hx1, hy1, hs⟩, _, _, rfl⟩))
    · exact .inr (.inr (.inr ⟨hconst (.inl hc), .inl ⟨hc, hfits⟩, rfl⟩))
  | right _ hone _ hc hweigh =>
    obtain ⟨hx1, hy1⟩ := not_or.mp hone
    rcases hweigh.outcome hy hx hc with ⟨hs, p, A, rfl, hA, hp⟩ | ⟨hs, rfl⟩ | ⟨hfits, rfl⟩
    · exact .inl ⟨hconst (.inr hc), fun h => h.2.2.2 hs.symm, p, rfl, hp.swap (.inr (.inr hs.symm)) hA⟩
    · exact .inr (.inr (.inl ⟨⟨.inr hc, hx1, hy1, fun h => hs h.symm⟩, _, _, rfl⟩))
    · exact .inr (.inr (.inr ⟨hconst (.inr hc), .inr ⟨hc, hfits⟩, rfl⟩))
  | clash hsq hone hvx hvy =>
    obtain ⟨hx1, hy1⟩ := not_or.mp hone
    exact .inr (.inl ⟨⟨hvx, hvy, fun hid => hsq ⟨hid, .inl hvx⟩, hx1, hy1⟩, rfl⟩)
  | unasked hcond h =>
    obtain ⟨hax, hay⟩ := hask hcond
    exact h.elim (absurd hax) fun h => absurd hay h.2

theorem Dots.unfolded {f : Failure} (h : Dots w x y r) (hxy : x.id ≠ y.id)
    (hone : ¬(x.size = .scalar ∨ y.size = .scalar)) (hx : x.vexity = .constant) (hask : w.Answers x)
    (hf : x.constantValue = .error f) : r = .error f := by
  have hnone {A : Dense α} (hA : x.constantValue = .ok A) : False := by
    rw [hf] at hA
    cases hA
  cases h with
  | square hsq => exact absurd hsq.1 hxy
  | product _ hone' => exact absurd hone' hone
  | left _ _ _ hweighs =>
    cases hweighs with
    | weighted hc => exact (hnone hc).elim
    | unequal hA => exact (hnone hA).elim
    | failed hf' => rw [Except.error.inj (hf'.symm.trans hf)]
  | right _ _ hv | clash _ _ hv => exact absurd hx hv
  | unasked _ h => exact h.elim (absurd hask) fun h => absurd hx h.1

theorem negated_ends {N : List (Node α)} (hw : w.Sound N) (hx : x ∈ N)
    (hN : Faithful [x, .constant (w.nextConstant (.scalar (-1)))]) :
    x.negated.Ends w fun r _ => ∃ p, r = .ok p ∧ p.size = x.size ∧
      ∀ values, p.evaluate values = do return (← x.evaluate values).map (- ·) := by
  have hform := hw.family.formed x hx
  rw [negated, ends_bind]
  apply (Workspace.build_constant_ends (.scalar (-1)) hw).imp
  rintro _ w' ⟨rfl, -, -⟩
  apply (multiply_ends w' _ x).imp
  rintro r _ ⟨-, hr⟩
  have halike := hN _ (List.mem_cons_of_mem _ (List.mem_singleton_self _)) x (List.mem_cons_self ..)
  rcases hr.product_of_ok trivial hform halike with ⟨p, rfl, hp⟩ | ⟨-, hnone⟩
  · have hsize : p.size = x.size := (Option.some.inj hp.size).symm
    refine ⟨p, rfl, hsize, fun values => ?_⟩
    rw [hp.value]
    cases hA : x.evaluate values with
    | error e => rfl
    | ok A =>
      have hA := evaluate_size hform hA
      have hholds : (A.map (- ·)).Holds p.size
          (times .scalar x.size (Dense.scalar (-1)).entry A.entry) := by
        refine ⟨hA.trans hsize.symm, fun i hi j hj => ?_⟩
        rw [hsize] at hi hj
        rw [Dense.entry_map _ A (Dense.rows_eq hA ▸ hi) (Dense.cols_eq hA ▸ hj)]
        exact (neg_one_mul _).symm
      exact congrArg Except.ok hholds.eq_ofFn.symm
  · cases hnone

end Operations

end Node

theorem Size.product?_eq_none_iff (s t : Size) :
    s.product? t = none ↔ s ≠ .scalar ∧ t ≠ .scalar ∧ s.cols ≠ t.rows := by
  unfold product?
  by_cases hs : s = .scalar
  · simp [hs]
  · by_cases ht : t = .scalar
    · simp [hs, ht]
    · by_cases hinner : s.cols = t.rows
      · simp [hs, ht, hinner]
      · simp [hs, ht, hinner]

namespace Compilation

variable [Field α] [Scalar α]
variable {config : Config} {s : Compilation α} {ns : List (Node α)} {x y : Node α} {v v' : Vexity}

/-- The operations on two expressions that have been asked about: which operands they refuse, and the
values of what they build. A constant is refused that is too large to be folded. -/
theorem Reached.products_exact (h : Reached config s ns) (hx : x ∈ s.nodes ns) (hy : y ∈ s.nodes ns)
    (hN : Node.Faithful [x, y, .constant (s.workspace.nextConstant (.scalar (-1)))])
    (hv : (x.askVexity s.workspace.verdicts).1 = .ok v)
    (hv' : (y.askVexity (s.workspace.asked x).verdicts).1 = .ok v') :
    ((x.multiply y).Ends s.workspace fun r _ =>
      (∀ f, r = .error f ↔ f = .unmultipliable x.size y.size ∧
        x.size ≠ .scalar ∧ y.size ≠ .scalar ∧ x.size.cols ≠ y.size.rows) ∧
      ∀ p, r = .ok p → p.Product x y) ∧
    ((x.dotMultiply y).Ends s.workspace fun r _ =>
      (r = .error .nonconstantElementwise ↔
        v ≠ .constant ∧ v' ≠ .constant ∧ x.id ≠ y.id ∧ x.size ≠ .scalar ∧ y.size ≠ .scalar) ∧
      ((∃ a b, r = .error (.unequalSizes a b)) ↔
        ((v = .constant ∨ v' = .constant) ∧ x.size ≠ .scalar ∧ y.size ≠ .scalar ∧
          x.size ≠ y.size) ∧ r ≠ .error .arrayTooLarge) ∧
      (∀ f, r = .error f → f = .nonconstantElementwise ∨ (∃ a b, f = .unequalSizes a b) ∨
        f = .arrayTooLarge ∧ (v = .constant ∧ ¬x.Fits ∨ v' = .constant ∧ ¬y.Fits)) ∧
      ∀ p, r = .ok p → p.Entrywise (· * ·) x y) ∧
    x.negated.Ends s.workspace fun r _ => ∃ p, r = .ok p ∧ p.size = x.size ∧
      ∀ values, p.evaluate values = do return (← x.evaluate values).map (- ·) := by
  have hs := h.sound.toSound
  have hfx := hs.family.formed x hx
  have hfy := hs.family.formed y hy
  have hxy : x.id = y.id → x.Alike y := hN x (by simp) y (by simp)
  refine ⟨?_, ?_, Node.negated_ends hs hx (hN.mono (by simp))⟩
  · apply (Node.multiply_ends s.workspace x y).imp
    rintro r _ ⟨-, hr⟩
    rcases hr.product_of_ok hfx hfy hxy with ⟨p, rfl, hp⟩ | ⟨rfl, hnone⟩
    · refine ⟨fun f => iff_of_false (by simp) fun ⟨_, hunfit⟩ => ?_, fun q hq => ?_⟩
      · rw [← Size.product?_eq_none_iff, hp.size] at hunfit
        cases hunfit
      · rw [← Except.ok.inj hq]
        exact hp
    · refine ⟨fun f => ?_, by simp⟩
      rw [← Size.product?_eq_none_iff]
      simp [hnone, eq_comm]
  · obtain rfl := hs.vexity_eq hx hv
    obtain rfl := (Workspace.asked_sound hs hx).vexity_eq hy hv'
    apply (Node.dotMultiply_ends hs hx hy).imp
    rintro r _ ⟨hr, -⟩
    rcases hr.outcome hfx hfy hxy fun _ => ⟨⟨_, hv⟩, ⟨_, hv'⟩⟩ with
      ⟨hclash, hmisfit, p, rfl, hp⟩ | ⟨hclash, rfl⟩ | ⟨hmisfit, a, b, rfl⟩ | ⟨hclash, hlarge, rfl⟩
    · refine ⟨iff_of_false (by simp) hclash, iff_of_false (by simp) fun h => hmisfit h.1, by simp,
        fun q hq => ?_⟩
      rw [← Except.ok.inj hq]
      exact hp
    · exact ⟨iff_of_true rfl hclash, iff_of_false (by simp) fun h => h.1.1.elim hclash.1 hclash.2.1,
        by simp, by simp⟩
    · exact ⟨iff_of_false (by simp) fun h => hmisfit.1.elim h.1 h.2.1,
        iff_of_true ⟨a, b, rfl⟩ ⟨hmisfit, by simp⟩, by simp, by simp⟩
    · refine ⟨iff_of_false (by simp) hclash, iff_of_false (by simp) fun h => h.2 rfl, fun f hf => ?_,
        by simp⟩
      exact .inr (.inr ⟨(Except.error.inj hf).symm, hlarge⟩)

def rates : Node ℚ :=
  .constant ⟨0, Identity.ofConstant [2, 1] (Constant.listing (Dense.column #[(2 : ℚ), -3])),
    .column #[2, -3]⟩

def amounts : Unknown := ⟨1, Identity.ofUnknown 0, 0, "amounts", ⟨2, 1⟩, .indeterminate⟩

def priced : List (Node ℚ) := [.unknown amounts, rates]

def pricing : Compilation ℚ := untouched 2 1

theorem reached_pricing : Reached {} pricing priced :=
  (Reached.start.step (.constant (.column #[(2 : ℚ), -3])) (List.nil_subset _)).step
    (.unknown "amounts" ⟨2, 1⟩ (.ok .indeterminate)) (List.nil_subset _)

def amountsAre (a b : ℚ) : Assignment ℚ := fun id =>
  if id = amounts.id then some (.ok (.vector #[a, b])) else none

theorem evaluate_amounts (a b : ℚ) :
    (Node.unknown amounts).evaluate (amountsAre a b) = .ok (.column #[a, b]) := by
  rw [Node.evaluate, Unknown.valueIn, amountsAre, if_pos rfl]
  rfl

theorem askVexity_rates : (rates.askVexity pricing.workspace.verdicts).1 = .ok .constant :=
  Node.askVexity_leaf reached_pricing.sound.toSound (by simp [nodes, priced]) rfl

theorem askVexity_amounts : ((Node.unknown (α := ℚ) amounts).askVexity
    (pricing.workspace.asked rates).verdicts).1 = .ok .affine := by
  have hrates : rates ∈ pricing.nodes priced := by simp [nodes, priced]
  exact Node.askVexity_leaf (Workspace.asked_sound reached_pricing.sound.toSound hrates)
    (by simp [nodes, priced]) rfl

theorem amounts_priced :
    (∃ p, (rates.dotMultiply (.unknown amounts) pricing.workspace).1 = .ok p ∧
      p.evaluate (amountsAre 5 7) = .ok (.column #[10, -21])) ∧
    ∃ p, (rates.negated pricing.workspace).1 = .ok p ∧
      p.evaluate (amountsAre 5 7) = .ok (.column #[-2, 3]) := by
  have hids : ([rates, .unknown amounts,
      .constant (pricing.workspace.nextConstant (.scalar (-1)))].map Node.id).Nodup := by
    decide +kernel
  obtain ⟨-, ⟨hclash, hunequal, herror, hvalue⟩, p, hp, -, hnegated⟩ :=
    reached_pricing.products_exact (x := rates) (y := .unknown amounts) (by simp [nodes, priced])
      (by simp [nodes, priced])
      (fun m hm n hn he => congrArg Node.forget (List.inj_on_of_nodup_map hids hm hn he))
      askVexity_rates askVexity_amounts
  refine ⟨?_, p, hp, ?_⟩
  · cases hr : (rates.dotMultiply (.unknown amounts) pricing.workspace).1 with
    | ok p =>
      have hsize : p.size = ⟨2, 1⟩ := (hvalue p hr).size
      refine ⟨p, rfl, ?_⟩
      rw [(hvalue p hr).value, evaluate_amounts, hsize]
      exact congrArg Except.ok (Dense.ext_vec rfl rfl (by decide +kernel))
    | error f =>
      have hfits : rates.Fits := by
        intro m hm
        rw [List.mem_singleton.mp hm]
        decide
      rcases herror f hr with rfl | ⟨a, b, rfl⟩ | ⟨-, ⟨-, h⟩ | ⟨h, -⟩⟩
      · exact absurd rfl (hclash.mp hr).1
      · exact absurd rfl (hunequal.mp ⟨a, b, hr⟩).1.2.2.2
      · exact absurd hfits h
      · cases h
  · rw [hnegated]
    exact congrArg Except.ok (Dense.ext_vec rfl rfl (by decide +kernel))

def blank (ref rows cols : Nat) (h : 0 = rows * cols) : Constant ℚ :=
  ⟨ref, Identity.ofConstant [rows, cols] ([] : List ℚ), ⟨rows, cols, #[], h⟩⟩

theorem nextConstant_blank (w : Workspace) (ref rows cols : Nat) (h : 0 = rows * cols) :
    w.nextConstant (blank ref rows cols h).value = blank w.objects rows cols h := by
  have hlisting : Constant.listing (blank ref rows cols h).value = [] :=
    List.length_eq_zero_iff.mp ((Constant.length_listing _).trans h.symm)
  rw [Workspace.nextConstant, hlisting]
  rfl

def tall : Constant ℚ := blank 0 2147483648 0 rfl

def flat : Constant ℚ := blank 1 0 2147483648 (Nat.zero_mul _).symm

def sheet : Node ℚ :=
  .product ⟨2, ⟨2147483648, 2147483648⟩, Identity.ofOperation "*" [tall.id, flat.id]⟩
    (.constant tall) (.constant flat)

def pixels : Unknown :=
  ⟨3, Identity.ofUnknown 0, 0, "pixels", ⟨2147483648, 2147483648⟩, .indeterminate⟩

def sheets : List (Node ℚ) :=
  [.unknown pixels, sheet, .constant tall, .constant flat, .constant flat, .constant tall]

def framing : Compilation ℚ := untouched 4 1

theorem reached_sheets : Reached {} framing sheets := by
  have htall : Reached (α := ℚ) {} (untouched 1 0)
      [.constant ((untouched (α := ℚ) 0 0).workspace.nextConstant tall.value)] :=
    Reached.start.step (.constant tall.value) (List.nil_subset _)
  rw [show Workspace.nextConstant _ tall.value = tall from nextConstant_blank ..] at htall
  have hflat : Reached {} (untouched 2 0)
      [.constant ((untouched (α := ℚ) 1 0).workspace.nextConstant flat.value), .constant tall] :=
    htall.step (.constant flat.value) (List.nil_subset _)
  rw [show Workspace.nextConstant _ flat.value = flat from nextConstant_blank ..] at hflat
  have hsheet : Reached {} (untouched 3 0)
      [sheet, .constant tall, .constant flat, .constant flat, .constant tall] :=
    hflat.step (.product (.constant tall) (.constant flat)) (by simp [Request.operands, nodes])
  exact hsheet.step (.unknown "pixels" ⟨2147483648, 2147483648⟩ (.ok .indeterminate))
    (List.nil_subset _)

/-- The product of two arrays without entries would be larger than an array can be. It is built all the
same, but has no value, and cannot be folded where it is a factor of an entrywise product. -/
theorem sheet_refused :
    Reached {} framing sheets ∧ [.constant tall, .constant flat, sheet, .unknown pixels] ⊆ sheets ∧
      Node.Faithful [sheet, .unknown pixels,
        .constant (framing.workspace.nextConstant (.scalar (-1)))] ∧
      ((Node.constant tall).multiply (.constant flat) (untouched (α := ℚ) 2 0).workspace).1 =
        .ok sheet ∧
      (∀ values, sheet.evaluate values = .error .arrayTooLarge) ∧
      (sheet.askVexity framing.workspace.verdicts).1 = .ok .constant ∧
      ((Node.unknown (α := ℚ) pixels).askVexity (framing.workspace.asked sheet).verdicts).1 =
        .ok .affine ∧
      sheet.size = pixels.size ∧
      (sheet.dotMultiply (.unknown pixels) framing.workspace).1 = .error .arrayTooLarge := by
  have hids : ([sheet, .unknown pixels, .constant tall, .constant flat,
      .constant (framing.workspace.nextConstant (.scalar (-1)))].map Node.id).Nodup := by
    decide +kernel
  have hobjects {m n : Node ℚ} (hm : m ∈ sheet.preorder) (hn : n ∈ sheet.preorder)
      (he : m.id = n.id) : m = n := by
    have hbelow : sheet.preorder ⊆ [sheet, .unknown pixels, .constant tall, .constant flat,
        .constant (framing.workspace.nextConstant (.scalar (-1)))] := by
      change [sheet, .constant tall, .constant flat] ⊆ _
      simp
    exact List.inj_on_of_nodup_map hids (hbelow hm) (hbelow hn) he
  have hsheet : sheet ∈ framing.nodes sheets := by simp [nodes, sheets]
  have hpixels : .unknown pixels ∈ framing.nodes sheets := by simp [nodes, sheets]
  have hconstant : (sheet.askVexity framing.workspace.verdicts).1 = .ok .constant :=
    reached_sheets.askVexity_of_objects hsheet fun m hm n hn => hobjects hm hn
  refine ⟨reached_sheets, by simp [sheets], (Node.faithful_of_nodup hids).mono (by simp), rfl,
    fun _ => rfl, hconstant, ?_, rfl, ?_⟩
  · exact Node.askVexity_leaf (Workspace.asked_sound reached_sheets.sound.toSound hsheet) hpixels rfl
  · have hne : sheet.id ≠ (Node.unknown (α := ℚ) pixels).id := fun he =>
      (List.nodup_cons.mp hids).1 (he ▸ List.mem_cons_self ..)
    have hv := reached_sheets.sound.toSound.vexity_eq hsheet hconstant
    exact (Node.dotMultiply_ends reached_sheets.sound.toSound hsheet hpixels).1.unfolded hne
      (by decide) hv.symm ⟨_, hconstant⟩ rfl

end Compilation

end DisciplinedConvex
