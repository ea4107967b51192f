import DisciplinedConvex.Proofs.Attempts
import DisciplinedConvex.Proofs.Ordering
import DisciplinedConvex.Proofs.Products

open DisciplinedConvex.Task

namespace DisciplinedConvex.Node

variable {α : Type} [Scalar α]
variable {x y p q : Node α} {w w' : Workspace} {r r' : Except Failure (Node α)}

def Folds (x y : Node α) : Prop :=
  x.vexity = .constant ∧ y.vexity = .constant ∧ x.size ≠ .scalar ∧ y.size ≠ .scalar

variable [Field α]

/-- The entrywise products of two operands in either order. They have the same operand, unless each
order folds a constant of its own. -/
inductive Mirrors (x y : Node α) : Node α → Node α → Prop
  | square {tag tag' : Tag} (hxy : x.Alike y) (hx : x.vexity ≠ .constant ∨ x.size = .scalar)
      (ht : tag.size = x.size) (ht' : tag'.size = y.size) :
      Mirrors x y (.square tag x) (.square tag' y)
  | product {tag tag' : Tag} (hone : x.size = .scalar ∨ y.size = .scalar)
      (ht : x.size.product? y.size = some tag.size) (ht' : y.size.product? x.size = some tag'.size) :
      Mirrors x y (.product tag x y) (.product tag' y x)
  | weighted {tag tag' : Tag} {k k' : Constant α} {e : Node α} (he : e = x ∨ e = y)
      (hv : e.vexity ≠ .constant) (hk : k.value = k'.value) (ht : tag.size = e.size)
      (ht' : tag'.size = e.size) : Mirrors x y (.weighted tag k e) (.weighted tag' k' e)
  | folded {tag tag' : Tag} {k k' : Constant α} (hxy : x.Folds y)
      (hx : x.constantValue = .ok k.value) (hy : y.constantValue = .ok k'.value)
      (hs : x.size = y.size) (ht : tag.size = y.size) (ht' : tag'.size = x.size) :
      Mirrors x y (.weighted tag k y) (.weighted tag' k' x)

inductive Mirrored (x y : Node α) : Except Failure (Node α) → Except Failure (Node α) → Prop
  | built {p q : Node α} (h : x.Mirrors y p q) : Mirrored x y (.ok p) (.ok q)
  | clash : Mirrored x y (.error .nonconstantElementwise) (.error .nonconstantElementwise)
  | unequal (a b c d : Size) :
      Mirrored x y (.error (.unequalSizes a b)) (.error (.unequalSizes c d))
  | large {r r' : Except Failure (Node α)}
      (hfits : x.vexity = .constant ∧ ¬x.Fits ∨ y.vexity = .constant ∧ ¬y.Fits)
      (h : r = .error .arrayTooLarge ∨ r' = .error .arrayTooLarge) : Mirrored x y r r'

theorem Mirrors.symm (h : x.Mirrors y p q) : y.Mirrors x q p := by
  cases h with
  | square hxy hx ht ht' =>
    exact .square hxy.symm (hxy.vexity_eq ▸ hxy.size_eq ▸ hx) ht' ht
  | product hone ht ht' => exact .product hone.symm ht' ht
  | weighted he hv hk ht ht' => exact .weighted he.symm hv hk.symm ht' ht
  | folded hxy hx hy hs ht ht' =>
    obtain ⟨hvx, hvy, hx1, hy1⟩ := hxy
    exact .folded ⟨hvy, hvx, hy1, hx1⟩ hy hx hs.symm ht' ht

theorem Mirrored.symm (h : x.Mirrored y r r') : y.Mirrored x r' r := by
  cases h with
  | built h => exact .built h.symm
  | clash => exact .clash
  | unequal => exact .unequal ..
  | large hfits h => exact .large hfits.symm h.symm

theorem fold_error {f : Failure} (hx : x.Formed) (hv : x.vexity = .constant)
    (hf : x.constantValue = .error f) :
    f = .arrayTooLarge ∧ (x.vexity = .constant ∧ ¬x.Fits ∨ y.vexity = .constant ∧ ¬y.Fits) := by
  obtain ⟨rfl, hfits⟩ := ((vexity_eq_constant_iff hx).mp hv).constantValue_error hx hf
  exact ⟨rfl, .inl ⟨hv, hfits⟩⟩

theorem Weighs.mirrored (h : x.Weighs y r) (h' : x.Weighs y r') (hx : x.Formed)
    (hvx : x.vexity = .constant) (hvy : y.vexity ≠ .constant) : x.Mirrored y r r' := by
  cases h with
  | weighted hc hs ht =>
    cases h' with
    | weighted hc' _ ht' =>
      exact .built (.weighted (.inr rfl) hvy (Except.ok.inj (hc.symm.trans hc')) ht ht')
    | unequal _ hs' => exact absurd hs hs'
    | failed hf =>
      rw [hc] at hf
      cases hf
  | unequal hA hs =>
    cases h' with
    | weighted _ hs' => exact absurd hs' hs
    | unequal => exact .unequal ..
    | failed hf =>
      rw [hA] at hf
      cases hf
  | failed hf =>
    obtain ⟨rfl, hfits⟩ := fold_error (y := y) hx hvx hf
    exact .large hfits (.inl rfl)

theorem Weighs.mirrored_folded (h : x.Weighs y r) (h' : y.Weighs x r') (hx : x.Formed)
    (hy : y.Formed) (hxy : x.Folds y) : x.Mirrored y r r' := by
  cases h with
  | weighted hc hs ht =>
    cases h' with
    | weighted hc' _ ht' => exact .built (.folded hxy hc hc' hs ht ht')
    | unequal _ hs' => exact absurd hs.symm hs'
    | failed hf =>
      obtain ⟨rfl, hfits⟩ := fold_error (y := x) hy hxy.2.1 hf
      exact .large hfits.symm (.inr rfl)
  | unequal _ hs =>
    cases h' with
    | weighted _ hs' => exact absurd hs'.symm hs
    | unequal => exact .unequal ..
    | failed hf =>
      obtain ⟨rfl, hfits⟩ := fold_error (y := x) hy hxy.2.1 hf
      exact .large hfits.symm (.inr rfl)
  | failed hf =>
    obtain ⟨rfl, hfits⟩ := fold_error (y := y) hx hxy.1 hf
    exact .large hfits (.inl rfl)

theorem Consulted.heard {N : List (Node α)} (h : Consulted w x y w') (hw : w.Sound N) (hx : x ∈ N)
    (hy : y ∈ N) (hax : w.Answers x) (hay : (w.asked x).Answers y) : Heard w' y x := by
  intro hcond
  have hxknown := hw.known_asked hx hax
  have hyknown := (Workspace.asked_sound hw hx).known_asked hy hay
  have hkept {v : Verdicts} (h : v.known x.ref = true) :
      (y.askVexity v).2.known x.ref = true :=
    Verdicts.known_of_le (extends_askVexity y v) h
  have hanswers : w'.Answers y ∧ w'.verdicts.known x.ref = true := by
    rcases h (hcond.imp Eq.symm fun hone h => hone h.symm) hax hay with hw' | hw'
    · rw [hw', Workspace.Answers, hw']
      exact ⟨hay, hxknown⟩
    · have hyknown : w'.verdicts.known y.ref = true := hw' ▸ hyknown
      exact ⟨Workspace.answers_of_known hyknown, hw' ▸ hkept hxknown⟩
  exact ⟨hanswers.1, Workspace.answers_of_known (hkept hanswers.2)⟩

theorem Dots.mirrored (h : Dots w x y r) (h' : Dots w' y x r') (hx : x.Formed) (hy : y.Formed)
    (hxy : x.id = y.id → x.Alike y) (hask : Heard w x y) (hask' : Heard w' y x) :
    x.Mirrored y r r' := by
  have hsquares : x.Squares y ↔ y.Squares x :=
    ⟨fun h => ⟨h.1.symm, (hxy h.1).vexity_eq ▸ (hxy h.1).size_eq ▸ h.2⟩,
      fun h => ⟨h.1.symm, (hxy h.1.symm).vexity_eq ▸ (hxy h.1.symm).size_eq ▸ h.2⟩⟩
  have hanswered {w : Workspace} {x y : Node α} (hw : Heard w x y)
      (hcond : x.id = y.id ∨ ¬(x.size = .scalar ∨ y.size = .scalar))
      (hnot : ¬w.Answers x ∨ x.vexity ≠ .constant ∧ ¬(w.asked x).Answers y) : False :=
    hnot.elim (fun h => h (hw hcond).1) fun h => h.2 (hw hcond).2
  cases h with
  | square hsq ht =>
    cases h' with
    | square _ ht' => exact .built (.square (hxy hsq.1) hsq.2 ht ht')
    | product hn | left hn | right hn | clash hn => exact absurd (hsquares.mp hsq) hn
    | unasked hcond hnot => exact (hanswered hask' hcond hnot).elim
  | product hn hone ht =>
    cases h' with
    | square hsq => exact absurd (hsquares.mpr hsq) hn
    | product _ _ ht' => exact .built (.product hone ht ht')
    | left _ hone' | right _ hone' | clash _ hone' => exact absurd hone.symm hone'
    | unasked hcond hnot => exact (hanswered hask' hcond hnot).elim
  | left hn hone hvx hweigh =>
    cases h' with
    | square hsq => exact absurd (hsquares.mpr hsq) hn
    | product _ hone' => exact absurd hone'.symm hone
    | left _ _ hvy hweigh' =>
      obtain ⟨hx1, hy1⟩ := not_or.mp hone
      exact hweigh.mirrored_folded hweigh' hx hy ⟨hvx, hvy, hx1, hy1⟩
    | right _ _ hvy _ hweigh' => exact hweigh.mirrored hweigh' hx hvx hvy
    | clash _ _ _ hvx' => exact absurd hvx hvx'
    | unasked hcond hnot => exact (hanswered hask' hcond hnot).elim
  | right hn hone hvx hvy hweigh =>
    cases h' with
    | square hsq => exact absurd (hsquares.mpr hsq) hn
    | product _ hone' => exact absurd hone'.symm hone
    | left _ _ _ hweigh' => exact (hweigh'.mirrored hweigh hy hvy hvx).symm
    | right _ _ hvy' | clash _ _ hvy' => exact absurd hvy hvy'
    | unasked hcond hnot => exact (hanswered hask' hcond hnot).elim
  | clash hn hone hvx hvy =>
    cases h' with
    | square hsq => exact absurd (hsquares.mpr hsq) hn
    | product _ hone' => exact absurd hone'.symm hone
    | left _ _ hvy' => exact absurd hvy' hvy
    | right _ _ _ hvx' => exact absurd hvx' hvx
    | clash => exact .clash
    | unasked hcond hnot => exact (hanswered hask' hcond hnot).elim
  | unasked hcond hnot => exact (hanswered hask hcond hnot).elim

theorem Mirrors.size_eq (h : x.Mirrors y p q) : p.size = q.size := by
  cases h with
  | square hxy _ ht ht' => exact ht.trans (hxy.size_eq.trans ht'.symm)
  | product hone ht ht' =>
    refine Option.some.inj (ht.symm.trans (Eq.trans ?_ ht'))
    unfold Size.product?
    by_cases hx : x.size = .scalar
    · by_cases hy : y.size = .scalar
      · rw [if_pos hx, if_pos hy, hx, hy]
      · rw [if_pos hx, if_neg hy, if_pos hx]
    · rw [if_neg hx, if_pos (hone.resolve_left hx), if_pos (hone.resolve_left hx)]
  | weighted _ _ _ ht ht' => exact ht.trans ht'.symm
  | folded _ _ _ hs ht ht' => exact ht.trans (hs.symm.trans ht'.symm)

theorem Dots.entrywise (h : Dots w x y (.ok p)) (hx : x.Formed) (hy : y.Formed)
    (hxy : x.id = y.id → x.Alike y) (hask : Heard w x y) : p.Entrywise (· * ·) x y := by
  rcases h.outcome hx hy hxy hask with ⟨-, -, q, hq, hp⟩ | ⟨-, hr⟩ | ⟨-, s, t, hr⟩ | ⟨-, -, hr⟩
  · exact Except.ok.inj hq ▸ hp
  all_goals cases hr

omit [Scalar α] in
theorem Entrywise.comm {values : Assignment α} {C : Dense α} (hp : p.Entrywise (· * ·) x y)
    (hq : q.Entrywise (· * ·) y x) (hs : p.size = q.size) :
    p.evaluate values = .ok C ↔ q.evaluate values = .ok C := by
  rw [hp.value, hq.value, hs]
  cases x.evaluate values with
  | error e =>
    cases y.evaluate values with
    | error e' => exact iff_of_false (by rintro ⟨⟩) (by rintro ⟨⟩)
    | ok B => exact iff_of_false (by rintro ⟨⟩) (by rintro ⟨⟩)
  | ok A =>
    cases y.evaluate values with
    | error e => exact iff_of_false (by rintro ⟨⟩) (by rintro ⟨⟩)
    | ok B =>
      change Except.ok _ = _ ↔ Except.ok _ = _
      simp only [mul_comm]

theorem Mirrors.vexity_eq (h : x.Mirrors y p q) : p.vexity = q.vexity := by
  cases h with
  | square hxy => rw [vexity_square, vexity_square, hxy.vexity_eq, hxy.sign_eq]
  | product =>
    rw [vexity_product, vexity_product]
    by_cases hx : x.vexity = .constant
    · by_cases hy : y.vexity = .constant
      · simp only [if_pos hx, if_pos hy]
      · simp only [if_pos hx, if_neg hy]
    · by_cases hy : y.vexity = .constant
      · simp only [if_neg hx, if_pos hy]
      · simp only [if_neg hx, if_neg hy]
  | weighted _ _ hk => rw [vexity_weighted, vexity_weighted, hk]
  | folded hxy => rw [vexity_weighted, vexity_weighted, if_pos hxy.1, if_pos hxy.2.1]

theorem Mirrors.sign_eq (h : x.Mirrors y p q) : (¬x.Folds y → p.sign = q.sign) ∧
    (x.Folds y → ∃ A B, x.constantValue = .ok A ∧ y.constantValue = .ok B ∧
      p.sign = Sign.ofEntries A.vec * y.sign ∧ q.sign = Sign.ofEntries B.vec * x.sign) := by
  cases h with
  | square hxy hx =>
    exact ⟨fun _ => congrArg squareSign hxy.sign_eq,
      fun h => absurd hx (not_or.mpr ⟨not_not.mpr h.1, h.2.2.1⟩)⟩
  | product hone =>
    exact ⟨fun _ => Sign.mul_comm .., fun h => absurd hone (not_or.mpr h.2.2)⟩
  | @weighted tag tag' k k' e he hv hk =>
    refine ⟨fun _ => ?_, fun h => ?_⟩
    · rw [sign, sign, hk]
    · rcases he with rfl | rfl
      · exact absurd h.1 hv
      · exact absurd h.2.1 hv
  | @folded tag tag' k k' hxy hx hy =>
    exact ⟨fun h => absurd hxy h, fun _ => ⟨_, _, hx, hy, rfl, rfl⟩⟩

section Walks

variable {N : List (Node α)}

omit [Field α] [Scalar α] in
theorem weight_le_of_mem_preorder {m n : Node α} (h : m ∈ n.preorder) : m.weight ≤ n.weight := by
  induction n using children_induction with
  | step n ih =>
    rw [preorder_eq] at h
    rcases List.mem_cons.mp h with rfl | h
    · exact le_refl _
    · obtain ⟨c, hc, hm⟩ := List.mem_flatMap.mp h
      exact (ih c hc hm).trans (weight_lt_of_mem_children hc).le

theorem alike_square {tag tag' : Tag} (hw : w.Sound N) (hN : Faithful N) (hp : square tag x ∈ N)
    (hq : square tag' y ∈ N) (hxy : x.Alike y) : (square tag x).Alike (square tag' y) := by
  refine hN _ hp _ hq ?_
  rw [hw.identified.identities _ hp, hw.identified.identities _ hq]
  simp only [preimage, head, children, List.map_cons, hxy.id_eq]

theorem Mirrors.seat?_eq (h : x.Mirrors y p q) (hw : w.Sound N) (hN : Faithful N) (hp : p ∈ N)
    (hq : q ∈ N) : p.seat? = q.seat? := by
  cases h with
  | square hxy => exact (alike_square hw hN hp hq hxy).seat?_eq
  | product | weighted | folded => rfl

theorem Mirrors.matched (h : x.Mirrors y p q) (hp : p.Formed)
    (hfactors : ∀ tag l r, p = .product tag l r → l.vexity = .constant ∨ r.vexity = .constant) :
    Matched p.children q.children := by
  cases h with
  | square hxy => exact .both hxy .nil
  | product =>
    rcases hfactors _ _ _ rfl with hx | hy
    · have hground := (vexity_eq_constant_iff hp.2.1).mp hx
      exact .left hground (.both rfl (.right hground .nil))
    · have hground := (vexity_eq_constant_iff hp.2.2).mp hy
      exact .right hground (.both rfl (.left hground .nil))
  | weighted => exact .left (ground_constant _) (.right (ground_constant _) (.both rfl .nil))
  | folded _ hx hy =>
    exact .left (ground_constant _) (.left (ground_of_constantValue hy)
      (.right (ground_constant _) (.right (ground_of_constantValue hx) .nil)))

theorem Mirrors.weight_eq (h : x.Mirrors y p q) {c m : Node α} (hc : c ∈ p.children ++ q.children)
    (hm : m ∈ c.preorder) (hground : ¬m.Ground) : p.weight = q.weight := by
  have hbelow {c : Node α} (hc : c.Ground) (hm : m ∈ c.preorder) : m.Ground :=
    fun u hu => hc u (mem_preorder_trans hm hu)
  cases h with
  | square hxy => exact congrArg (2 + ·) hxy.weight_eq
  | product => exact congrArg (2 + ·) (Nat.add_comm ..)
  | weighted => rfl
  | folded _ hx hy =>
    refine absurd ?_ hground
    simp only [children, List.mem_append, List.mem_cons, List.not_mem_nil, or_false] at hc
    rcases hc with (rfl | rfl) | (rfl | rfl)
    · exact hbelow (ground_constant _) hm
    · exact hbelow (ground_of_constantValue hy) hm
    · exact hbelow (ground_constant _) hm
    · exact hbelow (ground_of_constantValue hx) hm

theorem Mirrors.seats_eq (h : x.Mirrors y p q) (hw : w.Sound N) (hN : Faithful N) (hp : p ∈ N)
    (hq : q ∈ N)
    (hfactors : ∀ tag l r, p = .product tag l r → l.vexity = .constant ∨ r.vexity = .constant) :
    (postOrder (fun _ => false) p).order.filterMap seat? =
      (postOrder (fun _ => false) q).order.filterMap seat? := by
  have hform {n : Node α} (hn : n ∈ N) : n.Formed := hw.family.formed n hn
  have hchild {c : Node α} (hc : c ∈ p.children ++ q.children) : c ∈ N :=
    (List.mem_append.mp hc).elim (hw.family.children p hp c) (hw.family.children q hq c)
  let V (id : String) : Prop := p.id ≠ id ∧ q.id ≠ id ∧ ∃ m ∈ N, m.id = id ∧ ¬m.Ground
  have hmarks {c : Node α} (hc : c ∈ p.children ++ q.children) : c.Marks V := by
    intro m hm
    have hmN := hw.family.preorder_subset (hchild hc) hm
    refine ⟨fun hV => ?_, fun hground => ⟨fun he => ?_, fun he => ?_, m, hmN, rfl, hground⟩⟩
    · obtain ⟨-, -, m', hm', hid, hground⟩ := hV
      exact fun hm => hground ((hN m' hm' m hmN hid).ground_iff.mpr hm)
    -- neither product stands below a child of the other one, which is lighter
    all_goals
      have hle := weight_le_of_mem_preorder hm
      have hweight := h.weight_eq hc hm hground
      have hlt : c.weight < p.weight := (List.mem_append.mp hc).elim weight_lt_of_mem_children
        fun hc => hweight ▸ weight_lt_of_mem_children hc
    · have hal := (hN p hp m hmN he).weight_eq
      omega
    · have hal := (hN q hq m hmN he).weight_eq
      omega
  exact seats_postOrder (V := V) (h.matched (hform hp) hfactors) (h.seat?_eq hw hN hp hq)
    (fun hV => hV.1 rfl) (fun hV => hV.2.1 rfl) fun c hc => ⟨hform (hchild hc), hmarks hc⟩

end Walks

end DisciplinedConvex.Node
