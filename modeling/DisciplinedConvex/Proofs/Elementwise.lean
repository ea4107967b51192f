import DisciplinedConvex.Proofs.Constancy
import DisciplinedConvex.Proofs.Persistence

open DisciplinedConvex.Task

namespace DisciplinedConvex

variable {α : Type} [Scalar α]

namespace Node

theorem known_of_settle {n : Node α} {known known' : Nat → Bool}
    (h : settle known n = some known') : known' n.ref = true := by
  rw [settle_eq] at h
  split at h
  · next hk =>
    obtain rfl := Option.some.inj h
    exact hk
  · next hk =>
    obtain ⟨ns, hns⟩ : ∃ ns, (postOrder (fun m : Node α => known m.ref) n).order = ns ++ [n] :=
      postOrder_eq_append (by simpa using hk)
    exact known_of_foldlM_turn (hns ▸ h)

end Node

variable [Zero α]

namespace Workspace

variable {w : Workspace} {N : List (Node α)} {x y : Node α} {v : Vexity}

def asked (w : Workspace) (n : Node α) : Workspace :=
  { w with verdicts := (n.askVexity w.verdicts).2 }

def Answers (w : Workspace) (n : Node α) : Prop := ∃ v, (n.askVexity w.verdicts).1 = .ok v

def nextConstant (w : Workspace) (A : Dense α) : Constant α :=
  ⟨w.objects, Identity.ofConstant [A.rows, A.cols] (Constant.listing A), A⟩

theorem build_constant_ends (A : Dense α) (hw : w.Sound N) : (Constant.build A).Ends w fun r w' =>
    r = .ok (w.nextConstant A) ∧ w'.verdicts = w.verdicts ∧
      w'.Sound (.constant (w.nextConstant A) :: N) := by
  obtain ⟨c, hc, -, hsound⟩ := Constant.build_ends A hw
  have hnext : .ok (w.nextConstant A) = Except.ok c := hc
  obtain rfl := Except.ok.inj hnext
  exact ⟨rfl, rfl, hsound⟩

theorem asked_sound (hw : w.Sound N) (hx : x ∈ N) : (w.asked x).Sound N :=
  asks_vexity hx w hw

omit [Zero α] in
theorem answers_of_known (h : w.verdicts.known x.ref = true) : w.Answers x := by
  obtain ⟨v, hv⟩ := Option.isSome_iff_exists.mp h
  exact ⟨v, (Node.askVexity_of_vexity? hv).1⟩

omit [Zero α] in
theorem asked_of_known (h : w.verdicts.known x.ref = true) : w.asked x = w := by
  obtain ⟨v, hv⟩ := Option.isSome_iff_exists.mp h
  rw [asked, (Node.askVexity_of_vexity? hv).2]

theorem Sound.known_asked (hw : w.Sound N) (hx : x ∈ N) (h : w.Answers x) :
    (w.asked x).verdicts.known x.ref = true := by
  obtain ⟨v, hv⟩ := h
  have hanswer := (Node.askVexity_ends hw.family hx hw.judges).answer
  cases hsettle : Node.settle w.verdicts.known x with
  | none =>
    rw [hsettle, hv] at hanswer
    cases hanswer
  | some known =>
    rw [hsettle] at hanswer
    rw [asked, hanswer.2]
    exact Node.known_of_settle hsettle

theorem Sound.vexity_eq (hw : w.Sound N) (hx : x ∈ N)
    (hv : (x.askVexity w.verdicts).1 = .ok v) : v = x.vexity := by
  have hanswer := (Node.askVexity_ends hw.family hx hw.judges).answer
  cases hsettle : Node.settle w.verdicts.known x with
  | none =>
    rw [hsettle, hv] at hanswer
    cases hanswer
  | some known =>
    rw [hsettle, hv] at hanswer
    exact Except.ok.inj hanswer.1

end Workspace

namespace Node

open Workspace

variable {w : Workspace} {N : List (Node α)} {x y : Node α}

theorem isConstant_ends (hw : w.Sound N) (hx : x ∈ N) :
    (isConstant x).Ends w fun r w' => w' = w.asked x ∧
      (w.Answers x ∧ r = .ok (decide (x.vexity = .constant)) ∨
        ¬w.Answers x ∧ r = .error .unaskedChild) := by
  have hanswer := (askVexity_ends hw.family hx hw.judges).answer
  rw [isConstant, onVerdicts, ends_onPart, askConstant, ends_bind]
  refine Ends.imp (P := fun r v => r = (x.askVexity w.verdicts).1 ∧ v = (w.asked x).verdicts)
    ⟨rfl, rfl⟩ ?_
  rintro r v ⟨hr, rfl⟩
  cases hsettle : settle w.verdicts.known x with
  | none =>
    rw [hsettle] at hanswer
    have hnot : ¬w.Answers x := by
      rintro ⟨v, hv⟩
      rw [hanswer] at hv
      cases hv
    rw [hr, hanswer]
    exact ⟨rfl, .inr ⟨hnot, rfl⟩⟩
  | some known =>
    rw [hsettle] at hanswer
    rw [hr, hanswer.1]
    exact ⟨rfl, .inl ⟨⟨_, hanswer.1⟩, rfl⟩⟩

theorem isConstant_again_ends (hw : w.Sound N) (hx : x ∈ N) {w₁ : Workspace}
    (h₁ : w₁ = w ∨ w.Answers x ∧ w₁ = w.asked x) :
    (isConstant x).Ends w₁ fun r w' => w' = w.asked x ∧
      (w.Answers x ∧ r = .ok (decide (x.vexity = .constant)) ∨
        ¬w.Answers x ∧ r = .error .unaskedChild) := by
  rcases h₁ with rfl | ⟨hanswers, rfl⟩
  · exact isConstant_ends hw hx
  · have hknown := hw.known_asked hx hanswers
    apply (isConstant_ends (asked_sound hw hx) hx).imp
    rintro r w' ⟨rfl, ⟨-, rfl⟩ | ⟨hnot, -⟩⟩
    · exact ⟨asked_of_known hknown, .inl ⟨hanswers, rfl⟩⟩
    · exact absurd (answers_of_known hknown) hnot

variable [Add α] [Mul α]

theorem fold_ends (w : Workspace) (x : Node α) : x.fold.Ends w fun r w' =>
    w'.verdicts = w.verdicts ∧
      ((∃ c, r = .ok c ∧ x.constantValue = .ok c.value) ∨
        ∃ f, r = .error f ∧ x.constantValue = .error f) := by
  have hbuild : (do Constant.build (← x.constantValue) : Task Workspace (Constant α)).Ends w fun r w' =>
      w'.verdicts = w.verdicts ∧ ((∃ c, r = .ok c ∧ x.constantValue = .ok c.value) ∨
        ∃ f, r = .error f ∧ x.constantValue = .error f) := by
    rw [ends_bind, ends_lift]
    cases hx : x.constantValue with
    | error f => exact ⟨rfl, .inr ⟨f, rfl, rfl⟩⟩
    | ok A => exact ⟨rfl, .inl ⟨w.nextConstant A, rfl, rfl⟩⟩
  cases x with
  | constant c => exact ⟨rfl, .inl ⟨c, rfl, rfl⟩⟩
  | unknown | product | weighted | square | bare => exact hbuild

def Squares (x y : Node α) : Prop := x.id = y.id ∧ (x.vexity ≠ .constant ∨ x.size = .scalar)

inductive Multiplies (x y : Node α) : Except Failure (Node α) → Prop
  | square {tag : Tag} (hxy : x.size = .scalar ∧ x.id = y.id) (ht : tag.size = x.size) :
      Multiplies x y (.ok (.square tag x))
  | product {tag : Tag} (hxy : ¬(x.size = .scalar ∧ x.id = y.id))
      (ht : x.size.product? y.size = some tag.size) : Multiplies x y (.ok (.product tag x y))
  | unfit (hs : x.size.product? y.size = none) :
      Multiplies x y (.error (.unmultipliable x.size y.size))

inductive Weighs (x y : Node α) : Except Failure (Node α) → Prop
  | weighted {tag : Tag} {c : Constant α} (hc : x.constantValue = .ok c.value)
      (hs : x.size = y.size) (ht : tag.size = y.size) : Weighs x y (.ok (.weighted tag c y))
  | unequal {A : Dense α} (hA : x.constantValue = .ok A) (hs : x.size ≠ y.size) :
      Weighs x y (.error (.unequalSizes x.size y.size))
  | failed {f : Failure} (hf : x.constantValue = .error f) : Weighs x y (.error f)

/-- What comes of an entrywise product, branch by branch. The operands are asked for their curvatures
in turn, unless one of them is a scalar and they are different. -/
inductive Dots (w : Workspace) (x y : Node α) : Except Failure (Node α) → Prop
  | square {tag : Tag} (hxy : x.Squares y) (ht : tag.size = x.size) :
      Dots w x y (.ok (.square tag x))
  | product {tag : Tag} (hxy : ¬x.Squares y) (hone : x.size = .scalar ∨ y.size = .scalar)
      (ht : x.size.product? y.size = some tag.size) : Dots w x y (.ok (.product tag x y))
  | left {r : Except Failure (Node α)} (hxy : ¬x.Squares y)
      (hone : ¬(x.size = .scalar ∨ y.size = .scalar)) (hx : x.vexity = .constant)
      (h : Weighs x y r) : Dots w x y r
  | right {r : Except Failure (Node α)} (hxy : ¬x.Squares y)
      (hone : ¬(x.size = .scalar ∨ y.size = .scalar)) (hx : x.vexity ≠ .constant)
      (hy : y.vexity = .constant) (h : Weighs y x r) : Dots w x y r
  | clash (hxy : ¬x.Squares y) (hone : ¬(x.size = .scalar ∨ y.size = .scalar))
      (hx : x.vexity ≠ .constant) (hy : y.vexity ≠ .constant) :
      Dots w x y (.error .nonconstantElementwise)
  | unasked (hask : x.id = y.id ∨ ¬(x.size = .scalar ∨ y.size = .scalar))
      (h : ¬w.Answers x ∨ x.vexity ≠ .constant ∧ ¬(w.asked x).Answers y) :
      Dots w x y (.error .unaskedChild)

theorem weighs_ends (w : Workspace) (hx : x.Formed) (y : Node α) :
    (do buildWeighted (← x.fold) y).Ends w fun r w' => x.Weighs y r ∧ w'.verdicts = w.verdicts := by
  rw [ends_bind]
  apply (fold_ends w x).imp
  rintro _ w' ⟨hw', ⟨c, rfl, hc⟩ | ⟨f, rfl, hf⟩⟩
  · have hsize : c.value.size = x.size := evaluate_size hx hc
    dsimp only
    unfold buildWeighted
    by_cases hs : c.value.size = y.size
    · rw [if_neg (not_not.mpr hs)]
      exact ⟨.weighted hc (hsize.symm.trans hs) rfl, hw'⟩
    · rw [if_pos hs, hsize]
      exact ⟨.unequal hc (hsize ▸ hs), hw'⟩
  · exact ⟨.failed hf, hw'⟩

omit [Zero α] [Add α] [Mul α] [Scalar α] in
theorem multiply_ends (w : Workspace) (x y : Node α) :
    (multiply x y).Ends w fun r w' => w'.verdicts = w.verdicts ∧ x.Multiplies y r := by
  unfold multiply
  by_cases h : x.size = .scalar ∧ x.id = y.id
  · rw [if_pos (by simpa [same] using h)]
    exact ⟨rfl, .square h rfl⟩
  · rw [if_neg (by simpa [same] using h)]
    unfold buildProduct
    cases hs : x.size.product? y.size with
    | none => exact ⟨rfl, .unfit hs⟩
    | some s => exact ⟨rfl, .product h hs⟩

theorem product?_of_scalar {s t : Size} (h : s = .scalar ∨ t = .scalar) :
    ∃ u, s.product? t = some u := by
  unfold Size.product?
  by_cases hs : s = .scalar
  · exact ⟨t, if_pos hs⟩
  · exact ⟨s, by rw [if_neg hs, if_pos (h.resolve_left hs)]⟩

def Consulted (w : Workspace) (x y : Node α) (w' : Workspace) : Prop :=
  x.id = y.id ∨ ¬(x.size = .scalar ∨ y.size = .scalar) → w.Answers x → (w.asked x).Answers y →
    w'.verdicts = (w.asked x).verdicts ∨ w'.verdicts = ((w.asked x).asked y).verdicts

theorem dotMultiply_ends (hw : w.Sound N) (hx : x ∈ N) (hy : y ∈ N) :
    (dotMultiply x y).Ends w fun r w' => Dots w x y r ∧ Consulted w x y w' := by
  have hxf := hw.family.formed x hx
  have hyf := hw.family.formed y hy
  have hwx := asked_sound hw hx
  unfold dotMultiply
  extract_lets rest
  have hrest (w₁ : Workspace) (hconst : x.id = y.id → x.vexity = .constant)
      (h₁ : x.id ≠ y.id ∧ w₁ = w ∨ x.id = y.id ∧ w.Answers x ∧ w₁ = w.asked x) :
      (rest ⟨⟩).Ends w₁ fun r w' => Dots w x y r ∧ Consulted w x y w' := by
    simp only [rest]
    by_cases hone : x.size = .scalar ∨ y.size = .scalar
    · rw [if_pos hone]
      apply (multiply_ends w₁ x y).imp
      rintro r w' ⟨hw', hr⟩
      have hconsulted : Consulted w x y w' := by
        intro hcond _ _
        rcases h₁ with ⟨hne, -⟩ | ⟨-, -, rfl⟩
        · exact absurd (hcond.resolve_right (not_not.mpr hone)) hne
        · exact .inl hw'
      cases hr with
      | square hxy ht => exact ⟨.square ⟨hxy.2, .inr hxy.1⟩ ht, hconsulted⟩
      | product hxy ht =>
        refine ⟨.product (fun h => ?_) hone ht, hconsulted⟩
        rcases h.2 with hv | hx1
        · exact hv (hconst h.1)
        · exact hxy ⟨hx1, h.1⟩
      | unfit hnone =>
        obtain ⟨u, hu⟩ := product?_of_scalar hone
        rw [hu] at hnone
        cases hnone
    · have hxy : ¬x.Squares y := by
        rintro ⟨hid, hv | hx1⟩
        · exact hv (hconst hid)
        · exact hone (.inl hx1)
      rw [if_neg hone, ends_bind]
      -- where `x` and `y` are equal, the question about `x` has been asked before
      apply (isConstant_again_ends hw hx (h₁.imp And.right And.right)).imp
      rintro _ w₂ ⟨rfl, ⟨hax, rfl⟩ | ⟨hax, rfl⟩⟩
      · dsimp only
        by_cases hxc : x.vexity = .constant
        · rw [if_pos (decide_eq_true hxc)]
          apply (weighs_ends _ hxf y).imp
          rintro r w' ⟨hr, hw'⟩
          exact ⟨.left hxy hone hxc hr, fun _ _ _ => .inl hw'⟩
        · rw [if_neg (by simpa using hxc), ends_bind]
          apply (isConstant_ends hwx hy).imp
          rintro _ w₃ ⟨rfl, ⟨hay, rfl⟩ | ⟨hay, rfl⟩⟩
          · dsimp only
            by_cases hyc : y.vexity = .constant
            · rw [if_pos (decide_eq_true hyc)]
              apply (weighs_ends _ hyf x).imp
              rintro r w' ⟨hr, hw'⟩
              exact ⟨.right hxy hone hxc hyc hr, fun _ _ _ => .inr hw'⟩
            · rw [if_neg (by simpa using hyc)]
              exact ⟨.clash hxy hone hxc hyc, fun _ _ _ => .inr rfl⟩
          · exact ⟨.unasked (.inr hone) (.inr ⟨hxc, hay⟩), fun _ _ h => absurd h hay⟩
      · exact ⟨.unasked (.inr hone) (.inl hax), fun _ h => absurd h hax⟩
  by_cases hid : x.id = y.id
  · rw [if_pos (by simpa [same] using hid), ends_bind]
    apply (isConstant_ends hw hx).imp
    rintro _ w₁ ⟨rfl, ⟨hax, rfl⟩ | ⟨hax, rfl⟩⟩
    · dsimp only
      by_cases hxc : x.vexity = .constant
      · rw [if_neg (by simpa using hxc)]
        exact hrest _ (fun _ => hxc) (.inr ⟨hid, hax, rfl⟩)
      · rw [if_pos (by simpa using hxc)]
        exact ⟨.square ⟨hid, .inl hxc⟩ rfl, fun _ _ _ => .inl rfl⟩
    · exact ⟨.unasked (.inl hid) (.inl hax), fun _ h => absurd h hax⟩
  · rw [if_neg (by simpa [same] using hid)]
    exact hrest w (fun h => absurd h hid) (.inl ⟨hid, rfl⟩)

omit [Add α] [Mul α] in
theorem askVexity_leaf (hw : w.Sound N) (hx : x ∈ N) (hleaf : x.preorder = [x]) :
    (x.askVexity w.verdicts).1 = .ok x.vexity := by
  have hsettle : (settle w.verdicts.known x).isSome := by
    apply settle_of_objects
    rw [hleaf]
    intro a ha b hb _
    rw [List.mem_singleton.mp ha, List.mem_singleton.mp hb]
  have hanswer := (askVexity_ends hw.family hx hw.judges).answer
  obtain ⟨known, hknown⟩ := Option.isSome_iff_exists.mp hsettle
  rw [hknown] at hanswer
  exact hanswer.1

inductive Divides (w : Workspace) (x c : Node α) : Except Failure (Node α) → Prop
  | unasked (h : ¬w.Answers c) : Divides w x c (.error .unaskedChild)
  | varying (hc : c.vexity ≠ .constant) : Divides w x c (.error .nonconstantDivisor)
  | failed {f : Failure} (hc : c.vexity = .constant) (hf : c.constantValue = .error f) :
      Divides w x c (.error f)
  | scaled {A : Dense α} {r : Except Failure (Node α)} (hc : c.vexity = .constant)
      (hA : c.constantValue = .ok A) (hone : c.size = .scalar)
      (h : x.Multiplies (.constant (w.nextConstant (A.map Scalar.recip))) r) : Divides w x c r
  | stretched {A : Dense α} {tag : Tag} (hc : c.vexity = .constant) (hA : c.constantValue = .ok A)
      (hone : c.size ≠ .scalar) (hx : x.size = .scalar) (ht : tag.size = c.size) :
      Divides w x c (.ok (.product tag (.constant (w.nextConstant (A.map Scalar.recip))) x))
  | weighted {A : Dense α} {k : Constant α} {tag : Tag} (hc : c.vexity = .constant)
      (hA : c.constantValue = .ok A) (hone : c.size ≠ .scalar) (hx : c.size = x.size)
      (hk : k.value = A.map Scalar.recip) (ht : tag.size = x.size) :
      Divides w x c (.ok (.weighted tag k x))
  | unequal {A : Dense α} (hc : c.vexity = .constant) (hA : c.constantValue = .ok A)
      (hone : ¬(c.size = .scalar ∨ x.size = .scalar)) (hx : c.size ≠ x.size) :
      Divides w x c (.error (.unequalSizes c.size x.size))

theorem Dots.divides {c : Node α} {A : Dense α} {w₁ : Workspace}
    (h : Dots w₁ (constant (w.nextConstant (A.map Scalar.recip))) x r)
    (hconst : c.vexity = .constant) (hA : c.constantValue = .ok A) (hone : c.size ≠ .scalar)
    (hsize : (constant (w.nextConstant (A.map Scalar.recip))).size = c.size)
    (hasked : w₁.Answers (constant (w.nextConstant (A.map Scalar.recip)))) : Divides w x c r := by
  have hfold : (constant (w.nextConstant (A.map Scalar.recip))).constantValue =
    .ok (A.map Scalar.recip) := rfl
  cases h with
  | square hxy => exact absurd (hsize ▸ hxy.2.resolve_left fun h => h rfl) hone
  | product _ hscalar ht =>
    have hx1 : x.size = .scalar := hscalar.resolve_left fun h => hone (hsize ▸ h)
    refine .stretched hconst hA hone hx1 ?_
    rw [Size.product?, if_neg (hsize ▸ hone), if_pos hx1] at ht
    exact (Option.some.inj ht).symm.trans hsize
  | left _ hscalar _ hweigh =>
    obtain ⟨-, hx1⟩ := not_or.mp hscalar
    cases hweigh with
    | weighted hk hs ht => exact .weighted hconst hA hone (hsize ▸ hs) (Except.ok.inj hk).symm ht
    | unequal _ hs =>
      have hne : c.size ≠ x.size := hsize ▸ hs
      have herror := Divides.unequal (w := w) hconst hA (not_or.mpr ⟨hone, hx1⟩) hne
      rwa [← hsize] at herror
    | failed hf =>
      rw [hfold] at hf
      cases hf
  | right _ _ hvaries | clash _ _ hvaries => exact absurd rfl hvaries
  | unasked _ h =>
    rcases h with h | ⟨h, -⟩
    · exact absurd hasked h
    · exact absurd rfl h

theorem divide_ends {c : Node α} (hw : w.Sound N) (hx : x ∈ N) (hc : c ∈ N) :
    (divide x c).Ends w fun r _ => Divides w x c r := by
  have hwc := asked_sound hw hc
  -- the product with the reciprocals, of which nothing is asked that is not known
  have hbuild {w₁ : Workspace} {A : Dense α} (hconst : c.vexity = .constant)
      (hA : c.constantValue = .ok A) (hw₁ : w₁.Sound N) (hobjects : w₁.objects = w.objects) :
      Ends (do
        let k ← Constant.build (A.map Scalar.recip)
        if c.size = Size.scalar then multiply x (constant k) else dotMultiply (constant k) x) w₁
          fun r _ => Divides w x c r := by
    have hnext : w₁.nextConstant (A.map Scalar.recip) = w.nextConstant (A.map Scalar.recip) := by
      rw [nextConstant, nextConstant, hobjects]
    have hsize : (constant (w.nextConstant (A.map Scalar.recip))).size = c.size :=
      (evaluate_size (hw.family.formed c hc) hA : A.size = c.size)
    rw [ends_bind]
    apply (build_constant_ends (A.map Scalar.recip) hw₁).imp
    rintro _ w₂ ⟨rfl, -, hw₂⟩
    rw [hnext] at hw₂ ⊢
    dsimp only
    by_cases hone : c.size = .scalar
    · rw [if_pos hone]
      exact (multiply_ends w₂ x _).imp fun _ _ hr => .scaled hconst hA hone hr.2
    · rw [if_neg hone]
      apply (dotMultiply_ends hw₂ (List.mem_cons_self ..) (List.mem_cons_of_mem _ hx)).imp
      exact fun r w₃ hr => hr.1.divides hconst hA hone hsize
        ⟨_, askVexity_leaf hw₂ (List.mem_cons_self ..) rfl⟩
  unfold divide
  rw [ends_bind]
  apply (isConstant_ends hw hc).imp
  rintro _ w₁ ⟨rfl, ⟨-, rfl⟩ | ⟨hunasked, rfl⟩⟩
  · dsimp only
    by_cases hconst : c.vexity = .constant
    · rw [if_neg (by simpa using hconst), ends_bind, ends_lift]
      cases hA : c.constantValue with
      | error f => exact .failed hconst hA
      | ok A =>
        dsimp only
        split
        · rw [ends_bind]
          refine Ends.imp (P := fun r w₂ => r = .ok () ∧ w₂.Sound N ∧ w₂.objects = w.objects)
            ⟨rfl, ⟨hwc.family, hwc.identified, hwc.judges⟩, rfl⟩ ?_
          rintro _ w₂ ⟨rfl, hw₂, hobjects⟩
          exact hbuild hconst hA hw₂ hobjects
        · exact hbuild hconst hA hwc rfl
    · rw [if_pos (by simpa using hconst)]
      exact .varying hconst
  · exact .unasked hunasked

end Node

end DisciplinedConvex
