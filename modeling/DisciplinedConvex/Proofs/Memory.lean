import DisciplinedConvex.Proofs.Walk
import DisciplinedConvex.Workspace.Construction
import Mathlib.Order.Basic

open DisciplinedConvex.Task

namespace DisciplinedConvex

namespace Task

variable {σ τ β γ : Type} [Preorder σ]

def Extends (task : Task σ β) : Prop := ∀ s, task.Ends s fun _ s' => s ≤ s'

theorem extends_pure (b : β) : Extends (pure b : Task σ β) := fun s => le_refl s

theorem extends_throw (e : Failure) : Extends (throw e : Task σ β) := fun s => le_refl s

theorem extends_lift (x : Except Failure β) : Extends (liftM x : Task σ β) := fun s => le_refl s

theorem extends_get : Extends (get : Task σ σ) := fun s => le_refl s

theorem ends_bind_of_le {task : Task σ β} {f : β → Task σ γ} {s₀ s : σ}
    (ht : task.Ends s fun _ s' => s₀ ≤ s')
    (hf : ∀ b s', s₀ ≤ s' → (f b).Ends s' fun _ s'' => s₀ ≤ s'') :
    (task >>= f).Ends s fun _ s' => s₀ ≤ s' := by
  rw [ends_bind]
  apply ht.imp
  rintro (e | b) s' hs'
  · exact hs'
  · exact hf b s' hs'

theorem Extends.ends {task : Task σ β} (h : Extends task) {s₀ s : σ} (hs : s₀ ≤ s) :
    task.Ends s fun _ s' => s₀ ≤ s' :=
  (h s).imp fun _ _ hs' => hs.trans hs'

theorem Extends.bind {task : Task σ β} {f : β → Task σ γ} (ht : Extends task)
    (hf : ∀ b, Extends (f b)) : Extends (task >>= f) :=
  fun s => ends_bind_of_le (ht s) fun b _ hs' => (hf b).ends hs'

theorem ends_forM_of_le {f : β → Task σ PUnit} {s₀ s : σ} (xs : List β)
    (hf : ∀ x ∈ xs, ∀ s, s₀ ≤ s → (f x).Ends s fun _ s' => s₀ ≤ s') (hs : s₀ ≤ s) :
    (xs.forM f).Ends s fun _ s' => s₀ ≤ s' := by
  induction xs generalizing s with
  | nil => exact hs
  | cons x xs ih =>
    rw [List.forM]
    exact ends_bind_of_le (hf x (List.mem_cons_self ..) s hs) fun _ _ hs' =>
      ih (fun y hy => hf y (List.mem_cons_of_mem _ hy)) hs'

variable [Preorder τ]

theorem Extends.onPart {get : σ → τ} {set : τ → σ → σ} {task : Task τ β}
    (hset : ∀ s t, get s ≤ t → s ≤ set t s) (h : Extends task) : Extends (task.onPart get set) :=
  fun s => (ends_onPart ..).mpr ((h (get s)).imp fun _ t ht => hset s t ht)

end Task

namespace Verdicts

instance : Preorder Verdicts where
  le v w := (∀ (r : Nat) s, v.signs[r]? = some s → w.signs[r]? = some s) ∧
    ∀ (r : Nat) x, v.vexities[r]? = some x → w.vexities[r]? = some x
  le_refl _ := ⟨fun _ _ h => h, fun _ _ h => h⟩
  le_trans _ _ _ h h' :=
    ⟨fun r s hs => h'.1 r s (h.1 r s hs), fun r x hx => h'.2 r x (h.2 r x hx)⟩

end Verdicts

namespace Node

variable {α : Type} {n : Node α} {v w : Verdicts}

theorem le_setVexity {x : Vexity} (hn : (v.vexity? n).isSome = false) (h : v ≤ w) :
    v ≤ w.setVexity n x := by
  refine ⟨h.1, fun r y hy => ?_⟩
  have hne : n.ref ≠ r := by
    rintro rfl
    rw [Verdicts.vexity?, hy] at hn
    cases hn
  rw [Verdicts.setVexity, Std.TreeMap.getElem?_insert, if_neg (by simpa using hne)]
  exact h.2 r y hy

theorem extends_joinChildren (own : Vexity) (args : List (Monotonicity × Node α)) :
    Extends (joinChildren own args) := by
  refine extends_get.bind fun known => ?_
  induction args generalizing own with
  | nil => exact extends_pure _
  | cons a args ih =>
    obtain ⟨m, c⟩ := a
    rw [List.foldlM_cons]
    apply Extends.bind
    · dsimp only
      split
      · exact extends_pure _
      · exact extends_throw _
    · exact fun v => ih v

theorem extends_curvatureRule {ask : (c : Node α) → c.weight < n.weight → Task Verdicts Vexity}
    (h : ∀ c hc, Extends (ask c hc)) : Extends (curvatureRule n ask) := by
  cases n with
  | constant => exact extends_pure _
  | unknown => exact extends_pure _
  | product tag l r =>
    refine (h l _).bind fun v => ?_
    split
    · exact extends_pure _
    · exact (h r _).bind fun _ => extends_pure _
  | weighted tag c x => exact (h x _).bind fun _ => extends_pure _
  | square => exact extends_pure _
  | bare => exact extends_throw _

variable [Scalar α]

theorem extends_signRule {ask : (c : Node α) → c.weight < n.weight → Task Verdicts Sign}
    (h : ∀ c hc, Extends (ask c hc)) : Extends (signRule n ask) := by
  cases n with
  | constant c => exact extends_pure _
  | unknown u => exact extends_pure _
  | product tag l r => exact (h l _).bind fun _ => (h r _).bind fun _ => extends_pure _
  | weighted tag c x => exact (h _ _).bind fun _ => (h x _).bind fun _ => extends_pure _
  | square tag x => exact (h x _).bind fun _ => extends_pure _
  | bare => exact extends_throw _

theorem signs_of_sign? (hn : (v.sign? n).isSome = false) : v.signs[n.ref]? = none := by
  have hnone : v.sign? n = none := by simpa using hn
  cases n with
  | constant => cases hnone
  | unknown => cases hnone
  | product => exact hnone
  | weighted => exact hnone
  | square => exact hnone
  | bare => exact hnone

theorem le_setSign {s : Sign} (hn : (v.sign? n).isSome = false) (h : v ≤ w) :
    v ≤ w.setSign n s := by
  refine ⟨fun r t ht => ?_, h.2⟩
  have hne : n.ref ≠ r := by
    rintro rfl
    rw [signs_of_sign? hn] at ht
    cases ht
  rw [Verdicts.setSign, Std.TreeMap.getElem?_insert, if_neg (by simpa using hne)]
  exact h.1 r t ht

theorem extends_askSign (n : Node α) : Extends n.askSign := by
  induction n using weight_induction with
  | step n ih =>
    intro v
    rw [askSign, ends_bind, ends_get]
    dsimp only
    cases v.sign? n with
    | some s => exact le_refl v
    | none =>
      refine ends_bind_of_le (ends_forM_of_le _ ?_ (le_refl v)) fun _ u hu => hu
      rintro ⟨m, hm⟩ - u hu
      have hrule : Extends (signRule m fun c _ => askSign c) := extends_signRule fun c hc =>
        ih c (Nat.lt_of_lt_of_le hc (weight_le_of_mem_postOrder hm))
      exact ends_bind_of_le (hrule.ends hu) fun s u' hu' => le_setSign (skip_of_mem_postOrder hm) hu'

theorem extends_askMonotonicity (n : Node α) : Extends n.askMonotonicity := by
  cases n with
  | product tag l r =>
    exact (extends_askSign r).bind fun _ => (extends_askSign l).bind fun _ => extends_pure _
  | weighted tag c x =>
    exact (extends_askSign x).bind fun _ => (extends_askSign _).bind fun _ => extends_pure _
  | square tag x => exact (extends_askSign x).bind fun _ => extends_pure _
  | constant => exact extends_pure _
  | unknown => exact extends_pure _
  | bare => exact extends_pure _

theorem extends_vexityRule {ask : (c : Node α) → c.weight < n.weight → Task Verdicts Vexity}
    (h : ∀ c hc, Extends (ask c hc)) : Extends (vexityRule n ask) := by
  refine extends_get.bind fun known => ?_
  split
  · exact extends_pure _
  · exact (extends_curvatureRule h).bind fun own => (extends_askMonotonicity n).bind fun ms =>
      extends_joinChildren own _

theorem extends_askVexity (n : Node α) : Extends n.askVexity := by
  induction n using weight_induction with
  | step n ih =>
    intro v
    rw [askVexity, ends_bind, ends_get]
    dsimp only
    cases v.vexity? n with
    | some x => exact le_refl v
    | none =>
      refine ends_bind_of_le (ends_forM_of_le _ ?_ (le_refl v)) fun _ u hu => hu
      rintro ⟨m, hm⟩ - u hu
      have hrule : Extends (vexityRule m fun c _ => askVexity c) := extends_vexityRule fun c hc =>
        ih c (Nat.lt_of_lt_of_le hc (weight_le_of_mem_postOrder hm))
      exact ends_bind_of_le (hrule.ends hu) fun x u' hu' => le_setVexity (skip_of_mem_postOrder hm) hu'

theorem extends_askConstant (n : Node α) : Extends n.askConstant :=
  (extends_askVexity n).bind fun _ => extends_pure _

end Node

namespace Workspace

instance : Preorder Workspace := Preorder.lift verdicts

theorem extends_onVerdicts {β : Type} {task : Task Verdicts β} (h : Extends task) :
    Extends (onVerdicts task) :=
  h.onPart fun _ _ ht => ht

theorem extends_warn : Extends warn := fun w => le_refl w.verdicts

end Workspace

theorem Unknown.extends_build (name : String) (size : Size) (sign : Except Failure Sign) :
    Extends (Unknown.build name size sign) := fun w =>
  match sign with
  | .ok _ => le_refl w.verdicts
  | .error _ => le_refl w.verdicts

section Building

open Workspace

variable {α : Type}

theorem Constant.extends_build [Zero α] [Scalar α] (A : Dense α) : Extends (Constant.build A) :=
  fun w => le_refl w.verdicts

namespace Node

theorem extends_buildProduct (l r : Node α) : Extends (buildProduct l r) := by
  unfold buildProduct
  split
  · exact extends_throw _
  · exact fun w => le_refl w.verdicts

theorem extends_buildWeighted (c : Constant α) (x : Node α) : Extends (buildWeighted c x) := by
  unfold buildWeighted
  extract_lets rest
  have hrest (k : Unit) : Extends (rest k) := fun w => le_refl w.verdicts
  split
  · exact (extends_throw _).bind hrest
  · exact hrest ⟨⟩

theorem extends_buildSquare (x : Node α) : Extends (buildSquare x) := fun w => le_refl w.verdicts

theorem extends_multiply (x y : Node α) : Extends (multiply x y) := by
  unfold multiply
  split
  · exact extends_buildSquare x
  · exact extends_buildProduct x y

variable [Scalar α]

theorem extends_isConstant (x : Node α) : Extends x.isConstant :=
  extends_onVerdicts (extends_askConstant x)

variable [Zero α]

theorem extends_negated [One α] [Neg α] (x : Node α) : Extends x.negated :=
  (Constant.extends_build _).bind fun _ => extends_multiply _ x

variable [Add α] [Mul α]

theorem extends_fold (x : Node α) : Extends x.fold := by
  cases x with
  | constant c => exact extends_pure _
  | unknown | product | weighted | square | bare =>
    exact (extends_lift _).bind fun A => Constant.extends_build A

theorem extends_dotMultiply (x y : Node α) : Extends (dotMultiply x y) := by
  unfold dotMultiply
  extract_lets rest
  have hrest (k : Unit) : Extends (rest k) := by
    simp only [rest]
    split
    · exact extends_multiply x y
    · apply (extends_isConstant x).bind
      intro b
      split
      · exact (extends_fold x).bind fun c => extends_buildWeighted c y
      · apply (extends_isConstant y).bind
        intro b
        split
        · exact (extends_fold y).bind fun c => extends_buildWeighted c x
        · exact extends_throw _
  split
  · apply (extends_isConstant x).bind
    intro b
    split
    · exact extends_buildSquare x
    · exact hrest ⟨⟩
  · exact hrest ⟨⟩

theorem extends_divide (x c : Node α) : Extends (divide x c) := by
  have hbuild (A : Dense α) : Extends (do
      let r ← Constant.build A
      if c.size = .scalar then multiply x (constant r) else dotMultiply (constant r) x) := by
    apply (Constant.extends_build A).bind
    intro r
    split
    · exact extends_multiply x _
    · exact extends_dotMultiply _ x
  unfold divide
  apply (extends_isConstant c).bind
  intro b
  extract_lets rest
  have hrest (k : Unit) : Extends (rest k) := by
    apply (extends_lift _).bind
    intro A
    extract_lets reciprocal rest
    split
    · exact extends_warn.bind fun _ => hbuild _
    · exact hbuild _
  split
  · exact (extends_throw _).bind hrest
  · exact hrest ⟨⟩

end Node

end Building

end DisciplinedConvex
