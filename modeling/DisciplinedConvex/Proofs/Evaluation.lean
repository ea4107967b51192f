import DisciplinedConvex.Proofs.Bridge
import DisciplinedConvex.Proofs.Registration

namespace DisciplinedConvex

variable {α β γ : Type}

namespace Failure

def of? : Except Failure β → Option Failure
  | .ok _ => none
  | .error f => some f

theorem of?_eq_some_iff {x : Except Failure β} {f : Failure} : of? x = some f ↔ x = .error f := by
  cases x with
  | ok b => simp [of?]
  | error e => simp [of?]

theorem of?_eq_none_iff {x : Except Failure β} : of? x = none ↔ ∃ b, x = .ok b := by
  cases x with
  | ok b => simp [of?]
  | error e => simp [of?]

theorem of?_bind {x : Except Failure β} {g : β → Except Failure γ} {reason : Option Failure}
    (h : ∀ b, x = .ok b → of? (g b) = reason) : of? (x >>= g) = (of? x).or reason := by
  cases x with
  | ok b => exact (h b rfl).trans Option.none_or.symm
  | error e => rfl

end Failure

def Size.excess? (s : Size) : Option Failure :=
  if Extent.fits s.height s.width then none else some .arrayTooLarge

theorem Size.excess?_eq_none_iff {s : Size} :
    s.excess? = none ↔ Extent.fits s.height s.width = true := by
  simp [excess?]

namespace Unknown

def lack? (values : Assignment α) (u : Unknown) : Option Failure :=
  match values u.id with
  | none => some (.missingValue u.name)
  | some (.error f) => some f
  | some (.ok t) =>
    if (t.entries.size : Int) = u.size.count then none
    else some (.wrongCount u.name t.entries.size u.size)

def refusal? (values : Assignment α) (u : Unknown) : Option Failure :=
  (u.lack? values).or u.size.excess?

theorem lack?_eq_none_iff {values : Assignment α} {u : Unknown} :
    u.lack? values = none ↔ values.Gives u := by
  unfold lack? Assignment.Gives
  cases hv : values u.id with
  | none => simp
  | some given =>
    cases given with
    | error f => simp
    | ok t => simp

theorem of?_coerce [Zero α] {u : Unknown} (hs : u.size.Nonneg) (t : Tensor α) :
    Failure.of? (u.coerce t) =
      if (t.entries.size : Int) = u.size.count then u.size.excess?
      else some (.wrongCount u.name t.entries.size u.size) := by
  have hs' : 0 ≤ u.size.rows ∧ 0 ≤ u.size.cols := hs
  by_cases hc : (t.entries.size : Int) = u.size.count
  · rw [coerce, dif_pos hc, dif_pos hs', if_pos hc, Size.excess?, Size.height, Size.width]
    split <;> rfl
  · rw [coerce, dif_neg hc, if_neg hc]
    rfl

theorem of?_valueIn [Zero α] {u : Unknown} (hs : u.size.Nonneg) (values : Assignment α) :
    Failure.of? (u.valueIn values) = u.refusal? values := by
  unfold valueIn refusal? lack?
  cases values u.id with
  | none => rfl
  | some given =>
    cases given with
    | error f => rfl
    | ok t =>
      refine (of?_coerce hs t).trans ?_
      by_cases hc : (t.entries.size : Int) = u.size.count
      · simp [hc]
      · simp [hc]

end Unknown

namespace Node

variable {n : Node α}

/-- The nodes below a node in the order in which their values are found, once for each time. -/
def evaluationOrder : Node α → List (Node α)
  | n@(constant _) | n@(unknown _) => [n]
  | n@(product _ l r) => l.evaluationOrder ++ r.evaluationOrder ++ [n]
  | n@(weighted _ c x) => constant c :: x.evaluationOrder ++ [n]
  | n@(square _ x) => x.evaluationOrder ++ [n]
  | n@(bare _ _ _ args) => (List.ofFn fun i => (args i).evaluationOrder).flatten ++ [n]

theorem evaluationOrder_eq (n : Node α) :
    n.evaluationOrder = n.children.flatMap evaluationOrder ++ [n] := by
  cases n <;>
    simp [evaluationOrder, children, List.flatMap, List.map_ofFn, Function.comp_def]

theorem mem_evaluationOrder {m : Node α} : m ∈ n.evaluationOrder ↔ m ∈ n.preorder := by
  induction n using children_induction with
  | step n ih =>
    rw [evaluationOrder_eq, preorder_eq, List.mem_append, List.mem_singleton, or_comm,
      List.mem_cons, List.mem_flatMap, List.mem_flatMap]
    exact or_congr_right (exists_congr fun c => and_congr_right fun hc => ih c hc)

theorem unknowns_evaluationOrder (n : Node α) :
    n.evaluationOrder.filterMap unknown? = n.unknowns := by
  induction n using children_induction with
  | step n ih =>
    rw [evaluationOrder_eq, unknowns_eq, List.filterMap_append, List.filterMap_flatMap,
      List.flatMap_congr ih]
    cases h : n.unknown? with
    | none => simp [h]
    | some u => simp [h]

def refusal? (values : Assignment α) : Node α → Option Failure
  | unknown u => u.refusal? values
  | product tag l r => if l.size = .scalar ∨ r.size = .scalar then none else tag.size.excess?
  | bare tag kind arity args => some (.noRule .value (bare tag kind arity args).kind)
  | constant _ | weighted .. | square .. => none

section Values

variable [Zero α] [Add α] [Mul α]

theorem of?_multiplyValues {left right s : Size} {A B : Dense α}
    (hs : left.product? right = some s) (hA : A.size = left) (hB : B.size = right) :
    Failure.of? (multiplyValues left right A B) =
      if left = .scalar ∨ right = .scalar then none else s.excess? := by
  by_cases hl : left = .scalar
  · rw [multiplyValues, if_pos hl, if_pos (.inl hl)]
    rfl
  · by_cases hr : right = .scalar
    · rw [multiplyValues, if_neg hl, if_pos hr, if_pos (.inr hr)]
      rfl
    · obtain ⟨-, rfl⟩ := Size.product?_of_ne_scalar hl hr hs
      rw [multiplyValues, if_neg hl, if_neg hr, if_neg (not_or.mpr ⟨hl, hr⟩), Dense.rows_eq hA,
        Dense.cols_eq hB]
      change _ = if Extent.fits left.height right.width then none else some Failure.arrayTooLarge
      split <;> rfl

theorem of?_evaluate (hn : n.Formed) (hs : n.Sized) (values : Assignment α) :
    Failure.of? (n.evaluate values) = n.evaluationOrder.findSome? (refusal? values) := by
  induction n with
  | constant c => rfl
  | unknown u =>
    rw [evaluate, u.of?_valueIn (hs _ (self_mem_preorder _)), evaluationOrder,
      List.findSome?_singleton, refusal?]
  | product tag l r hl hr =>
    obtain ⟨hp, hnl, hnr⟩ := hn
    have hl := hl hnl (hs.child (left_mem_children tag l r))
    have hr := hr hnr (hs.child (right_mem_children tag l r))
    rw [evaluationOrder, List.findSome?_append, List.findSome?_append, ← hl, ← hr, Option.or_assoc]
    refine Failure.of?_bind fun A hA => Failure.of?_bind fun B hB => ?_
    rw [of?_multiplyValues hp (evaluate_size hnl hA) (evaluate_size hnr hB),
      List.findSome?_singleton, refusal?]
  | weighted tag c x hx =>
    have hx := hx hn.2.2 (hs.child (weighted_mem_children tag c x))
    rw [evaluationOrder, List.cons_append, List.findSome?_cons, refusal?, List.findSome?_append, ← hx]
    exact Failure.of?_bind fun A _ => rfl
  | square tag x hx =>
    have hx := hx hn.2 (hs.child (square_mem_children tag x))
    rw [evaluationOrder, List.findSome?_append, ← hx]
    exact Failure.of?_bind fun A _ => rfl
  | bare => exact hn.elim

end Values

theorem refusal?_eq (hn : n.Formed) (hfit : Extent.fits n.size.height n.size.width = true)
    (values : Assignment α) : n.refusal? values = n.unknown?.bind (Unknown.lack? values) := by
  have hexcess := Size.excess?_eq_none_iff.mpr hfit
  cases n with
  | constant | weighted | square => rfl
  | unknown u =>
    have hu : u.size.excess? = none := hexcess
    rw [refusal?, Unknown.refusal?, hu, Option.or_none]
    rfl
  | product tag l r =>
    have htag : tag.size.excess? = none := hexcess
    rw [refusal?, htag, ite_self]
    rfl
  | bare => exact hn.elim

theorem findSome?_refusal? (hn : n.Formed) (hfit : n.Fits) (values : Assignment α) :
    n.evaluationOrder.findSome? (refusal? values) =
      n.unknowns.findSome? (Unknown.lack? values) := by
  have hrefusal : ∀ m ∈ n.evaluationOrder,
      m.refusal? values = m.unknown?.bind (Unknown.lack? values) := fun m hm =>
    refusal?_eq (hn.of_mem (mem_evaluationOrder.mp hm)) (hfit m (mem_evaluationOrder.mp hm)) values
  rw [← List.head?_filterMap, List.filterMap_congr hrefusal, ← List.filterMap_filterMap,
    unknowns_evaluationOrder, List.head?_filterMap]

end Node

namespace Compilation

open DisciplinedConvex.Node

section Sizes

variable [Zero α] [One α] [Neg α] [Add α] [Mul α] [Scalar α]
variable {config : Config} {s : Compilation α} {ns : List (Node α)} {n : Node α}

/-- The value of a node whose sizes are not negative has the size of the node. It fails to be found
exactly if something below is refused, and then for the first such reason in the order of evaluation:
the numbers for an unknown are missing or not as many as it has entries, or the array of an unknown
or of a matrix product is too large. No other operation can fail. If no array is too large, the
unknowns decide, in the order in which a traversal from the top meets them. -/
theorem Reached.evaluate_complete (h : Reached config s ns) (hn : n ∈ s.nodes ns) (hs : n.Sized)
    (values : Assignment α) :
    (∀ f, n.evaluate values = .error f ↔
      n.evaluationOrder.findSome? (refusal? values) = some f) ∧
    (∀ A, n.evaluate values = .ok A → A.size = n.size) ∧
    n.evaluationOrder.filterMap unknown? = n.unknowns ∧
    (n.Fits → ∀ f, n.evaluate values = .error f ↔
      n.unknowns.findSome? (Unknown.lack? values) = some f) := by
  have hform := h.sound.family.formed n hn
  have hfails (f : Failure) : n.evaluate values = .error f ↔
      n.evaluationOrder.findSome? (refusal? values) = some f := by
    rw [← of?_evaluate hform hs values]
    exact Failure.of?_eq_some_iff.symm
  refine ⟨hfails, fun A hA => evaluate_size hform hA, n.unknowns_evaluationOrder,
    fun hfit f => (hfails f).trans ?_⟩
  rw [findSome?_refusal? hform hfit values]

end Sizes

theorem namesakes_refused :
    let values : Assignment ℚ := fun id => if id = low.id then some (.ok (.vector #[1, 2])) else none
    namesakes.evaluate values = .error (.wrongCount "v" 2 .scalar) := by
  intro values
  have hsized : namesakes.Sized := by
    intro m hm
    simp only [namesakes, preorder, List.cons_append, List.nil_append, List.mem_cons,
      List.not_mem_nil, or_false] at hm
    rcases hm with rfl | rfl | rfl
    · exact ⟨by decide, by decide⟩
    · exact ⟨by decide, by decide⟩
    · exact ⟨by decide, by decide⟩
  have hmem : namesakes ∈ (untouched (α := ℚ) 3 2).nodes
      (namesakes.preorder ++ [.unknown high, .unknown low]) := by
    simp [nodes, namesakes, preorder]
  refine ((reached_namesakes.evaluate_complete hmem hsized values).1 _).mpr ?_
  have hlow : low.lack? values = some (.wrongCount "v" 2 .scalar) := by
    rw [Unknown.lack?, show values low.id = some (.ok (.vector #[1, 2])) from if_pos rfl]
    rfl
  rw [namesakes, evaluationOrder, evaluationOrder, List.singleton_append, List.cons_append,
    List.findSome?_cons, refusal?, Unknown.refusal?, hlow]
  rfl

def strip : Unknown := ⟨0, Identity.ofUnknown 0, 0, "x", ⟨0, 1152921504606846976⟩, .indeterminate⟩

theorem reached_strip : Reached {} (untouched (α := ℚ) 1 1) [.unknown strip] :=
  Reached.start.step (.unknown "x" ⟨0, 1152921504606846976⟩ (.ok .indeterminate)) nofun

def hollow : Assignment ℚ := fun _ => some (.ok (.vector #[]))

theorem strip_nonneg : strip.size.Nonneg := ⟨by decide, by decide⟩

theorem hollow_gives_strip : hollow.Gives strip := ⟨_, rfl, rfl⟩

theorem refusal?_strip : strip.refusal? hollow = some .arrayTooLarge := by
  rw [Unknown.refusal?, Unknown.lack?_eq_none_iff.mpr hollow_gives_strip, Option.none_or]
  decide

/-- An unknown that was given all its entries, none, has no value yet. -/
theorem strip_refused : Reached {} (untouched (α := ℚ) 1 1) [.unknown strip] ∧
    (Node.unknown (α := ℚ) strip).Sized ∧ (Node.unknown (α := ℚ) strip).Covered hollow ∧
    (Node.unknown strip).evaluate hollow = .error .arrayTooLarge := by
  have hbelow {m : Node ℚ} (hm : m ∈ (Node.unknown strip).preorder) : m = .unknown strip := by
    simpa [preorder] using hm
  refine ⟨reached_strip, ?_, ?_, ?_⟩
  · intro m hm
    rw [hbelow hm]
    exact strip_nonneg
  · intro u hu
    rw [Node.unknown.inj (hbelow hu)]
    exact hollow_gives_strip
  · refine Failure.of?_eq_some_iff.mp ((strip.of?_valueIn strip_nonneg hollow).trans ?_)
    exact refusal?_strip

end Compilation

end DisciplinedConvex
