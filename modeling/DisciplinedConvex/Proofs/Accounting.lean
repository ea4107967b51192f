import DisciplinedConvex.Proofs.DepthFirst
import DisciplinedConvex.Proofs.Epigraph
import DisciplinedConvex.Proofs.Turns

open DisciplinedConvex.Task

namespace DisciplinedConvex

namespace Node

variable {α : Type}

def replaced [Scalar α] : Node α → Bool
  | square _ x => decide (x.vexity ≠ .constant)
  | constant _ | unknown _ | product .. | weighted .. | bare .. => false

def identities (ns : List (Node α)) : Finset String := (ns.map id).toFinset

variable {m n : Node α} {ms xs : List (Node α)}

theorem card_identities (hms : (ms.map id).Nodup)
    (h : ∀ i, (∃ m ∈ ms, m.id = i) ↔ ∃ x ∈ xs, x.id = i) : (identities xs).card = ms.length := by
  have heq : identities xs = identities ms := by
    ext i
    simp only [identities, List.mem_toFinset, List.mem_map]
    exact (h i).symm
  rw [heq, identities, List.toFinset_card_of_nodup hms, List.length_map]

theorem replaced_eq_of_seat? [Scalar α] (h : n.seat? = none) : n.replaced = false := by
  cases n with
  | square tag x =>
    rw [seat?] at h
    split at h
    · next hv => simp [replaced, hv]
    · cases h
  | constant | unknown | product | weighted | bare => rfl

theorem Alike.replaced_eq [Scalar α] (h : m.Alike n) : m.replaced = n.replaced := by
  have hforget (n : Node α) : n.forget.replaced = n.replaced := by
    cases n with
    | square tag x => simp only [forget, replaced, vexity_forget]
    | constant | unknown | product | weighted | bare => rfl
  rw [← hforget m, ← hforget n, h]

section Walk

variable {held : String → Bool}

theorem countP_met (hN : Faithful n.preorder) :
    (postOrder (fun m => held m.id) n).met.countP (fun m => held m.id) =
      (identities ((n.exposed fun m => held m.id).filter fun m => held m.id)).card := by
  have hid : n.IdsWeigh := fun a ha b hb he => (hN a ha b hb he).weight_eq
  have hw : Walk.Within _ n.preorder [] (postOrder (fun m => held m.id) n) := postOrder_within hid
  have hids := hw.settled.ids
  rw [List.countP_eq_length_filter]
  refine (card_identities (hids.sublist (List.filter_sublist.map _)) fun i => ?_).symm
  -- whether a node is held depends on its identity alone
  have hfilter (ns : List (Node α)) : (∃ m ∈ ns.filter fun m => held m.id, m.id = i) ↔
      held i = true ∧ ∃ m ∈ ns, m.id = i := by
    constructor
    · rintro ⟨m, hm, rfl⟩
      obtain ⟨hm, hheld⟩ := List.mem_filter.mp hm
      exact ⟨hheld, m, hm, rfl⟩
    · rintro ⟨hheld, m, hm, rfl⟩
      exact ⟨m, List.mem_filter.mpr ⟨hm, hheld⟩, rfl⟩
  rw [hfilter, hfilter, met_postOrder hN.coherent]

theorem countP_order (hN : Faithful n.preorder)
    (hbelow : ∀ a ∈ n.preorder, held a.id = true → ∀ b ∈ a.preorder, held b.id = true)
    {p : Node α → Bool} (hp : ∀ a b, a.Alike b → p a = p b) :
    (postOrder (fun m => held m.id) n).order.countP p =
      (identities (n.preorder.filter fun m => !held m.id && p m)).card := by
  have hid : n.IdsWeigh := fun a ha b hb he => (hN a ha b hb he).weight_eq
  have hw : Walk.Within _ n.preorder [] (postOrder (fun m => held m.id) n) := postOrder_within hid
  have hids : ((postOrder (fun m => held m.id) n).left.map id).Nodup := hw.settled.ids_left
  rw [Walk.order, List.countP_reverse, List.countP_eq_length_filter]
  refine (card_identities (hids.sublist (List.filter_sublist.map _)) fun i => ?_).symm
  simp only [List.mem_filter, Bool.and_eq_true, Bool.not_eq_true']
  constructor
  · rintro ⟨m, ⟨hm, hpm⟩, rfl⟩
    obtain ⟨hmet, hheld⟩ := hw.settled.left m hm
    exact ⟨m, ⟨hw.met hmet, hheld, hpm⟩, rfl⟩
  · rintro ⟨x, ⟨hx, hheld, hpx⟩, rfl⟩
    obtain ⟨d, hd, he⟩ := (met_postOrder hN.coherent x.id).mpr ⟨x, mem_exposed_of_mem hbelow hx hheld, rfl⟩
    refine ⟨d, ⟨?_, ?_⟩, he⟩
    · rcases hw.settled.met d hd with hk | hl | ha
      · rw [he, hheld] at hk
        cases hk
      · exact hl
      · exact absurd ha List.not_mem_nil
    · rw [hp d x (hN d (hw.met hd) x hx he)]
      exact hpx

end Walk

end Node

variable {α : Type} [Zero α] [One α] [Neg α] [Add α] [Mul α] [Scalar α]

namespace Pass

variable {P Q : Pass α}

structure Gains (P Q : Pass α) (ids : List String) : Prop where
  nodup : ids.Nodup
  new : ∀ id ∈ ids, P.contains id = false
  count : Q.computations = P.computations + ids.length
  held : ∀ id, Q.contains id = true ↔ P.contains id = true ∨ id ∈ ids
  kept : ∀ id F, P.find? id = some F → Q.find? id = some F

omit [Zero α] [One α] [Neg α] [Add α] [Mul α] [Scalar α] in
theorem contains_store_iff (P : Pass α) (id id' : String) (F : Form α) :
    (P.store id F).contains id' = true ↔ P.contains id' = true ∨ id' = id := by
  constructor
  · exact fun h => (eq_or_contains_of_store h).symm.imp_right Eq.symm
  · rintro (h | rfl)
    · exact contains_store h
    · exact contains_store_self ..

theorem Steps.gains (h : Steps P Q) : ∃ ids, P.Gains Q ids := by
  induction h with
  | refl => exact ⟨[], List.nodup_nil, nofun, rfl, by simp, fun _ _ h => h⟩
  | @tail Q R hPQ hstep ih =>
    obtain ⟨ids, h⟩ := ih
    cases hstep with
    | hit | introduce | demand => exact ⟨ids, h.nodup, h.new, h.count, h.held, h.kept⟩
    | store id F hnew =>
      have hQ : ¬(P.contains id = true ∨ id ∈ ids) := by
        rw [← h.held, hnew]
        exact Bool.false_ne_true
      refine ⟨id :: ids, List.nodup_cons.mpr ⟨fun hid => hQ (.inr hid), h.nodup⟩, fun i hi => ?_,
        ?_, fun i => ?_, fun i G hG => ?_⟩
      · rcases List.mem_cons.mp hi with rfl | hi
        · exact Bool.eq_false_iff.mpr fun hc => hQ (.inl hc)
        · exact h.new i hi
      · rw [store, h.count, List.length_cons, Nat.add_assoc]
      · rw [contains_store_iff, h.held, List.mem_cons, or_assoc,
          or_comm (a := i ∈ ids)]
      · exact (Step.store id F hnew ‹_›).find? (h.kept i G hG)

theorem Step.balanced (h : Step P Q) (hP : P.computations = P.forms.size) :
    Q.computations = Q.forms.size := by
  cases h with
  | hit | introduce | demand => exact hP
  | store id F hnew =>
    have hid : ¬P.forms.contains id = true := by
      rw [Std.TreeMap.contains_eq_isSome_getElem?]
      exact Bool.eq_false_iff.mp hnew
    rw [Pass.store, Std.TreeMap.size_insert, if_neg hid, hP]

theorem Steps.balanced (h : Steps P Q) (hP : P.computations = P.forms.size) :
    Q.computations = Q.forms.size := by
  induction h with
  | refl => exact hP
  | tail _ hstep ih => exact hstep.balanced ih

end Pass

namespace Compilation

variable {s s' t : Compilation α} {ns order : List (Node α)} {n : Node α}

theorem Prepared.counts (h : Prepared ns n s t) :
    t.pass.computations = s.pass.computations + (if n.replaced then 1 else 0) ∧
      t.pass.hits = s.pass.hits := by
  cases h with
  | plain hseat hst =>
    rw [Node.replaced_eq_of_seat? hseat, hst.pass]
    exact ⟨rfl, rfl⟩
  | placed u hn hst =>
    subst hn
    rw [hst.pass]
    exact ⟨rfl, rfl⟩
  | @bounded q t tag x hn hv hsq hu hqt T hT cs hcs =>
    subst hn
    have hcomputations : t.pass.computations = s.pass.computations := by
      rw [hqt.pass, ← hsq.pass]
      rfl
    have hhits : t.pass.hits = s.pass.hits := by
      rw [hqt.pass, ← hsq.pass]
      rfl
    rw [Node.replaced, decide_eq_true hv, if_pos rfl, ← hcomputations, ← hhits]
    exact ⟨rfl, rfl⟩

theorem Turn.counts {F : Form α} (h : Turn ns n s (.ok F) s') :
    s'.pass.computations = s.pass.computations + (if n.replaced then 1 else 0) + 1 ∧
      s'.pass.hits = s.pass.hits := by
  cases h with
  | stored ht F hF =>
    obtain ⟨hcomputations, hhits⟩ := ht.counts
    exact ⟨congrArg (· + 1) hcomputations, hhits⟩

theorem Turns.counts (h : Turns ns order s (.ok ()) s') :
    s'.pass.computations =
        s.pass.computations + order.countP (fun _ => true) + order.countP Node.replaced ∧
      s'.pass.hits = s.pass.hits := by
  generalize hr : (.ok () : Except Failure Unit) = r at h
  induction h with
  | done => exact ⟨rfl, rfl⟩
  | stopped => cases hr
  | next hdue h _ ih =>
    obtain ⟨hcomputations, hhits⟩ := h.counts
    obtain ⟨hcomputations', hhits'⟩ := ih hr
    refine ⟨?_, hhits'.trans hhits⟩
    rw [hcomputations', hcomputations, List.countP_cons, List.countP_cons, if_pos rfl]
    omega

omit [Zero α] [One α] [Neg α] [Add α] [Mul α] [Scalar α] in
theorem pending_order_of_contains (hc : s.pass.contains n.id = true) :
    (s.pending n).order = [] := by
  rw [pending, Node.postOrder_eq_visit, Node.visit_eq, if_neg (by simp [Node.Walk.empty]), if_pos hc]
  rfl

/-- The books of a pass are exact. As many forms were computed as are held; a request computes the form
of an identity at most once, and of none that is held. A form that is asked for costs one hit if it is
held. Otherwise it costs one computation for each identity below that is not held, one more for each
square that varies among these, and one hit for each held identity that no held one hides. -/
theorem Reached.accounts {config : Config} (h : Reached config s ns)
    (hN : Node.Faithful (s.nodes ns)) :
    s.pass.computations = s.pass.forms.size ∧
    (∀ r : Request α, r.operands ⊆ s.nodes ns →
      Node.Faithful ((r.serve s).2.nodes (r.built s ++ ns)) →
        ∃ ids, s.pass.Gains (r.serve s).2.pass ids) ∧
    ∀ n ∈ s.nodes ns, ∀ F s', lower n s = (.ok F, s') → Node.Faithful (s'.nodes ns) →
      (s.pass.contains n.id = true → s' = { s with pass := s.pass.hit 1 }) ∧
      (s.pass.contains n.id = false → s'.pass.hits = s.pass.hits + (Node.identities
        ((n.exposed fun m => s.pass.contains m.id).filter fun m => s.pass.contains m.id)).card) ∧
      s'.pass.computations = s.pass.computations +
        (Node.identities (n.preorder.filter fun m => !s.pass.contains m.id)).card +
        (Node.identities (n.preorder.filter fun m => !s.pass.contains m.id && m.replaced)).card ∧
      ∀ m ∈ n.preorder, s'.pass.contains m.id = true := by
  obtain ⟨hlinked, hsteps⟩ := h.linked hN
  refine ⟨hsteps.balanced rfl, fun r hr hN' => (hlinked.serve r hr hN').2.gains,
    fun n hn F s' hrun hN' => ?_⟩
  have hsub := hlinked.preorder_subset hn
  have hfaithful : Node.Faithful n.preorder := hN.mono hsub
  have hbelow : ∀ a ∈ n.preorder, s.pass.contains a.id = true →
      ∀ b ∈ a.preorder, s.pass.contains b.id = true := fun a ha hc b hb =>
    hlinked.below (hsub ha) hc hb
  have hrun : Run ns n s (.ok F) s' := by
    have hends := lower_run hlinked hn
    rw [Ends, hrun] at hends
    exact hends hN'
  have hadvances := hrun.advances hlinked
  have hheld : ∀ m ∈ n.preorder, s'.pass.contains m.id = true := fun m hm =>
    hadvances.linked.below (hadvances.nodes hn) (Pass.contains_of_find? hrun.find?) hm
  have hturns : (s.pending n).order.countP (fun _ => true) = (Node.identities
      (n.preorder.filter fun m => !s.pass.contains m.id && true)).card :=
    Node.countP_order hfaithful hbelow fun _ _ _ => rfl
  have hsquares : (s.pending n).order.countP Node.replaced = (Node.identities
      (n.preorder.filter fun m => !s.pass.contains m.id && m.replaced)).card :=
    Node.countP_order hfaithful hbelow fun _ _ => Node.Alike.replaced_eq
  have hhits : (s.pending n).met.countP (fun m => s.pass.contains m.id) = _ :=
    Node.countP_met hfaithful
  simp only [Bool.and_true] at hturns
  rw [← hturns, ← hsquares, ← hhits]
  cases hrun with
  | found hF =>
    have hc := Pass.contains_of_find? hF
    refine ⟨fun _ => rfl, fun hnew => ?_, ?_, hheld⟩
    · rw [hc] at hnew
      cases hnew
    · rw [pending_order_of_contains hc]
      rfl
  | computed hnew h hF =>
    obtain ⟨hcomputations, hhits⟩ := h.counts
    refine ⟨fun hc => ?_, fun _ => hhits, hcomputations, hheld⟩
    rw [hnew] at hc
    cases hc

def sided : Compilation ℚ := ((Request.lower (.unknown side)).serve (untouched 2 1)).2

theorem reached_sided : Reached {} sided drawn := by
  rw [sided]
  exact reached_area.ask (.lower (.unknown side))
    (List.cons_subset.mpr ⟨List.mem_append_right _ (by simp [drawn]), List.nil_subset _⟩)
    fun t => (Request.ask_eq _ t).1

theorem sided_eq : sided.pass.auxiliaries.map (·.unknown) = [] ∧
    (lower area sided).2.pass.auxiliaries.map (·.unknown) = [bounding] ∧
    (lower area sided).1.isOk = true := by
  decide +kernel

theorem area_accounted : sided.pass.computations = sided.pass.forms.size ∧
    (lower area sided).2.pass.computations = sided.pass.computations + 1 + 1 ∧
    (lower area sided).2.pass.hits = sided.pass.hits + 1 := by
  obtain ⟨hnone, hone, hok⟩ := sided_eq
  have hnodes : sided.nodes drawn = drawn := nodes_eq_of_auxiliaries hnone drawn
  have hN := bounded_faithful hone
  have hsided : Node.Faithful (sided.nodes drawn) := by
    rw [hnodes]
    exact hN.mono (List.subset_append_right ..)
  obtain ⟨F, hF⟩ := eq_ok_of_isOk hok
  obtain ⟨hbalanced, -, hlower⟩ := reached_sided.accounts hsided
  obtain ⟨-, hhits, hcomputations, -⟩ := hlower area (area_mem _) F _ (Prod.ext hF rfl) hN
  have hcards :
      (Node.identities (area.preorder.filter fun m => !sided.pass.contains m.id)).card = 1 ∧
      (Node.identities (area.preorder.filter fun m =>
        !sided.pass.contains m.id && m.replaced)).card = 1 ∧
      (Node.identities ((area.exposed fun m => sided.pass.contains m.id).filter fun m =>
        sided.pass.contains m.id)).card = 1 ∧ sided.pass.contains area.id = false := by
    decide +kernel
  obtain ⟨hturns, hsquares, hfrontier, hnew⟩ := hcards
  refine ⟨hbalanced, ?_, ?_⟩
  · rw [hcomputations, hturns, hsquares]
  · rw [hhits hnew, hfrontier]

end Compilation

end DisciplinedConvex
