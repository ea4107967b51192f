import DisciplinedConvex.Layout
import DisciplinedConvex.Proofs.Constancy

namespace DisciplinedConvex.Node

variable {α : Type}

theorem children_forget (n : Node α) : n.forget.children = n.children.map forget := by
  cases n with
  | constant | unknown | product | weighted | square => rfl
  | bare tag kind arity args => simp only [forget, children, List.map_ofFn, Function.comp_def]

theorem Alike.children {m n : Node α} (h : m.Alike n) : List.Forall₂ Alike m.children n.children := by
  have hforget : m.children.map forget = n.children.map forget := by
    rw [← children_forget, ← children_forget, h]
  rwa [← List.forall₂_eq_eq_eq, List.forall₂_map_left_iff, List.forall₂_map_right_iff] at hforget

theorem Alike.id_eq {m n : Node α} (h : m.Alike n) : m.id = n.id := by
  rw [← m.id_forget, ← n.id_forget, h]

theorem Alike.ground_iff {m n : Node α} (h : m.Alike n) : m.Ground ↔ n.Ground :=
  ⟨fun hm u hu => hm u (Alike.unknown_mem h.symm hu), fun hn u hu => hn u (h.unknown_mem hu)⟩

namespace Walk

structure Grows (S : List (Node α)) (w w' : Walk α) : Prop where
  left : ∃ new ⊆ S, w'.left = new ++ w.left
  kept : ∀ id, w.seen.contains id = true → w'.seen.contains id = true
  seen : ∀ id, w'.seen.contains id = true → w.seen.contains id = true ∨ ∃ m ∈ S, m.id = id

variable {S T : List (Node α)} {w w' w'' : Walk α} {n : Node α}

theorem Grows.refl (w : Walk α) : Grows S w w :=
  ⟨⟨[], List.nil_subset _, rfl⟩, fun _ h => h, fun _ h => .inl h⟩

theorem Grows.trans (h : Grows S w w') (h' : Grows S w' w'') : Grows S w w'' := by
  obtain ⟨new, hnew, hl⟩ := h.left
  obtain ⟨new', hnew', hl'⟩ := h'.left
  refine ⟨⟨new' ++ new, List.append_subset.mpr ⟨hnew', hnew⟩, ?_⟩,
    fun id hid => h'.kept id (h.kept id hid), fun id hid => ?_⟩
  · rw [hl', hl, List.append_assoc]
  · exact (h'.seen id hid).elim (h.seen id) .inr

theorem Grows.mono (h : Grows S w w') (hST : S ⊆ T) : Grows T w w' := by
  obtain ⟨new, hnew, hl⟩ := h.left
  exact ⟨⟨new, List.Subset.trans hnew hST, hl⟩, h.kept,
    fun id hid => (h.seen id hid).imp_right fun ⟨m, hm, he⟩ => ⟨m, hST hm, he⟩⟩

theorem contains_meet (w : Walk α) (n : Node α) (id : String) :
    (w.meet n).seen.contains id = true ↔ n.id = id ∨ w.seen.contains id = true := by
  simp only [meet, Std.TreeSet.contains_insert, Bool.or_eq_true, beq_iff_eq,
    Std.compare_eq_iff_eq]

theorem grows_meet (w : Walk α) (hn : n ∈ S) : Grows S w (w.meet n) where
  left := ⟨[], List.nil_subset _, rfl⟩
  kept id hid := (contains_meet w n id).mpr (.inr hid)
  seen id hid := ((contains_meet w n id).mp hid).elim (fun he => .inr ⟨n, hn, he⟩) .inl

theorem grows_leave (w : Walk α) (hn : n ∈ S) : Grows S w (w.leave n) :=
  ⟨⟨[n], List.cons_subset.mpr ⟨hn, List.nil_subset _⟩, rfl⟩, fun _ h => h, fun _ h => .inl h⟩

theorem grows_foldl {f : Walk α → Node α → Walk α} {cs : List (Node α)}
    (hf : ∀ c ∈ cs, ∀ w, Grows S w (f w c)) (w : Walk α) : Grows S w (cs.foldl f w) := by
  induction cs generalizing w with
  | nil => exact .refl w
  | cons c cs ih =>
    exact (hf c (List.mem_cons_self ..) w).trans
      (ih (fun d hd => hf d (List.mem_cons_of_mem _ hd)) (f w c))

theorem grows_visit (skip : Node α → Bool) (n : Node α) (w : Walk α) :
    Grows n.preorder w (visit skip n w) := by
  induction n using children_induction generalizing w with
  | step n ih =>
    have hn := n.self_mem_preorder
    rw [visit_eq]
    split
    · exact .refl w
    · split
      · exact grows_meet w hn
      · have hchild : ∀ c ∈ n.children, ∀ w, Grows n.preorder w (visit skip c w) :=
          fun c hc w => (ih c hc w).mono fun m hm => mem_preorder_of_child hc hm
        have hfold := grows_foldl hchild (w.meet n)
        exact ((grows_meet w hn).trans hfold).trans (grows_leave _ hn)

end Walk

def Marks (V : String → Prop) (n : Node α) : Prop := ∀ m ∈ n.preorder, V m.id ↔ ¬m.Ground

theorem Marks.child {V : String → Prop} {c n : Node α} (h : n.Marks V) (hc : c ∈ n.children) :
    c.Marks V :=
  fun m hm => h m (mem_preorder_of_child hc hm)

inductive Matched : List (Node α) → List (Node α) → Prop
  | nil : Matched [] []
  | both {c d : Node α} {cs ds : List (Node α)} (h : c.Alike d) (hs : Matched cs ds) :
      Matched (c :: cs) (d :: ds)
  | left {c : Node α} {cs ds : List (Node α)} (h : c.Ground) (hs : Matched cs ds) :
      Matched (c :: cs) ds
  | right {d : Node α} {cs ds : List (Node α)} (h : d.Ground) (hs : Matched cs ds) :
      Matched cs (d :: ds)

theorem matched_of_forall₂ {cs ds : List (Node α)} (h : List.Forall₂ Alike cs ds) :
    Matched cs ds := by
  induction h with
  | nil => exact .nil
  | cons h _ ih => exact .both h ih

variable [Scalar α]

/-- What a node asks of a layout when it is lowered: an unknown the slot of its own, and a square that
is replaced by an auxiliary one that is listed here under the identity of the square. -/
def seat? : Node α → Option Holder
  | unknown u => some (.unknown u)
  | square tag x => if x.vexity = .constant then none else some (.other tag.id tag.size)
  | constant _ | product .. | weighted .. | bare .. => none

theorem seat?_forget (n : Node α) : n.forget.seat? = n.seat? := by
  cases n with
  | square tag x => simp only [forget, seat?, vexity_forget]
  | constant | unknown | product | weighted | bare => rfl

theorem Alike.seat?_eq {m n : Node α} (h : m.Alike n) : m.seat? = n.seat? := by
  rw [← m.seat?_forget, ← n.seat?_forget, h]

theorem Ground.seat?_eq_none {n : Node α} (h : n.Ground) (hn : n.Formed) : n.seat? = none := by
  cases n with
  | unknown u => exact absurd (self_mem_preorder _) (h u)
  | square tag x =>
    have hx := (vexity_eq_constant_iff hn.2).mpr (h.child (square_mem_children tag x))
    rw [seat?, if_pos hx]
  | constant | product | weighted | bare => rfl

namespace Walk

structure Level (V : String → Prop) (w w' : Walk α) : Prop where
  seen : ∀ id, V id → (w.seen.contains id = true ↔ w'.seen.contains id = true)
  seats : w.left.filterMap seat? = w'.left.filterMap seat?

variable {V : String → Prop} {w w' : Walk α} {m n : Node α} {cs ds : List (Node α)}

theorem Level.symm (h : Level V w w') : Level V w' w :=
  ⟨fun id hid => (h.seen id hid).symm, h.seats.symm⟩

theorem Level.visit_ground {skip : Node α → Bool} (h : Level V w w') (hn : n.Ground)
    (hf : n.Formed) (hV : n.Marks V) : Level V (visit skip n w) w' := by
  have hgrows := grows_visit skip n w
  have hground {m : Node α} (hm : m ∈ n.preorder) : m.Ground :=
    fun u hu => hn u (mem_preorder_trans hm hu)
  obtain ⟨new, hnew, hleft⟩ := hgrows.left
  refine ⟨fun id hid => ?_, ?_⟩
  · rw [← h.seen id hid]
    refine ⟨fun hs => (hgrows.seen id hs).resolve_right ?_, hgrows.kept id⟩
    rintro ⟨m, hm, rfl⟩
    exact (hV m hm).mp hid (hground hm)
  · have hnone : new.filterMap seat? = [] :=
      List.filterMap_eq_nil_iff.mpr fun m hm =>
        (hground (hnew hm)).seat?_eq_none (hf.of_mem (hnew hm))
    rw [hleft, List.filterMap_append, hnone, List.nil_append, h.seats]

theorem Level.foldl {skip : Node α → Bool} (hcs : Matched cs ds) (h : Level V w w')
    (hf : ∀ c ∈ cs ++ ds, c.Formed ∧ c.Marks V)
    (hboth : ∀ c ∈ cs, ∀ d ∈ ds, c.Alike d → ∀ w w', Level V w w' →
      Level V (visit skip c w) (visit skip d w')) :
    Level V (cs.foldl (fun w c => visit skip c w) w) (ds.foldl (fun w d => visit skip d w) w') := by
  induction hcs generalizing w w' with
  | nil => exact h
  | @both c d cs ds hcd _ ih =>
    have hhead := hboth c (List.mem_cons_self ..) d (List.mem_cons_self ..) hcd w w' h
    refine ih hhead (fun e he => hf e ?_) fun a ha b hb =>
      hboth a (List.mem_cons_of_mem _ ha) b (List.mem_cons_of_mem _ hb)
    rcases List.mem_append.mp he with he | he
    · exact List.mem_append_left _ (List.mem_cons_of_mem _ he)
    · exact List.mem_append_right _ (List.mem_cons_of_mem _ he)
  | @left c cs ds hc _ ih =>
    obtain ⟨hcf, hcV⟩ := hf c (List.mem_append_left _ (List.mem_cons_self ..))
    exact ih (h.visit_ground hc hcf hcV) (fun e he => hf e (List.mem_cons_of_mem _ he))
      fun a ha => hboth a (List.mem_cons_of_mem _ ha)
  | @right d cs ds hd _ ih =>
    obtain ⟨hdf, hdV⟩ := hf d (List.mem_append_right _ (List.mem_cons_self ..))
    refine ih (h.symm.visit_ground hd hdf hdV).symm (fun e he => hf e ?_) fun a ha b hb =>
      hboth a ha b (List.mem_cons_of_mem _ hb)
    rcases List.mem_append.mp he with he | he
    · exact List.mem_append_left _ he
    · exact List.mem_append_right _ (List.mem_cons_of_mem _ he)

theorem Level.meet (h : Level V w w') (hmn : ∀ id, V id → (m.id = id ↔ n.id = id)) :
    Level V (w.meet m) (w'.meet n) :=
  ⟨fun id hid => by rw [contains_meet, contains_meet, h.seen id hid, hmn id hid], h.seats⟩

theorem Level.leave (h : Level V w w') (hmn : m.seat? = n.seat?) :
    Level V (w.leave m) (w'.leave n) := by
  refine ⟨h.seen, ?_⟩
  rw [Walk.leave, Walk.leave, List.filterMap_cons, List.filterMap_cons, hmn, h.seats]

theorem Level.visit (h : Level V w w') (hmn : m.Alike n) (hm : m.Formed ∧ m.Marks V)
    (hn : n.Formed ∧ n.Marks V) :
    Level V (visit (fun _ => false) m w) (visit (fun _ => false) n w') := by
  induction m using children_induction generalizing n w w' with
  | step m ih =>
    by_cases hground : m.Ground
    · have hleft : Level V (Node.visit (fun _ => false) m w) w' := h.visit_ground hground hm.1 hm.2
      exact (hleft.symm.visit_ground (hmn.ground_iff.mp hground) hn.1 hn.2).symm
    · have hseen := h.seen m.id ((hm.2 m m.self_mem_preorder).mpr hground)
      rw [visit_eq, visit_eq, ← hmn.id_eq]
      by_cases hs : w.seen.contains m.id = true
      · rw [if_pos hs, if_pos (hseen.mp hs)]
        exact h
      · rw [if_neg hs, if_neg fun hs' => hs (hseen.mpr hs'), if_neg Bool.false_ne_true,
          if_neg Bool.false_ne_true]
        have hmeet := h.meet (m := m) (n := n) fun id _ => by rw [hmn.id_eq]
        refine (hmeet.foldl (matched_of_forall₂ hmn.children) (fun c hc => ?_)
          fun c hc d hd hcd w w' hw => ?_).leave hmn.seat?_eq
        · rcases List.mem_append.mp hc with hc | hc
          · exact ⟨hm.1.child hc, hm.2.child hc⟩
          · exact ⟨hn.1.child hc, hn.2.child hc⟩
        · exact ih c hc hw hcd ⟨hm.1.child hc, hm.2.child hc⟩ ⟨hn.1.child hd, hn.2.child hd⟩

end Walk

theorem seats_postOrder {V : String → Prop} {m n : Node α}
    (hmatched : Matched m.children n.children) (hseat : m.seat? = n.seat?) (hm : ¬V m.id)
    (hn : ¬V n.id) (hf : ∀ c ∈ m.children ++ n.children, c.Formed ∧ c.Marks V) :
    (postOrder (fun _ => false) m).order.filterMap seat? =
      (postOrder (fun _ => false) n).order.filterMap seat? := by
  have hstart : Walk.Level V (.empty : Walk α) .empty := ⟨fun _ _ => Iff.rfl, rfl⟩
  have hmeet := hstart.meet (m := m) (n := n) fun id hid =>
    iff_of_false (fun he => hm (he ▸ hid)) fun he => hn (he ▸ hid)
  have hfold := hmeet.foldl hmatched hf fun c hc d hd hcd w w' hw =>
    hw.visit hcd (hf c (List.mem_append_left _ hc)) (hf d (List.mem_append_right _ hd))
  have hseen (n : Node α) : ¬(Walk.empty : Walk α).seen.contains n.id = true := by
    simp [Walk.empty]
  rw [postOrder_eq_visit, postOrder_eq_visit, visit_eq, visit_eq, if_neg (hseen m),
    if_neg (hseen n), if_neg Bool.false_ne_true, if_neg Bool.false_ne_true, Walk.order, Walk.order,
    List.filterMap_reverse, List.filterMap_reverse, (hfold.leave hseat).seats]

end DisciplinedConvex.Node
