import DisciplinedConvex.Node.Walk
import Mathlib.Data.List.Nodup

namespace DisciplinedConvex.Node

variable {α : Type}

theorem left_mem_children (tag : Tag) (l r : Node α) : l ∈ (product tag l r).children :=
  List.mem_cons_self ..

theorem right_mem_children (tag : Tag) (l r : Node α) : r ∈ (product tag l r).children :=
  List.mem_cons_of_mem _ (List.mem_cons_self ..)

theorem weighted_mem_children (tag : Tag) (c : Constant α) (x : Node α) :
    x ∈ (weighted tag c x).children :=
  List.mem_cons_of_mem _ (List.mem_cons_self ..)

theorem square_mem_children (tag : Tag) (x : Node α) : x ∈ (square tag x).children :=
  List.mem_cons_self ..

theorem self_mem_preorder (n : Node α) : n ∈ n.preorder := by
  rw [preorder_eq]
  exact List.mem_cons_self ..

theorem mem_preorder_of_child {c m n : Node α} (hc : c ∈ n.children) (hm : m ∈ c.preorder) :
    m ∈ n.preorder := by
  rw [preorder_eq]
  exact List.mem_cons_of_mem _ (List.mem_flatMap.mpr ⟨c, hc, hm⟩)

theorem child_mem_preorder {c n : Node α} (hc : c ∈ n.children) : c ∈ n.preorder :=
  mem_preorder_of_child hc c.self_mem_preorder

theorem weight_induction {P : Node α → Prop} (n : Node α)
    (step : ∀ n, (∀ c, c.weight < n.weight → P c) → P n) : P n :=
  step n fun c _ => weight_induction c step
termination_by n.weight

theorem children_induction {P : Node α → Prop} (n : Node α)
    (step : ∀ n, (∀ c ∈ n.children, P c) → P n) : P n :=
  n.weight_induction fun n ih => step n fun c hc => ih c (weight_lt_of_mem_children hc)

theorem mem_preorder_trans {l m n : Node α} (hm : m ∈ n.preorder) (hl : l ∈ m.preorder) :
    l ∈ n.preorder := by
  induction n using children_induction with
  | step n ih =>
    rw [preorder_eq] at hm
    rcases List.mem_cons.mp hm with rfl | hm
    · exact hl
    · obtain ⟨c, hc, hmc⟩ := List.mem_flatMap.mp hm
      exact mem_preorder_of_child hc (ih c hc hmc)

/-- The walk by recursion: a node of an identity that was met is passed over; any other is met, and
unless `skip` says so its children are visited from left to right and it is left behind them. -/
def visit (skip : Node α → Bool) (n : Node α) (w : Walk α) : Walk α :=
  if w.seen.contains n.id then w
  else if skip n then w.meet n
  else (n.children.attach.foldl (fun w c => visit skip c.1 w) (w.meet n)).leave n
termination_by n.weight
decreasing_by exact weight_lt_of_mem_children c.2

theorem visit_eq (skip : Node α → Bool) (n : Node α) (w : Walk α) :
    visit skip n w =
      if w.seen.contains n.id then w
      else if skip n then w.meet n
      else (n.children.foldl (fun w c => visit skip c w) (w.meet n)).leave n := by
  have h : n.children.attach.foldl (fun w c => visit skip c.1 w) (w.meet n) =
      n.children.foldl (fun w c => visit skip c w) (w.meet n) :=
    @List.foldl_attach _ _ n.children (fun w c => visit skip c w) (w.meet n)
  rw [visit, h]

def Visit.run (skip : Node α → Bool) (w : Walk α) : Visit α → Walk α
  | enter n => visit skip n w
  | leave n => w.leave n

theorem walkFrom_eq_foldl (skip : Node α → Bool) (pending : List (Visit α)) (w : Walk α) :
    walkFrom skip pending w = pending.foldl (Visit.run skip) w := by
  fun_induction walkFrom skip pending w with
  | case1 w => rfl
  | case2 w n rest ih => exact ih
  | case3 w n rest hs ih =>
    rw [ih, List.foldl_cons, Visit.run, visit_eq, if_pos hs]
  | case4 w n rest hs hk ih =>
    rw [ih, List.foldl_cons, Visit.run, visit_eq, if_neg hs, if_pos hk]
  | case5 w n rest hs hk ih =>
    rw [ih, List.foldl_cons, Visit.run, visit_eq, if_neg hs, if_neg hk, List.foldl_append,
      List.foldl_map]
    rfl

theorem postOrder_eq_visit (skip : Node α → Bool) (n : Node α) :
    postOrder skip n = visit skip n .empty :=
  walkFrom_eq_foldl skip [.enter n] .empty

theorem postOrder_eq_append {skip : Node α → Bool} {n : Node α} (h : skip n = false) :
    ∃ ns, (postOrder skip n).order = ns ++ [n] := by
  rw [postOrder_eq_visit, visit_eq, if_neg (by simp [Walk.empty]), if_neg (by simp [h])]
  exact ⟨_, List.reverse_cons⟩

theorem mem_left_visit {skip : Node α → Bool} {m n : Node α} {w : Walk α}
    (h : m ∈ (visit skip n w).left) : m ∈ w.left ∨ m ∈ n.preorder ∧ skip m = false := by
  induction n using children_induction generalizing w with
  | step n ih =>
    rw [visit_eq] at h
    split at h
    · exact .inl h
    · split at h
      · exact .inl h
      · next hs =>
        rcases List.mem_cons.mp h with rfl | h
        · exact .inr ⟨m.self_mem_preorder, Bool.eq_false_iff.mpr hs⟩
        · have hfold : ∀ cs : List (Node α), cs ⊆ n.children → ∀ v : Walk α,
              m ∈ (cs.foldl (fun v c => visit skip c v) v).left →
                m ∈ v.left ∨ m ∈ n.preorder ∧ skip m = false := by
            intro cs
            induction cs with
            | nil => exact fun _ v h => .inl h
            | cons c cs ihcs =>
              intro hcs v h
              have hc : c ∈ n.children := hcs (List.mem_cons_self ..)
              rcases ihcs (fun d hd => hcs (List.mem_cons_of_mem _ hd)) _ h with h | h
              · exact (ih c hc h).imp_right (And.imp_left (mem_preorder_of_child hc))
              · exact .inr h
          exact hfold n.children (fun _ h => h) (w.meet n) h

theorem mem_postOrder {skip : Node α → Bool} {m n : Node α} (h : m ∈ (postOrder skip n).order) :
    m ∈ n.preorder ∧ skip m = false := by
  rw [postOrder_eq_visit] at h
  exact (mem_left_visit (List.mem_reverse.mp h)).resolve_left (by simp [Walk.empty])

theorem mem_preorder_of_mem_postOrder {skip : Node α → Bool} {m n : Node α}
    (h : m ∈ (postOrder skip n).order) : m ∈ n.preorder :=
  (mem_postOrder h).1

theorem skip_of_mem_postOrder {skip : Node α → Bool} {m n : Node α}
    (h : m ∈ (postOrder skip n).order) : skip m = false :=
  (mem_postOrder h).2

namespace Walk

def Ordered (skip : Node α → Bool) (met : List (Node α)) : List (Node α) → Prop
  | [] => True
  | m :: rest =>
    (∀ c ∈ m.children, ∃ d ∈ met, d.id = c.id ∧ (skip d = true ∨ d ∈ rest)) ∧ Ordered skip met rest

theorem Ordered.mono {skip : Node α → Bool} {met met' left : List (Node α)}
    (h : Ordered skip met left) (hm : met ⊆ met') : Ordered skip met' left := by
  induction left with
  | nil => trivial
  | cons m rest ih =>
    refine ⟨fun c hc => ?_, ih h.2⟩
    obtain ⟨d, hd, he⟩ := h.1 c hc
    exact ⟨d, hm hd, he⟩

theorem Ordered.of_append {skip : Node α → Bool} {met pre left : List (Node α)}
    (h : Ordered skip met (pre ++ left)) : Ordered skip met left := by
  induction pre with
  | nil => exact h
  | cons m pre ih => exact ih h.2

theorem Ordered.children {skip : Node α → Bool} {met left : List (Node α)} {c m : Node α}
    (h : Ordered skip met left) (hm : m ∈ left) (hc : c ∈ m.children) :
    ∃ d ∈ met, d.id = c.id ∧ (skip d = true ∨ d ∈ left) := by
  induction left with
  | nil => exact absurd hm List.not_mem_nil
  | cons l left ih =>
    have hbehind {d : Node α} (hd : skip d = true ∨ d ∈ left) : skip d = true ∨ d ∈ l :: left :=
      hd.imp_right (List.mem_cons_of_mem l)
    rcases List.mem_cons.mp hm with rfl | hm
    · obtain ⟨d, hd, he, hk⟩ := h.1 c hc
      exact ⟨d, hd, he, hbehind hk⟩
    · obtain ⟨d, hd, he, hk⟩ := ih h.2 hm
      exact ⟨d, hd, he, hbehind hk⟩

structure Settled (skip : Node α → Bool) (above : List (Node α)) (w : Walk α) : Prop where
  seen : ∀ id, w.seen.contains id = true ↔ ∃ m ∈ w.met, m.id = id
  met : ∀ m ∈ w.met, skip m = true ∨ m ∈ w.left ∨ m ∈ above
  left : ∀ m ∈ w.left, m ∈ w.met ∧ skip m = false
  above : ∀ m ∈ above, m ∈ w.met ∧ skip m = false ∧ m ∉ w.left
  ids : (w.met.map id).Nodup
  nodup : w.left.Nodup
  ordered : Ordered skip w.met w.left

theorem settled_empty (skip : Node α → Bool) : Settled skip [] (empty : Walk α) where
  seen id := by simp [empty]
  met := by simp [empty]
  left := by simp [empty]
  above := by simp
  ids := by simp [empty]
  nodup := by simp [empty]
  ordered := trivial

variable {skip : Node α → Bool} {above : List (Node α)} {w w' : Walk α} {n : Node α}

theorem Settled.not_met (h : Settled skip above w) (hs : w.seen.contains n.id = false) :
    ∀ m ∈ w.met, m.id ≠ n.id := by
  intro m hm he
  rw [(h.seen n.id).mpr ⟨m, hm, he⟩] at hs
  exact Bool.noConfusion hs

theorem Settled.seen_meet (h : Settled skip above w) (id : String) :
    (w.meet n).seen.contains id = true ↔ ∃ m ∈ (w.meet n).met, m.id = id := by
  simp only [meet, Std.TreeSet.contains_insert, Bool.or_eq_true, List.mem_cons, exists_eq_or_imp,
    h.seen id, beq_iff_eq, Std.compare_eq_iff_eq]

theorem Settled.ids_meet (h : Settled skip above w) (hs : w.seen.contains n.id = false) :
    ((w.meet n).met.map id).Nodup := by
  refine List.nodup_cons.mpr ⟨fun hm => ?_, h.ids⟩
  obtain ⟨m, hm, he⟩ := List.mem_map.mp hm
  exact h.not_met hs m hm he

theorem Settled.meet_skipped (h : Settled skip above w) (hs : w.seen.contains n.id = false)
    (hk : skip n = true) : Settled skip above (w.meet n) where
  seen := h.seen_meet
  met m hm := by
    rcases List.mem_cons.mp hm with rfl | hm
    · exact .inl hk
    · exact h.met m hm
  left m hm := ⟨List.mem_cons_of_mem _ (h.left m hm).1, (h.left m hm).2⟩
  above m hm := ⟨List.mem_cons_of_mem _ (h.above m hm).1, (h.above m hm).2⟩
  ids := h.ids_meet hs
  nodup := h.nodup
  ordered := h.ordered.mono (List.subset_cons_self ..)

theorem Settled.enter (h : Settled skip above w) (hs : w.seen.contains n.id = false)
    (hk : skip n = false) : Settled skip (n :: above) (w.meet n) where
  seen := h.seen_meet
  met m hm := by
    rcases List.mem_cons.mp hm with rfl | hm
    · exact .inr (.inr (List.mem_cons_self ..))
    · exact (h.met m hm).imp_right (Or.imp_right (List.mem_cons_of_mem _))
  left m hm := ⟨List.mem_cons_of_mem _ (h.left m hm).1, (h.left m hm).2⟩
  above m hm := by
    rcases List.mem_cons.mp hm with rfl | hm
    · exact ⟨List.mem_cons_self .., hk, fun hl => h.not_met hs m (h.left m hl).1 rfl⟩
    · exact ⟨List.mem_cons_of_mem _ (h.above m hm).1, (h.above m hm).2⟩
  ids := h.ids_meet hs
  nodup := h.nodup
  ordered := h.ordered.mono (List.subset_cons_self ..)

def Covers (skip : Node α → Bool) (w : Walk α) (n : Node α) : Prop :=
  ∃ d ∈ w.met, d.id = n.id ∧ (skip d = true ∨ d ∈ w.left)

theorem Settled.leave (h : Settled skip (n :: above) w) (ha : n ∉ above)
    (hc : ∀ c ∈ n.children, w.Covers skip c) : Settled skip above (w.leave n) where
  seen := h.seen
  met m hm := by
    rcases h.met m hm with hk | hl | hm
    · exact .inl hk
    · exact .inr (.inl (List.mem_cons_of_mem _ hl))
    · rcases List.mem_cons.mp hm with rfl | hm
      · exact .inr (.inl (List.mem_cons_self ..))
      · exact .inr (.inr hm)
  left m hm := by
    rcases List.mem_cons.mp hm with rfl | hm
    · exact ⟨(h.above m (List.mem_cons_self ..)).1, (h.above m (List.mem_cons_self ..)).2.1⟩
    · exact h.left m hm
  above m hm := by
    obtain ⟨h1, h2, h3⟩ := h.above m (List.mem_cons_of_mem _ hm)
    refine ⟨h1, h2, fun hl => ?_⟩
    rcases List.mem_cons.mp hl with rfl | hl
    · exact ha hm
    · exact h3 hl
  ids := h.ids
  nodup := List.nodup_cons.mpr ⟨(h.above n (List.mem_cons_self ..)).2.2, h.nodup⟩
  ordered := ⟨hc, h.ordered⟩

structure Extends (w w' : Walk α) : Prop where
  met : w.met ⊆ w'.met
  left : w.left ⊆ w'.left

theorem Extends.refl (w : Walk α) : w.Extends w := ⟨fun _ h => h, fun _ h => h⟩

theorem Extends.trans {w'' : Walk α} (h : w.Extends w') (h' : w'.Extends w'') : w.Extends w'' :=
  ⟨List.Subset.trans h.met h'.met, List.Subset.trans h.left h'.left⟩

theorem Covers.mono (h : w.Covers skip n) (he : w.Extends w') : w'.Covers skip n := by
  obtain ⟨d, hd, hid, hk⟩ := h
  exact ⟨d, he.met hd, hid, hk.imp_right fun hl => he.left hl⟩

structure Within (skip : Node α → Bool) (S above : List (Node α)) (w : Walk α) : Prop where
  settled : Settled skip above w
  met : w.met ⊆ S

variable {S : List (Node α)}

theorem Within.covers_of_seen (h : Within skip S above w)
    (hid : ∀ a ∈ S, ∀ b ∈ S, a.id = b.id → a.weight = b.weight) (hn : n ∈ S)
    (ha : ∀ m ∈ above, n.weight < m.weight) (hs : w.seen.contains n.id = true) :
    w.Covers skip n := by
  obtain ⟨d, hd, he⟩ := (h.settled.seen n.id).mp hs
  refine ⟨d, hd, he, ?_⟩
  rcases h.settled.met d hd with hk | hl | hm
  · exact .inl hk
  · exact .inr hl
  · have hw := hid d (h.met hd) n hn he
    have := ha d hm
    omega

theorem Within.foldl {cs : List (Node α)} (h : Within skip S above w)
    (hvisit : ∀ c ∈ cs, ∀ v, Within skip S above v →
      Within skip S above (visit skip c v) ∧ v.Extends (visit skip c v) ∧
        (visit skip c v).Covers skip c) :
    Within skip S above (cs.foldl (fun v c => visit skip c v) w) ∧
      w.Extends (cs.foldl (fun v c => visit skip c v) w) ∧
      ∀ c ∈ cs, (cs.foldl (fun v c => visit skip c v) w).Covers skip c := by
  induction cs generalizing w with
  | nil => exact ⟨h, .refl w, by simp⟩
  | cons c cs ih =>
    obtain ⟨hv, he, hcov⟩ := hvisit c (List.mem_cons_self ..) w h
    obtain ⟨hv', he', hcovs⟩ := ih hv fun d hd => hvisit d (List.mem_cons_of_mem _ hd)
    refine ⟨hv', he.trans he', fun d hd => ?_⟩
    rcases List.mem_cons.mp hd with rfl | hd
    · exact hcov.mono he'
    · exact hcovs d hd

theorem visit_within (hid : ∀ a ∈ S, ∀ b ∈ S, a.id = b.id → a.weight = b.weight)
    (hS : n.preorder ⊆ S) (ha : ∀ m ∈ above, n.weight < m.weight) (h : Within skip S above w) :
    Within skip S above (visit skip n w) ∧ w.Extends (visit skip n w) ∧
      (visit skip n w).Covers skip n := by
  induction n using children_induction generalizing above w with
  | step n ih =>
    have hn : n ∈ S := hS n.self_mem_preorder
    rw [visit_eq]
    cases hs : w.seen.contains n.id with
    | true =>
      rw [if_pos rfl]
      exact ⟨h, .refl w, h.covers_of_seen hid hn ha hs⟩
    | false =>
      rw [if_neg Bool.false_ne_true]
      have hmet : (w.meet n).met ⊆ S := List.cons_subset.mpr ⟨hn, h.met⟩
      cases hk : skip n with
      | true =>
        rw [if_pos rfl]
        exact ⟨⟨h.settled.meet_skipped hs hk, hmet⟩, ⟨List.subset_cons_self .., fun _ h => h⟩,
          n, List.mem_cons_self .., rfl, .inl hk⟩
      | false =>
        rw [if_neg Bool.false_ne_true]
        have hlt : ∀ c ∈ n.children, ∀ m ∈ n :: above, c.weight < m.weight := by
          intro c hc m hm
          have hcn := weight_lt_of_mem_children hc
          rcases List.mem_cons.mp hm with rfl | hm
          · exact hcn
          · exact Nat.lt_trans hcn (ha m hm)
        have hna : n ∉ above := fun hm => Nat.lt_irrefl _ (ha n hm)
        have hwithin : Within skip S (n :: above) (w.meet n) := ⟨h.settled.enter hs hk, hmet⟩
        obtain ⟨hv, he, hcov⟩ := hwithin.foldl fun c hc v hv =>
          ih c hc (fun m hm => hS (mem_preorder_of_child hc hm)) (hlt c hc) hv
        refine ⟨⟨hv.settled.leave hna hcov, hv.met⟩, ?_, n, ?_, rfl, .inr (List.mem_cons_self ..)⟩
        · exact ⟨fun m hm => he.met (List.mem_cons_of_mem _ hm),
            fun m hm => List.mem_cons_of_mem _ (he.left hm)⟩
        · exact (hv.settled.above n (List.mem_cons_self ..)).1

end Walk

/-- Nodes below `n` that share an identity unfold to trees of one weight. -/
def IdsWeigh (n : Node α) : Prop :=
  ∀ a ∈ n.preorder, ∀ b ∈ n.preorder, a.id = b.id → a.weight = b.weight

theorem postOrder_visited {skip : Node α → Bool} {n : Node α} (hid : n.IdsWeigh) :
    Walk.Within skip n.preorder [] (postOrder skip n) ∧ (postOrder skip n).Covers skip n := by
  rw [postOrder_eq_visit]
  obtain ⟨hwithin, -, hcovers⟩ := Walk.visit_within hid (fun _ h => h) (by simp)
    ⟨Walk.settled_empty skip, by simp [Walk.empty]⟩
  exact ⟨hwithin, hcovers⟩

theorem postOrder_within {skip : Node α → Bool} {n : Node α} (hid : n.IdsWeigh) :
    Walk.Within skip n.preorder [] (postOrder skip n) :=
  (postOrder_visited hid).1

theorem postOrder_split {skip : Node α → Bool} {m n : Node α} {pre post : List (Node α)}
    (hid : n.IdsWeigh) (h : (postOrder skip n).order = pre ++ m :: post) :
    (∀ c ∈ m.children, ∃ d ∈ n.preorder, d.id = c.id ∧ (skip d = true ∨ d ∈ pre)) ∧
      ∀ d ∈ pre, d.id ≠ m.id := by
  have hw := @postOrder_within _ skip _ hid
  have hl : (postOrder skip n).left = post.reverse ++ m :: pre.reverse := by
    rw [← List.reverse_inj, ← Walk.order, h]
    simp
  constructor
  · intro c hc
    obtain ⟨d, hd, he, hk⟩ := ((hl ▸ hw.settled.ordered).of_append).1 c hc
    exact ⟨d, hw.met hd, he, hk.imp_right List.mem_reverse.mp⟩
  · intro d hd he
    have hdl : d ∈ (postOrder skip n).left := by rw [hl]; simp [hd]
    have hml : m ∈ (postOrder skip n).left := by rw [hl]; simp
    have hdm : d = m :=
      List.inj_on_of_nodup_map hw.settled.ids (hw.settled.left d hdl).1 (hw.settled.left m hml).1 he
    have hn := hl ▸ hw.settled.nodup
    subst hdm
    simp [List.nodup_append, hd] at hn

end DisciplinedConvex.Node
