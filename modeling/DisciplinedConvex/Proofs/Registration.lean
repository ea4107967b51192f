import DisciplinedConvex.Proofs.Independence
import DisciplinedConvex.Proofs.Seating
import DisciplinedConvex.Proofs.Turns

open DisciplinedConvex.Task

namespace DisciplinedConvex

section FirstOccurrences

variable {β : Type} [BEq β] [LawfulBEq β] {xs ys zs : List β} {x : β}

theorem eraseDups_append_congr (h : xs.eraseDups = ys.eraseDups) (zs : List β) :
    (xs ++ zs).eraseDups = (ys ++ zs).eraseDups := by
  have hmem (z : β) : List.elem z xs = List.elem z ys := by
    rw [Bool.eq_iff_iff, List.elem_iff, List.elem_iff, ← List.mem_eraseDups, h, List.mem_eraseDups]
  rw [List.eraseDups_append, List.eraseDups_append, h, List.removeAll, List.removeAll]
  simp only [hmem]

theorem eraseDups_append_of_subset (h : ys ⊆ xs) : (xs ++ ys).eraseDups = xs.eraseDups := by
  have hnone : ys.removeAll xs = [] :=
    List.filter_eq_nil_iff.mpr fun y hy => by simp [h hy]
  rw [List.eraseDups_append, hnone, List.eraseDups_nil, List.append_nil]

theorem eraseDups_append_singleton (h : x ∉ xs) : (xs ++ [x]).eraseDups = xs.eraseDups ++ [x] := by
  have hkept : [x].removeAll xs = [x] := List.filter_eq_self.mpr fun y hy => by
    rw [List.mem_singleton.mp hy]
    simpa using h
  rw [List.eraseDups_append, hkept]
  rfl

theorem eraseDups_of_nodup (h : xs.Nodup) : xs.eraseDups = xs := by
  induction xs with
  | nil => rfl
  | cons x xs ih =>
    obtain ⟨hx, hxs⟩ := List.nodup_cons.mp h
    have hkept : xs.filter (fun y => !y == x) = xs := List.filter_eq_self.mpr fun y hy => by
      rw [Bool.not_eq_true', beq_eq_false_iff_ne]
      rintro rfl
      exact hx hy
    rw [List.eraseDups_cons, hkept, ih hxs]

end FirstOccurrences

namespace Node

variable {α : Type} {A : List Unknown} {S above : List (Node α)} {n : Node α}

def unknown? : Node α → Option Unknown
  | unknown u => some u
  | constant _ | product .. | weighted .. | square .. | bare .. => none

def unknowns (n : Node α) : List Unknown := n.preorder.filterMap unknown?

theorem unknown?_eq_some_iff {u : Unknown} : n.unknown? = some u ↔ n = unknown u := by
  cases n with
  | unknown v => simp [unknown?]
  | constant | product | weighted | square | bare => simp [unknown?]

theorem mem_unknowns {u : Unknown} : u ∈ n.unknowns ↔ unknown u ∈ n.preorder := by
  rw [unknowns, List.mem_filterMap]
  constructor
  · rintro ⟨m, hm, he⟩
    exact unknown?_eq_some_iff.mp he ▸ hm
  · exact fun h => ⟨_, h, rfl⟩

theorem unknowns_eq (n : Node α) :
    n.unknowns = n.children.flatMap unknowns ++ n.unknown?.toList := by
  have hchildren : (n.children.flatMap preorder).filterMap unknown? = n.children.flatMap unknowns := by
    rw [List.filterMap_flatMap]
    rfl
  rw [unknowns, preorder_eq, List.filterMap_cons]
  -- an unknown has nothing below, so it may as well come last
  cases n with
  | unknown u => rfl
  | constant | product | weighted | square | bare =>
    simp only [unknown?, Option.toList_none, List.append_nil]
    exact hchildren

theorem Alike.unknowns_subset {m : Node α} (h : m.Alike n) : m.unknowns ⊆ n.unknowns :=
  fun _ hu => mem_unknowns.mpr (h.unknown_mem (mem_unknowns.mp hu))

def Visit.entered? : Visit α → Option (Node α)
  | enter n => some n
  | leave _ => none

namespace Walk

variable {skip : Node α → Bool} {w : Walk α} {cs : List (Node α)}

def unknowns (w : Walk α) : List Unknown := w.order.filterMap unknown?

theorem unknowns_leave (w : Walk α) (n : Node α) :
    (w.leave n).unknowns = w.unknowns ++ n.unknown?.toList := by
  rw [unknowns, unknowns, order, order, leave, List.reverse_cons, List.filterMap_append]
  cases h : n.unknown? with
  | none => simp [h]
  | some u => simp [h]

theorem mem_unknowns {u : Unknown} : u ∈ w.unknowns ↔ .unknown u ∈ w.left := by
  rw [unknowns, order, List.mem_filterMap]
  constructor
  · rintro ⟨m, hm, he⟩
    exact unknown?_eq_some_iff.mp he ▸ List.mem_reverse.mp hm
  · exact fun h => ⟨_, List.mem_reverse.mpr h, rfl⟩

def Skips (skip : Node α → Bool) (S : List (Node α)) (A : List Unknown) : Prop :=
  ∀ m ∈ S, skip m = true → m.unknowns ⊆ A

theorem Within.unknowns_subset (h : Within skip S above w) (hN : Faithful S)
    (hS : ∀ m ∈ S, m.preorder ⊆ S) (hA : Skips skip S A) (hn : n ∈ w.left) :
    n.unknowns ⊆ A ++ w.unknowns := by
  -- on the weight: a child may have been left as another node of its identity
  induction n using weight_induction with
  | step n ih =>
    intro u hu
    have hnS := h.met (h.settled.left n hn).1
    rw [unknowns_eq] at hu
    rcases List.mem_append.mp hu with hu | hu
    · obtain ⟨c, hc, hu⟩ := List.mem_flatMap.mp hu
      obtain ⟨d, hd, he, hk⟩ := h.settled.ordered.children hn hc
      have hal := hN d (h.met hd) c (hS n hnS (child_mem_preorder hc)) he
      have hud := Alike.unknowns_subset hal.symm hu
      rcases hk with hk | hleft
      · exact List.mem_append_left _ (hA d (h.met hd) hk hud)
      · exact ih d (hal.weight_eq ▸ weight_lt_of_mem_children hc) hleft hud
    · obtain rfl := unknown?_eq_some_iff.mp (Option.mem_toList.mp hu)
      exact List.mem_append_right _ (mem_unknowns.mpr hn)

def Gathers (skip : Node α → Bool) (A : List Unknown) (w : Walk α) (n : Node α) : Prop :=
  (A ++ (visit skip n w).unknowns).eraseDups = (A ++ w.unknowns ++ n.unknowns).eraseDups

theorem foldl_unknowns
    (hwithin : ∀ c ∈ cs, ∀ v, Within skip S above v → Within skip S above (visit skip c v))
    (hgathers : ∀ c ∈ cs, ∀ v, Within skip S above v → Gathers skip A v c)
    (h : Within skip S above w) :
    (A ++ (cs.foldl (fun v c => visit skip c v) w).unknowns).eraseDups =
      (A ++ w.unknowns ++ cs.flatMap Node.unknowns).eraseDups := by
  induction cs generalizing w with
  | nil => rw [List.foldl_nil, List.flatMap_nil, List.append_nil]
  | cons c cs ih =>
    have hc := List.mem_cons_self (a := c) (l := cs)
    have hrest := ih (fun d hd => hwithin d (List.mem_cons_of_mem _ hd))
      (fun d hd => hgathers d (List.mem_cons_of_mem _ hd)) (hwithin c hc w h)
    rw [List.foldl_cons, hrest, List.flatMap_cons, ← List.append_assoc]
    exact eraseDups_append_congr (hgathers c hc w h) _

theorem visit_unknowns (hN : Faithful S) (hS : ∀ m ∈ S, m.preorder ⊆ S) (hA : Skips skip S A)
    (hn : n ∈ S) (ha : ∀ m ∈ above, n.weight < m.weight) (h : Within skip S above w) :
    Gathers skip A w n := by
  have hid : ∀ a ∈ S, ∀ b ∈ S, a.id = b.id → a.weight = b.weight := fun a ha b hb he =>
    (hN a ha b hb he).weight_eq
  induction n using children_induction generalizing above w with
  | step n ih =>
    rw [Gathers, visit_eq]
    -- `n` was met before, or is skipped, or is entered
    cases hs : w.seen.contains n.id with
    | true =>
      rw [if_pos rfl]
      obtain ⟨d, hd, he, hk⟩ := h.covers_of_seen hid hn ha hs
      have hnd := Alike.unknowns_subset (hN n hn d (h.met hd) he.symm)
      refine (eraseDups_append_of_subset (List.Subset.trans hnd ?_)).symm
      rcases hk with hk | hleft
      · exact List.Subset.trans (hA d (h.met hd) hk) (List.subset_append_left ..)
      · exact h.unknowns_subset hN hS hA hleft
    | false =>
      rw [if_neg Bool.false_ne_true]
      have hmet : (w.meet n).met ⊆ S := List.cons_subset.mpr ⟨hn, h.met⟩
      cases hk : skip n with
      | true =>
        rw [if_pos rfl]
        exact (eraseDups_append_of_subset
          (List.Subset.trans (hA n hn hk) (List.subset_append_left ..))).symm
      | false =>
        rw [if_neg Bool.false_ne_true]
        have hlt : ∀ c ∈ n.children, ∀ m ∈ n :: above, c.weight < m.weight := by
          intro c hc m hm
          have hcn := weight_lt_of_mem_children hc
          rcases List.mem_cons.mp hm with rfl | hm
          · exact hcn
          · exact Nat.lt_trans hcn (ha m hm)
        have hchild {c : Node α} (hc : c ∈ n.children) : c ∈ S := hS n hn (child_mem_preorder hc)
        have hfold : (A ++ (n.children.foldl (fun v c => visit skip c v) (w.meet n)).unknowns).eraseDups
            = (A ++ w.unknowns ++ n.children.flatMap Node.unknowns).eraseDups :=
          foldl_unknowns (fun c hc v hv => (visit_within hid (hS c (hchild hc)) (hlt c hc) hv).1)
            (fun c hc v hv => ih c hc (hchild hc) (hlt c hc) hv) ⟨h.settled.enter hs hk, hmet⟩
        rw [unknowns_leave, n.unknowns_eq, ← List.append_assoc, ← List.append_assoc]
        exact eraseDups_append_congr hfold _

theorem roots_unknowns (hN : Faithful S) (hS : ∀ m ∈ S, m.preorder ⊆ S) (hA : Skips skip S A)
    (hcs : cs ⊆ S) :
    Within skip S [] (cs.foldl (fun v c => visit skip c v) .empty) ∧
      (A ++ (cs.foldl (fun v c => visit skip c v) .empty).unknowns).eraseDups =
        (A ++ cs.flatMap Node.unknowns).eraseDups := by
  have hstart : Within skip S [] (.empty : Walk α) :=
    ⟨settled_empty skip, List.nil_subset _⟩
  have hwithin : ∀ c ∈ cs, ∀ v, Within skip S [] v → _ := fun c hc v hv =>
    visit_within (fun a ha b hb he => (hN a ha b hb he).weight_eq) (hS c (hcs hc)) (by simp) hv
  refine ⟨(hstart.foldl hwithin).1, ?_⟩
  have hfold := foldl_unknowns (A := A) (fun c hc v hv => (hwithin c hc v hv).1)
    (fun c hc v hv => visit_unknowns hN hS hA (hcs hc) (by simp) hv) hstart
  have hnone : (.empty : Walk α).unknowns = [] := rfl
  rwa [hnone, List.append_nil] at hfold

theorem Within.nodup_unknowns (h : Within skip S above w) : w.unknowns.Nodup := by
  refine (List.nodup_reverse.mpr h.settled.nodup).filterMap fun m n u hm hn => ?_
  exact (unknown?_eq_some_iff.mp hm).trans (unknown?_eq_some_iff.mp hn).symm

end Walk

theorem postOrder_unknowns {skip : Node α → Bool} (hN : Faithful S) (hS : ∀ m ∈ S, m.preorder ⊆ S)
    (hA : Walk.Skips skip S A) (hn : n ∈ S) :
    (A ++ (postOrder skip n).unknowns).eraseDups = (A ++ n.unknowns).eraseDups := by
  have hroots := (Walk.roots_unknowns hN hS hA (List.cons_subset.mpr ⟨hn, List.nil_subset _⟩)).2
  rw [List.foldl_cons, List.foldl_nil, ← postOrder_eq_visit, List.flatMap_singleton] at hroots
  exact hroots

section Collect

variable {w : Walk α} {cs : List (Node α)}

def Walk.Prompt (w : Walk α) : Prop := w.met.filterMap unknown? = w.left.filterMap unknown?

theorem Walk.Prompt.foldl {skip : Node α → Bool} (h : w.Prompt)
    (hvisit : ∀ c ∈ cs, ∀ v : Walk α, v.Prompt → (visit skip c v).Prompt) :
    (cs.foldl (fun v c => visit skip c v) w).Prompt := by
  induction cs generalizing w with
  | nil => exact h
  | cons c cs ih =>
    exact ih (hvisit c (List.mem_cons_self ..) w h) fun d hd => hvisit d (List.mem_cons_of_mem _ hd)

theorem Walk.Prompt.visit (h : w.Prompt) (n : Node α) : (visit (fun _ => false) n w).Prompt := by
  induction n using children_induction generalizing w with
  | step n ih =>
    rw [visit_eq]
    split
    · exact h
    · rw [if_neg Bool.false_ne_true]
      cases hn : n.unknown? with
      | none =>
        have hmeet : (w.meet n).Prompt := by
          rw [Prompt, meet, List.filterMap_cons_none hn]
          exact h
        have hfold := hmeet.foldl fun c hc v hv => ih c hc hv
        rw [Prompt, leave, List.filterMap_cons_none hn]
        exact hfold
      | some u =>
        -- what has nothing below is left at once
        obtain rfl := unknown?_eq_some_iff.mp hn
        rw [Prompt, leave, List.filterMap_cons_some hn]
        exact (List.filterMap_cons_some hn).trans (congrArg (u :: ·) h)

theorem collectFrom_cons (n : Node α) (rest : List (Node α)) (seen : Std.TreeSet String)
    (found : List Unknown) : collectFrom (n :: rest) seen found =
      if seen.contains n.id then collectFrom rest seen found
      else collectFrom (n.children ++ rest) (seen.insert n.id) (n.unknown?.toList ++ found) := by
  cases n with
  | constant | unknown | product | weighted | square | bare =>
    rw [collectFrom]
    · rfl
    all_goals rintro _ ⟨⟩

theorem collectFrom_eq (pending : List (Visit α)) (w : Walk α) :
    collectFrom (pending.filterMap Visit.entered?) w.seen (w.met.filterMap unknown?) =
      (walkFrom (fun _ => false) pending w).met.filterMap unknown? := by
  fun_induction walkFrom (fun _ => false) pending w with
  | case1 w => rw [List.filterMap_nil, collectFrom]
  | case2 w n rest ih => exact ih
  | case3 w n rest hs ih =>
    rw [← ih]
    exact (collectFrom_cons ..).trans (if_pos hs)
  | case4 w n rest _ hk ih => cases hk
  | case5 w n rest hs _ ih =>
    have hfound : (w.meet n).met.filterMap unknown? =
        n.unknown?.toList ++ w.met.filterMap unknown? := by
      cases hn : n.unknown? with
      | none => exact List.filterMap_cons_none hn
      | some u => exact List.filterMap_cons_some hn
    have hentered : (n.children.map Visit.enter ++ .leave n :: rest).filterMap Visit.entered? =
        n.children ++ rest.filterMap Visit.entered? := by
      rw [List.filterMap_append, List.filterMap_map, List.filterMap_cons_none rfl]
      exact congrArg (· ++ _) List.filterMap_some
    rw [← ih, hentered, hfound]
    exact (collectFrom_cons ..).trans (if_neg hs)

theorem collectUnknowns_eq (roots : List (Node α)) : collectUnknowns roots =
    (roots.foldl (fun v c => visit (fun _ => false) c v) .empty).unknowns := by
  have hentered : (roots.map Visit.enter).filterMap Visit.entered? = roots := by
    rw [List.filterMap_map]
    exact List.filterMap_some
  have hprompt : (roots.foldl (fun v c => visit (fun _ => false) c v) (.empty : Walk α)).Prompt :=
    Walk.Prompt.foldl rfl fun c _ v hv => hv.visit c
  have hcollect := collectFrom_eq (roots.map Visit.enter) .empty
  rw [hentered, walkFrom_eq_foldl, List.foldl_map] at hcollect
  rw [Walk.unknowns, Walk.order, List.filterMap_reverse, ← hprompt]
  exact congrArg List.reverse hcollect

section Roots

variable {roots : List (Node α)} (hN : Faithful S) (hS : ∀ m ∈ S, m.preorder ⊆ S)

include hN hS

theorem append_collectUnknowns (hroots : roots ⊆ S) (A : List Unknown) :
    (A ++ collectUnknowns roots).eraseDups = (A ++ roots.flatMap unknowns).eraseDups := by
  have hnever : Walk.Skips (fun _ => false) S A := fun _ _ => nofun
  rw [collectUnknowns_eq]
  exact (Walk.roots_unknowns hN hS hnever hroots).2

theorem collectUnknowns_eq_eraseDups (hroots : roots ⊆ S) :
    collectUnknowns roots = ((roots.flatMap preorder).filterMap unknown?).eraseDups := by
  have hnever : Walk.Skips (fun _ => false) S [] := fun _ _ => nofun
  have hnodup := (Walk.roots_unknowns hN hS hnever hroots).1.nodup_unknowns
  rw [← collectUnknowns_eq] at hnodup
  rw [List.filterMap_flatMap, ← eraseDups_of_nodup hnodup]
  exact append_collectUnknowns hN hS hroots []

end Roots

end Collect

end Node

namespace Layout

variable {α : Type} {L : Layout} {N : List (Node α)} {u : Unknown} {xs ys : List Unknown}

def holders (L : Layout) : List Holder := L.slots.toList.map (·.holder)

def without (L : Layout) (ys : List Unknown) : List Holder :=
  L.holders.filter fun h => decide (h ∉ ys.map .unknown)

theorem mem_without {h : Holder} : h ∈ L.without ys ↔ h ∈ L.holders ∧ h ∉ ys.map .unknown := by
  rw [without, List.mem_filter, decide_eq_true_iff]

theorem holders_register_of_not_contains {h : Holder} (hc : L.contains h.id = false) :
    (L.register h).holders = L.holders ++ [h] := by
  rw [register, if_neg (Bool.eq_false_iff.mp hc), holders, Array.toList_push, List.map_append]
  rfl

theorem contains_of_mem_holders {h : Holder} (hh : h ∈ L.holders) : L.contains h.id = true := by
  obtain ⟨slot, hslot, rfl⟩ := List.mem_map.mp hh
  rw [contains, find?, Array.find?_isSome]
  exact ⟨slot, Array.mem_toList_iff.mp hslot, beq_self_eq_true _⟩

theorem Stacked.contains_iff (hL : L.Stacked N) (hN : Node.Faithful N) (hu : .unknown u ∈ N) :
    L.contains u.id = true ↔ .unknown u ∈ L.holders := by
  constructor
  · intro hc
    obtain ⟨slot, hslot⟩ := Option.isSome_iff_exists.mp hc
    obtain ⟨hmem, hid⟩ := mem_of_find? hslot
    obtain ⟨v, hv, hvN⟩ := hL.holders slot hmem
    rw [hv] at hid
    obtain rfl := Node.unknown.inj (hN _ hvN _ hu hid).unknown_eq
    exact List.mem_map.mpr ⟨slot, Array.mem_toList_iff.mpr hmem, hv⟩
  · exact contains_of_mem_holders (h := .unknown u)

theorem Stacked.without_register (hL : L.Stacked N) (hN : Node.Faithful N) (hu : .unknown u ∈ N)
    (huys : u ∉ ys) (h : L.without ys = xs.eraseDups.map .unknown) :
    (L.register (.unknown u)).without ys = (xs ++ [u]).eraseDups.map .unknown := by
  have hys : Holder.unknown u ∉ ys.map .unknown := by simpa using huys
  have hxs : u ∈ xs ↔ Holder.unknown u ∈ L.holders := by
    have hmem : Holder.unknown u ∈ L.without ys ↔ Holder.unknown u ∈ L.holders :=
      mem_without.trans (and_iff_left hys)
    rw [← hmem, h, ← List.mem_eraseDups]
    simp
  cases hc : L.contains (Holder.unknown u).id with
  | true =>
    have hux := hxs.mpr ((hL.contains_iff hN hu).mp hc)
    rw [register_of_contains hc, h,
      eraseDups_append_of_subset (List.cons_subset.mpr ⟨hux, List.nil_subset _⟩)]
  | false =>
    have hux : u ∉ xs := fun hux =>
      Bool.eq_false_iff.mp hc (contains_of_mem_holders (hxs.mp hux))
    rw [without, holders_register_of_not_contains hc, List.filter_append, ← without, h,
      eraseDups_append_singleton hux, List.map_append,
      List.filter_eq_self.mpr fun k hk => decide_eq_true (List.mem_singleton.mp hk ▸ hys)]
    rfl

theorem without_register_cons (hc : L.contains u.id = false) :
    (L.register (.unknown u)).without (u :: ys) = L.without ys := by
  have hu : Holder.unknown u ∉ L.holders := fun hu =>
    Bool.eq_false_iff.mp hc (contains_of_mem_holders hu)
  have hnew : [Holder.unknown u].filter (fun h => decide (h ∉ (u :: ys).map .unknown)) = [] := by
    simp
  rw [without, holders_register_of_not_contains hc, List.filter_append, hnew, List.append_nil,
    without]
  refine List.filter_congr fun k hk => ?_
  have hku : k ≠ .unknown u := fun he => hu (he ▸ hk)
  simp [hku]

theorem Stacked.without_foldl {us : List Unknown} (hL : L.Stacked N) (hN : Node.Faithful N)
    (hus : us.map .unknown ⊆ N) (h : L.without [] = xs.eraseDups.map .unknown) :
    ((us.map Holder.unknown).foldl Layout.register L).without [] = (xs ++ us).eraseDups.map .unknown := by
  induction us generalizing L xs with
  | nil => rw [List.append_nil, List.map_nil, List.foldl_nil, h]
  | cons u us ih =>
    obtain ⟨hu, hus⟩ := List.cons_subset.mp hus
    have hrest := ih (hL.register hu) hus (hL.without_register hN hu List.not_mem_nil h)
    rw [List.append_assoc] at hrest
    exact hrest

theorem without_ofList {us : List Unknown} (hN : Node.Faithful N) (hus : us.map .unknown ⊆ N) :
    (ofList (us.map .unknown)).without [] = us.eraseDups.map .unknown := by
  have hempty : empty.without [] = ([] : List Unknown).eraseDups.map .unknown := rfl
  exact stacked_empty.without_foldl hN hus hempty

end Layout

variable {α : Type} [Zero α] [One α] [Neg α] [Add α] [Mul α] [Scalar α]

namespace Compilation

variable {s s' t : Compilation α} {ns order : List (Node α)} {n : Node α} {xs ys : List Unknown}

/-- The layout has the unknowns `xs`, each where it first occurs there, besides the auxiliaries of the
pass, and of the nodes that are held none has other unknowns below. -/
structure Enrolled (ns : List (Node α)) (xs : List Unknown) (s : Compilation α) : Prop where
  holders : s.layout.without (s.pass.auxiliaries.map (·.unknown)) = xs.eraseDups.map .unknown
  apart : ∀ a ∈ s.pass.auxiliaries, .unknown a.unknown ∉ ns
  held : ∀ m ∈ ns, s.pass.contains m.id = true → m.unknowns ⊆ xs

omit [Zero α] [One α] [Neg α] [Add α] [Mul α] [Scalar α] in
theorem Enrolled.congr (h : s.Enrolled ns xs) (hxs : xs.eraseDups = ys.eraseDups) :
    s.Enrolled ns ys where
  holders := hxs ▸ h.holders
  apart := h.apart
  held m hm hc u hu := by
    rw [← List.mem_eraseDups, ← hxs, List.mem_eraseDups]
    exact h.held m hm hc hu

omit [One α] [Neg α] [Add α] [Mul α] in
theorem Same.enrolled (hst : Same ns s t) (h : s.Enrolled ns xs) : t.Enrolled ns xs := by
  refine ⟨?_, fun a ha => h.apart a (hst.pass ▸ ha), fun m hm hc => h.held m hm (hst.pass ▸ hc)⟩
  rw [hst.layout, hst.pass, h.holders]

omit [One α] [Neg α] [Add α] [Mul α] in
theorem Enrolled.registered {u : Unknown} (h : s.Enrolled ns xs) (hs : s.Linked ns)
    (hu : .unknown u ∈ ns) : (s.registered u).Enrolled ns (xs ++ [u]) where
  holders := by
    refine hs.sound.stacked.without_register hs.faithful (List.mem_append_right _ hu) ?_ h.holders
    intro hmem
    obtain ⟨a, ha, rfl⟩ := List.mem_map.mp hmem
    exact h.apart a ha hu
  apart := h.apart
  held m hm hc := List.Subset.trans (h.held m hm hc) (List.subset_append_left ..)

theorem Prepared.enrolled (h : Prepared ns n s t) (he : s.Enrolled ns xs) (hs : s.Linked ns)
    (hn : n ∈ ns) : t.Enrolled ns (xs ++ n.unknown?.toList) := by
  cases h with
  | plain hseat hst =>
    have hnone : n.unknown?.toList = [] := by
      cases n with
      | unknown => cases hseat
      | constant | product | weighted | square | bare => rfl
    rw [hnone, List.append_nil]
    exact hst.enrolled he
  | placed u hnu hst =>
    subst hnu
    exact hst.enrolled (he.registered hs hn)
  | @bounded q t tag x hnx hv hsq hu hqt T hT cs hcs =>
    subst hnx
    have hq := hsq.enrolled he
    have hfree : q.layout.contains (q.nextAuxiliary x.size).id = false :=
      hsq.sound.stacked.not_contains hu.faithful hu.not_mem
    have hintroduced : (q.introduced (some (.square tag x)) x.size).Enrolled ns xs := by
      refine ⟨(Layout.without_register_cons hfree).trans hq.holders, fun a ha => ?_, hq.held⟩
      rcases List.mem_cons.mp ha with rfl | ha
      · exact fun hm => hu.not_mem (List.mem_append_right _ hm)
      · exact hq.apart a ha
    have ht := hqt.enrolled hintroduced
    rw [Node.unknown?, Option.toList_none, List.append_nil]
    refine ⟨ht.holders, ht.apart, fun m hm hc => ?_⟩
    rcases Pass.eq_or_contains_of_store hc with he | hc
    · exact absurd he.symm (hu.id_ne (List.mem_append_right _ hm))
    · exact ht.held m hm hc

theorem Series.linked {es : List (Node α)} {r : Except Failure (List (Form α))}
    (h : Series ns es s r s') : s.Linked ns := by
  cases h with
  | done h => exact h
  | stopped hs | next hs => exact hs

section Closed

variable (hns : ∀ m ∈ ns, m.preorder ⊆ ns)

include hns

theorem Turn.enrolled {F : Form α} (h : Turn ns n s (.ok F) s') (hdue : Due ns n s) (hn : n ∈ ns)
    (he : s.Enrolled ns xs) : s'.Enrolled ns (xs ++ n.unknown?.toList) := by
  cases h with
  | stored ht F hF =>
    have hprepared := ht.enrolled he hdue.linked hn
    refine ⟨hprepared.holders, hprepared.apart, fun m hm hc => ?_⟩
    rcases Pass.eq_or_contains_of_store hc with hid | hc
    · have hal := hdue.linked.faithful m (List.mem_append_right _ hm) n hdue.mem hid.symm
      refine List.Subset.trans hal.unknowns_subset ?_
      rw [n.unknowns_eq]
      refine List.append_subset.mpr ⟨fun u hu => ?_, List.subset_append_right ..⟩
      obtain ⟨c, hc, hu⟩ := List.mem_flatMap.mp hu
      have hcs : c ∈ ns := hns n hn (Node.child_mem_preorder hc)
      exact List.mem_append_left _ (he.held c hcs (hdue.children c hc) hu)
    · exact hprepared.held m hm hc

theorem Turns.enrolled (h : Turns ns order s (.ok ()) s') (hsub : order ⊆ ns)
    (he : s.Enrolled ns xs) : s'.Enrolled ns (xs ++ order.filterMap Node.unknown?) := by
  generalize hr : (.ok () : Except Failure Unit) = r at h
  induction h generalizing xs with
  | done => rwa [List.filterMap_nil, List.append_nil]
  | stopped => cases hr
  | @next n rest s t s' F r hdue hturn hrest ih =>
    obtain ⟨hn, hsub⟩ := List.cons_subset.mp hsub
    have hafter := ih hsub (hturn.enrolled hns hdue hn he) hr
    rw [List.append_assoc] at hafter
    cases hu : n.unknown? with
    | none =>
      rw [List.filterMap_cons_none hu]
      simpa [hu] using hafter
    | some u =>
      rw [List.filterMap_cons_some hu]
      simpa [hu] using hafter

theorem Run.enrolled {F : Form α} (h : Run ns n s (.ok F) s') (hs : s.Linked ns) (hn : n ∈ ns)
    (he : s.Enrolled ns xs) : s'.Enrolled ns (xs ++ n.unknowns) := by
  cases h with
  | found hF =>
    have hsub := he.held n hn (Pass.contains_of_find? hF)
    have hhit : Enrolled ns xs { s with pass := s.pass.hit 1 } := ⟨he.holders, he.apart, he.held⟩
    exact hhit.congr (eraseDups_append_of_subset hsub).symm
  | computed hnew h hF =>
    have hwalked : (s.walked n).Enrolled ns xs := ⟨he.holders, he.apart, he.held⟩
    have hsub : (s.pending n).order ⊆ ns := fun m hm =>
      hns n hn (Node.mem_preorder_of_mem_postOrder hm)
    have hfaithful : Node.Faithful ns := hs.faithful.mono (List.subset_append_right ..)
    exact (h.enrolled hns hsub hwalked).congr
      (Node.postOrder_unknowns hfaithful hns (fun m hm hc => he.held m hm hc) hn)

theorem GatedRun.enrolled {F : Form α} (h : GatedRun ns n s (.ok F) s') (hs : s.Linked ns)
    (hn : n ∈ ns) (he : s.Enrolled ns xs) : s'.Enrolled ns (xs ++ n.unknowns) := by
  generalize hr : (.ok F : Except Failure (Form α)) = r at h
  cases h with
  | refused hst f => cases hr
  | lowered hst h =>
    obtain ⟨G, rfl, -⟩ := bind_eq_ok hr.symm
    exact h.enrolled hns (hst.linked hs) hn (hst.enrolled he)

theorem Series.enrolled {es : List (Node α)} {Fs : List (Form α)} (h : Series ns es s (.ok Fs) s')
    (hes : es ⊆ ns) (he : s.Enrolled ns xs) :
    s'.Enrolled ns (xs ++ es.flatMap Node.unknowns) := by
  generalize hr : (.ok Fs : Except Failure (List (Form α))) = r at h
  induction h generalizing xs Fs with
  | done => rwa [List.flatMap_nil, List.append_nil]
  | stopped => cases hr
  | @next e es s t s' F r hs _ hrun hrest ih =>
    obtain ⟨he', hes⟩ := List.cons_subset.mp hes
    obtain ⟨Gs, rfl, -⟩ := map_eq_ok hr.symm
    rw [List.flatMap_cons, ← List.append_assoc]
    exact ih hes (hrun.enrolled hns hs he' he) rfl

end Closed

end Compilation

namespace Session

variable {S : Session α} {N es : List (Node α)} {us : List Unknown} {config : Config}
variable {L : Lowered α}

/-- The layout that is handed over has, besides the auxiliaries, the given unknowns and then those that
are collected below the expressions, each where it first occurs. Collected are those that are met when
the expressions are unfolded one after the other. None is missing. -/
theorem Reached.together_registered (h : S.Reached N) (hus : us.map .unknown ⊆ S.nodes N)
    (hes : es ⊆ S.nodes N)
    (hL : (Lowered.ofNodes config (us.map .unknown) es S.workspace).1 = .ok L)
    (hN : Node.Faithful ((Lowered.compiled config us es S.workspace).nodes (S.nodes N))) :
    L.layout.without
        ((Lowered.compiled config us es S.workspace).pass.auxiliaries.map (·.unknown)) =
      (us ++ Node.collectUnknowns es).eraseDups.map .unknown ∧
    Node.collectUnknowns es = ((es.flatMap Node.preorder).filterMap Node.unknown?).eraseDups ∧
    ∀ e ∈ es, ∀ u, .unknown u ∈ e.preorder → .unknown u ∈ L.layout.holders := by
  obtain ⟨ms, hms, hseries⟩ := h.series config hus hes hN
  have hlinked := hseries.linked
  have hfaithful : Node.Faithful ms := hlinked.faithful
  have hclosed : ∀ m ∈ ms, m.preorder ⊆ ms := fun m hm => hlinked.preorder_subset hm
  have hesms : es ⊆ ms := fun e he => (hms e).mpr (hes he)
  have husms : us.map .unknown ⊆ ms := fun u hu => (hms u).mpr (hus hu)
  have hstart : Compilation.Enrolled ms us
      ⟨S.workspace, .ofList (us.map .unknown), .empty config⟩ :=
    ⟨Layout.without_ofList hfaithful husms, nofun, fun m _ hc => by
      simp [Pass.contains, Pass.find?, Pass.empty] at hc⟩
  rw [Lowered.ofNodes_eq] at hL
  obtain ⟨Fs, hFs, hL⟩ := bind_eq_ok hL
  rw [hFs] at hseries
  obtain ⟨hlayout, -, -⟩ := Lowered.ofPass_rows hL
  have hholders := ((hseries.enrolled hclosed hesms hstart).congr
    (Node.append_collectUnknowns hfaithful hclosed hesms us).symm).holders
  rw [← hlayout] at hholders
  have hcollected := Node.collectUnknowns_eq_eraseDups hfaithful hclosed hesms
  refine ⟨hholders, hcollected, fun e he u hu => ?_⟩
  have hmet : u ∈ Node.collectUnknowns es := by
    rw [hcollected, List.mem_eraseDups, List.filterMap_flatMap]
    exact List.mem_flatMap.mpr ⟨e, he, Node.mem_unknowns.mpr hu⟩
  have hmem : Holder.unknown u ∈ (us ++ Node.collectUnknowns es).eraseDups.map .unknown :=
    List.mem_map_of_mem (List.mem_eraseDups.mpr (List.mem_append_right _ hmet))
  rw [← hholders] at hmem
  exact (Layout.mem_without.mp hmem).1

section Exact

open Compilation (side area drawn)

def areaPass : Compilation ℚ := Lowered.compiled {} [other, other] [area] prepared.workspace

theorem areaPass_eq : areaPass.pass.auxiliaries.map (·.unknown) = [areaBound 0] ∧
    (Lowered.ofNodes {} [.unknown other, .unknown other] [area] prepared.workspace).1.isOk = true ∧
    [other, other, side].eraseDups = [other, side] ∧ [side].eraseDups = [side] := by
  decide +kernel

theorem areaPass_faithful : Node.Faithful (areaPass.nodes (prepared.nodes listed)) := by
  rw [Compilation.nodes_eq_of_auxiliaries areaPass_eq.1]
  refine areaNodes_faithful.mono (List.append_subset.mpr ⟨by simp [areaNodes], ?_⟩)
  change listed ⊆ areaNodes
  simp [areaNodes, listed, drawn]

theorem area_registered : ∃ L,
    (Lowered.ofNodes {} [.unknown other, .unknown other] [area] prepared.workspace).1 = .ok L ∧
    L.layout.without [areaBound 0] = [.unknown other, .unknown side] ∧
    Node.collectUnknowns [area] = [side] ∧ .unknown side ∈ L.layout.holders := by
  obtain ⟨hauxiliary, hok, hboth, hone⟩ := areaPass_eq
  obtain ⟨L, hL⟩ := eq_ok_of_isOk hok
  have hus : [other, other].map Node.unknown ⊆ prepared.nodes listed := by
    simp [nodes, prepared, listed]
  have harea : area ∈ listed := List.mem_cons_of_mem _ (List.mem_cons_self ..)
  obtain ⟨hlayout, hcollected, hall⟩ := prepared_reached.together_registered hus
    (List.cons_subset.mpr ⟨List.mem_append_right _ harea, List.nil_subset _⟩) hL areaPass_faithful
  have hmet : (([area].flatMap Node.preorder).filterMap Node.unknown?).eraseDups = [side] := hone
  rw [hmet] at hcollected
  rw [hcollected] at hlayout
  have hside : Node.unknown side ∈ area.preorder := by simp [area, Node.preorder]
  refine ⟨L, hL, ?_, hcollected, hall area (List.mem_singleton_self _) side hside⟩
  have hplaced : L.layout.without (areaPass.pass.auxiliaries.map (·.unknown)) =
      ([other, other, side].eraseDups).map .unknown := hlayout
  rw [hauxiliary, hboth] at hplaced
  exact hplaced

end Exact

end Session

end DisciplinedConvex
