import DisciplinedConvex.Proofs.Structure
import Mathlib.Algebra.BigOperators.Group.List.Basic
import Mathlib.Algebra.Ring.Nat
import Mathlib.Data.Rat.Init

namespace DisciplinedConvex.Node

variable {α : Type}

/-- The nodes below a node that no held one hides: a held node is exposed, and nothing below it. -/
def exposed (held : Node α → Bool) : Node α → List (Node α)
  | n@(constant _) | n@(unknown _) => [n]
  | n@(product _ l r) => n :: if held n then [] else l.exposed held ++ r.exposed held
  | n@(weighted _ c x) => n :: if held n then [] else constant c :: x.exposed held
  | n@(square _ x) => n :: if held n then [] else x.exposed held
  | n@(bare _ _ _ args) =>
    n :: if held n then [] else (List.ofFn fun i => (args i).exposed held).flatten

variable {held skip : Node α → Bool} {c m n : Node α} {w : Walk α}

theorem exposed_eq (held : Node α → Bool) (n : Node α) :
    n.exposed held = n :: if held n then [] else n.children.flatMap (exposed held) := by
  cases n <;> simp [exposed, children, List.flatMap, List.map_ofFn, Function.comp_def]

theorem self_mem_exposed (held : Node α → Bool) (n : Node α) : n ∈ n.exposed held := by
  rw [exposed_eq]
  exact List.mem_cons_self ..

theorem mem_exposed_of_child (hn : held n = false) (hc : c ∈ n.children)
    (hm : m ∈ c.exposed held) : m ∈ n.exposed held := by
  rw [exposed_eq, hn]
  exact List.mem_cons_of_mem _ (List.mem_flatMap.mpr ⟨c, hc, hm⟩)

theorem mem_exposed_of_mem (hbelow : ∀ a ∈ n.preorder, held a = true → ∀ b ∈ a.preorder, held b = true)
    (hm : m ∈ n.preorder) (hheld : held m = false) : m ∈ n.exposed held := by
  induction n using children_induction with
  | step n ih =>
    have hn : held n = false := by
      refine Bool.eq_false_iff.mpr fun hn => ?_
      rw [hbelow n n.self_mem_preorder hn m hm] at hheld
      cases hheld
    rw [preorder_eq] at hm
    rcases List.mem_cons.mp hm with rfl | hm
    · exact self_mem_exposed held m
    · obtain ⟨c, hc, hmc⟩ := List.mem_flatMap.mp hm
      refine mem_exposed_of_child hn hc (ih c hc (fun a ha => ?_) hmc)
      exact hbelow a (mem_preorder_of_child hc ha)

theorem mem_met_visit (h : m ∈ (visit skip n w).met) : m ∈ w.met ∨ m ∈ n.exposed skip := by
  induction n using children_induction generalizing w with
  | step n ih =>
    rw [visit_eq] at h
    split at h
    · exact .inl h
    · split at h
      · rcases List.mem_cons.mp h with rfl | h
        · exact .inr (self_mem_exposed skip m)
        · exact .inl h
      · next hk =>
        have hfold : ∀ cs : List (Node α), cs ⊆ n.children → ∀ v : Walk α,
            m ∈ (cs.foldl (fun v c => visit skip c v) v).met → m ∈ v.met ∨ m ∈ n.exposed skip := by
          intro cs
          induction cs with
          | nil => exact fun _ v h => .inl h
          | cons c cs ihcs =>
            intro hcs v h
            have hc : c ∈ n.children := hcs (List.mem_cons_self ..)
            rcases ihcs (fun d hd => hcs (List.mem_cons_of_mem _ hd)) _ h with h | h
            · exact (ih c hc h).imp_right (mem_exposed_of_child (Bool.eq_false_iff.mpr hk) hc)
            · exact .inr h
        rcases hfold n.children (fun _ h => h) (w.meet n) h with h | h
        · rcases List.mem_cons.mp h with rfl | h
          · exact .inr (self_mem_exposed skip m)
          · exact .inl h
        · exact .inr h

def Coherent (n : Node α) : Prop :=
  ∀ a ∈ n.preorder, ∀ b ∈ n.preorder, a.id = b.id → a.children.map id = b.children.map id

instance (n : Node α) : Decidable n.Coherent :=
  inferInstanceAs (Decidable (∀ a ∈ n.preorder, ∀ b ∈ n.preorder, a.id = b.id →
    a.children.map id = b.children.map id))

theorem Faithful.coherent (h : Faithful n.preorder) : n.Coherent :=
  fun a ha b hb he => (h a ha b hb he).ids_children

theorem Coherent.idsWeigh (h : n.Coherent) : n.IdsWeigh := by
  intro a
  induction a using children_induction with
  | step a ih =>
    intro ha b hb he
    have hids := h a ha b hb he
    have hweights : a.children.map weight = b.children.map weight := by
      have hlength : a.children.length = b.children.length := by simpa using congrArg List.length hids
      refine List.ext_getElem (by simpa using hlength) fun k hk hk' => ?_
      rw [List.length_map] at hk hk'
      rw [List.getElem_map, List.getElem_map]
      have hck := List.getElem_mem hk
      have hidk : a.children[k].id = b.children[k].id := by
        have hget := List.getElem_of_eq hids (by rwa [List.length_map])
        rwa [List.getElem_map, List.getElem_map] at hget
      exact ih _ hck (mem_preorder_trans ha (child_mem_preorder hck)) _
        (mem_preorder_trans hb (child_mem_preorder (List.getElem_mem hk'))) hidk
    rw [a.weight_eq, b.weight_eq, hweights]

section Listing

variable {skip : String → Bool}

theorem met_postOrder (h : n.Coherent) (i : String) :
    (∃ m ∈ (postOrder (fun m => skip m.id) n).met, m.id = i) ↔
      ∃ x ∈ n.exposed (fun m => skip m.id), x.id = i := by
  have hw : Walk.Within _ n.preorder [] (postOrder (fun m => skip m.id) n) :=
    postOrder_within h.idsWeigh
  constructor
  · rintro ⟨m, hm, rfl⟩
    rw [postOrder_eq_visit] at hm
    exact ⟨m, (mem_met_visit hm).resolve_left (by simp [Walk.empty]), rfl⟩
  · -- along the exposed nodes, from one whose identity was met to its children
    have hdown : ∀ y ∈ n.preorder, (∃ d ∈ (postOrder (fun m => skip m.id) n).met, d.id = y.id) →
        ∀ x ∈ y.exposed (fun m => skip m.id),
          ∃ d ∈ (postOrder (fun m => skip m.id) n).met, d.id = x.id := by
      intro y
      induction y using children_induction with
      | step y ih =>
        intro hy hmet x hx
        rw [exposed_eq] at hx
        rcases List.mem_cons.mp hx with rfl | hx
        · exact hmet
        · split at hx
          · exact absurd hx List.not_mem_nil
          · next hskip =>
            obtain ⟨c, hc, hxc⟩ := List.mem_flatMap.mp hx
            obtain ⟨d, hd, he⟩ := hmet
            have hleft : d ∈ (postOrder (fun m => skip m.id) n).left := by
              rcases hw.settled.met d hd with hk | hl | ha
              · rw [he] at hk
                exact absurd hk hskip
              · exact hl
              · exact absurd ha List.not_mem_nil
            have hcid : c.id ∈ d.children.map id := by
              rw [h d (hw.met hd) y hy he]
              exact List.mem_map_of_mem hc
            obtain ⟨c', hc', he'⟩ := List.mem_map.mp hcid
            obtain ⟨e, hem, hee, -⟩ := hw.settled.ordered.children hleft hc'
            exact ih c hc (mem_preorder_trans hy (child_mem_preorder hc)) ⟨e, hem, hee.trans he'⟩ x
              hxc
    rintro ⟨x, hx, rfl⟩
    obtain ⟨d, hd, he, -⟩ : (postOrder _ n).Covers (fun m => skip m.id) n :=
      (postOrder_visited h.idsWeigh).2
    exact hdown n n.self_mem_preorder ⟨d, hd, he⟩ x hx

theorem Walk.Settled.ids_left {above : List (Node α)} {keep : Node α → Bool}
    (h : Walk.Settled keep above w) : (w.left.map id).Nodup :=
  h.nodup.map_on fun a ha b hb => List.inj_on_of_nodup_map h.ids (h.left a ha).1 (h.left b hb).1

structure BottomUp (skip : String → Bool) (n : Node α) (order : List (Node α)) : Prop where
  nodup : (order.map id).Nodup
  mem : ∀ i, i ∈ order.map id ↔ skip i = false ∧ i ∈ (n.exposed fun m => skip m.id).map id
  children : ∀ pre m post, order = pre ++ m :: post →
    ∀ c ∈ m.children, skip c.id = true ∨ c.id ∈ pre.map id
  root : skip n.id = false → ∃ pre, order = pre ++ [n]
  hidden : skip n.id = true → order = []

theorem postOrder_bottomUp (h : n.Coherent) (skip : String → Bool) :
    n.BottomUp skip (postOrder (fun m => skip m.id) n).order := by
  have hw : Walk.Within _ n.preorder [] (postOrder (fun m => skip m.id) n) :=
    postOrder_within h.idsWeigh
  refine ⟨?_, fun i => ?_, fun pre m post hsplit c hc => ?_, fun hn => ?_, fun hn => ?_⟩
  · rw [Walk.order, List.map_reverse, List.nodup_reverse]
    exact hw.settled.ids_left
  · have hmet := @met_postOrder α n skip h i
    simp only [Walk.order, List.mem_map, List.mem_reverse]
    constructor
    · rintro ⟨m, hm, rfl⟩
      obtain ⟨hm, hskip⟩ := hw.settled.left m hm
      exact ⟨hskip, hmet.mp ⟨m, hm, rfl⟩⟩
    · rintro ⟨hskip, hx⟩
      obtain ⟨m, hm, rfl⟩ := hmet.mpr hx
      rcases hw.settled.met m hm with hk | hl | ha
      · rw [hskip] at hk
        cases hk
      · exact ⟨m, hl, rfl⟩
      · exact absurd ha List.not_mem_nil
  · obtain ⟨d, -, he, hk⟩ := (postOrder_split h.idsWeigh hsplit).1 c hc
    rw [← he]
    exact hk.imp_right List.mem_map_of_mem
  · exact postOrder_eq_append hn
  · rw [postOrder_eq_visit, visit_eq, if_neg (by simp [Walk.empty]), if_pos hn]
    rfl

end Listing

namespace Walk

/-- One turn of the loop that works off pending steps. Whether a node is left out is asked of a
predicate that may keep a record of the questions. -/
def proceed {M : Type → Type} [Monad M] (skip : Node α → M Bool) (pending : List (Visit α))
    (w : Walk α) : M (List (Visit α) × Walk α) :=
  match pending with
  | [] => return ([], w)
  | .leave n :: rest => return (rest, w.leave n)
  | .enter n :: rest =>
    if w.seen.contains n.id then return (rest, w)
    else do
      if ← skip n then return (rest, w.meet n)
      return (n.children.map .enter ++ .leave n :: rest, w.meet n)

def proceedFor {M : Type → Type} [Monad M] (skip : Node α → M Bool) :
    Nat → List (Visit α) → Walk α → M (List (Visit α) × Walk α)
  | 0, pending, w => return (pending, w)
  | k + 1, pending, w => do
    let (pending, w) ← proceed skip pending w
    proceedFor skip k pending w

def asking (skip : Node α → Bool) (n : Node α) : StateM (List (Node α)) Bool := do
  modify (n :: ·)
  return skip n

def turns (n : Node α) : Nat := n.children.length + 1

/-- The turns that had been counted when a step was put on the stack. -/
def counted : Visit α → Nat
  | .enter _ => 0
  | .leave n => turns n

variable {rest : List (Visit α)} {asked : List (Node α)}

theorem proceed_leave :
    proceed (asking skip) (.leave n :: rest) w asked = ((rest, w.leave n), asked) :=
  rfl

theorem proceed_seen (hs : w.seen.contains n.id = true) :
    proceed (asking skip) (.enter n :: rest) w asked = ((rest, w), asked) := by
  rw [proceed, if_pos hs]
  rfl

theorem proceed_skipped (hs : ¬w.seen.contains n.id = true) (hk : skip n = true) :
    proceed (asking skip) (.enter n :: rest) w asked = ((rest, w.meet n), n :: asked) := by
  rw [proceed, if_neg hs]
  change (if skip n then _ else _ : StateM (List (Node α)) _) (n :: asked) = _
  rw [if_pos hk]
  rfl

theorem proceed_entered (hs : ¬w.seen.contains n.id = true) (hk : ¬skip n = true) :
    proceed (asking skip) (.enter n :: rest) w asked =
      ((n.children.map .enter ++ .leave n :: rest, w.meet n), n :: asked) := by
  rw [proceed, if_neg hs]
  change (if skip n then _ else _ : StateM (List (Node α)) _) (n :: asked) = _
  rw [if_neg hk]
  rfl

theorem proceedFor_succ {pending pending' : List (Visit α)} {w' : Walk α}
    {asked' : List (Node α)} (k : Nat)
    (h : proceed (asking skip) pending w asked = ((pending', w'), asked')) :
    proceedFor (asking skip) (k + 1) pending w asked =
      proceedFor (asking skip) k pending' w' asked' := by
  change (match proceed (asking skip) pending w asked with
    | ((p, v), q) => proceedFor (asking skip) k p v q) = _
  rw [h]

theorem proceedFor_eq_walkFrom (skip : Node α → Bool) (pending : List (Visit α)) (w : Walk α)
    (asked : List (Node α)) :
    ∃ k new, (walkFrom skip pending w).met = new ++ w.met ∧
      k + (w.left.map turns).sum + (pending.map counted).sum =
        pending.length + ((walkFrom skip pending w).left.map turns).sum ∧
      proceedFor (asking skip) k pending w asked = (([], walkFrom skip pending w), new ++ asked) := by
  fun_induction walkFrom skip pending w generalizing asked with
  | case1 w => exact ⟨0, [], rfl, by simp, rfl⟩
  | case2 w n rest ih =>
    obtain ⟨k, new, hmet, hk, hrun⟩ := ih asked
    refine ⟨k + 1, new, hmet, ?_, (proceedFor_succ k proceed_leave).trans hrun⟩
    simp only [leave, List.map_cons, List.sum_cons, counted, List.length_cons] at hk ⊢
    omega
  | case3 w n rest hs ih =>
    obtain ⟨k, new, hmet, hk, hrun⟩ := ih asked
    refine ⟨k + 1, new, hmet, ?_, (proceedFor_succ k (proceed_seen hs)).trans hrun⟩
    simp only [List.map_cons, List.sum_cons, counted, List.length_cons]
    omega
  | case4 w n rest hs hskip ih =>
    obtain ⟨k, new, hmet, hk, hrun⟩ := ih (n :: asked)
    refine ⟨k + 1, new ++ [n], ?_, ?_, ?_⟩
    · rw [hmet, List.append_assoc]
      rfl
    · simp only [meet, List.map_cons, List.sum_cons, counted, List.length_cons] at hk ⊢
      omega
    · rw [proceedFor_succ k (proceed_skipped hs hskip), hrun, List.append_assoc]
      rfl
  | case5 w n rest hs hskip ih =>
    obtain ⟨k, new, hmet, hk, hrun⟩ := ih (n :: asked)
    have hnew : ((n.children.map Visit.enter).map counted).sum = 0 := by
      rw [List.map_map]
      exact List.sum_eq_zero fun c hc => by
        obtain ⟨d, -, rfl⟩ := List.mem_map.mp hc
        rfl
    refine ⟨k + 1, new ++ [n], ?_, ?_, ?_⟩
    · rw [hmet, List.append_assoc]
      rfl
    · -- what entering the node pushes is counted when the node has been left
      simp only [meet, List.map_append, List.map_cons, List.sum_append, List.sum_cons, hnew,
        counted, List.length_append, List.length_map, List.length_cons, turns] at hk ⊢
      omega
    · rw [proceedFor_succ k (proceed_entered hs hskip), hrun, List.append_assoc]
      rfl

end Walk

/-- Where the stack is worked off one step at a time, it is empty after one turn for the root and,
for each node that is listed, one more and one for each of its children. By then the walk is the one
that recursion gives, from left to right and from the bottom up, and the predicate has been asked
once about every identity that was met. -/
theorem postOrder_depthFirst (h : n.Coherent) (skip : String → Bool) :
    let walk := postOrder (fun m => skip m.id) n
    Walk.proceedFor (Walk.asking fun m => skip m.id) (1 + (walk.order.map Walk.turns).sum)
        [.enter n] .empty [] = (([], walk), walk.met) ∧
      walk = visit (fun m => skip m.id) n .empty ∧
      n.BottomUp skip walk.order ∧
      (walk.met.map id).Nodup ∧
      ∀ i, i ∈ walk.met.map id ↔ i ∈ (n.exposed fun m => skip m.id).map id := by
  intro walk
  have hw : Walk.Within _ n.preorder [] walk := postOrder_within h.idsWeigh
  refine ⟨?_, postOrder_eq_visit _ n, postOrder_bottomUp h skip, hw.settled.ids, fun i => ?_⟩
  · obtain ⟨k, new, hmet, hk, hrun⟩ :=
      Walk.proceedFor_eq_walkFrom (fun m => skip m.id) [.enter n] .empty []
    have hnew : walk.met = new := hmet.trans (List.append_nil new)
    have hturns : 1 + (walk.order.map Walk.turns).sum = k := by
      rw [Walk.order, List.map_reverse, List.sum_reverse]
      exact hk.symm
    rw [hturns, hnew, hrun, List.append_nil]
    rfl
  · rw [List.mem_map, List.mem_map]
    exact met_postOrder h i

def squaresApart : Node ℚ :=
  let x : Node ℚ := .unknown ⟨0, "x", 0, "x", .scalar, .indeterminate⟩
  .product ⟨3, .scalar, "p"⟩ (.square ⟨1, .scalar, "s"⟩ x) (.square ⟨2, .scalar, "s"⟩ x)

theorem squaresApart_listed :
    let walk := postOrder (fun m => m.id == "x") squaresApart
    Walk.proceedFor (Walk.asking fun m => m.id == "x") 6 [.enter squaresApart] .empty [] =
        (([], walk), walk.met) ∧
      walk.order.map id = ["s", "p"] ∧ walk.met.map id = ["x", "s", "p"] := by
  have hcoherent : squaresApart.Coherent := by decide +kernel
  have hturns : 1 + ((postOrder (fun m => m.id == "x") squaresApart).order.map Walk.turns).sum = 6 := by
    decide +kernel
  obtain ⟨hrun, -⟩ := postOrder_depthFirst hcoherent (· == "x")
  rw [hturns] at hrun
  exact ⟨hrun, by decide +kernel, by decide +kernel⟩

end DisciplinedConvex.Node
