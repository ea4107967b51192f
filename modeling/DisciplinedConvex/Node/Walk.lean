import DisciplinedConvex.Node
import Std.Data.TreeSet

namespace DisciplinedConvex.Node

variable {α : Type}

inductive Visit (α : Type) where
  | enter (n : Node α)
  | leave (n : Node α)

def Visit.weight : Visit α → Nat
  | enter n => n.weight
  | leave _ => 1

structure Walk (α : Type) where
  seen : Std.TreeSet String
  met : List (Node α)
  left : List (Node α)

namespace Walk

def empty : Walk α := ⟨∅, [], []⟩

def meet (w : Walk α) (n : Node α) : Walk α := ⟨w.seen.insert n.id, n :: w.met, w.left⟩

def leave (w : Walk α) (n : Node α) : Walk α := ⟨w.seen, w.met, n :: w.left⟩

def order (w : Walk α) : List (Node α) := w.left.reverse

end Walk

theorem total_weight_enter (ns : List (Node α)) :
    total ((ns.map Visit.enter).map Visit.weight) = total (ns.map weight) := by
  rw [List.map_map]
  rfl

def walkFrom (skip : Node α → Bool) (pending : List (Visit α)) (w : Walk α) : Walk α :=
  match pending with
  | [] => w
  | .leave n :: rest => walkFrom skip rest (w.leave n)
  | .enter n :: rest =>
    if w.seen.contains n.id then walkFrom skip rest w
    else if skip n then walkFrom skip rest (w.meet n)
    else walkFrom skip (n.children.map .enter ++ .leave n :: rest) (w.meet n)
termination_by total (pending.map Visit.weight)
decreasing_by
  · simp only [List.map_cons, total, Visit.weight]
    omega
  · have := n.weight_eq
    simp only [List.map_cons, total, Visit.weight]
    omega
  · have := n.weight_eq
    simp only [List.map_cons, total, Visit.weight]
    omega
  · have := n.weight_eq
    simp only [List.map_append, List.map_cons, total_append, total, total_weight_enter,
      Visit.weight]
    omega

/-- The distinct nodes below a root, every child before its parents, from left to right. Nodes that
`skip` chooses are left out together with what stands below them. -/
def postOrder (skip : Node α → Bool) (root : Node α) : Walk α :=
  walkFrom skip [.enter root] .empty

theorem weight_le_of_mem_walkFrom (skip : Node α → Bool) (bound : Nat) (pending : List (Visit α))
    (w : Walk α)
    (hp : ∀ v ∈ pending, match v with | .enter n | .leave n => n.weight ≤ bound)
    (hw : ∀ n ∈ w.left, n.weight ≤ bound) :
    ∀ n ∈ (walkFrom skip pending w).left, n.weight ≤ bound := by
  fun_induction walkFrom skip pending w with
  | case1 w => exact hw
  | case2 w n rest ih =>
    apply ih (fun v hv => hp v (List.mem_cons_of_mem _ hv))
    intro m hm
    rcases List.mem_cons.mp hm with rfl | hm
    · exact hp (.leave m) (List.mem_cons_self ..)
    · exact hw m hm
  | case3 w n rest _ ih => exact ih (fun v hv => hp v (List.mem_cons_of_mem _ hv)) hw
  | case4 w n rest _ _ ih => exact ih (fun v hv => hp v (List.mem_cons_of_mem _ hv)) hw
  | case5 w n rest _ _ ih =>
    have hn : n.weight ≤ bound := hp (.enter n) (List.mem_cons_self ..)
    apply ih _ hw
    intro v hv
    rcases List.mem_append.mp hv with hv | hv
    · obtain ⟨c, hc, rfl⟩ := List.mem_map.mp hv
      exact Nat.le_trans (Nat.le_of_lt (weight_lt_of_mem_children hc)) hn
    · rcases List.mem_cons.mp hv with rfl | hv
      · exact hn
      · exact hp v (List.mem_cons_of_mem _ hv)

theorem weight_le_of_mem_postOrder {skip : Node α → Bool} {m root : Node α}
    (h : m ∈ (postOrder skip root).order) : m.weight ≤ root.weight :=
  weight_le_of_mem_walkFrom skip root.weight [.enter root] .empty
    (by simp) (by simp [Walk.empty]) m (List.mem_reverse.mp h)

def preorder : Node α → List (Node α)
  | n@(constant _) | n@(unknown _) => [n]
  | n@(product _ l r) => n :: (l.preorder ++ r.preorder)
  | n@(weighted _ c x) => n :: constant c :: x.preorder
  | n@(square _ x) => n :: x.preorder
  | n@(bare _ _ _ args) => n :: (List.ofFn fun i => (args i).preorder).flatten

theorem preorder_eq (n : Node α) : n.preorder = n :: n.children.flatMap preorder := by
  cases n <;> simp [preorder, children, List.flatMap, List.map_ofFn, Function.comp_def]

def collectFrom (pending : List (Node α)) (seen : Std.TreeSet String) (found : List Unknown) :
    List Unknown :=
  match pending with
  | [] => found
  | n :: rest =>
    if seen.contains n.id then collectFrom rest seen found
    else
      collectFrom (n.children ++ rest) (seen.insert n.id)
        (match n with
          | unknown u => u :: found
          | _ => found)
termination_by total (pending.map weight)
decreasing_by
  · have := n.weight_eq
    simp only [List.map_cons, total]
    omega
  · have := n.weight_eq
    simp only [List.map_append, List.map_cons, total_append, total]
    omega

def collectUnknowns (roots : List (Node α)) : List Unknown := (collectFrom roots ∅ []).reverse

end DisciplinedConvex.Node
