import DisciplinedConvex.Dense
import DisciplinedConvex.Identity

namespace DisciplinedConvex

/-- What every operation node carries: the object it is, the size of its value, and its identity.
Nodes of equal structure share an identity and are still different objects when built apart. -/
structure Tag where
  ref : Nat
  size : Size
  id : String
  deriving DecidableEq

structure Constant (α : Type) where
  ref : Nat
  id : String
  value : Dense α

structure Unknown where
  ref : Nat
  id : String
  serial : Nat
  name : String
  size : Size
  sign : Sign
  deriving DecidableEq

/-- The two kinds of node that have an identity and a size and no rule of their own. -/
inductive BareKind where
  | leaf
  | operation
  deriving DecidableEq

/-- An expression. A node may stand below several others, so that a model is a graph without cycles;
the tree that it unfolds to is what the rules of a node speak about. -/
inductive Node (α : Type) where
  | constant (c : Constant α)
  | unknown (u : Unknown)
  /-- A matrix product, or a multiple by a scalar on either side. -/
  | product (tag : Tag) (left right : Node α)
  /-- An entrywise product with fixed weights. -/
  | weighted (tag : Tag) (weight : Constant α) (operand : Node α)
  /-- The square of every entry. -/
  | square (tag : Tag) (operand : Node α)
  | bare (tag : Tag) (kind : BareKind) (arity : Nat) (args : Fin arity → Node α)

namespace Node

variable {α : Type}

def ref : Node α → Nat
  | constant c => c.ref
  | unknown u => u.ref
  | product tag _ _ | weighted tag _ _ | square tag _ | bare tag _ _ _ => tag.ref

def id : Node α → String
  | constant c => c.id
  | unknown u => u.id
  | product tag _ _ | weighted tag _ _ | square tag _ | bare tag _ _ _ => tag.id

def size : Node α → Size
  | constant c => c.value.size
  | unknown u => u.size
  | product tag _ _ | weighted tag _ _ | square tag _ | bare tag _ _ _ => tag.size

def children : Node α → List (Node α)
  | constant _ | unknown _ => []
  | product _ l r => [l, r]
  | weighted _ c x => [constant c, x]
  | square _ x => [x]
  | bare _ _ _ args => List.ofFn args

def head : Node α → String
  | constant _ => "constant"
  | unknown _ => "variable"
  | product .. => "*"
  | weighted .. => ".*"
  | square .. => "square"
  | bare .. => "expr"

def kind : Node α → String
  | constant _ => "Constant"
  | unknown _ => "Variable"
  | product .. => "MultiplyAtom"
  | weighted .. => "DotMultiplyAtom"
  | square .. => "Square"
  | bare _ .leaf _ _ => "Expr"
  | bare _ .operation _ _ => "Atom"

def total : List Nat → Nat
  | [] => 0
  | k :: ks => k + total ks

theorem total_append (js ks : List Nat) : total (js ++ ks) = total js + total ks := by
  induction js with
  | nil => exact (Nat.zero_add _).symm
  | cons j js ih => rw [List.cons_append, total, total, ih, Nat.add_assoc]

def weight : Node α → Nat
  | constant _ | unknown _ => 2
  | product _ l r => 2 + (l.weight + r.weight)
  | weighted _ _ x => 2 + (2 + x.weight)
  | square _ x => 2 + x.weight
  | bare _ _ _ args => 2 + total (List.ofFn fun i => (args i).weight)

theorem weight_eq (n : Node α) : n.weight = 2 + total (n.children.map weight) := by
  cases n <;>
    simp only [weight, children, List.map_ofFn, List.map_cons, List.map_nil, total,
      Function.comp_def] <;>
    rfl

theorem le_total_of_mem {k : Nat} {ks : List Nat} (h : k ∈ ks) : k ≤ total ks := by
  induction ks with
  | nil => simp at h
  | cons j ks ih =>
    rw [total]
    rcases List.mem_cons.mp h with rfl | h
    · omega
    · have := ih h
      omega

theorem weight_lt_of_mem_children {c n : Node α} (h : c ∈ n.children) : c.weight < n.weight := by
  have hs : c.weight ≤ total (n.children.map weight) :=
    le_total_of_mem (List.mem_map_of_mem h)
  rw [weight_eq n]
  omega

theorem left_lt_product (tag : Tag) (l r : Node α) : l.weight < (product tag l r).weight :=
  weight_lt_of_mem_children (List.mem_cons_self ..)

theorem right_lt_product (tag : Tag) (l r : Node α) : r.weight < (product tag l r).weight :=
  weight_lt_of_mem_children (List.mem_cons_of_mem _ (List.mem_cons_self ..))

theorem weight_lt_weighted (tag : Tag) (c : Constant α) (x : Node α) :
    (constant c).weight < (weighted tag c x).weight :=
  weight_lt_of_mem_children (List.mem_cons_self ..)

theorem operand_lt_weighted (tag : Tag) (c : Constant α) (x : Node α) :
    x.weight < (weighted tag c x).weight :=
  weight_lt_of_mem_children (List.mem_cons_of_mem _ (List.mem_cons_self ..))

theorem operand_lt_square (tag : Tag) (x : Node α) : x.weight < (square tag x).weight :=
  weight_lt_of_mem_children (List.mem_cons_self ..)

def same (m n : Node α) : Bool := m.id == n.id

end Node

end DisciplinedConvex
