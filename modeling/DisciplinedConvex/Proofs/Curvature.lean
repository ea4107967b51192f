import DisciplinedConvex.Proofs.Exact
import DisciplinedConvex.Proofs.Meaning
import Mathlib.Algebra.Order.BigOperators.Group.Finset
import Mathlib.Tactic.Linarith

namespace DisciplinedConvex

variable {α : Type}

namespace Node

variable [Scalar α] {l r x : Node α}

theorem vexity_product (tag : Tag) : (product tag l r).vexity =
    if l.vexity = .constant then
      if r.vexity = .constant then .constant else (l.sign * Monotonicity.nondecreasing) * r.vexity
    else
      if r.vexity = .constant then (r.sign * Monotonicity.nondecreasing) * l.vexity
      else .notDcp := by
  by_cases hl : l.vexity = .constant <;> by_cases hr : r.vexity = .constant <;>
    simp [vexity, compose, hl, hr, Vexity.mul_constant, Vexity.constant_add, Vexity.add_constant,
      Vexity.notDcp_add]

theorem vexity_weighted (tag : Tag) (c : Constant α) : (weighted tag c x).vexity =
    if x.vexity = .constant then .constant
    else .affine + (Sign.ofEntries c.value.vec * Monotonicity.nondecreasing) * x.vexity := by
  by_cases hx : x.vexity = .constant <;>
    simp [vexity, compose, hx, Vexity.mul_constant, Vexity.add_constant]

theorem vexity_square (tag : Tag) : (square tag x).vexity =
    if x.vexity = .constant then .constant
    else .convex + (x.sign * Monotonicity.nondecreasing) * x.vexity := by
  by_cases hx : x.vexity = .constant <;> simp [vexity, compose, hx]

theorem scale_ne_constant (s : Sign) {v : Vexity} (hv : v ≠ .constant) :
    (s * Monotonicity.nondecreasing) * v ≠ .constant := by
  cases s <;> cases v <;> first | exact absurd rfl hv | decide

theorem vexity_children {n : Node α} (hn : n.Formed) (h : n.vexity = .constant) :
    ∀ c ∈ n.children, c.vexity = .constant := by
  cases n with
  | constant c => exact nofun
  | unknown u => cases h
  | product tag l r =>
    rw [vexity_product] at h
    split at h
    · next hl =>
      split at h
      · next hr =>
        intro c hc
        rcases List.mem_pair.mp hc with rfl | rfl
        · exact hl
        · exact hr
      · next hr => exact absurd h (scale_ne_constant _ hr)
    · next hl =>
      split at h
      · exact absurd h (scale_ne_constant _ hl)
      · cases h
  | weighted tag c x =>
    rw [vexity_weighted] at h
    split at h
    · next hx =>
      intro d hd
      rcases List.mem_pair.mp hd with rfl | rfl
      · rfl
      · exact hx
    · exact absurd h (Vexity.ne_constant_of_add (v := .affine) nofun _)
  | square tag x =>
    rw [vexity_square] at h
    split at h
    · next hx =>
      intro d hd
      rw [List.mem_singleton.mp hd]
      exact hx
    · exact absurd h (Vexity.ne_constant_of_add (v := .convex) nofun _)
  | bare => exact hn.elim

theorem vexity_below {n m : Node α} (hn : n.Formed) (h : n.vexity = .constant)
    (hm : m ∈ n.preorder) : m.vexity = .constant := by
  induction n using children_induction with
  | step n ih =>
    rw [preorder_eq] at hm
    rcases List.mem_cons.mp hm with rfl | hm
    · exact h
    · obtain ⟨c, hc, hmc⟩ := List.mem_flatMap.mp hm
      exact ih c hc (hn.child hc) (vexity_children hn h c hc) hmc

theorem not_unknown_below {n : Node α} (hn : n.Formed) (h : n.vexity = .constant) (u : Unknown) :
    .unknown u ∉ n.preorder := by
  intro hu
  cases vexity_below hn h hu

theorem entry_of_constant [Field α] {n : Node α} {t : String → Option (Nat → Nat → α)}
    (x x' : Unknown → Nat → Nat → α) (hn : n.Formed) (h : n.vexity = .constant)
    (ht : ∀ tag y, square tag y ∈ n.preorder → t tag.id = none) :
    ∀ i < n.size.height, ∀ j < n.size.width, n.entry x t i j = n.entry x' plain i j :=
  entry_congr hn (fun u hu => absurd hu (not_unknown_below hn h u))
    fun tag y hy => .inl (ht tag y hy)

end Node

variable [Field α] [LinearOrder α]

namespace Sign

def Admits : Sign → α → Prop
  | positive, a => 0 ≤ a
  | negative, a => a ≤ 0
  | zero, a => a = 0
  | indeterminate, _ => True

theorem Admits.nonneg {s : Sign} {a : α} (h : s.Admits a) (hs : s.isNonneg = true) : 0 ≤ a := by
  cases s with
  | positive => exact h
  | negative => cases hs
  | zero => exact le_of_eq (Eq.symm h)
  | indeterminate => cases hs

theorem admits_zero (s : Sign) : s.Admits (0 : α) := by
  cases s with
  | positive => exact le_rfl
  | negative => exact le_rfl
  | zero => rfl
  | indeterminate => trivial

variable [IsStrictOrderedRing α]

theorem Admits.add {s : Sign} {a b : α} (ha : s.Admits a) (hb : s.Admits b) : s.Admits (a + b) := by
  cases s with
  | positive => exact add_nonneg ha hb
  | negative => exact add_nonpos ha hb
  | zero => exact (congrArg₂ _ ha hb).trans (add_zero 0)
  | indeterminate => trivial

theorem Admits.mul {s t : Sign} {a b : α} (ha : s.Admits a) (hb : t.Admits b) :
    (s * t).Admits (a * b) := by
  have hza (h : a = 0) (u : Sign) : u.Admits (a * b) := by
    rw [h, zero_mul]
    exact admits_zero u
  have hzb (h : b = 0) (u : Sign) : u.Admits (a * b) := by
    rw [h, mul_zero]
    exact admits_zero u
  cases s <;> cases t
  case positive.positive => exact mul_nonneg ha hb
  case positive.negative => exact mul_nonpos_of_nonneg_of_nonpos ha hb
  case negative.positive => exact mul_nonpos_of_nonpos_of_nonneg ha hb
  case negative.negative => exact mul_nonneg_of_nonpos_of_nonpos ha hb
  all_goals first
    | exact hza ha _
    | exact hzb hb _
    | trivial

theorem Admits.square {s : Sign} {a : α} (ha : s.Admits a) : (Node.squareSign s).Admits (a * a) := by
  by_cases hs : s = .zero
  · subst hs
    rw [show a = 0 from ha, mul_zero]
    exact admits_zero _
  · rw [Node.squareSign, if_neg hs]
    exact mul_self_nonneg a

theorem Admits.sum {s : Sign} {n : Nat} {f : Nat → α} (h : ∀ k < n, s.Admits (f k)) :
    s.Admits (∑ k ∈ Finset.range n, f k) := by
  induction n with
  | zero => exact admits_zero s
  | succ n ih =>
    rw [Finset.sum_range_succ]
    exact (ih fun k hk => h k (Nat.lt_succ_of_lt hk)).add (h n (Nat.lt_succ_self n))

omit [IsStrictOrderedRing α] in
theorem admits_ofEntries [Scalar α] [ExactScalar α] {xs : Array α} {a : α} (h : a ∈ xs) :
    (ofEntries xs).Admits a := by
  unfold ofEntries
  split
  · next hz => exact (ExactScalar.isZero_iff a).mp (Array.all_eq_true'.mp hz a h)
  · split
    · next hp => exact (ExactScalar.isNonneg_iff a).mp (Array.all_eq_true'.mp hp a h)
    · split
      · next hn => exact (ExactScalar.isNonpos_iff a).mp (Array.all_eq_true'.mp hn a h)
      · trivial

end Sign

namespace Node

variable [Scalar α] [ExactScalar α]

theorem admits_entry (A : Dense α) {i j : Nat} (hi : i < A.rows) (hj : j < A.cols) :
    (Sign.ofEntries A.vec).Admits (A.entry i j) :=
  Sign.admits_ofEntries (A.entry_mem hi hj)

variable [IsStrictOrderedRing α]

omit [Scalar α] [ExactScalar α] in
theorem times_admits {left right s : Size} {σ τ : Sign} {f g : Nat → Nat → α}
    (hs : left.product? right = some s)
    (hf : ∀ i < left.height, ∀ j < left.width, σ.Admits (f i j))
    (hg : ∀ i < right.height, ∀ j < right.width, τ.Admits (g i j)) :
    ∀ i < s.height, ∀ j < s.width, (σ * τ).Admits (times left right f g i j) := by
  intro i hi j hj
  obtain ⟨len, p, q, hpq, hsum⟩ := times_eq_sum (α := α) hs hi hj
  rw [hsum]
  apply Sign.Admits.sum
  intro k hk
  obtain ⟨hp1, hp2, hq1, hq2⟩ := hpq k hk
  exact (hf _ hp1 _ hp2).mul (hg _ hq1 _ hq2)

theorem sign_admits {n : Node α} {x : Unknown → Nat → Nat → α} (hn : n.Formed)
    (hx : ∀ u, .unknown u ∈ n.preorder → ∀ i < u.size.height, ∀ j < u.size.width,
      u.sign.Admits (x u i j)) :
    ∀ i < n.size.height, ∀ j < n.size.width, n.sign.Admits (n.entry x plain i j) := by
  induction n with
  | constant c => exact fun i hi j hj => admits_entry c.value hi hj
  | unknown u => exact hx u (List.mem_singleton_self _)
  | product tag l r hl hr =>
    exact times_admits hn.1
      (hl hn.2.1 fun u hu => hx u (mem_preorder_of_child (left_mem_children tag l r) hu))
      (hr hn.2.2 fun u hu => hx u (mem_preorder_of_child (right_mem_children tag l r) hu))
  | weighted tag c y hy =>
    have hs : (weighted tag c y).size = y.size := hn.2.1
    have hc : c.value.size = y.size := hn.1
    intro i hi j hj
    rw [hs] at hi hj
    exact (admits_entry c.value (Dense.rows_eq hc ▸ hi) (Dense.cols_eq hc ▸ hj)).mul
      (hy hn.2.2 (fun u hu => hx u (mem_preorder_of_child (weighted_mem_children tag c y) hu))
        i hi j hj)
  | square tag y hy =>
    have hs : (square tag y).size = y.size := hn.1
    intro i hi j hj
    rw [hs] at hi hj
    exact (hy hn.2 (fun u hu => hx u (mem_preorder_of_child (square_mem_children tag y) hu)) i hi j
      hj).square
  | bare => exact hn.elim

end Node

namespace Vexity

/-- What a curvature promises of a number and of the one that takes its place. -/
def Promises : Vexity → α → α → Prop
  | constant, a, b | affine, a, b => a = b
  | convex, a, b => a ≤ b
  | concave, a, b => b ≤ a
  | notDcp, _, _ => True

omit [Field α] in
theorem promises_of_eq (v : Vexity) {a b : α} (h : a = b) : v.Promises a b := by
  cases v with
  | constant => exact h
  | affine => exact h
  | convex => exact le_of_eq h
  | concave => exact le_of_eq h.symm
  | notDcp => trivial

omit [Field α] in
theorem Promises.affine_add {v : Vexity} {a b : α} (h : v.Promises a b) :
    (affine + v).Promises a b := by
  cases v <;> exact h

variable [IsStrictOrderedRing α]

theorem Promises.add {v : Vexity} {a b a' b' : α} (h : v.Promises a b) (h' : v.Promises a' b') :
    v.Promises (a + a') (b + b') := by
  cases v with
  | constant => exact congrArg₂ _ h h'
  | affine => exact congrArg₂ _ h h'
  | convex => exact add_le_add h h'
  | concave => exact add_le_add h h'
  | notDcp => trivial

theorem Promises.sum {v : Vexity} {n : Nat} {f g : Nat → α}
    (h : ∀ k < n, v.Promises (f k) (g k)) :
    v.Promises (∑ k ∈ Finset.range n, f k) (∑ k ∈ Finset.range n, g k) := by
  induction n with
  | zero => exact promises_of_eq v rfl
  | succ n ih =>
    rw [Finset.sum_range_succ, Finset.sum_range_succ]
    exact (ih fun k hk => h k (Nat.lt_succ_of_lt hk)).add (h n (Nat.lt_succ_self n))

theorem Promises.scale {v : Vexity} {s : Sign} {a b c : α} (hc : s.Admits c)
    (h : v.Promises a b) : ((s * Monotonicity.nondecreasing) * v).Promises (c * a) (c * b) := by
  by_cases heq : a = b
  · exact promises_of_eq _ (congrArg _ heq)
  · cases v with
    | constant => exact absurd h heq
    | affine => exact absurd h heq
    | notDcp => cases s <;> trivial
    | convex =>
      cases s with
      | positive => exact mul_le_mul_of_nonneg_left h hc
      | negative => exact mul_le_mul_of_nonpos_left h hc
      | zero => exact mul_le_mul_of_nonneg_left h (hc.nonneg rfl)
      | indeterminate => trivial
    | concave =>
      cases s with
      | positive => exact mul_le_mul_of_nonneg_left h hc
      | negative => exact mul_le_mul_of_nonpos_left h hc
      | zero => exact mul_le_mul_of_nonneg_left h (hc.nonneg rfl)
      | indeterminate => trivial

theorem Promises.square {v : Vexity} {s : Sign} {a b c : α} (hv : v ≠ .constant) (ha : s.Admits a)
    (h : v.Promises a b) (hc : b * b ≤ c) :
    (convex + (s * Monotonicity.nondecreasing) * v).Promises (a * a) c := by
  have hnonneg : 0 ≤ a → a ≤ b → a * a ≤ c := fun h0 hab => by nlinarith
  have hnonpos : a ≤ 0 → b ≤ a → a * a ≤ c := fun h0 hab => by nlinarith
  cases v with
  | constant => exact absurd rfl hv
  | affine =>
    obtain rfl : a = b := h
    cases s <;> exact hc
  | notDcp => cases s <;> trivial
  | convex =>
    cases s with
    | positive => exact hnonneg ha h
    | negative => trivial
    | zero => exact hnonneg (ha.nonneg rfl) h
    | indeterminate => trivial
  | concave =>
    cases s with
    | positive => trivial
    | negative => exact hnonpos ha h
    | zero => trivial
    | indeterminate => trivial

end Vexity

namespace Node

variable [Scalar α]

structure Relaxes (x : Unknown → Nat → Nat → α) (Q : Node α → Nat → Nat → α) (n : Node α) :
    Prop where
  unknowns : ∀ u, .unknown u ∈ n.preorder → ∀ i < u.size.height, ∀ j < u.size.width,
    x u i j = Q (unknown u) i j
  constants : ∀ m ∈ n.preorder, m.vexity = .constant → ∀ i < m.size.height, ∀ j < m.size.width,
    m.entry x plain i j = Q m i j
  left : ∀ tag l r, product tag l r ∈ n.preorder → l.vexity = .constant →
    ∀ i < tag.size.height, ∀ j < tag.size.width,
      Q (product tag l r) i j = times l.size r.size (l.entry x plain) (Q r) i j
  right : ∀ tag l r, product tag l r ∈ n.preorder → r.vexity = .constant →
    ∀ i < tag.size.height, ∀ j < tag.size.width,
      Q (product tag l r) i j = times l.size r.size (Q l) (r.entry x plain) i j
  weights : ∀ tag c y, weighted tag c y ∈ n.preorder →
    ∀ i < tag.size.height, ∀ j < tag.size.width,
      Q (weighted tag c y) i j = c.value.entry i j * Q y i j
  squares : ∀ tag y, square tag y ∈ n.preorder → y.vexity ≠ .constant →
    ∀ i < tag.size.height, ∀ j < tag.size.width, Q y i j * Q y i j ≤ Q (square tag y) i j

theorem Relaxes.child {x : Unknown → Nat → Nat → α} {Q : Node α → Nat → Nat → α} {c n : Node α}
    (h : Relaxes x Q n) (hc : c ∈ n.children) : Relaxes x Q c where
  unknowns u hu := h.unknowns u (mem_preorder_of_child hc hu)
  constants m hm := h.constants m (mem_preorder_of_child hc hm)
  left tag l r hm := h.left tag l r (mem_preorder_of_child hc hm)
  right tag l r hm := h.right tag l r (mem_preorder_of_child hc hm)
  weights tag c y hm := h.weights tag c y (mem_preorder_of_child hc hm)
  squares tag y hm := h.squares tag y (mem_preorder_of_child hc hm)

variable [IsStrictOrderedRing α] [ExactScalar α]

theorem Relaxes.promises {x : Unknown → Nat → Nat → α} {Q : Node α → Nat → Nat → α} {n : Node α}
    (h : Relaxes x Q n) (hn : n.Formed)
    (hx : ∀ u, .unknown u ∈ n.preorder → ∀ i < u.size.height, ∀ j < u.size.width,
      u.sign.Admits (x u i j)) :
    ∀ i < n.size.height, ∀ j < n.size.width, n.vexity.Promises (n.entry x plain i j) (Q n i j) := by
  induction n with
  | constant c => exact h.constants _ (self_mem_preorder _) rfl
  | unknown u => exact h.unknowns u (self_mem_preorder _)
  | product tag l r hl hr =>
    intro i hi j hj
    have hlc := left_mem_children tag l r
    have hrc := right_mem_children tag l r
    have hxl := fun u hu => hx u (mem_preorder_of_child hlc hu)
    have hxr := fun u hu => hx u (mem_preorder_of_child hrc hu)
    obtain ⟨len, p, q, hpq, hsum⟩ := times_eq_sum (α := α) hn.1 hi hj
    rw [vexity_product]
    by_cases hlv : l.vexity = .constant
    · rw [if_pos hlv]
      by_cases hrv : r.vexity = .constant
      · rw [if_pos hrv]
        refine h.constants _ (self_mem_preorder _) ?_ i hi j hj
        rw [vexity_product, if_pos hlv, if_pos hrv]
      · rw [if_neg hrv, h.left tag l r (self_mem_preorder _) hlv i hi j hj, entry, hsum, hsum]
        apply Vexity.Promises.sum
        intro k hk
        obtain ⟨hp1, hp2, hq1, hq2⟩ := hpq k hk
        exact (hr (h.child hrc) hn.2.2 hxr _ hq1 _ hq2).scale (sign_admits hn.2.1 hxl _ hp1 _ hp2)
    · rw [if_neg hlv]
      by_cases hrv : r.vexity = .constant
      · rw [if_pos hrv, h.right tag l r (self_mem_preorder _) hrv i hi j hj, entry, hsum, hsum]
        apply Vexity.Promises.sum
        intro k hk
        obtain ⟨hp1, hp2, hq1, hq2⟩ := hpq k hk
        rw [mul_comm, mul_comm (Q l _ _)]
        exact (hl (h.child hlc) hn.2.1 hxl _ hp1 _ hp2).scale (sign_admits hn.2.2 hxr _ hq1 _ hq2)
      · rw [if_neg hrv]
        trivial
  | weighted tag c y hy =>
    intro i hi j hj
    have hyc := weighted_mem_children tag c y
    have hxy := fun u hu => hx u (mem_preorder_of_child hyc hu)
    have hs : (weighted tag c y).size = y.size := hn.2.1
    have hi' : i < y.size.height := hs ▸ hi
    have hj' : j < y.size.width := hs ▸ hj
    rw [vexity_weighted]
    by_cases hv : y.vexity = .constant
    · rw [if_pos hv]
      refine h.constants _ (self_mem_preorder _) ?_ i hi j hj
      rw [vexity_weighted, if_pos hv]
    · rw [if_neg hv, h.weights tag c y (self_mem_preorder _) i hi j hj, entry]
      have hc : c.value.size = y.size := hn.1
      have hadmits := admits_entry c.value (Dense.rows_eq hc ▸ hi') (Dense.cols_eq hc ▸ hj')
      exact ((hy (h.child hyc) hn.2.2 hxy i hi' j hj').scale hadmits).affine_add
  | square tag y hy =>
    intro i hi j hj
    have hyc := square_mem_children tag y
    have hxy := fun u hu => hx u (mem_preorder_of_child hyc hu)
    have hs : (square tag y).size = y.size := hn.1
    have hi' : i < y.size.height := hs ▸ hi
    have hj' : j < y.size.width := hs ▸ hj
    rw [vexity_square]
    by_cases hv : y.vexity = .constant
    · rw [if_pos hv]
      refine h.constants _ (self_mem_preorder _) ?_ i hi j hj
      rw [vexity_square, if_pos hv]
    · rw [if_neg hv]
      exact (hy (h.child hyc) hn.2 hxy i hi' j hj').square hv (sign_admits hn.2 hxy i hi' j hj')
        (h.squares tag y (self_mem_preorder _) hv i hi j hj)
  | bare => exact hn.elim

end Node

end DisciplinedConvex
