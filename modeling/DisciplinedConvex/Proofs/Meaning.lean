import DisciplinedConvex.Proofs.Structure
import DisciplinedConvex.Node.Value
import Mathlib.Algebra.BigOperators.Intervals
import Mathlib.Algebra.Field.Basic

namespace DisciplinedConvex

variable {α : Type}

theorem bind_eq_ok {β γ : Type} {x : Except Failure β} {f : β → Except Failure γ} {c : γ}
    (h : (x >>= f) = .ok c) : ∃ b, x = .ok b ∧ f b = .ok c := by
  cases x with
  | error e => cases h
  | ok b => exact ⟨b, rfl, h⟩

theorem bind_eq_error {β γ : Type} {x : Except Failure β} {f : β → Except Failure γ} {e : Failure}
    (h : (x >>= f) = .error e) : x = .error e ∨ ∃ b, x = .ok b ∧ f b = .error e := by
  cases x with
  | error e' => exact .inl (congrArg Except.error (Except.error.inj h))
  | ok b => exact .inr ⟨b, rfl, h⟩

theorem forall₂_of_mapM {β γ : Type} {f : β → Except Failure γ} {R : β → γ → Prop} {xs : List β}
    {ys : List γ} (h : ∀ x ∈ xs, ∀ y, f x = .ok y → R x y) (hys : xs.mapM f = .ok ys) :
    List.Forall₂ R xs ys := by
  induction xs generalizing ys with
  | nil =>
    obtain rfl := Except.ok.inj hys
    exact .nil
  | cons x xs ih =>
    rw [List.mapM_cons] at hys
    obtain ⟨y, hy, hys⟩ := bind_eq_ok hys
    obtain ⟨zs, hzs, hys⟩ := bind_eq_ok hys
    obtain rfl := Except.ok.inj hys
    exact .cons (h x (List.mem_cons_self ..) y hy)
      (ih (fun x' hx' => h x' (List.mem_cons_of_mem _ hx')) hzs)

theorem eq_ok_of_isOk {β : Type} {x : Except Failure β} (h : x.isOk = true) :
    ∃ b, x = .ok b := by
  cases x with
  | error e => cases h
  | ok b => exact ⟨b, rfl⟩

namespace Dense

theorem getD_vec [Zero α] (A : Dense α) {i j : Nat} (hi : i < A.rows) :
    A.vec.getD (j * A.rows + i) 0 = A.entry i j := by
  rw [entry, if_pos hi]

theorem entry_mem [Zero α] (A : Dense α) {i j : Nat} (hi : i < A.rows) (hj : j < A.cols) :
    A.entry i j ∈ A.vec := by
  have hk : j * A.rows + i < A.vec.size := A.size_vec ▸ index_lt hi hj
  rw [← A.getD_vec hi, Array.getD, dif_pos hk]
  exact Array.getElem_mem hk

theorem entry_map {β : Type} [Zero α] [Zero β] (f : α → β) (A : Dense α) {i j : Nat}
    (hi : i < A.rows) (hj : j < A.cols) : (A.map f).entry i j = f (A.entry i j) := by
  have hk : j * A.rows + i < A.vec.size := by
    rw [A.size_vec]
    exact index_lt hi hj
  simp [entry, map, hi, hk]

theorem entry_hadamard [Zero α] [Mul α] (A B : Dense α) {i j : Nat} (hi : i < A.rows)
    (hj : j < A.cols) : (A.hadamard B).entry i j = A.entry i j * B.entry i j :=
  entry_ofFn _ hi hj

theorem foldl_range_eq_sum [AddCommMonoid α] (n : Nat) (f : Nat → α) :
    (List.range n).foldl (fun sum k => sum + f k) 0 = ∑ k ∈ Finset.range n, f k := by
  induction n with
  | zero => rfl
  | succ n ih =>
    rw [List.range_succ, List.foldl_append, ih, Finset.sum_range_succ]
    rfl

theorem entry_mul [NonUnitalNonAssocSemiring α] (A B : Dense α) {i j : Nat} (hi : i < A.rows)
    (hj : j < B.cols) :
    (A.mul B).entry i j = ∑ k ∈ Finset.range A.cols, A.entry i k * B.entry k j := by
  rw [mul, entry_ofFn _ hi hj, foldl_range_eq_sum]

theorem index_split {r c k : Nat} (hk : k < r * c) :
    k % r < r ∧ k / r < c ∧ k / r * r + k % r = k := by
  have hr : 0 < r := Nat.pos_of_ne_zero (by rintro rfl; simp at hk)
  refine ⟨Nat.mod_lt k hr, ?_, Nat.div_add_mod' k r⟩
  rw [Nat.div_lt_iff_lt_mul hr, Nat.mul_comm]
  exact hk

theorem vec_eq_of_entry [Zero α] (A : Dense α) (xs : Array α) (hs : xs.size = A.rows * A.cols)
    (h : ∀ i < A.rows, ∀ j < A.cols, xs.getD (j * A.rows + i) 0 = A.entry i j) : xs = A.vec := by
  apply Array.ext
  · rw [hs, A.size_vec]
  · intro k hk hk'
    obtain ⟨hi, hj, he⟩ := index_split (hs ▸ hk)
    have hentry := h _ hi _ hj
    rw [← A.getD_vec hi, he] at hentry
    simpa [hk, hk'] using hentry

end Dense

namespace Size

def Nonneg (s : Size) : Prop := 0 ≤ s.rows ∧ 0 ≤ s.cols

def height (s : Size) : Nat := s.rows.toNat

def width (s : Size) : Nat := s.cols.toNat

theorem Nonneg.count_eq {s : Size} (h : s.Nonneg) : s.count = (s.height * s.width : Nat) := by
  rw [count, height, width, Int.natCast_mul, Int.toNat_of_nonneg h.1, Int.toNat_of_nonneg h.2]

theorem height_pos_scalar : 0 < scalar.height := Nat.one_pos

theorem width_pos_scalar : 0 < scalar.width := Nat.one_pos

end Size

namespace Dense

theorem rows_eq {A : Dense α} {s : Size} (h : A.size = s) : A.rows = s.height := by
  rw [← h]
  rfl

theorem cols_eq {A : Dense α} {s : Size} (h : A.size = s) : A.cols = s.width := by
  rw [← h]
  rfl

structure Holds [Zero α] (A : Dense α) (s : Size) (f : Nat → Nat → α) : Prop where
  size : A.size = s
  entry : ∀ i < s.height, ∀ j < s.width, A.entry i j = f i j

theorem Holds.eq [Zero α] {A B : Dense α} {s : Size} {f g : Nat → Nat → α} (hA : A.Holds s f)
    (hB : B.Holds s g) (h : ∀ i < s.height, ∀ j < s.width, f i j = g i j) : A = B := by
  have hr : A.rows = B.rows := (rows_eq hA.size).trans (rows_eq hB.size).symm
  have hc : A.cols = B.cols := (cols_eq hA.size).trans (cols_eq hB.size).symm
  refine ext_vec hr hc (B.vec_eq_of_entry A.vec (by rw [A.size_vec, hr, hc]) fun i hi j hj => ?_)
  have hi' : i < s.height := rows_eq hB.size ▸ hi
  have hj' : j < s.width := cols_eq hB.size ▸ hj
  rw [← hr, A.getD_vec (hr ▸ hi), hA.entry i hi' j hj', hB.entry i hi' j hj', h i hi' j hj']

end Dense

namespace Node

variable [Field α]

def times (left right : Size) (A B : Nat → Nat → α) (i j : Nat) : α :=
  if left = .scalar then A 0 0 * B i j
  else if right = .scalar then A i j * B 0 0
  else ∑ k ∈ Finset.range left.width, A i k * B k j

/-- The entries of an expression when `x` gives those of the unknowns. Squares for whose identity
`t` has entries take them instead of their own. -/
def entry (x : Unknown → Nat → Nat → α) (t : String → Option (Nat → Nat → α)) :
    Node α → Nat → Nat → α
  | constant c => c.value.entry
  | unknown u => x u
  | product _ l r => times l.size r.size (l.entry x t) (r.entry x t)
  | weighted _ c y => fun i j => c.value.entry i j * y.entry x t i j
  | square tag y =>
    match t tag.id with
    | some T => T
    | none => fun i j => y.entry x t i j * y.entry x t i j
  | bare .. => fun _ _ => 0

def plain : String → Option (Nat → Nat → α) := fun _ => none

end Node

def Assignment.Gives (values : Assignment α) (u : Unknown) : Prop :=
  ∃ t, values u.id = some (.ok t) ∧ (t.entries.size : Int) = u.size.count

namespace Node

def Fits (n : Node α) : Prop :=
  ∀ m ∈ n.preorder, Extent.fits m.size.height m.size.width = true

def Sized (n : Node α) : Prop := ∀ m ∈ n.preorder, m.size.Nonneg

def Covered (n : Node α) (values : Assignment α) : Prop :=
  ∀ u, .unknown u ∈ n.preorder → values.Gives u

theorem Fits.child {c n : Node α} (h : n.Fits) (hc : c ∈ n.children) : c.Fits :=
  fun m hm => h m (mem_preorder_of_child hc hm)

theorem Sized.child {c n : Node α} (h : n.Sized) (hc : c ∈ n.children) : c.Sized :=
  fun m hm => h m (mem_preorder_of_child hc hm)

theorem Covered.child {c n : Node α} {values : Assignment α} (h : n.Covered values)
    (hc : c ∈ n.children) : c.Covered values :=
  fun u hu => h u (mem_preorder_of_child hc hu)

end Node

section Sizes

variable [Zero α]

theorem Unknown.coerce_eq_ok {u : Unknown} {t : Tensor α} {A : Dense α} (h : u.coerce t = .ok A) :
    A.size = u.size ∧ A.vec = t.columnMajor := by
  unfold coerce at h
  split at h
  · split at h
    · next hd =>
      split at h
      · obtain rfl := Except.ok.inj h
        refine ⟨?_, rfl⟩
        rw [Dense.size, Int.toNat_of_nonneg hd.1, Int.toNat_of_nonneg hd.2]
      · cases h
    · cases h
  · cases h

theorem Unknown.valueIn_eq_ok_iff {u : Unknown} {values : Assignment α} {A : Dense α} :
    u.valueIn values = .ok A ↔ ∃ t, values u.id = some (.ok t) ∧ u.coerce t = .ok A := by
  constructor
  · intro h
    unfold valueIn at h
    split at h
    · cases h
    · next given hgiven =>
      obtain ⟨t, rfl, ht⟩ := bind_eq_ok h
      exact ⟨t, hgiven, ht⟩
  · rintro ⟨t, ht, hA⟩
    rw [valueIn, ht]
    exact hA

theorem Unknown.size_of_valueIn {u : Unknown} {values : Assignment α} {A : Dense α}
    (h : u.valueIn values = .ok A) : A.size = u.size := by
  obtain ⟨t, -, ht⟩ := valueIn_eq_ok_iff.mp h
  exact (coerce_eq_ok ht).1

theorem Unknown.valueIn_of_given {u : Unknown} {values : Assignment α} {t : Tensor α}
    (ht : values u.id = some (.ok t)) (hc : (t.entries.size : Int) = u.size.count)
    (hs : u.size.Nonneg) :
    (Extent.fits u.size.height u.size.width = true ∧
        ∃ A, u.valueIn values = .ok A ∧ A.size = u.size ∧ A.vec = t.columnMajor) ∨
      (Extent.fits u.size.height u.size.width = false ∧
        u.valueIn values = .error .arrayTooLarge) := by
  have hv : u.valueIn values = u.coerce t := by
    rw [valueIn, ht]
    rfl
  have hs' : 0 ≤ u.size.rows ∧ 0 ≤ u.size.cols := hs
  rw [hv]
  cases hf : Extent.fits u.size.height u.size.width with
  | true =>
    have hf' : Extent.fits u.size.rows.toNat u.size.cols.toNat = true := hf
    have hok : ∃ A, u.coerce t = .ok A := by
      rw [coerce, dif_pos hc, dif_pos hs', if_pos hf']
      exact ⟨_, rfl⟩
    obtain ⟨A, hA⟩ := hok
    exact .inl ⟨rfl, A, hA, coerce_eq_ok hA⟩
  | false =>
    have hf' : ¬Extent.fits u.size.rows.toNat u.size.cols.toNat = true := Bool.eq_false_iff.mp hf
    refine .inr ⟨rfl, ?_⟩
    rw [coerce, dif_pos hc, dif_pos hs', if_neg hf']

namespace Node

open DisciplinedConvex.Dense

variable [Add α] [Mul α]

theorem multiplyValues_size {left right s : Size} {A B C : Dense α}
    (hs : left.product? right = some s) (hA : A.size = left) (hB : B.size = right)
    (h : multiplyValues left right A B = .ok C) : C.size = s := by
  unfold multiplyValues at h
  unfold Size.product? at hs
  split at h
  · next hl =>
    rw [if_pos hl] at hs
    obtain rfl := Except.ok.inj h
    exact hB.trans (Option.some.inj hs)
  · next hl =>
    rw [if_neg hl] at hs
    split at h
    · next hr =>
      rw [if_pos hr] at hs
      obtain rfl := Except.ok.inj h
      exact hA.trans (Option.some.inj hs)
    · next hr =>
      rw [if_neg hr] at hs
      split at h
      · split at hs
        · obtain rfl := Except.ok.inj h
          rw [← Option.some.inj hs, ← hA, ← hB]
          rfl
        · cases hs
      · cases h

theorem evaluate_size {n : Node α} {values : Assignment α} {A : Dense α} (hn : n.Formed)
    (h : n.evaluate values = .ok A) : A.size = n.size := by
  induction n generalizing A with
  | constant c =>
    obtain rfl := Except.ok.inj h
    rfl
  | unknown u => exact Unknown.size_of_valueIn h
  | product tag l r hl hr =>
    obtain ⟨B, hB, h⟩ := bind_eq_ok h
    obtain ⟨C, hC, h⟩ := bind_eq_ok h
    exact multiplyValues_size hn.1 (hl hn.2.1 hB) (hr hn.2.2 hC) h
  | weighted tag c x hx =>
    obtain ⟨B, -, h⟩ := bind_eq_ok h
    obtain rfl := Except.ok.inj h
    exact hn.1.trans hn.2.1.symm
  | square tag x hx =>
    obtain ⟨B, hB, h⟩ := bind_eq_ok h
    obtain rfl := Except.ok.inj h
    exact (hx hn.2 hB).trans hn.1.symm
  | bare => exact hn.elim

theorem multiplyValues_error {left right s : Size} {A B : Dense α} {f : Failure}
    (hs : left.product? right = some s) (hA : A.size = left) (hB : B.size = right)
    (h : multiplyValues left right A B = .error f) :
    f = .arrayTooLarge ∧ Extent.fits s.height s.width = false := by
  unfold multiplyValues at h
  unfold Size.product? at hs
  split at h
  · cases h
  · next hl =>
    rw [if_neg hl] at hs
    split at h
    · cases h
    · next hr =>
      rw [if_neg hr] at hs
      split at h
      · cases h
      · next hf =>
        split at hs
        · obtain rfl := Option.some.inj hs
          refine ⟨(Except.error.inj h).symm, ?_⟩
          rw [rows_eq hA, cols_eq hB] at hf
          exact Bool.eq_false_iff.mpr hf
        · cases hs

theorem error_of_evaluate {n : Node α} {values : Assignment α} {f : Failure} (hn : n.Formed)
    (h : n.evaluate values = .error f) :
    (∃ u, unknown u ∈ n.preorder ∧ u.valueIn values = .error f) ∨ f = .arrayTooLarge ∧ ¬n.Fits := by
  have hbelow {c n : Node α} (hc : c ∈ n.children)
      (h : (∃ u, unknown u ∈ c.preorder ∧ u.valueIn values = .error f) ∨
        f = .arrayTooLarge ∧ ¬c.Fits) :
      (∃ u, unknown u ∈ n.preorder ∧ u.valueIn values = .error f) ∨
        f = .arrayTooLarge ∧ ¬n.Fits := by
    rcases h with ⟨u, hu, he⟩ | ⟨hf, hfit⟩
    · exact .inl ⟨u, mem_preorder_of_child hc hu, he⟩
    · exact .inr ⟨hf, fun hn => hfit (hn.child hc)⟩
  induction n with
  | constant c => cases h
  | unknown u => exact .inl ⟨u, self_mem_preorder _, h⟩
  | product tag l r hl hr =>
    obtain ⟨hp, hnl, hnr⟩ := hn
    rcases bind_eq_error h with h | ⟨A, hA, h⟩
    · exact hbelow (left_mem_children tag l r) (hl hnl h)
    · rcases bind_eq_error h with h | ⟨B, hB, h⟩
      · exact hbelow (right_mem_children tag l r) (hr hnr h)
      · obtain ⟨hf, hfit⟩ := multiplyValues_error hp (evaluate_size hnl hA) (evaluate_size hnr hB) h
        exact .inr ⟨hf, fun hn => Bool.eq_false_iff.mp hfit (hn _ (self_mem_preorder _))⟩
  | weighted tag c x hx =>
    rcases bind_eq_error h with h | ⟨A, hA, h⟩
    · exact hbelow (weighted_mem_children tag c x) (hx hn.2.2 h)
    · cases h
  | square tag x hx =>
    rcases bind_eq_error h with h | ⟨A, hA, h⟩
    · exact hbelow (square_mem_children tag x) (hx hn.2 h)
    · cases h
  | bare => exact hn.elim

theorem evaluate_error {n : Node α} {values : Assignment α} {f : Failure} (hn : n.Formed)
    (hs : n.Sized) (hv : n.Covered values) (h : n.evaluate values = .error f) :
    f = .arrayTooLarge ∧ ¬n.Fits := by
  rcases error_of_evaluate hn h with ⟨u, hu, he⟩ | h
  · obtain ⟨t, ht, hc⟩ := hv u hu
    rcases u.valueIn_of_given ht hc (hs _ hu) with ⟨-, A, hA, -⟩ | ⟨hf, he'⟩
    · rw [hA] at he
      cases he
    · rw [he'] at he
      exact ⟨(Except.error.inj he).symm, fun hn => Bool.eq_false_iff.mp hf (hn _ hu)⟩
  · exact h

theorem evaluate_forget (n : Node α) (values : Assignment α) :
    n.forget.evaluate values = n.evaluate values := by
  induction n with
  | constant c => rfl
  | unknown u => rfl
  | product tag l r hl hr => simp only [forget, evaluate, size_forget, hl, hr]
  | weighted tag c x hx => simp only [forget, evaluate, hx]
  | square tag x hx => simp only [forget, evaluate, hx]
  | bare tag kind arity args h => cases kind <;> rfl

theorem Alike.evaluate_eq {m n : Node α} (h : m.Alike n) (values : Assignment α) :
    m.evaluate values = n.evaluate values := by
  rw [← m.evaluate_forget, ← n.evaluate_forget, h]

theorem multiplyValues_isOk {left right : Size} {A A' B B' : Dense α} (hA : A.size = A'.size)
    (hB : B.size = B'.size) (h : ∃ C, multiplyValues left right A B = .ok C) :
    ∃ C, multiplyValues left right A' B' = .ok C := by
  unfold multiplyValues at h ⊢
  rw [rows_eq hA, cols_eq hB] at h
  split
  · exact ⟨_, rfl⟩
  · split
    · exact ⟨_, rfl⟩
    · split
      · exact ⟨_, rfl⟩
      · next hl hr hf =>
        obtain ⟨C, hC⟩ := h
        have hf' : ¬Extent.fits A'.size.height B'.size.width = true := hf
        rw [if_neg hl, if_neg hr, if_neg hf'] at hC
        cases hC

theorem evaluate_isOk {n : Node α} {p q : Assignment α} (hn : n.Formed) (hs : n.Sized)
    (hp : n.Covered p) (hq : n.Covered q) (h : ∃ A, n.evaluate p = .ok A) :
    ∃ B, n.evaluate q = .ok B := by
  induction n with
  | constant c => exact ⟨_, rfl⟩
  | unknown u =>
    obtain ⟨A, hA⟩ := h
    obtain ⟨s, hps, hcs⟩ := hp u (self_mem_preorder _)
    obtain ⟨t, hqt, hct⟩ := hq u (self_mem_preorder _)
    have hsize := hs _ (self_mem_preorder (unknown u))
    rcases u.valueIn_of_given hqt hct hsize with ⟨-, B, hB, -⟩ | ⟨hf, -⟩
    · exact ⟨B, hB⟩
    · rcases u.valueIn_of_given hps hcs hsize with ⟨hf', -⟩ | ⟨-, he⟩
      · exact absurd hf' (Bool.eq_false_iff.mp hf)
      · rw [show u.valueIn p = .ok A from hA] at he
        cases he
  | product tag l r hl hr =>
    have hlc := left_mem_children tag l r
    have hrc := right_mem_children tag l r
    obtain ⟨A, hA⟩ := h
    obtain ⟨L, hL, hA⟩ := bind_eq_ok hA
    obtain ⟨R, hR, hA⟩ := bind_eq_ok hA
    obtain ⟨L', hL'⟩ := hl hn.2.1 (hs.child hlc) (hp.child hlc) (hq.child hlc) ⟨L, hL⟩
    obtain ⟨R', hR'⟩ := hr hn.2.2 (hs.child hrc) (hp.child hrc) (hq.child hrc) ⟨R, hR⟩
    have hsl := (evaluate_size hn.2.1 hL).trans (evaluate_size hn.2.1 hL').symm
    have hsr := (evaluate_size hn.2.2 hR).trans (evaluate_size hn.2.2 hR').symm
    obtain ⟨B, hB⟩ := multiplyValues_isOk hsl hsr ⟨A, hA⟩
    refine ⟨B, ?_⟩
    rw [evaluate, hL', hR']
    exact hB
  | weighted tag c y hy =>
    have hyc := weighted_mem_children tag c y
    obtain ⟨A, hA⟩ := h
    obtain ⟨Y, hY, -⟩ := bind_eq_ok hA
    obtain ⟨Y', hY'⟩ := hy hn.2.2 (hs.child hyc) (hp.child hyc) (hq.child hyc) ⟨Y, hY⟩
    refine ⟨c.value.hadamard Y', ?_⟩
    rw [evaluate, hY']
    rfl
  | square tag y hy =>
    have hyc := square_mem_children tag y
    obtain ⟨A, hA⟩ := h
    obtain ⟨Y, hY, -⟩ := bind_eq_ok hA
    obtain ⟨Y', hY'⟩ := hy hn.2 (hs.child hyc) (hp.child hyc) (hq.child hyc) ⟨Y, hY⟩
    refine ⟨Y'.map fun a => a * a, ?_⟩
    rw [evaluate, hY']
    rfl
  | bare => exact hn.elim

end Node

end Sizes

section Values

variable [Field α]

def Assignment.entries (values : Assignment α) (u : Unknown) : Nat → Nat → α :=
  match u.valueIn values with
  | .ok A => A.entry
  | .error _ => fun _ _ => 0

theorem Assignment.entries_of_given {u : Unknown} {values : Assignment α} {t : Tensor α}
    (ht : values u.id = some (.ok t)) (hc : (t.entries.size : Int) = u.size.count)
    (hs : u.size.Nonneg) {i j : Nat} (hi : i < u.size.height) :
    values.entries u i j = if Extent.fits u.size.height u.size.width
      then t.columnMajor.getD (j * u.size.height + i) 0 else 0 := by
  rcases u.valueIn_of_given ht hc hs with ⟨hf, A, hA, hsize, hvec⟩ | ⟨hf, he⟩
  · rw [if_pos hf, entries, hA]
    have hr : A.rows = u.size.height := congrArg Size.height hsize
    change A.entry i j = _
    rw [← hvec, ← hr, A.getD_vec (hr ▸ hi)]
  · rw [if_neg (Bool.eq_false_iff.mp hf), entries, he]

namespace Node

open DisciplinedConvex.Dense

theorem multiplyValues_holds {left right s : Size} {A B C : Dense α} {f g : Nat → Nat → α}
    (hs : left.product? right = some s) (hA : A.Holds left f) (hB : B.Holds right g)
    (h : multiplyValues left right A B = .ok C) : C.Holds s (times left right f g) := by
  unfold multiplyValues at h
  unfold Size.product? at hs
  by_cases hl : left = .scalar
  · rw [if_pos hl] at h hs
    obtain rfl := Except.ok.inj h
    obtain rfl := Option.some.inj hs
    refine ⟨hB.size, fun i hi j hj => ?_⟩
    subst hl
    rw [entry_map _ _ (rows_eq hB.size ▸ hi) (cols_eq hB.size ▸ hj), times, if_pos rfl, item,
      hA.entry 0 Size.height_pos_scalar 0 Size.width_pos_scalar, hB.entry i hi j hj]
  · rw [if_neg hl] at h hs
    by_cases hr : right = .scalar
    · rw [if_pos hr] at h hs
      obtain rfl := Except.ok.inj h
      obtain rfl := Option.some.inj hs
      refine ⟨hA.size, fun i hi j hj => ?_⟩
      subst hr
      rw [entry_map _ _ (rows_eq hA.size ▸ hi) (cols_eq hA.size ▸ hj), times, if_neg hl, if_pos rfl,
        item, hB.entry 0 Size.height_pos_scalar 0 Size.width_pos_scalar, hA.entry i hi j hj]
    · rw [if_neg hr] at h hs
      split at h
      · split at hs
        · next hinner =>
          obtain rfl := Except.ok.inj h
          obtain rfl := Option.some.inj hs
          refine ⟨?_, fun i hi j hj => ?_⟩
          · rw [← hA.size, ← hB.size]
            rfl
          · have hw : left.width = right.height := congrArg Int.toNat hinner
            rw [entry_mul _ _ (rows_eq hA.size ▸ hi) (cols_eq hB.size ▸ hj), times, if_neg hl,
              if_neg hr, cols_eq hA.size]
            apply Finset.sum_congr rfl
            intro k hk
            have hk := Finset.mem_range.mp hk
            rw [hA.entry i hi k hk, hB.entry k (hw ▸ hk) j hj]
        · cases hs
      · cases h

theorem evaluate_holds {n : Node α} {values : Assignment α} {A : Dense α} (hn : n.Formed)
    (h : n.evaluate values = .ok A) : A.Holds n.size (n.entry values.entries plain) := by
  induction n generalizing A with
  | constant c =>
    obtain rfl := Except.ok.inj h
    exact ⟨rfl, fun _ _ _ _ => rfl⟩
  | unknown u =>
    have hv : u.valueIn values = .ok A := h
    refine ⟨Unknown.size_of_valueIn hv, fun i _ j _ => ?_⟩
    simp only [entry, Assignment.entries, hv]
  | product tag l r hl hr =>
    obtain ⟨hs, hnl, hnr⟩ := hn
    obtain ⟨B, hB, h⟩ := bind_eq_ok h
    obtain ⟨C, hC, h⟩ := bind_eq_ok h
    exact multiplyValues_holds hs (hl hnl hB) (hr hnr hC) h
  | weighted tag c x hx =>
    obtain ⟨hc, hs, hnx⟩ := hn
    obtain ⟨B, hB, h⟩ := bind_eq_ok h
    obtain rfl := Except.ok.inj h
    have hX := hx hnx hB
    refine ⟨hc.trans hs.symm, fun i hi j hj => ?_⟩
    have hs' : (weighted tag c x).size = x.size := hs
    rw [hs'] at hi hj
    rw [entry_hadamard _ _ (rows_eq hc ▸ hi) (cols_eq hc ▸ hj), hX.entry i hi j hj, entry]
  | square tag x hx =>
    obtain ⟨hs, hnx⟩ := hn
    obtain ⟨B, hB, h⟩ := bind_eq_ok h
    obtain rfl := Except.ok.inj h
    have hX := hx hnx hB
    refine ⟨hX.size.trans hs.symm, fun i hi j hj => ?_⟩
    have hs' : (square tag x).size = x.size := hs
    rw [hs'] at hi hj
    rw [entry_map _ _ (rows_eq hX.size ▸ hi) (cols_eq hX.size ▸ hj), hX.entry i hi j hj]
    rfl
  | bare => exact hn.elim

theorem times_eq_sum {left right s : Size} (hs : left.product? right = some s) {i j : Nat}
    (hi : i < s.height) (hj : j < s.width) : ∃ len : Nat, ∃ p q : Nat → Nat × Nat,
      (∀ k < len, (p k).1 < left.height ∧ (p k).2 < left.width ∧
        (q k).1 < right.height ∧ (q k).2 < right.width) ∧
      ∀ f g : Nat → Nat → α, times left right f g i j =
        ∑ k ∈ Finset.range len, f (p k).1 (p k).2 * g (q k).1 (q k).2 := by
  unfold Size.product? at hs
  by_cases hl : left = .scalar
  · rw [if_pos hl] at hs
    obtain rfl := Option.some.inj hs
    refine ⟨1, fun _ => (0, 0), fun _ => (i, j), fun _ _ => ?_, fun f g => ?_⟩
    · subst hl
      exact ⟨Size.height_pos_scalar, Size.width_pos_scalar, hi, hj⟩
    · rw [times, if_pos hl, Finset.sum_range_one]
  · rw [if_neg hl] at hs
    by_cases hr : right = .scalar
    · rw [if_pos hr] at hs
      obtain rfl := Option.some.inj hs
      refine ⟨1, fun _ => (i, j), fun _ => (0, 0), fun _ _ => ?_, fun f g => ?_⟩
      · subst hr
        exact ⟨hi, hj, Size.height_pos_scalar, Size.width_pos_scalar⟩
      · rw [times, if_neg hl, if_pos hr, Finset.sum_range_one]
    · rw [if_neg hr] at hs
      split at hs
      · next hinner =>
        obtain rfl := Option.some.inj hs
        have hw : left.width = right.height := congrArg Int.toNat hinner
        refine ⟨left.width, fun k => (i, k), fun k => (k, j), fun k hk => ?_, fun f g => ?_⟩
        · exact ⟨hi, hk, hw ▸ hk, hj⟩
        · rw [times, if_neg hl, if_neg hr]
      · cases hs

theorem times_comm {left right s : Size} (h : left = .scalar ∨ right = .scalar)
    (hs : left.product? right = some s) (f g : Nat → Nat → α) :
    ∀ i < s.height, ∀ j < s.width, times left right f g i j = times right left g f i j := by
  intro i hi j hj
  unfold Size.product? at hs
  unfold times
  by_cases hl : left = .scalar
  · rw [if_pos hl] at hs
    obtain rfl := Option.some.inj hs
    by_cases hr : right = .scalar
    · subst hr
      obtain rfl : i = 0 := Nat.lt_one_iff.mp hi
      obtain rfl : j = 0 := Nat.lt_one_iff.mp hj
      rw [if_pos hl, if_pos rfl, mul_comm]
    · rw [if_pos hl, if_neg hr, if_pos hl, mul_comm]
  · rw [if_neg hl, if_pos (h.resolve_left hl), if_pos (h.resolve_left hl), mul_comm]

theorem times_congr {left right s : Size} {f f' g g' : Nat → Nat → α}
    (hs : left.product? right = some s)
    (hf : ∀ i < left.height, ∀ j < left.width, f i j = f' i j)
    (hg : ∀ i < right.height, ∀ j < right.width, g i j = g' i j) :
    ∀ i < s.height, ∀ j < s.width, times left right f g i j = times left right f' g' i j := by
  intro i hi j hj
  obtain ⟨len, p, q, hpq, hsum⟩ := times_eq_sum (α := α) hs hi hj
  rw [hsum, hsum]
  apply Finset.sum_congr rfl
  intro k hk
  obtain ⟨hp1, hp2, hq1, hq2⟩ := hpq k (Finset.mem_range.mp hk)
  rw [hf _ hp1 _ hp2, hg _ hq1 _ hq2]

theorem entry_congr {n : Node α} {x x' : Unknown → Nat → Nat → α}
    {t t' : String → Option (Nat → Nat → α)} (hn : n.Formed)
    (hx : ∀ u, .unknown u ∈ n.preorder → ∀ i < u.size.height, ∀ j < u.size.width,
      x u i j = x' u i j)
    (ht : ∀ tag y, .square tag y ∈ n.preorder → t tag.id = t' tag.id ∨
      ∃ T, t tag.id = some T ∧ ∀ i < tag.size.height, ∀ j < tag.size.width,
        T i j = (square tag y).entry x' t' i j) :
    ∀ i < n.size.height, ∀ j < n.size.width, n.entry x t i j = n.entry x' t' i j := by
  induction n with
  | constant c => exact fun _ _ _ _ => rfl
  | unknown u => exact hx u (List.mem_singleton_self _)
  | product tag l r hl hr =>
    have hlc := left_mem_children tag l r
    have hrc := right_mem_children tag l r
    exact times_congr hn.1
      (hl hn.2.1 (fun u hu => hx u (mem_preorder_of_child hlc hu))
        fun tag y hy => ht tag y (mem_preorder_of_child hlc hy))
      (hr hn.2.2 (fun u hu => hx u (mem_preorder_of_child hrc hu))
        fun tag y hy => ht tag y (mem_preorder_of_child hrc hy))
  | weighted tag c y hy =>
    have hyc := weighted_mem_children tag c y
    have hs : (weighted tag c y).size = y.size := hn.2.1
    have heq := hy hn.2.2 (fun u hu => hx u (mem_preorder_of_child hyc hu))
      fun tag z hz => ht tag z (mem_preorder_of_child hyc hz)
    intro i hi j hj
    rw [hs] at hi hj
    simp only [entry, heq i hi j hj]
  | square tag y hy =>
    have hyc := square_mem_children tag y
    have hs : tag.size = y.size := hn.1
    have heq := hy hn.2 (fun u hu => hx u (mem_preorder_of_child hyc hu))
      fun tag z hz => ht tag z (mem_preorder_of_child hyc hz)
    intro i hi j hj
    rcases ht tag y (self_mem_preorder _) with h | ⟨T, hT, h⟩
    · have hi' : i < y.size.height := hs ▸ hi
      have hj' : j < y.size.width := hs ▸ hj
      simp only [entry, h]
      cases t' tag.id with
      | some T => rfl
      | none => simp only [heq i hi' j hj']
    · rw [← h i hi j hj]
      simp only [entry, hT]
  | bare => exact hn.elim

theorem entry_forget (n : Node α) (x : Unknown → Nat → Nat → α)
    (t : String → Option (Nat → Nat → α)) : n.forget.entry x t = n.entry x t := by
  induction n with
  | constant c => rfl
  | unknown u => rfl
  | product tag l r hl hr => simp only [forget, entry, size_forget, hl, hr]
  | weighted tag c y hy => simp only [forget, entry, hy]
  | square tag y hy => simp only [forget, entry, hy]
  | bare tag kind arity args h => rfl

theorem Alike.entry_eq {m n : Node α} (h : m.Alike n) (x : Unknown → Nat → Nat → α)
    (t : String → Option (Nat → Nat → α)) : m.entry x t = n.entry x t := by
  rw [← m.entry_forget, ← n.entry_forget, h]

end Node

end Values

end DisciplinedConvex
