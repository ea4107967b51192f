import DisciplinedConvex.Form.Operator
import DisciplinedConvex.Proofs.Exact
import DisciplinedConvex.Proofs.Meaning
import Mathlib.Algebra.BigOperators.Ring.Finset
import Mathlib.Tactic.Ring

namespace DisciplinedConvex

variable {α : Type} [Field α]

namespace Coefficients

def against (xs : Coefficients α) (f : Nat → α) : α := (xs.map fun e => e.2 * f e.1).sum

@[simp] theorem against_nil (f : Nat → α) : against [] f = 0 := rfl

@[simp] theorem against_cons (k : Nat) (a : α) (xs : Coefficients α) (f : Nat → α) :
    against ((k, a) :: xs) f = a * f k + against xs f := by
  simp [against]

theorem against_append (xs ys : Coefficients α) (f : Nat → α) :
    against (xs ++ ys) f = against xs f + against ys f := by
  simp [against]

theorem dot_eq_against (xs : Coefficients α) (z : Array α) :
    xs.dot z = xs.against fun k => z.getD k 0 := by
  have hfold (ys : Coefficients α) (a : α) :
      ys.foldl (fun sum e => sum + e.2 * z.getD e.1 0) a = a + ys.against fun k => z.getD k 0 := by
    induction ys generalizing a with
    | nil => simp
    | cons e ys ih =>
      rw [List.foldl_cons, ih, against_cons, add_assoc]
  exact (hfold xs 0).trans (zero_add _)

theorem against_addMultiple (w : α) (xs ys : Coefficients α) (f : Nat → α) :
    (addMultiple w xs ys).against f = xs.against f + w * ys.against f := by
  fun_induction addMultiple w xs ys with
  | case1 xs => simp
  | case2 j b ys ih =>
    rw [against_cons, ih, against_cons, against_nil]
    ring
  | case3 i a xs j b ys _ ih =>
    rw [against_cons, ih, against_cons, against_cons]
    ring
  | case4 i a xs j b ys _ _ ih =>
    rw [against_cons, ih, against_cons, against_cons]
    ring
  | case5 i a xs j b ys hij hji ih =>
    obtain rfl : i = j := by omega
    rw [against_cons, ih, against_cons, against_cons]
    ring

theorem against_map (xs : Coefficients α) (g : α → α) (f : Nat → α) (c : α)
    (hg : ∀ a, g a = c * a) : against (xs.map fun (k, a) => (k, g a)) f = c * xs.against f := by
  induction xs with
  | nil => simp
  | cons e xs ih =>
    rw [List.map_cons, against_cons, ih, against_cons, hg]
    ring

theorem against_prune [LinearOrder α] [Scalar α] [ExactScalar α] (xs : Coefficients α)
    (f : Nat → α) : xs.prune.against f = xs.against f := by
  induction xs with
  | nil => rfl
  | cons e xs ih =>
    obtain ⟨k, a⟩ := e
    by_cases h : Scalar.isZero a = true
    · have h0 := (ExactScalar.isZero_iff a).mp h
      rw [prune, List.filter_cons_of_neg (by simp [h]), ← prune, ih, against_cons, h0, zero_mul,
        zero_add]
    · rw [prune, List.filter_cons_of_pos (by simp [h]), ← prune, against_cons, ih, against_cons]

theorem against_flatMap (n : Nat) (g : Nat → Coefficients α) (f : Nat → α) :
    against ((List.range n).flatMap g) f = ∑ k ∈ Finset.range n, (g k).against f := by
  induction n with
  | zero => rfl
  | succ n ih =>
    rw [List.range_succ, List.flatMap_append, against_append, ih, Finset.sum_range_succ,
      List.flatMap_singleton]

theorem against_filterMap (n : Nat) (skip : Nat → Bool) (col : Nat → Nat) (a : Nat → α)
    (hskip : ∀ k < n, skip k = true → a k = 0) (f : Nat → α) :
    against ((List.range n).filterMap fun k => if skip k then none else some (col k, a k)) f =
      ∑ k ∈ Finset.range n, a k * f (col k) := by
  rw [List.filterMap_eq_flatMap_toList, against_flatMap]
  apply Finset.sum_congr rfl
  intro k hk
  by_cases h : skip k = true
  · simp [h, hskip k (Finset.mem_range.mp hk) h]
  · simp [h]

theorem against_indicator (n : Nat) {i : Nat} (hi : i < n) (col : Nat → Nat) (b : α)
    (f : Nat → α) :
    against ((List.range n).map fun k => (col k, if k = i then b else b * 0)) f = b * f (col i) := by
  rw [List.map_eq_flatMap, against_flatMap, Finset.sum_eq_single i]
  · simp
  · intro k _ hk
    simp [hk]
  · intro h
    exact absurd (Finset.mem_range.mpr hi) h

end Coefficients

namespace AffineRow

theorem value_eq (row : AffineRow α) (z : Array α) :
    row.value z = row.coefficients.against (fun k => z.getD k 0) + row.offset := by
  rw [value, Coefficients.dot_eq_against]

@[simp] theorem value_constant (a : α) (z : Array α) : (constant a).value z = a := by
  simp [value_eq, constant]

@[simp] theorem value_column (k : Nat) (z : Array α) :
    (column k : AffineRow α).value z = z.getD k 0 := by
  simp [value_eq, column]

theorem value_scale (row : AffineRow α) (w : α) (z : Array α) :
    (row.scale w).value z = row.value z * w := by
  rw [value_eq, value_eq, scale, Coefficients.against_map _ _ _ w fun a => mul_comm a w]
  ring

theorem value_addMultiple (w : α) (acc row : AffineRow α) (z : Array α) :
    (acc.addMultiple w row).value z = acc.value z + w * row.value z := by
  rw [value_eq, value_eq, value_eq, addMultiple, Coefficients.against_addMultiple]
  ring

theorem value_prune [LinearOrder α] [Scalar α] [ExactScalar α] (row : AffineRow α) (z : Array α) :
    row.prune.value z = row.value z := by
  rw [value_eq, value_eq, prune, Coefficients.against_prune]

theorem value_multiple [LinearOrder α] [Scalar α] [ExactScalar α] (w : α) (row : AffineRow α)
    (z : Array α) :
    (⟨Coefficients.prune (((if Scalar.isZero w then [] else row.coefficients) :
        Coefficients α).map fun (k, a) => (k, w * a)), w * row.offset⟩ : AffineRow α).value z =
      w * row.value z := by
  rw [value_eq, value_eq, Coefficients.against_prune,
    Coefficients.against_map _ _ _ w fun a => rfl]
  by_cases hw : Scalar.isZero w = true
  · rw [if_pos hw, (ExactScalar.isZero_iff w).mp hw]
    ring
  · rw [if_neg hw]
    ring

end AffineRow

namespace Form

/-- The rows of a form at a stacked vector are the entries of a matrix of the given size, column by
column. -/
structure Computes (F : Form α) (z : Array α) (s : Size) (f : Nat → Nat → α) : Prop where
  size : F.rows.size = s.height * s.width
  value : ∀ i < s.height, ∀ j < s.width,
    (F.rows.getD (j * s.height + i) (.constant 0)).value z = f i j

theorem Computes.congr {F : Form α} {z : Array α} {s : Size} {f g : Nat → Nat → α}
    (h : F.Computes z s f) (hfg : ∀ i < s.height, ∀ j < s.width, f i j = g i j) :
    F.Computes z s g where
  size := h.size
  value i hi j hj := (h.value i hi j hj).trans (hfg i hi j hj)

theorem Computes.widen {F G : Form α} {z : Array α} {s : Size} {f : Nat → Nat → α} {n : Int}
    (h : F.Computes z s f) (hG : F.withColumns n = .ok G) : G.Computes z s f where
  size := by rw [rows_of_withColumns hG, h.size]
  value := by rw [rows_of_withColumns hG]; exact h.value

theorem Computes.apply_ok {F : Form α} {z : Array α} {s : Size} {f : Nat → Nat → α}
    (h : F.Computes z s f) (hz : F.cols ≤ z.size) :
    ∃ xs, F.apply z = .ok xs ∧ xs.size = s.height * s.width ∧
      ∀ i < s.height, ∀ j < s.width, xs.getD (j * s.height + i) 0 = f i j := by
  have happly : F.apply z = .ok (F.rows.map (·.value z)) := by
    rw [apply, if_neg (Nat.not_lt.mpr hz)]
  refine ⟨_, happly, by rw [Array.size_map, h.size], fun i hi j hj => ?_⟩
  have hk : j * s.height + i < F.rows.size := h.size ▸ Dense.index_lt hi hj
  rw [← h.value i hi j hj]
  simp [hk]

theorem Computes.apply_eq {F : Form α} {z : Array α} {s : Size} {f : Nat → Nat → α} {A : Dense α}
    (h : F.Computes z s f) (hz : F.cols ≤ z.size) (hA : A.Holds s f) : F.apply z = .ok A.vec := by
  have hr := Dense.rows_eq hA.size
  have hc := Dense.cols_eq hA.size
  obtain ⟨xs, hxs, hsize, hentry⟩ := h.apply_ok hz
  rw [hxs, A.vec_eq_of_entry xs (by rw [hsize, hr, hc]) fun i hi j hj => ?_]
  rw [hA.entry i (hr ▸ hi) j (hc ▸ hj), ← hentry i (hr ▸ hi) j (hc ▸ hj), hr]

theorem getD_map (F : AffineRow α → AffineRow α) (rows : Array (AffineRow α)) {k : Nat}
    (hk : k < rows.size) :
    (rows.map F).getD k (.constant 0) = F (rows.getD k (.constant 0)) := by
  simp [hk]

theorem computes_constant {A : Dense α} {s : Size} (hA : A.size = s) (cols : Nat) (z : Array α) :
    (constant A.vec cols).Computes z s A.entry := by
  have hr := Dense.rows_eq hA
  have hc := Dense.cols_eq hA
  refine ⟨by rw [constant, Array.size_map, A.size_vec, hr, hc], fun i hi j hj => ?_⟩
  have hk : j * A.rows + i < A.vec.size := by
    rw [A.size_vec]
    exact Dense.index_lt (hr ▸ hi) (hc ▸ hj)
  rw [← hr, ← A.getD_vec (hr ▸ hi)]
  simp [constant, hk]

theorem Computes.scale {F : Form α} {z : Array α} {s : Size} {f : Nat → Nat → α}
    (h : F.Computes z s f) (w : α) : (F.scale w).Computes z s fun i j => f i j * w where
  size := by rw [Form.scale, Array.size_map, h.size]
  value i hi j hj := by
    have hk : j * s.height + i < F.rows.size := h.size ▸ Dense.index_lt hi hj
    rw [Form.scale, getD_map _ _ hk, AffineRow.value_scale, h.value i hi j hj]

variable [LinearOrder α] [Scalar α] [ExactScalar α]

theorem Computes.broadcast {F : Form α} {z : Array α} {s : Size} {f : Nat → Nat → α} {A : Dense α}
    {row : AffineRow α} (h : F.Computes z .scalar f) (hrow : F.rows.toList = [row])
    (hA : A.size = s) (cols : Nat) :
    (Form.broadcast cols row A.vec).Computes z s fun i j => A.entry i j * f 0 0 := by
  have hr := Dense.rows_eq hA
  have hc := Dense.cols_eq hA
  have hvalue : row.value z = f 0 0 := by
    rw [← h.value 0 Size.height_pos_scalar 0 Size.width_pos_scalar]
    have hrows : F.rows = #[row] := Array.toList_inj.mp hrow
    rw [hrows]
    rfl
  refine ⟨by rw [Form.broadcast, Array.size_map, A.size_vec, hr, hc], fun i hi j hj => ?_⟩
  have hk : j * A.rows + i < A.vec.size := by
    rw [A.size_vec]
    exact Dense.index_lt (hr ▸ hi) (hc ▸ hj)
  have hentry : A.entry i j = A.vec[j * A.rows + i] := by
    rw [← A.getD_vec (hr ▸ hi)]
    simp [hk]
  rw [← hr, ← hvalue, hentry, ← AffineRow.value_multiple]
  simp [Form.broadcast, hk]

theorem value_combine (rows : Array (AffineRow α)) (ws : Coefficients α) (z : Array α) :
    (combine rows ws).value z = ws.against fun j => (rows.getD j (.constant 0)).value z := by
  have hfold (acc : AffineRow α) :
      (ws.foldl (fun (acc : AffineRow α) (j, w) => acc.addMultiple w (rows.getD j (.constant 0)))
        acc).value z = acc.value z + ws.against fun j => (rows.getD j (.constant 0)).value z := by
    induction ws generalizing acc with
    | nil => simp
    | cons e ws ih =>
      rw [List.foldl_cons, ih, AffineRow.value_addMultiple, Coefficients.against_cons]
      ring
  rw [combine, AffineRow.value_prune, hfold, AffineRow.value_constant, zero_add]

theorem computes_premultiply {P : Operator α} {F G : Form α} {z : Array α} {s : Size}
    {f : Nat → Nat → α} (h : F.premultiply P = .ok G) (hs : P.rows.size = s.height * s.width)
    (hf : ∀ i < s.height, ∀ j < s.width, (P.rows.getD (j * s.height + i) []).against
      (fun k => (F.rows.getD k (.constant 0)).value z) = f i j) : G.Computes z s f := by
  unfold premultiply at h
  split at h
  · obtain rfl := Except.ok.inj h
    refine ⟨by rw [Array.size_map, hs], fun i hi j hj => ?_⟩
    have hk : j * s.height + i < P.rows.size := hs ▸ Dense.index_lt hi hj
    rw [← hf i hi j hj]
    simp only [Array.getD_eq_getD_getElem?, Array.getElem?_map, Array.getElem?_eq_getElem hk,
      Option.map_some, Option.getD_some]
    rw [value_combine]
    simp only [Array.getD_eq_getD_getElem?]
  · cases h

omit [LinearOrder α] [Scalar α] [ExactScalar α] in
theorem getD_ofFn {β : Type} {n : Nat} (g : Fin n → β) {k : Nat} (hk : k < n) (d : β) :
    (Array.ofFn g).getD k d = g ⟨k, hk⟩ := by
  simp [hk]

omit [Field α] [LinearOrder α] [Scalar α] [ExactScalar α] in
theorem index_mod {r i : Nat} (hi : i < r) (j : Nat) : (j * r + i) % r = i := by
  rw [Nat.add_comm, Nat.add_mul_mod_self_right, Nat.mod_eq_of_lt hi]

omit [Field α] [LinearOrder α] [Scalar α] [ExactScalar α] in
theorem index_div {r i : Nat} (hi : i < r) (j : Nat) : (j * r + i) / r = j := by
  rw [Nat.add_comm, Nat.add_mul_div_right _ _ (Nat.zero_lt_of_lt hi), Nat.div_eq_of_lt hi,
    Nat.zero_add]

theorem Computes.onColumns {F G : Form α} {z : Array α} {r s : Size} {f : Nat → Nat → α}
    {A : Dense α} (hF : F.Computes z r f) (hA : A.cols = r.height) (hs : A.rows = s.height)
    (hr : s.width = r.width) (h : F.premultiply (.onColumns s.width A) = .ok G) :
    G.Computes z s fun i j => ∑ k ∈ Finset.range A.cols, A.entry i k * f k j := by
  refine computes_premultiply h (by simp [Operator.onColumns, hs, Nat.mul_comm])
    fun i hi j hj => ?_
  have hp : j * s.height + i < s.width * A.rows := by
    rw [hs, Nat.mul_comm s.width]
    exact Dense.index_lt hi hj
  have hmod : (j * s.height + i) % A.rows = i := hs ▸ index_mod hi j
  have hdiv : (j * s.height + i) / A.rows = j := hs ▸ index_div hi j
  rw [Operator.onColumns, getD_ofFn _ hp]
  simp only [hmod, hdiv]
  rw [Coefficients.against_filterMap _ (fun l => !Operator.isDense A && Scalar.isZero (A.entry i l))
    (fun l => j * A.cols + l) (A.entry i)]
  · apply Finset.sum_congr rfl
    intro k hk
    have hk := Finset.mem_range.mp hk
    rw [hA, hF.value k (hA ▸ hk) j (hr ▸ hj)]
  · intro k _ hk
    exact (ExactScalar.isZero_iff _).mp (Bool.and_eq_true_iff.mp hk).2

theorem Computes.onRows {F G : Form α} {z : Array α} {l s : Size} {f : Nat → Nat → α}
    {B : Dense α} (hF : F.Computes z l f) (hB : B.rows = l.width) (hs : B.cols = s.width)
    (hl : s.height = l.height) (h : F.premultiply (.onRows s.height B) = .ok G) :
    G.Computes z s fun i j => ∑ k ∈ Finset.range B.rows, f i k * B.entry k j := by
  apply computes_premultiply h (by simp [Operator.onRows, hs, Nat.mul_comm])
  intro i hi j hj
  have hp : j * s.height + i < B.cols * s.height := by
    rw [hs, Nat.mul_comm s.width]
    exact Dense.index_lt hi hj
  rw [Operator.onRows, getD_ofFn _ hp]
  simp only [index_mod hi j, index_div hi j]
  rw [Coefficients.against_flatMap]
  apply Finset.sum_congr rfl
  intro k hk
  have hk := Finset.mem_range.mp hk
  have hvalue := hF.value i (hl ▸ hi) k (hB ▸ hk)
  rw [← hl] at hvalue
  rw [← hvalue]
  by_cases hz : Scalar.isZero (B.entry k j) = true
  · rw [if_pos hz, (ExactScalar.isZero_iff _).mp hz, mul_zero, Coefficients.against_nil]
  · rw [if_neg hz]
    by_cases hn : s.height ≤ 2
    · rw [if_pos hn, Coefficients.against_indicator s.height hi (fun i => k * s.height + i),
        mul_comm]
    · rw [if_neg hn, Coefficients.against_cons, Coefficients.against_nil]
      ring

theorem Computes.diagonal {F G : Form α} {z : Array α} {s : Size} {f : Nat → Nat → α}
    {A : Dense α} (hF : F.Computes z s f) (hA : A.size = s)
    (h : F.premultiply (.diagonal A.vec) = .ok G) :
    G.Computes z s fun i j => A.entry i j * f i j := by
  have hr := Dense.rows_eq hA
  have hc := Dense.cols_eq hA
  refine computes_premultiply h (by simp [Operator.diagonal, A.size_vec, hr, hc])
    fun i hi j hj => ?_
  have hp : j * s.height + i < A.vec.size := by
    rw [A.size_vec, hr, hc]
    exact Dense.index_lt hi hj
  have hentry : A.entry i j = A.vec[j * s.height + i] := by
    rw [← A.getD_vec (hr ▸ hi), hr]
    simp [hp]
  rw [Operator.diagonal, getD_ofFn _ hp, ← hF.value i hi j hj, hentry]
  by_cases hz : Scalar.isZero A.vec[j * s.height + i] = true
  · simp only [Fin.getElem_fin, hz, if_true, Coefficients.against_nil]
    rw [(ExactScalar.isZero_iff _).mp hz, zero_mul]
  · simp [hz]

end Form

end DisciplinedConvex
