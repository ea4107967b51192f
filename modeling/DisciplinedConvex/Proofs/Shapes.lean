import DisciplinedConvex.Proofs.Attempts
import DisciplinedConvex.Proofs.Constancy

open DisciplinedConvex.Task

namespace DisciplinedConvex

namespace Extent

theorem vector_error {n : Int} {f : Failure} (h : vector n = .error f) (h0 : 0 ≤ n) :
    f = .arrayTooLarge ∧ entryLimit ≤ n.toNat := by
  rw [vector, if_neg (not_lt.mpr h0), fits_one] at h
  split at h
  · cases h
  · next hlt => exact ⟨(Except.error.inj h).symm, not_lt.mp (by simpa using hlt)⟩

theorem columns_error {n : Int} {f : Failure} (h : columns n = .error f) (h0 : 0 ≤ n) :
    f = .numberTooLarge ∧ (columnLimit : Int) ≤ n := by
  rw [columns, if_neg (not_lt.mpr h0)] at h
  split at h
  · next hle => exact ⟨(Except.error.inj h).symm, by omega⟩
  · cases h

theorem order_error {n : Int} {f : Failure} (h : order n = .error f) (h0 : 0 ≤ n) :
    f = .arrayTooLarge ∧ entryLimit ≤ n.toNat := by
  rw [order, if_neg (by omega)] at h
  exact vector_error h h0

theorem lt_of_fits {r c : Nat} (h : fits r c = true) :
    r * c < entryLimit ∧ r < entryLimit ∧ c < entryLimit := by
  have hle (d : Nat) : d ≤ reckoned d ∧ 1 ≤ reckoned d := by
    unfold reckoned
    split <;> omega
  have hlt : reckoned r * reckoned c < entryLimit := of_decide_eq_true h
  refine ⟨?_, ?_, ?_⟩
  · exact Nat.lt_of_le_of_lt (Nat.mul_le_mul (hle r).1 (hle c).1) hlt
  · exact Nat.lt_of_le_of_lt (Nat.le_trans (hle r).1 (Nat.le_mul_of_pos_right _ (hle c).2)) hlt
  · exact Nat.lt_of_le_of_lt (Nat.le_trans (hle c).1 (Nat.le_mul_of_pos_left _ (hle r).2)) hlt

end Extent

variable {α : Type}

structure Form.Fills (F : Form α) (s : Size) (bound : Int) : Prop where
  rows : F.rows.size = s.height * s.width
  cols : (F.cols : Int) ≤ bound

variable [Zero α]

def Slot.columns [One α] (slot : Slot) : Array (AffineRow α) :=
  Array.ofFn fun i : Fin slot.length => .column (slot.start.toNat + i)

namespace Compilation

variable {s t : Compilation α} {ns : List (Node α)} {n x : Node α} {size : Size}
variable {E : Failure → Prop}
variable [Scalar α]

section Tries

variable (h0 : 0 ≤ s.layout.size)
  (hcols : (Extent.columnLimit : Int) ≤ s.layout.size → E .numberTooLarge)

include h0 hcols

theorem tries_columns : Tries ns s (width (α := α)) (fun k => (k : Int) = s.layout.size) E := by
  refine (tries_width fun f hf => ?_).imp fun k hk => ?_
  · obtain ⟨rfl, hle⟩ := Extent.columns_error hf h0
    exact hcols hle
  · exact ((Extent.columns_eq_ok_iff _ _).mp hk).1.symm

theorem tries_lowerConstant_fills {A : Dense α} (hA : A.size = size) :
    Tries ns s (lowerConstant A) (·.Fills size s.layout.size) E := by
  refine (tries_columns h0 hcols).bind fun k hk => tries_pure ⟨?_, hk.le⟩
  rw [Form.constant, Array.size_map, A.size_vec, Dense.rows_eq hA, Dense.cols_eq hA]

variable [One α]

omit hcols in
theorem tries_slotColumns {u : Unknown} {slot : Slot} (hu : u.size.Nonneg)
    (hslot : s.layout.find? u.id = some slot) (hholder : slot.holder = .unknown u)
    (hstart : 0 ≤ slot.start) (hstop : slot.stop ≤ s.layout.size) :
    Tries ns s (slotColumns (α := α) u)
      (fun F => F.rows = slot.columns ∧ (F.cols : Int) = s.layout.size ∧
        slot.length < Extent.entryLimit ∧ F.cols < Extent.columnLimit)
      fun f => f = .arrayTooLarge ∧ Extent.entryLimit ≤ slot.length ∨
        f = .numberTooLarge ∧ (Extent.columnLimit : Int) ≤ s.layout.size := by
  have hlength : (slot.length : Int) = u.size.count := by
    rw [slot.length_eq, hholder]
    exact Int.toNat_of_nonneg (hu.count_eq ▸ Int.natCast_nonneg _)
  have hvector (f : Failure) (hf : Extent.vector slot.length = .error f) :
      f = .arrayTooLarge ∧ Extent.entryLimit ≤ slot.length := by
    have hlarge := Extent.vector_error hf (Int.natCast_nonneg _)
    rwa [Int.toNat_natCast] at hlarge
  refine tries_get.bind fun t ht => (tries_lift _ ?_).bind fun slot' hslot' => ?_
  · intro f hf
    rw [Layout.slotOf, ht.1, Holder.id, hslot] at hf
    cases hf
  rw [Layout.slotOf, ht.1, Holder.id, hslot] at hslot'
  obtain rfl := Except.ok.inj hslot'
  rw [← hlength]
  refine (tries_lift _ fun f hf => .inl (hvector f hf)).bind fun n hn =>
    (tries_lift _ fun f hf => .inl (hvector f hf)).bind fun length hlen => (tries_width fun f hf =>
    .inr (Extent.columns_error hf h0)).bind fun cols hk => ?_
  obtain ⟨hn, hlimit⟩ := (Extent.vector_eq_ok_iff _ _).mp hn
  obtain ⟨hk, hcols⟩ := (Extent.columns_eq_ok_iff _ _).mp hk
  have hlen := ((Extent.vector_eq_ok_iff _ _).mp hlen).1
  obtain rfl : slot.length = n := Int.ofNat.inj hn
  refine tries_guard (fun _ => tries_guard (fun _ => tries_guard (fun _ => tries_pure ?_) ?_) ?_) ?_
  · exact ⟨rfl, hk.symm, hlimit, hcols⟩
  · omega
  · omega
  · intro haddress
    simp only [Extent.addressable, Bool.not_eq_true', decide_eq_false_iff_not] at haddress
    omega

theorem tries_slotColumns_fills {u : Unknown} {slot : Slot} (hu : u.size.Nonneg)
    (hslot : s.layout.find? u.id = some slot) (hholder : slot.holder = .unknown u)
    (hstart : 0 ≤ slot.start) (hstop : slot.stop ≤ s.layout.size)
    (harray : Extent.fits u.size.height u.size.width = false → E .arrayTooLarge) :
    Tries ns s (slotColumns (α := α) u) (·.Fills u.size s.layout.size) E := by
  have hlength : slot.length = u.size.height * u.size.width := by
    rw [slot.length_eq, hholder]
    exact congrArg Int.toNat hu.count_eq
  refine (tries_slotColumns h0 hu hslot hholder hstart hstop).imp
    (fun F hF => ⟨?_, hF.2.1.le⟩) fun f hf => ?_
  · rw [hF.1, Slot.columns, Array.size_ofFn, hlength]
  · rcases hf with ⟨rfl, hle⟩ | ⟨rfl, hle⟩
    · refine harray (Bool.eq_false_iff.mpr fun hfits => ?_)
      have := (Extent.lt_of_fits hfits).1
      omega
    · exact hcols hle

end Tries

variable [Add α] [Mul α]

theorem tries_multiple_fills {c y : Node α} {find : Task (Compilation α) (Form α)}
    (hone : c.size = .scalar ∨ y.size = .scalar) (hs : c.size.product? y.size = some size)
    (hc : c.Formed) (hconst : ∀ f, c.constantValue = .error f → E f)
    (hfind : Tries ns s find (·.Fills y.size s.layout.size) E) :
    Tries ns s (multiple c find) (·.Fills size s.layout.size) E := by
  refine hfind.bind fun F hF => (tries_lift _ hconst).bind fun A hA => ?_
  have hsize := Node.evaluate_size hc hA
  unfold Size.product? at hs
  by_cases hcs : c.size = .scalar
  · rw [if_pos hcs] at hs ⊢
    obtain rfl := Option.some.inj hs
    exact tries_pure ⟨by rw [Form.scale, Array.size_map, hF.rows], hF.cols⟩
  · have hys := hone.resolve_left hcs
    rw [if_neg hcs, if_pos hys] at hs
    obtain rfl := Option.some.inj hs
    rw [if_neg hcs]
    split
    · refine tries_pure ⟨?_, hF.cols⟩
      rw [Form.broadcast, Array.size_map, A.size_vec, Dense.rows_eq hsize, Dense.cols_eq hsize]
    · next hrows =>
      have hlength : F.rows.toList.length = 1 := by
        rw [Array.length_toList, hF.rows, hys]
        rfl
      obtain ⟨row, hrow⟩ := List.length_eq_one_iff.mp hlength
      exact absurd hrow (hrows row)

theorem tries_premultiply_fills {P : Operator α} {F : Form α} {inner : Size} {bound : Int}
    (hF : F.Fills inner bound) (hinputs : P.inputs = inner.height * inner.width)
    (hrows : P.rows.size = size.height * size.width) :
    Tries ns s (liftM (F.premultiply P)) (·.Fills size bound) E := by
  have hfit : F.premultiply P = .ok ⟨F.cols, P.rows.map (Form.combine F.rows)⟩ := by
    rw [Form.premultiply, if_pos (hinputs.trans hF.rows.symm)]
  refine (tries_lift _ fun f hf => ?_).imp fun G hG => ?_
  · rw [hfit] at hf
    cases hf
  · rw [hfit] at hG
    rw [← Except.ok.inj hG]
    exact ⟨by rw [Array.size_map, hrows], hF.cols⟩

theorem tries_lowerProduct_fills {l r : Node α} {left right : Task (Compilation α) (Form α)}
    (hl : l ∈ s.nodes ns) (hr : r ∈ s.nodes ns) (hs : l.size.product? r.size = some size)
    (hlf : l.Formed) (hrf : r.Formed) (hnonneg : size.Nonneg)
    (hlc : l.vexity = .constant → ∀ f, l.constantValue = .error f → E f)
    (hrc : r.vexity = .constant → ∀ f, r.constantValue = .error f → E f)
    (hlk : s.workspace.verdicts.known l.ref = false → E .unaskedChild)
    (hrk : s.workspace.verdicts.known r.ref = false → E .unaskedChild)
    (harray : Extent.fits size.height size.width = false → E .arrayTooLarge)
    (hproduct : l.vexity ≠ .constant → r.vexity ≠ .constant → E .nonconstantProduct)
    (hleft : Tries ns s left (·.Fills l.size s.layout.size) E)
    (hright : Tries ns s right (·.Fills r.size s.layout.size) E) :
    Tries ns s (lowerProduct size l r left right)
      (fun F => (l.vexity = .constant ∨ r.vexity = .constant) ∧ F.Fills size s.layout.size) E := by
  have horder {d : Nat} {n : Int} (hn : n = d) (hd : Extent.entryLimit ≤ d →
      Extent.fits size.height size.width = false) {f : Failure} (hf : Extent.order n = .error f) :
      E f := by
    obtain ⟨rfl, hle⟩ := Extent.order_error hf (by omega)
    exact harray (hd (by omega))
  unfold lowerProduct
  by_cases hone : l.size = .scalar ∨ r.size = .scalar
  · rw [if_pos hone]
    refine (tries_isConstant hl hlk).bind fun b hb => ?_
    by_cases hb' : b = true
    · rw [if_pos hb']
      exact (tries_multiple_fills hone hs hlf (hlc (hb.mp hb')) hright).imp fun F hF =>
        ⟨.inl (hb.mp hb'), hF⟩
    · rw [if_neg hb']
      refine (tries_isConstant hr hrk).bind fun d hd => ?_
      by_cases hd' : d = true
      · rw [if_pos hd']
        exact (tries_multiple_fills hone.symm ((Size.product?_comm hone).symm.trans hs) hrf
          (hrc (hd.mp hd')) hleft).imp fun F hF => ⟨.inr (hd.mp hd'), hF⟩
      · rw [if_neg hd']
        exact tries_throw _ (hproduct (fun h => hb' (hb.mpr h)) fun h => hd' (hd.mpr h))
  · rw [if_neg hone]
    obtain ⟨hls, hrs⟩ := not_or.mp hone
    obtain ⟨hinner, hsize⟩ := Size.product?_of_ne_scalar hls hrs hs
    have hw : l.size.width = r.size.height := congrArg Int.toNat hinner
    have hheight : size.height = l.size.height := by rw [hsize]; rfl
    have hwidth : size.width = r.size.width := by rw [hsize]; rfl
    refine (tries_isConstant hl hlk).bind fun b hb => ?_
    by_cases hb' : b = true
    · rw [if_pos hb']
      refine hright.bind fun F hF => (tries_lift _ fun f hf => ?_).bind fun n hn =>
        (tries_lift _ (hlc (hb.mp hb'))).bind fun A hA => ?_
      · exact horder (Int.toNat_of_nonneg hnonneg.2).symm (fun h => Bool.eq_false_iff.mpr fun hfits =>
          absurd (Extent.lt_of_fits hfits).2.2 (not_lt.mpr h)) hf
      · have hA := Node.evaluate_size hlf hA
        have hn : n = size.width := (congrArg Int.toNat (Extent.eq_of_order hn)).symm
        refine (tries_premultiply_fills hF ?_ ?_).imp fun G hG => ⟨.inl (hb.mp hb'), hG⟩
        · simp only [Operator.onColumns, Dense.cols_eq hA, hn, hw, hwidth, Nat.mul_comm]
        · simp only [Operator.onColumns, Array.size_ofFn, Dense.rows_eq hA, hn, hheight, Nat.mul_comm]
    · rw [if_neg hb']
      refine (tries_isConstant hr hrk).bind fun d hd => ?_
      by_cases hd' : d = true
      · rw [if_pos hd']
        refine hleft.bind fun F hF => (tries_lift _ (hrc (hd.mp hd'))).bind fun B hB =>
          (tries_lift _ fun f hf => ?_).bind fun n hn => ?_
        · exact horder (Int.toNat_of_nonneg hnonneg.1).symm (fun h => Bool.eq_false_iff.mpr
            fun hfits => absurd (Extent.lt_of_fits hfits).2.1 (not_lt.mpr h)) hf
        · have hB := Node.evaluate_size hrf hB
          have hn : n = size.height := (congrArg Int.toNat (Extent.eq_of_order hn)).symm
          refine (tries_premultiply_fills hF ?_ ?_).imp fun G hG => ⟨.inr (hd.mp hd'), hG⟩
          · simp only [Operator.onRows, Dense.rows_eq hB, hn, ← hw, hheight, Nat.mul_comm]
          · simp only [Operator.onRows, Array.size_ofFn, Dense.cols_eq hB, hn, hwidth, Nat.mul_comm]
      · rw [if_neg hd']
        exact tries_throw _ (hproduct (fun h => hb' (hb.mpr h)) fun h => hd' (hd.mpr h))

theorem tries_lowerWeighted_fills {c : Constant α} {find : Task (Compilation α) (Form α)}
    (hc : c.value.size = size) (hfind : Tries ns s find (·.Fills size s.layout.size) E) :
    Tries ns s (do (← find).premultiply (.diagonal c.value.vec))
      (·.Fills size s.layout.size) E := by
  have hvec : c.value.vec.size = size.height * size.width := by
    rw [c.value.size_vec, Dense.rows_eq hc, Dense.cols_eq hc]
  exact hfind.bind fun F hF => tries_premultiply_fills hF hvec ((Array.size_ofFn ..).trans hvec)

end Compilation

end DisciplinedConvex
