import DisciplinedConvex.Proofs.Compiled

namespace DisciplinedConvex

section Values

variable {α : Type} [Field α]

def unitVector (k : Nat) : Array α := (Array.replicate k 0).push 1

theorem getD_unitVector (k i : Nat) :
    (unitVector k : Array α).getD i 0 = if i = k then 1 else 0 := by
  rw [unitVector, Array.getD_eq_getD_getElem?, Array.getElem?_push, Array.size_replicate]
  split
  · rfl
  · rw [Array.getElem?_replicate]
    split <;> rfl

namespace Coefficients

theorem coefficient_eq_against (xs : Coefficients α) (k : Nat) :
    xs.coefficient k = xs.against fun i => if i = k then 1 else 0 := by
  induction xs with
  | nil => rfl
  | cons e xs ih =>
    obtain ⟨i, a⟩ := e
    have hcons : coefficient ((i, a) :: xs) k =
        if i = k then a + coefficient xs k else coefficient xs k := rfl
    rw [hcons, against_cons, ← ih]
    split
    · rw [mul_one]
    · rw [mul_zero, zero_add]

end Coefficients

namespace AffineRow

theorem value_empty (row : AffineRow α) : row.value #[] = row.offset := by
  have h : row.coefficients.against (fun k => (#[] : Array α).getD k 0) = 0 := by
    simp [Coefficients.against]
  rw [value_eq, h, zero_add]

theorem value_unitVector (row : AffineRow α) (k : Nat) :
    row.value (unitVector k) = row.coefficients.coefficient k + row.offset := by
  simp only [value_eq, getD_unitVector, Coefficients.coefficient_eq_against]

end AffineRow

namespace Form

def offset (F : Form α) (r : Nat) : α := (F.rows.getD r (.constant 0)).offset

def coefficient (F : Form α) (r k : Nat) : α :=
  (F.rows.getD r (.constant 0)).coefficients.coefficient k

theorem offset_eq (F : Form α) (r : Nat) :
    F.offset r = (F.rows.getD r (.constant 0)).value #[] :=
  (AffineRow.value_empty _).symm

theorem coefficient_eq (F : Form α) (r k : Nat) : F.coefficient r k =
    (F.rows.getD r (.constant 0)).value (unitVector k) -
      (F.rows.getD r (.constant 0)).value #[] := by
  rw [AffineRow.value_unitVector, AffineRow.value_empty, add_sub_cancel_right]
  rfl

end Form

end Values

variable {α : Type}

def Node.HasColumns [Scalar α] : Node α → Prop
  | .unknown _ => True
  | .square _ x => x.vexity ≠ .constant
  | .constant _ | .product .. | .weighted .. | .bare .. => False

/-- What lowering leaves to be solved: constraints on a stacked vector, in which the auxiliaries of
squares have slots besides the unknowns. -/
structure Problem (α : Type) where
  layout : Layout
  auxiliary? : String → Option Unknown
  constraints : List (Constraint α)

namespace Problem

variable {P Q : Problem α} {n m : Node α} {F G : Form α} {z z' : Array α}
variable {P' Q' : Problem α} {F' G' : Form α} {e : Node α}

def slot? (P : Problem α) : Node α → Option Slot
  | .unknown u => P.layout.find? u.id
  | .square tag _ => (P.auxiliary? tag.id).bind fun u => P.layout.find? u.id
  | .constant _ | .product .. | .weighted .. | .bare .. => none

structure Padded (P P' : Problem α) : Prop where
  layout : P'.layout = P.layout
  auxiliary? : P'.auxiliary? = P.auxiliary?
  constraints : P'.constraints.map (fun c => (c.cone, c.form.rows)) =
    P.constraints.map fun c => (c.cone, c.form.rows)

theorem Padded.refl (P : Problem α) : P.Padded P := ⟨rfl, rfl, rfl⟩

theorem Padded.slot?_eq (h : P.Padded P') (m : Node α) : P'.slot? m = P.slot? m := by
  cases m with
  | unknown u => rw [slot?, slot?, h.layout]
  | square tag x => rw [slot?, slot?, h.layout, h.auxiliary?]
  | constant | product | weighted | bare => rfl

variable [Scalar α]

def Paired (P Q : Problem α) (n : Node α) (a b : Slot) : Prop :=
  ∃ m ∈ n.preorder, m.HasColumns ∧ P.slot? m = some a ∧ Q.slot? m = some b

def Aligned (P Q : Problem α) (n : Node α) : Prop :=
  ∀ a b a' b', P.Paired Q n a b → P.Paired Q n a' b' → a.length = b.length ∧
    ∀ k < a.length, ∀ k' < a'.length,
      (a.start.toNat + k = a'.start.toNat + k' ↔ b.start.toNat + k = b'.start.toNat + k')

theorem Paired.mono {a b : Slot} (h : P.Paired Q m a b) (hm : m ∈ n.preorder) :
    P.Paired Q n a b := by
  obtain ⟨l, hl, hcolumns, ha, hb⟩ := h
  exact ⟨l, Node.mem_preorder_trans hm hl, hcolumns, ha, hb⟩

theorem Padded.paired_iff (hP : P.Padded P') (hQ : Q.Padded Q') (n : Node α) (a b : Slot) :
    P'.Paired Q' n a b ↔ P.Paired Q n a b := by
  simp only [Paired, hP.slot?_eq, hQ.slot?_eq]

variable [Field α]

/-- Two forms that are the same up to the correspondence of columns: the columns of paired slots are
equal one by one, and all others are zero. -/
structure Matches (P Q : Problem α) (n : Node α) (F G : Form α) : Prop where
  size : F.rows.size = G.rows.size
  offset : ∀ r, F.offset r = G.offset r
  coefficient : ∀ a b, P.Paired Q n a b → ∀ k < a.length, ∀ r,
    F.coefficient r (a.start.toNat + k) = G.coefficient r (b.start.toNat + k)
  left : ∀ j, (∀ a b, P.Paired Q n a b → ∀ k < a.length, j ≠ a.start.toNat + k) →
    ∀ r, F.coefficient r j = 0
  right : ∀ j, (∀ a b, P.Paired Q n a b → ∀ k < b.length, j ≠ b.start.toNat + k) →
    ∀ r, G.coefficient r j = 0

def Agree (P Q : Problem α) (n : Node α) (z z' : Array α) : Prop :=
  ∀ a b, P.Paired Q n a b → ∀ k < a.length,
    z.getD (a.start.toNat + k) 0 = z'.getD (b.start.toNat + k) 0

theorem Agree.mono (h : P.Agree Q n z z') (hm : m ∈ n.preorder) : P.Agree Q m z z' :=
  fun a b hab => h a b (hab.mono hm)

theorem agree_empty : P.Agree Q n #[] #[] := fun _ _ _ _ _ => rfl

theorem agree_unitVector_left {j : Nat}
    (h : ∀ a b, P.Paired Q n a b → ∀ k < a.length, j ≠ a.start.toNat + k) :
    P.Agree Q n (unitVector j) #[] := by
  intro a b hab k hk
  rw [getD_unitVector, if_neg fun he => h a b hab k hk he.symm]
  rfl

theorem agree_unitVector_right {j : Nat} (hal : P.Aligned Q n)
    (h : ∀ a b, P.Paired Q n a b → ∀ k < b.length, j ≠ b.start.toNat + k) :
    P.Agree Q n #[] (unitVector j) := by
  intro a b hab k hk
  rw [getD_unitVector, if_neg fun he => h a b hab k ((hal a b a b hab hab).1 ▸ hk) he.symm]
  rfl

theorem Aligned.agree_unitVector (hal : P.Aligned Q n) {a b : Slot} (hab : P.Paired Q n a b)
    {k : Nat} (hk : k < a.length) :
    P.Agree Q n (unitVector (a.start.toNat + k)) (unitVector (b.start.toNat + k)) := by
  intro a' b' hab' k' hk'
  rw [getD_unitVector, getD_unitVector]
  simp only [(hal a' b' a b hab' hab).2 k' hk' k hk]

theorem Aligned.matches (hal : P.Aligned Q n) (hsize : F.rows.size = G.rows.size)
    (h : ∀ z z', P.Agree Q n z z' → ∀ r,
      (F.rows.getD r (.constant 0)).value z = (G.rows.getD r (.constant 0)).value z') :
    P.Matches Q n F G := by
  have hempty := h _ _ agree_empty
  refine ⟨hsize, fun r => ?_, fun a b hab k hk r => ?_, fun j hj r => ?_, fun j hj r => ?_⟩
  · rw [Form.offset_eq, Form.offset_eq, hempty]
  · rw [Form.coefficient_eq, Form.coefficient_eq, h _ _ (hal.agree_unitVector hab hk), hempty]
  · rw [Form.coefficient_eq, h _ _ (agree_unitVector_left hj), hempty, sub_self]
  · rw [Form.coefficient_eq, ← h _ _ (agree_unitVector_right hal hj), hempty, sub_self]

theorem Padded.matches (hP : P.Padded P') (hQ : Q.Padded Q') (hF : F'.rows = F.rows)
    (hG : G'.rows = G.rows) (h : P.Matches Q n F G) : P'.Matches Q' n F' G' := by
  obtain ⟨hsize, hoffset, hcoefficient, hleft, hright⟩ := h
  constructor
  · rw [hF, hG, hsize]
  · simpa only [Form.offset, hF, hG] using hoffset
  · simpa only [Form.coefficient, hF, hG, hP.paired_iff hQ] using hcoefficient
  · simpa only [Form.coefficient, hF, hP.paired_iff hQ] using hleft
  · simpa only [Form.coefficient, hG, hP.paired_iff hQ] using hright

variable [LinearOrder α]

def bounding (P : Problem α) (j : Nat) : List (Constraint α) :=
  P.constraints.filter fun c => decide (c.form.coefficient 0 j ≠ 0)

/-- One expression in two problems: it and the squares below it have columns in both, the forms match,
and so do the cones of the squares, of which there is one for every entry. -/
structure Corresponds (P Q : Problem α) (e : Node α) (F G : Form α) : Prop
    extends P.Matches Q e F G where
  slots : ∀ m ∈ e.preorder, m.HasColumns → ∃ a b, P.slot? m = some a ∧ Q.slot? m = some b ∧
    0 ≤ a.start ∧ a.stop ≤ P.layout.size ∧ 0 ≤ b.start ∧ b.stop ≤ Q.layout.size ∧
    (a.length : Int) = m.size.count ∧ (b.length : Int) = m.size.count
  aligned : P.Aligned Q e
  cones : ∀ tag x, .square tag x ∈ e.preorder → x.vexity ≠ .constant → ∀ a b,
    P.slot? (.square tag x) = some a → Q.slot? (.square tag x) = some b → ∀ k < a.length,
      ∃ c d, P.bounding (a.start.toNat + k) = [c] ∧ Q.bounding (b.start.toNat + k) = [d] ∧
        c.cone = "SOC" ∧ d.cone = "SOC" ∧ P.Matches Q (.square tag x) c.form d.form

omit [Scalar α] in
theorem Padded.bounding_eq (h : P.Padded P') {j : Nat} {c : Constraint α}
    (hc : P.bounding j = [c]) :
    ∃ c', P'.bounding j = [c'] ∧ c'.cone = c.cone ∧ c'.form.rows = c.form.rows := by
  let content (c : Constraint α) : String × Array (AffineRow α) := (c.cone, c.form.rows)
  let reads (p : String × Array (AffineRow α)) : Bool :=
    decide (Form.coefficient ⟨0, p.2⟩ 0 j ≠ 0)
  have hmap (R : Problem α) : (R.bounding j).map content = (R.constraints.map content).filter reads :=
    (List.filter_map (p := reads)).symm
  have heq := hmap P'
  rw [h.constraints, ← hmap P, hc, List.map_singleton, List.map_eq_singleton_iff] at heq
  obtain ⟨c', hc', he⟩ := heq
  exact ⟨c', hc', congrArg Prod.fst he, congrArg Prod.snd he⟩

theorem Padded.corresponds (hP : P.Padded P') (hQ : Q.Padded Q') (hF : F'.rows = F.rows)
    (hG : G'.rows = G.rows) (h : P.Corresponds Q e F G) : P'.Corresponds Q' e F' G' where
  toMatches := hP.matches hQ hF hG h.toMatches
  slots := by
    simpa only [hP.slot?_eq, hQ.slot?_eq, hP.layout, hQ.layout] using h.slots
  aligned := by
    simpa only [Aligned, hP.paired_iff hQ] using h.aligned
  cones tag x hx hv a b ha hb k hk := by
    rw [hP.slot?_eq] at ha
    rw [hQ.slot?_eq] at hb
    obtain ⟨c, d, hc, hd, hcone, hcone', hmatch⟩ := h.cones tag x hx hv a b ha hb k hk
    obtain ⟨c', hc', hcc, hcr⟩ := hP.bounding_eq hc
    obtain ⟨d', hd', hdc, hdr⟩ := hQ.bounding_eq hd
    exact ⟨c', d', hc', hd', hcc.trans hcone, hdc.trans hcone', hP.matches hQ hcr hdr hmatch⟩

end Problem

end DisciplinedConvex
