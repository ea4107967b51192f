import DisciplinedConvex.Extent
import DisciplinedConvex.Scalar

namespace DisciplinedConvex

variable {α : Type}

/-- The stored coefficients of a row, by ascending column. A column that is not stored contributes
nothing, while a stored zero takes part in every product, also with what is not finite. -/
abbrev Coefficients (α : Type) : Type := List (Nat × α)

namespace Coefficients

def addMultiple [Zero α] [Add α] [Mul α] (w : α) : Coefficients α → Coefficients α → Coefficients α
  | xs, [] => xs
  | [], (j, b) :: ys => (j, 0 + w * b) :: addMultiple w [] ys
  | (i, a) :: xs, (j, b) :: ys =>
    if i < j then (i, a) :: addMultiple w xs ((j, b) :: ys)
    else if j < i then (j, 0 + w * b) :: addMultiple w ((i, a) :: xs) ys
    else (i, a + w * b) :: addMultiple w xs ys
termination_by xs ys => xs.length + ys.length

def prune [Scalar α] (xs : Coefficients α) : Coefficients α :=
  xs.filter fun (_, a) => !Scalar.isZero a

def coefficient [Zero α] [Add α] (xs : Coefficients α) (k : Nat) : α :=
  xs.foldr (fun (i, a) rest => if i = k then a + rest else rest) 0

def dot [Zero α] [Add α] [Mul α] (xs : Coefficients α) (z : Array α) : α :=
  xs.foldl (fun sum (k, a) => sum + a * z.getD k 0) 0

end Coefficients

structure AffineRow (α : Type) where
  coefficients : Coefficients α
  offset : α

namespace AffineRow

def constant (a : α) : AffineRow α := ⟨[], a⟩

def column [Zero α] [One α] (k : Nat) : AffineRow α := ⟨[(k, 1)], 0⟩

def scale [Mul α] (row : AffineRow α) (w : α) : AffineRow α :=
  ⟨row.coefficients.map fun (k, a) => (k, a * w), row.offset * w⟩

def addMultiple [Zero α] [Add α] [Mul α] (w : α) (acc row : AffineRow α) : AffineRow α :=
  ⟨Coefficients.addMultiple w acc.coefficients row.coefficients, acc.offset + w * row.offset⟩

def prune [Scalar α] (row : AffineRow α) : AffineRow α := ⟨row.coefficients.prune, row.offset⟩

def value [Zero α] [Add α] [Mul α] (row : AffineRow α) (z : Array α) : α :=
  row.coefficients.dot z + row.offset

def isFinite [Scalar α] (row : AffineRow α) : Bool :=
  row.coefficients.all (fun (_, a) => Scalar.isFinite a) && Scalar.isFinite row.offset

end AffineRow

/-- An affine map from the first `cols` stacked unknowns to the entries of an expression, column by
column. -/
structure Form (α : Type) where
  cols : Nat
  rows : Array (AffineRow α)

namespace Form

def constant (offsets : Array α) (cols : Nat) : Form α := ⟨cols, offsets.map .constant⟩

def withColumns (F : Form α) (n : Int) : Except Failure (Form α) :=
  if n = F.cols then .ok F
  else if n < F.cols then .error (.shrunkForm F.cols n)
  else do return { F with cols := ← Extent.columns n }

theorem withColumns_cols (F : Form α) : F.withColumns F.cols = .ok F := by
  simp [withColumns]

theorem withColumns_eq_ok_iff {F G : Form α} {n : Int} :
    F.withColumns n = .ok G ↔ G.rows = F.rows ∧ (G.cols : Int) = n ∧ F.cols ≤ G.cols ∧
      (n = F.cols ∨ n < Extent.columnLimit) := by
  obtain ⟨c, rows⟩ := F
  obtain ⟨d, rows'⟩ := G
  unfold withColumns
  dsimp only
  split
  · simp only [Except.ok.injEq, mk.injEq]
    constructor
    · rintro ⟨rfl, rfl⟩
      exact ⟨rfl, by omega, Nat.le_refl c, by omega⟩
    · rintro ⟨rfl, hd, -, -⟩
      exact ⟨by omega, rfl⟩
  · split
    · simp only [reduceCtorEq, false_iff]
      omega
    · have hcolumns := Extent.columns_eq_ok_iff n
      cases hn : Extent.columns n with
      | error e =>
        refine iff_of_false nofun fun ⟨_, hd, _, hlimit⟩ => ?_
        have hok := (hcolumns d).mpr ⟨hd.symm, by omega⟩
        rw [hn] at hok
        cases hok
      | ok k =>
        obtain ⟨hk, hlimit⟩ := (hcolumns k).mp hn
        change Except.ok (mk k rows) = .ok (mk d rows') ↔ _
        simp only [Except.ok.injEq, mk.injEq]
        constructor
        · rintro ⟨rfl, rfl⟩
          exact ⟨rfl, hk.symm, by omega, by omega⟩
        · rintro ⟨rfl, hd, -, -⟩
          exact ⟨by omega, rfl⟩

theorem rows_of_withColumns {F G : Form α} {n : Int} (h : F.withColumns n = .ok G) :
    G.rows = F.rows :=
  (withColumns_eq_ok_iff.mp h).1

theorem columns_of_withColumns {F : Form α} {n : Int} {f : Failure}
    (h : F.withColumns n = .error f) (hn : (F.cols : Int) ≤ n) : Extent.columns n = .error f := by
  unfold withColumns at h
  split at h
  · cases h
  · split at h
    · omega
    · cases hc : Extent.columns n with
      | error e => rw [hc] at h; exact congrArg _ (Except.error.inj h)
      | ok k => rw [hc] at h; cases h

def scale [Mul α] (F : Form α) (w : α) : Form α := { F with rows := F.rows.map (·.scale w) }

def broadcast [Mul α] [Scalar α] (cols : Nat) (row : AffineRow α) (weights : Array α) : Form α where
  cols := cols
  rows := weights.map fun w =>
    let kept : Coefficients α := if Scalar.isZero w then [] else row.coefficients
    ⟨Coefficients.prune (kept.map fun (k, a) => (k, w * a)), w * row.offset⟩

def apply [Zero α] [Add α] [Mul α] (F : Form α) (z : Array α) : Except Failure (Array α) :=
  if z.size < F.cols then .error (.shortVector z.size F.cols)
  else .ok (F.rows.map (·.value z))

def isFinite [Scalar α] (F : Form α) : Bool := F.rows.all (·.isFinite)

end Form

end DisciplinedConvex
