import DisciplinedConvex.Failure
import DisciplinedConvex.Scalar
import DisciplinedConvex.Sign
import DisciplinedConvex.Tensor

namespace DisciplinedConvex

namespace Size

def ofShape : List Int → Except Failure Size
  | [] => .ok scalar
  | [n] => .ok ⟨n, 1⟩
  | [r, c] => .ok ⟨r, c⟩
  | shape => .error (.tooManyDimensions shape)

end Size

/-- A matrix of numbers, stored column by column. -/
structure Dense (α : Type) where
  rows : Nat
  cols : Nat
  vec : Array α
  size_vec : vec.size = rows * cols

namespace Dense

variable {α : Type}

theorem ext_vec {A B : Dense α} (hr : A.rows = B.rows) (hc : A.cols = B.cols)
    (hv : A.vec = B.vec) : A = B := by
  cases A
  cases B
  simp only at hr hc hv
  subst hr hc hv
  rfl

def size (A : Dense α) : Size := ⟨A.rows, A.cols⟩

def ofFn (rows cols : Nat) (f : Nat → Nat → α) : Dense α where
  rows := rows
  cols := cols
  vec := Array.ofFn fun k : Fin (rows * cols) => f (k % rows) (k / rows)
  size_vec := by simp

def entry [Zero α] (A : Dense α) (i j : Nat) : α :=
  if i < A.rows then A.vec.getD (j * A.rows + i) 0 else 0

theorem index_lt {r c i j : Nat} (hi : i < r) (hj : j < c) : j * r + i < r * c := by
  have h : (j + 1) * r ≤ c * r := Nat.mul_le_mul_right r hj
  rw [Nat.add_mul, Nat.one_mul] at h
  rw [Nat.mul_comm r c]
  omega

theorem entry_ofFn [Zero α] {r c i j : Nat} (f : Nat → Nat → α) (hi : i < r) (hj : j < c) :
    (ofFn r c f).entry i j = f i j := by
  have hk := index_lt hi hj
  have hr : 0 < r := by omega
  have hm : (j * r + i) % r = i := by
    rw [Nat.add_comm, Nat.add_mul_mod_self_right, Nat.mod_eq_of_lt hi]
  have hd : (j * r + i) / r = j := by
    rw [Nat.add_comm, Nat.add_mul_div_right _ _ hr, Nat.div_eq_of_lt hi, Nat.zero_add]
  simp [entry, ofFn, hi, hk, hm, hd]

def scalar (a : α) : Dense α := ⟨1, 1, #[a], rfl⟩

def column (xs : Array α) : Dense α := ⟨xs.size, 1, xs, by simp⟩

def map {β : Type} (f : α → β) (A : Dense α) : Dense β where
  rows := A.rows
  cols := A.cols
  vec := A.vec.map f
  size_vec := by simp [A.size_vec]

def hadamard [Zero α] [Mul α] (A B : Dense α) : Dense α :=
  ofFn A.rows A.cols fun i j => A.entry i j * B.entry i j

def mul [Zero α] [Add α] [Mul α] (A B : Dense α) : Dense α :=
  ofFn A.rows B.cols fun i j =>
    (List.range A.cols).foldl (fun sum k => sum + A.entry i k * B.entry k j) 0

def item [Zero α] (A : Dense α) : α := A.entry 0 0

def ofTensor [Zero α] (t : Tensor α) : Except Failure (Dense α) :=
  let at2 (r c : Nat) := ofFn r c fun i j => t.entries.getD (i * c + j) 0
  match t.shape with
  | [] => .ok (at2 1 1)
  | [n] => .ok (at2 n 1)
  | [r, c] => .ok (at2 r c)
  | shape => .error (.tooManyDimensions (shape.map Int.ofNat))

end Dense

namespace Sign

def ofEntries {α : Type} [Scalar α] (xs : Array α) : Sign :=
  if xs.all Scalar.isZero then zero
  else if xs.all Scalar.isNonneg then positive
  else if xs.all Scalar.isNonpos then negative
  else indeterminate

end Sign

end DisciplinedConvex
