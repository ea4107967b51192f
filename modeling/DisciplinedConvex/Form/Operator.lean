import DisciplinedConvex.Dense
import DisciplinedConvex.Form

namespace DisciplinedConvex

variable {α : Type}

structure Operator (α : Type) where
  inputs : Nat
  rows : Array (Coefficients α)

namespace Operator

def ofDense [Zero α] [Scalar α] (A : Dense α) : Operator α where
  inputs := A.cols
  rows := Array.ofFn fun i : Fin A.rows =>
    (List.range A.cols).filterMap fun j =>
      if Scalar.isZero (A.entry i j) then none else some (j, A.entry i j)

def ofTensor [Zero α] [Scalar α] (t : Tensor α) : Except Failure (Operator α) :=
  let at2 (r c : Nat) := ofDense (Dense.ofFn r c fun i j => t.entries.getD (i * c + j) 0)
  match t.shape with
  | [] => .ok (at2 1 1)
  | [n] => .ok (at2 1 n)
  | [r, c] => .ok (at2 r c)
  | _ => .error .misfit

def diagonal [Zero α] [Scalar α] (weights : Array α) : Operator α where
  inputs := weights.size
  rows := Array.ofFn fun i : Fin weights.size =>
    if Scalar.isZero weights[i] then [] else [(i, weights[i])]

def isDense [Scalar α] (A : Dense α) : Bool :=
  A.vec.size ≤ 2 * A.vec.countP fun a => !Scalar.isZero a

/-- The product `A * X` for a matrix `X` of `n` columns that is given column by column: the
Kronecker product of the identity and `A`. Zeros of `A` are stored unless they are the majority. -/
def onColumns [Zero α] [Scalar α] (n : Nat) (A : Dense α) : Operator α :=
  let full := isDense A
  { inputs := n * A.cols
    rows := Array.ofFn fun p : Fin (n * A.rows) =>
      (List.range A.cols).filterMap fun l =>
        let a := A.entry (p % A.rows) l
        if !full && Scalar.isZero a then none else some (p / A.rows * A.cols + l, a) }

/-- The product `X * B` for a matrix `X` of `n` rows that is given column by column: the Kronecker
product of the transpose of `B` and the identity. Zeros of `B` are not stored; those of an identity
of at most two rows are, as they are not the majority. -/
def onRows [Zero α] [Mul α] [Scalar α] (n : Nat) (B : Dense α) : Operator α where
  inputs := B.rows * n
  rows := Array.ofFn fun p : Fin (B.cols * n) =>
    (List.range B.rows).flatMap fun j =>
      let b := B.entry j (p / n)
      if Scalar.isZero b then []
      else if n ≤ 2 then (List.range n).map fun i => (j * n + i, if i = p % n then b else b * 0)
      else [(j * n + p % n, b)]

end Operator

namespace Form

variable [Zero α] [Add α] [Mul α] [Scalar α]

def combine (rows : Array (AffineRow α)) (weights : Coefficients α) : AffineRow α :=
  (weights.foldl (fun (acc : AffineRow α) (j, w) => acc.addMultiple w (rows.getD j (.constant 0)))
    (.constant 0)).prune

def premultiply (P : Operator α) (F : Form α) : Except Failure (Form α) :=
  if P.inputs = F.rows.size then .ok ⟨F.cols, P.rows.map (combine F.rows)⟩ else .error .misfit

end Form

end DisciplinedConvex
