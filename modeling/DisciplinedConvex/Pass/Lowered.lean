import DisciplinedConvex.Pass.Lowering

namespace DisciplinedConvex

variable {α : Type}

structure Lowered (α : Type) where
  forms : Array (Form α)
  constraints : Array (Constraint α)
  layout : Layout
  computations : Nat
  hits : Nat

namespace Lowered

def empty : Lowered α := ⟨#[], #[], .empty, 0, 0⟩

def ofPass (s : Compilation α) (forms : List (Form α)) : Except Failure (Lowered α) := do
  let n := s.layout.size
  let forms ← forms.mapM (·.withColumns n)
  let constraints ← s.pass.constraints.mapM fun c => do return ⟨c.cone, ← c.form.withColumns n⟩
  return ⟨forms.toArray, constraints, s.layout, s.pass.computations, s.pass.hits⟩

def ofNodes [Zero α] [One α] [Neg α] [Add α] [Mul α] [Scalar α] (config : Config)
    (holders : List Holder) (ns : List (Node α)) : Task Workspace (Lowered α) := fun w =>
  let task : Task (Compilation α) (Lowered α) := do
    let forms ← ns.mapM Compilation.conicForm
    ofPass (← get) forms
  let (result, s) := task ⟨w, .ofList holders, .empty config⟩
  (result, s.workspace)

def centered (width : Nat) (s : String) : String :=
  let blanks := width - s.length
  let pad (k : Nat) := String.ofList (List.replicate k ' ')
  pad (blanks / 2) ++ s ++ pad (blanks - blanks / 2)

def summaryRow (cells : List String) : String :=
  String.intercalate " | " (cells.map (centered 11)) ++ "\n"

def summary (L : Lowered α) : Except Failure String :=
  match Text.writeInt? L.layout.size with
  | none => .error .numberTooLong
  | some unknowns =>
    let rule := String.ofList (List.replicate 65 '-') ++ "\n"
    .ok (rule ++ summaryRow ["Exprs", "Lowered", "Cache Hits", "Unknowns", "Cones"] ++ rule ++
      summaryRow [toString L.forms.size, toString L.computations, toString L.hits, unknowns,
        toString L.constraints.size] ++ rule)

def printed (config : Config) (L : Lowered α) : Except Failure String :=
  if config.printing then L.summary else .ok ""

end Lowered

end DisciplinedConvex
