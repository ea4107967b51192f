import DisciplinedConvex.Verdicts

namespace DisciplinedConvex

structure Workspace where
  objects : Nat
  unknowns : Nat
  verdicts : Verdicts
  warnings : Nat

namespace Workspace

def empty : Workspace := ⟨0, 0, .empty, 0⟩

def divisionWarning : String :=
  "Dividing by a constant with zero entries produces non-finite values"

def newObject : Task Workspace Nat := do
  let w ← get
  set { w with objects := w.objects + 1 }
  return w.objects

def newSerial : Task Workspace Nat := do
  let w ← get
  set { w with unknowns := w.unknowns + 1 }
  return w.unknowns

def warn : Task Workspace Unit := modify fun w => { w with warnings := w.warnings + 1 }

def onVerdicts {β : Type} (task : Task Verdicts β) : Task Workspace β :=
  task.onPart (·.verdicts) fun v w => { w with verdicts := v }

end Workspace

end DisciplinedConvex
