import DisciplinedConvex.Pass.Lowered

namespace DisciplinedConvex

/-- Several layouts, and several passes that each fill one of them; passes may share a layout. Both
are addressed by their number. -/
structure Session (α : Type) where
  workspace : Workspace
  layouts : Array Layout
  passes : Array (Nat × Pass α)

namespace Session

variable {α : Type}

def empty : Session α := ⟨.empty, #[], #[]⟩

def onWorkspace {β : Type} (task : Task Workspace β) : Task (Session α) β :=
  task.onPart (·.workspace) fun w s => { s with workspace := w }

def newLayout (L : Layout) : Task (Session α) Nat := do
  let s ← get
  set { s with layouts := s.layouts.push L }
  return s.layouts.size

def newPass (layout : Nat) (config : Config) : Task (Session α) Nat := do
  let s ← get
  set { s with passes := s.passes.push (layout, .empty config) }
  return s.passes.size

def layout (s : Session α) (k : Nat) : Layout := s.layouts.getD k .empty

def layoutOf (s : Session α) (p : Nat) : Nat := (s.passes[p]?.map (·.1)).getD 0

def pass (s : Session α) (p : Nat) : Pass α := (s.passes[p]?.map (·.2)).getD (.empty {})

def setLayout (k : Nat) (L : Layout) (s : Session α) : Session α :=
  { s with layouts := s.layouts.setIfInBounds k L }

def view (p : Nat) (s : Session α) : Compilation α :=
  ⟨s.workspace, s.layout (s.layoutOf p), s.pass p⟩

def update (p : Nat) (c : Compilation α) (s : Session α) : Session α :=
  { s.setLayout (s.layoutOf p) c.layout with
    workspace := c.workspace
    passes := s.passes.setIfInBounds p (s.layoutOf p, c.pass) }

def onPass {β : Type} (p : Nat) (task : Task (Compilation α) β) : Task (Session α) β :=
  task.onPart (view p) (update p)

end Session

end DisciplinedConvex
