import DisciplinedConvex.Config
import DisciplinedConvex.Form.Operator
import DisciplinedConvex.Layout
import DisciplinedConvex.Workspace
import Std.Data.TreeMap

namespace DisciplinedConvex

/-- The demand that the values of a form lie in a cone. In the cone `SOC` the first value bounds the
Euclidean norm of the others. -/
structure Constraint (α : Type) where
  cone : String
  form : Form α

structure Auxiliary (α : Type) where
  unknown : Unknown
  square? : Option (Node α)

/-- What a compile pass has found so far: the form of every identity that it has dealt with, the
auxiliary unknowns it has introduced, the latest first, the constraints on them, and its counters. -/
structure Pass (α : Type) where
  config : Config
  forms : Std.TreeMap String (Form α)
  constraints : Array (Constraint α)
  computations : Nat
  hits : Nat
  auxiliaries : List (Auxiliary α)

namespace Pass

variable {α : Type}

def empty (config : Config) : Pass α := ⟨config, ∅, #[], 0, 0, []⟩

def find? (P : Pass α) (id : String) : Option (Form α) := P.forms[id]?

def contains (P : Pass α) (id : String) : Bool := (P.find? id).isSome

def get (P : Pass α) (id : String) : Except Failure (Form α) :=
  match P.find? id with
  | some F => .ok F
  | none => .error (.uncached id)

def hit (count : Nat) (P : Pass α) : Pass α := { P with hits := P.hits + count }

def store (id : String) (F : Form α) (P : Pass α) : Pass α :=
  { P with forms := P.forms.insert id F, computations := P.computations + 1 }

def addConstraints (cs : Array (Constraint α)) (P : Pass α) : Pass α :=
  { P with constraints := P.constraints ++ cs }

end Pass

structure Compilation (α : Type) where
  workspace : Workspace
  layout : Layout
  pass : Pass α

namespace Compilation

variable {α : Type}

def onWorkspace {β : Type} (task : Task Workspace β) : Task (Compilation α) β :=
  task.onPart (·.workspace) fun w s => { s with workspace := w }

def modifyPass (f : Pass α → Pass α) : Task (Compilation α) Unit :=
  modify fun s => { s with pass := f s.pass }

def register (u : Unknown) : Task (Compilation α) Unit :=
  modify fun s => { s with layout := s.layout.register (.unknown u) }

end Compilation

end DisciplinedConvex
