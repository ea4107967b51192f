import DisciplinedConvex.Failure

namespace DisciplinedConvex

structure Config where
  checkDcp : Bool := true
  rejectNonfinite : Bool := false
  printing : Bool := false
  deriving DecidableEq

namespace Config

def ofOptions (options : List (String × Bool)) : Except Failure Config :=
  options.foldlM (fun c (name, b) =>
    match name with
    | "check_dcp" => .ok { c with checkDcp := b }
    | "reject_nonfinite" => .ok { c with rejectNonfinite := b }
    | "printing" => .ok { c with printing := b }
    | _ => .error .unknownOption) {}

def text (_ : Config) : String := "LoweringConfig()"

/-- The choices are not compared either, so that any two configurations agree. -/
def agree (_ _ : Config) : Bool := true

end Config

end DisciplinedConvex
