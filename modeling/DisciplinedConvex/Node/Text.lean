import DisciplinedConvex.Extent
import DisciplinedConvex.Node

namespace DisciplinedConvex

def bracketed (items : List String) : String := "[" ++ String.intercalate ", " items ++ "]"

namespace Dense

def text {α : Type} [Zero α] [Scalar α] (A : Dense α) : String :=
  if A.vec.size = 1 then Scalar.text A.item
  else
    bracketed ((List.range A.rows).map fun i =>
      bracketed ((List.range A.cols).map fun j => Scalar.text (A.entry i j)))

end Dense

namespace Constant

def text {α : Type} [Zero α] [Scalar α] (c : Constant α) : String := "Const(" ++ c.value.text ++ ")"

end Constant

namespace Unknown

def text (u : Unknown) : String := "Variable('" ++ u.name ++ "', shape=" ++ u.size.text ++ ")"

end Unknown

namespace Node

variable {α : Type}

def text [Zero α] [Scalar α] : Node α → String
  | constant c => c.text
  | unknown u => u.text
  | product _ l r => "(" ++ l.text ++ " @ " ++ r.text ++ ")"
  | weighted _ c x => "(" ++ c.text ++ " * " ++ x.text ++ ")"
  | square _ x => "(" ++ x.text ++ ")^2"
  | bare _ .leaf _ _ => "<Expr>"
  | bare _ .operation _ _ => "<Atom>"

def outlineLine (depth : Int) (kind : String) : String :=
  String.ofList (List.replicate (2 * depth.toNat) ' ') ++ kind

def outline (depth : Int) : Node α → List String
  | n@(constant _) | n@(unknown _) => [outlineLine depth n.kind]
  | n@(product _ l r) =>
    outlineLine depth n.kind :: (l.outline (depth + 1) ++ r.outline (depth + 1))
  | n@(weighted _ c x) =>
    outlineLine depth n.kind :: outlineLine (depth + 1) (constant c).kind :: x.outline (depth + 1)
  | n@(square _ x) => outlineLine depth n.kind :: x.outline (depth + 1)
  | n@(bare _ _ _ args) =>
    outlineLine depth n.kind :: (List.ofFn fun i => (args i).outline (depth + 1)).flatten

def pretty (depth : Int) (n : Node α) : Except Failure String :=
  if Extent.levelsOverflow depth then .error .numberTooLarge
  else .ok (String.intercalate "\n" (n.outline depth))

end Node

end DisciplinedConvex
