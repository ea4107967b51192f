import DisciplinedConvex.Scalar
import DisciplinedConvex.Sha256
import DisciplinedConvex.Size
import DisciplinedConvex.Tensor

namespace DisciplinedConvex.Identity

def utf8 (s : String) : List UInt8 := s.toUTF8.data.toList

def constantPreimage {α : Type} [Scalar α] (shape : List Int) (entries : List α) : List UInt8 :=
  utf8 ("constant:" ++ shapeText shape) ++ entries.flatMap Scalar.bytes

def unknownPreimage (serial : Nat) : List UInt8 := utf8 ("variable:" ++ toString serial)

def operationPreimage (head : String) (args : List String) : List UInt8 :=
  utf8 head ++ utf8 "(" ++ args.flatMap (fun id => utf8 id ++ utf8 ",") ++ utf8 ")"

def ofConstant {α : Type} [Scalar α] (shape : List Int) (entries : List α) : String :=
  Sha256.hexDigest (constantPreimage shape entries)

def ofTensor {α : Type} [Scalar α] (t : Tensor α) : String :=
  ofConstant (if t.shape.isEmpty then [1] else t.shape.map Int.ofNat) t.entries.toList

def ofUnknown (serial : Nat) : String := Sha256.hexDigest (unknownPreimage serial)

def ofOperation (head : String) (args : List String) : String :=
  Sha256.hexDigest (operationPreimage head args)

end DisciplinedConvex.Identity
