import TensorLowering.Ty.Sparsity

/-!
# Value types

Scalars, the opaque handle of a tensor that the runtime library owns, ranked tensors with an
optional sparsity annotation, and buffers of known or unknown rank.
-/

namespace TensorLowering

/-- The extent of one dimension. -/
inductive Dim where
  | static (size : Nat)
  /-- Known only when the program runs. -/
  | dynamic
deriving DecidableEq

namespace Dim

/-- The extent when it is known. -/
def size? : Dim → Option Nat
  | static size => some size
  | dynamic => none

/-- The extent in decimal, or a question mark. -/
def render : Dim → String
  | static size => toString size
  | dynamic => "?"

end Dim

/-- The type of a value. -/
inductive Ty where
  | index
  | int (width : Nat)
  | f16
  | bf16
  | f32
  | f64
  /-- The opaque handle of a tensor that the runtime library owns. -/
  | ptr
  | tensor (shape : List Dim) (element : Ty) (sparsity : Option Sparsity)
  | memref (shape : List Dim) (element : Ty)
  /-- A buffer of unknown rank. -/
  | unranked (element : Ty)
deriving DecidableEq

namespace Ty

/-- A tensor without an annotation. -/
def dense (shape : List Dim) (element : Ty) : Ty := tensor shape element none

/-- The annotation of a sparse tensor. -/
def sparsity? : Ty → Option Sparsity
  | tensor _ _ sparsity => sparsity
  | _ => none

/-- Tensors with an annotation are the sparse ones. -/
def isSparse (ty : Ty) : Bool := ty.sparsity?.isSome

/-- Recognizes the opaque handle. -/
def isPtr : Ty → Bool
  | ptr => true
  | _ => false

/-- Recognizes the integer type of exactly the given width. -/
def isInt (width : Nat) : Ty → Bool
  | int w => w == width
  | _ => false

/-- What a tensor or buffer is made of. -/
def element? : Ty → Option Ty
  | tensor _ element _ => some element
  | memref _ element => some element
  | unranked element => some element
  | _ => none

/-- The extents of a tensor or ranked buffer. -/
def shape? : Ty → Option (List Dim)
  | tensor shape _ _ => some shape
  | memref shape _ => some shape
  | _ => none

/-- The number of dimensions of a tensor; buffers have none here. -/
def tensorRank? : Ty → Option Nat
  | tensor shape _ _ => some shape.length
  | _ => none

/-- Each extent followed by a cross. -/
def renderShape : List Dim → String
  | [] => ""
  | dim :: rest => dim.render ++ "x" ++ renderShape rest

/-- The annotation of a tensor after its separating comma, empty without one. -/
def renderSparsity : Option Sparsity → String
  | none => ""
  | some sparsity => ", " ++ sparsity.render

/-- The textual form of a type. -/
def render : Ty → String
  | index => "index"
  | int width => "i" ++ toString width
  | f16 => "f16"
  | bf16 => "bf16"
  | f32 => "f32"
  | f64 => "f64"
  | ptr => "!llvm.ptr<i8>"
  | tensor shape element sparsity =>
    "tensor<" ++ renderShape shape ++ element.render ++ renderSparsity sparsity ++ ">"
  | memref shape element => "memref<" ++ renderShape shape ++ element.render ++ ">"
  | unranked element => "memref<*x" ++ element.render ++ ">"

/-- The types in order, separated by commas. -/
def renderAll (types : List Ty) : String := Text.commaSep (types.map render)

/-- A list of result types: one type stands alone, any other number is put in parentheses. -/
def renderResults : List Ty → String
  | [single] => single.render
  | types => "(" ++ renderAll types ++ ")"

end Ty

end TensorLowering
