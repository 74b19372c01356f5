import TensorLowering.Abi.Code

/-!
# Entry points of the runtime library

Compiled code receives an opaque handle from `newSparseTensor` and passes it back to typed
accessors. The element type of the result picks the accessor; types that the library does not
support have none.
-/

namespace TensorLowering

/-- A function of the runtime library. -/
structure EntryPoint where
  name : String
  argTypes : List Ty
  result : Ty
deriving DecidableEq

namespace EntryPoint

/-- The entry point that makes a sparse tensor. -/
def newTensor : String := "newSparseTensor"

/-- The entry point that measures a dimension. -/
def dimSize : String := "sparseDimSize"

/-- The ending of an accessor of pointers or indices with the given element type. -/
def overheadSuffix? : Ty → Option String
  | .index => some ""
  | .int 64 => some "64"
  | .int 32 => some "32"
  | .int 16 => some "16"
  | .int 8 => some "8"
  | _ => none

/-- The entry point that exposes a dense buffer as a raw pointer. -/
def bufferAccessor? (element : Ty) : Option String :=
  (Primary.of? element).map fun primary => "getPtr" ++ primary.suffix

/-- The entry point that reads a pointer array. -/
def pointersAccessor? (element : Ty) : Option String :=
  (overheadSuffix? element).map fun suffix => "sparsePointers" ++ suffix

/-- The entry point that reads an index array. -/
def indicesAccessor? (element : Ty) : Option String :=
  (overheadSuffix? element).map fun suffix => "sparseIndices" ++ suffix

/-- The entry point that reads the stored values. -/
def valuesAccessor? (element : Ty) : Option String :=
  (Primary.of? element).map fun primary => "sparseValues" ++ primary.suffix

/-- A tensor of one dynamic dimension. -/
def anyVector (element : Ty) : Ty := .dense [.dynamic] element

/-- A buffer of one dynamic dimension. -/
def anyBuffer (element : Ty) : Ty := .memref [.dynamic] element

/-- The element types of pointer and index arrays, with the endings of their accessors. -/
def overheadElements : List (Ty × String) :=
  [(.index, ""), (.int 64, "64"), (.int 32, "32"), (.int 16, "16"), (.int 8, "8")]

/-- Every function of the library that the lowering can call. -/
def all : List EntryPoint :=
  [⟨newTensor, [anyVector (.int 8), anyVector (.int 64), anyVector (.int 64),
      .int 64, .int 64, .int 64, .int 32, .ptr], .ptr⟩,
    ⟨dimSize, [.ptr, .index], .index⟩]
  ++ Primary.all.map (fun p => ⟨"getPtr" ++ p.suffix, [.unranked p.ty], .ptr⟩)
  ++ overheadElements.map (fun e => ⟨"sparsePointers" ++ e.2, [.ptr, .index], anyBuffer e.1⟩)
  ++ overheadElements.map (fun e => ⟨"sparseIndices" ++ e.2, [.ptr, .index], anyBuffer e.1⟩)
  ++ Primary.all.map (fun p => ⟨"sparseValues" ++ p.suffix, [.ptr], anyBuffer p.ty⟩)

/-- The signature as it is printed. -/
def signature (entry : EntryPoint) : String :=
  "(" ++ Ty.renderAll entry.argTypes ++ ") -> " ++ entry.result.render

end EntryPoint

end TensorLowering
