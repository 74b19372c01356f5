import TensorLowering.Abi.EntryPoint
import TensorLowering.Pattern.Basic

/-!
# The argument block of a new sparse tensor

All that the library needs to know about a tensor, as numbers: level codes, extents with zero for
the dynamic ones, the level of each dimension, and the codes of the overheads, of the element type
and of the action. The block is computed from the annotation and the result type, and then emitted
as constants in the order of the library's signature.
-/

namespace TensorLowering

/-- The arguments of a new sparse tensor before the pointer. -/
structure TensorBlock where
  levels : List Nat
  /-- Extents, zero where only the running program knows them. -/
  sizes : List Nat
  /-- For each dimension, the level that stores it. -/
  permutation : List Nat
  pointerOverhead : Nat
  indexOverhead : Nat
  primary : Nat
  action : Action
deriving DecidableEq

namespace TensorBlock

/-- The extents of a type, which must be as many as the given rank. -/
def shapeOf (rank : Nat) (ty : Ty) : Except Fault (List Dim) :=
  match ty.shape? with
  | none => .error (.notRanked ty)
  | some shape => if shape.length = rank then .ok shape else .error (.levelCount rank shape.length)

/-- The supported element type behind a type. -/
def primaryOf (element : Ty) : Except Fault Primary :=
  match Primary.of? element with
  | some primary => .ok primary
  | none => .error (.unsupportedElement element)

/-- The level of each dimension under an optional order of the given rank. -/
def permutationOf (rank : Nat) : Option LevelOrder → Except Fault (List Nat)
  | none => .ok (List.range rank)
  | some order =>
    if order.isPermutation && order.rank == rank then .ok order.inverse
    else .error (.orderNotPermutation order rank)

/-- The block of an annotation for a result type. The type must have extents, one for each level;
the order must permute the levels; and the library must support the element type. -/
def encode (sparsity : Sparsity) (ty : Ty) (action : Action) : Except Fault TensorBlock := do
  let shape ← shapeOf sparsity.rank ty
  let permutation ← permutationOf sparsity.rank sparsity.order
  let primary ← primaryOf (ty.element?.getD .index)
  return {
    levels := sparsity.levels.map Level.code
    sizes := shape.map fun dim => dim.size?.getD 0
    permutation
    pointerOverhead := (Overhead.ofWidth sparsity.pointerWidth).code
    indexOverhead := (Overhead.ofWidth sparsity.indexWidth).code
    primary := primary.code
    action }

end TensorBlock

namespace Script

/-- Emits an integer constant. -/
def intConstant (width : Nat) (value : Int) : Script ValueId :=
  createValue (.constant (.int value width)) [] (.int width)

/-- Emits an array of integers and forgets its length, so that one signature serves all ranks. -/
def intArray (width : Nat) (values : List Nat) : Script ValueId := do
  let elements ← createValue (.constant (.dense width values)) []
    (.dense [.static values.length] (.int width))
  createValue .tensorCast [elements] (EntryPoint.anyVector (.int width))

end Script

/-- Emits the block as constants; the values are the arguments of the call, pointer last. -/
def TensorBlock.emit (block : TensorBlock) (pointer : ValueId) : Script (List ValueId) := do
  let levels ← Script.intArray 8 block.levels
  let sizes ← Script.intArray 64 block.sizes
  let permutation ← Script.intArray 64 block.permutation
  let pointerOverhead ← Script.intConstant 64 block.pointerOverhead
  let indexOverhead ← Script.intConstant 64 block.indexOverhead
  let primary ← Script.intConstant 64 block.primary
  let action ← Script.intConstant 32 block.action.code
  return [levels, sizes, permutation, pointerOverhead, indexOverhead, primary, action, pointer]

namespace Site

/-- Replaces the root by a new sparse tensor with the given annotation. -/
def replaceWithNewTensor (site : Site) (sparsity : Sparsity) (action : Action)
    (pointer : ValueId) : Script Unit := do
  let ty ← site.resultType 0
  let block ← Script.ofExcept (TensorBlock.encode sparsity ty action)
  let args ← block.emit pointer
  let _ ← Script.replaceWithCall EntryPoint.newTensor args [.ptr]

/-- Exposes the dense buffer behind a value as a raw pointer. The element type of the root's first
result decides how; nothing is emitted if there is no accessor for it. -/
def exposeBuffer (site : Site) (value : ValueId) : Script ValueId := do
  let ty ← site.resultType 0
  let element ← Script.ofOption ty.element?
  let accessor ← Script.ofOption (EntryPoint.bufferAccessor? element)
  let shape ← Script.ofOption ty.shape?
  let buffer ← Script.createValue .bufferCast [value] (.memref shape element)
  let view ← Script.createValue .memrefCast [buffer] (.unranked element)
  let results ← Script.createCall accessor [view] [.ptr]
  Script.ofExcept (Fault.fetch results 0)

end Site

end TensorLowering
