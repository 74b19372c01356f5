import TensorLowering.Conversion.Run
import TensorLowering.Lowering.Rules

/-!
# Lowering a program

The conversion that the rules are made for. Sparse tensor types become the handle type; after it
no operation on sparse tensors may remain, no return may carry a sparse tensor, and no extent may
be asked of a sparse tensor or of a handle.
-/

namespace TensorLowering

namespace Lowering

/-- Sparse tensor types become the handle type. -/
def handleTypes : TypeMap :=
  TypeMap.add {} fun ty => if ty.isSparse then some .ptr else none

/-- An extent may be asked of dense tensors and buffers only. -/
def denseSource (program : Program) (op : Operation) : Except Fault Bool := do
  let source ← Fault.fetch op.operands 0
  let ty ← program.typeOf source
  return !ty.isSparse && !ty.isPtr

/-- What may remain after the lowering. -/
def legality : Legality :=
  ((Legality.forbid {} Dialect.sparseTensor.name).withRule OpKind.ret.name
    fun program op => Legality.noneSparse program op.operands).withRule OpKind.tensorDim.name
    denseSource

/-- Lowers all operations on sparse tensors to calls into the runtime library. -/
def lower (program : Program) : Except Halt Conversion.Outcome :=
  Conversion.run rules handleTypes legality program

end Lowering

end TensorLowering
