import TensorLowering.Abi.TensorBlock

/-!
# Rules that lower sparse tensors to handles

Eight patterns. Returns are built again with renamed operands. Queries and constructions become
calls into the runtime library, and a tensor that is put together from arrays of one handle
becomes that handle. A rule declines where another owner is responsible: dense operands, formats
that cannot be converted, element types without an accessor, arrays of different handles.
-/

namespace TensorLowering

namespace Lowering

/-- A return is built again with its renamed operands. -/
def returnRule : Pattern where
  name := "ReturnConverter"
  root := OpKind.ret.name
  attempt site := do
    let _ ← Script.replaceWithNew .ret site.operands []

/-- The extent of a handle is asked of the library. -/
def dimSizeRule : Pattern where
  name := "DimSizeConverter"
  root := OpKind.tensorDim.name
  attempt site := do
    let tensor ← site.operand 0
    let ty ← Script.typeOf tensor
    if ty.isPtr then
      let result ← site.resultType 0
      let _ ← Script.replaceWithCall EntryPoint.dimSize site.operands [result]
    else
      Script.decline

/-- A new sparse tensor is made by the library from its source. -/
def newRule : Pattern where
  name := "NewConverter"
  root := OpKind.sparseNew.name
  attempt site := do
    let ty ← site.resultType 0
    let sparsity ← Script.ofOption ty.sparsity?
    let source ← site.operand 0
    site.replaceWithNewTensor sparsity .fromMetadata source

/-- A dense tensor is handed to the library, which makes a sparse one from its buffer. The source
counts as dense by the operand that the conversion was built with. -/
def convertRule : Pattern where
  name := "ConvertConverter"
  root := OpKind.sparseConvert.name
  attempt site := do
    let ty ← site.resultType 0
    let sparsity ← Script.ofOption ty.sparsity?
    let source ← site.source 0
    let sourceTy ← Script.typeOf source
    if sourceTy.isSparse then
      Script.decline
    else
      let operand ← site.operand 0
      let pointer ← site.exposeBuffer operand
      site.replaceWithNewTensor sparsity .fromData pointer

/-- Reads an array of a handle through the accessor that its element type picks. -/
def readArray (accessor? : Ty → Option String) (site : Site) : Script Unit := do
  let ty ← site.resultType 0
  let accessor ← Script.ofOption (ty.element?.bind accessor?)
  let _ ← Script.replaceWithCall accessor site.operands [ty]

/-- Pointer arrays are read through the library. -/
def pointersRule : Pattern where
  name := "ToPointersConverter"
  root := OpKind.toPointers.name
  attempt := readArray EntryPoint.pointersAccessor?

/-- Index arrays are read through the library. -/
def indicesRule : Pattern where
  name := "ToIndicesConverter"
  root := OpKind.toIndices.name
  attempt := readArray EntryPoint.indicesAccessor?

/-- Stored values are read through the library. -/
def valuesRule : Pattern where
  name := "ToValuesConverter"
  root := OpKind.toValues.name
  attempt := readArray EntryPoint.valuesAccessor?

/-- What one operand says about the handle that a tensor is put together from. -/
inductive Evidence where
  /-- The operand is not the result of a call. -/
  | silent
  /-- The operand was read from this handle. -/
  | handle (id : ValueId)
  /-- The operand comes from a call that was not given a handle first. -/
  | foreign
deriving DecidableEq

/-- The evidence of one operand. -/
def evidence (program : Program) (operand : ValueId) : Except Fault Evidence := do
  match ← program.definingOp? operand with
  | none => return .silent
  | some id =>
    let op ← program.op id
    if op.kind.callee?.isNone then
      return .silent
    else
      match op.operands with
      | [] => return .foreign
      | first :: _ =>
        let ty ← program.typeOf first
        return if ty.isPtr then .handle first else .foreign

/-- The one handle that all calls among the operands were given, if there is exactly one. Operands
after the first contradiction are not looked at. -/
def commonHandle (program : Program) :
    Option ValueId → List ValueId → Except Fault (Option ValueId)
  | found, [] => .ok found
  | found, operand :: rest => do
    match ← evidence program operand with
    | .silent => commonHandle program found rest
    | .foreign => return none
    | .handle id =>
      if found.isNone || found == some id then commonHandle program (some id) rest
      else return none

/-- A tensor that is put together from arrays of one handle is that handle. -/
def tensorRule : Pattern where
  name := "ToTensorConverter"
  root := OpKind.toTensor.name
  attempt site := .inspect fun program => do
    let found ← Script.ofExcept (commonHandle program none site.operands)
    let handle ← Script.ofOption found
    .replace [handle] (.done ())

/-- All rules, in the order in which they are tried. -/
def rules : List Pattern :=
  [returnRule, dimSizeRule, newRule, convertRule, pointersRule, indicesRule, valuesRule, tensorRule]

end Lowering

end TensorLowering
