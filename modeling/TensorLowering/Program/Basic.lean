import TensorLowering.Diagnostic

/-!
# Programs in single-assignment form

A program owns three arenas, of values, operations and functions, and a table of function names.
An id is a position in its arena. Arenas only grow at their end, apart from functions whose
declaration is taken back, so an id keeps its meaning. A function with a body holds one block, an
ordered list of operation ids; a function without one is an external declaration.

Nothing in the types forces ids to be in range. Reading through a dangling id is a fault that
names the size of the arena and the id.
-/

namespace TensorLowering

/-- The position of a value. -/
structure ValueId where
  index : Nat
deriving DecidableEq

/-- The position of an operation. -/
structure OpId where
  index : Nat
deriving DecidableEq

/-- The position of a function. -/
structure FuncId where
  index : Nat
deriving DecidableEq

/-- What a constant operation produces. -/
inductive Constant where
  | int (value : Int) (width : Nat)
  | index (value : Int)
  /-- An array of integers of one width. -/
  | dense (width : Nat) (values : List Nat)
deriving DecidableEq

/-- The vocabularies that operations come from. -/
inductive Dialect where
  | func
  | arith
  | tensor
  | memref
  | sparseTensor
deriving DecidableEq

/-- The name of a vocabulary. -/
def Dialect.name : Dialect → String
  | func => "func"
  | arith => "arith"
  | tensor => "tensor"
  | memref => "memref"
  | sparseTensor => "sparse_tensor"

/-- What an operation does. -/
inductive OpKind where
  /-- Leave the enclosing function with the operands. -/
  | ret
  | call (callee : String)
  | constant (value : Constant)
  /-- Forget static extents of a tensor type. -/
  | tensorCast
  /-- The extent of a tensor along one dimension. -/
  | tensorDim
  /-- View a tensor as a buffer. -/
  | bufferCast
  /-- View a buffer under another type, also one of unknown rank. -/
  | memrefCast
  /-- Make a sparse tensor from a source. -/
  | sparseNew
  /-- Change the storage format of a tensor. -/
  | sparseConvert
  | toPointers
  | toIndices
  | toValues
  /-- Put a sparse tensor together from its arrays. -/
  | toTensor
deriving DecidableEq

namespace OpKind

/-- The vocabulary of an operation. -/
def dialect : OpKind → Dialect
  | ret | call _ => .func
  | constant _ => .arith
  | tensorCast | tensorDim => .tensor
  | bufferCast | memrefCast => .memref
  | sparseNew | sparseConvert | toPointers | toIndices | toValues | toTensor => .sparseTensor

/-- The name of an operation, qualified by its vocabulary. -/
def name : OpKind → String
  | ret => "func.return"
  | call _ => "func.call"
  | constant _ => "arith.constant"
  | tensorCast => "tensor.cast"
  | tensorDim => "tensor.dim"
  | bufferCast => "memref.buffer_cast"
  | memrefCast => "memref.cast"
  | sparseNew => "sparse_tensor.new"
  | sparseConvert => "sparse_tensor.convert"
  | toPointers => "sparse_tensor.pointers"
  | toIndices => "sparse_tensor.indices"
  | toValues => "sparse_tensor.values"
  | toTensor => "sparse_tensor.tensor"

/-- The function that a call names. -/
def callee? : OpKind → Option String
  | call callee => some callee
  | _ => none

end OpKind

/-- One operation of the arena. An erased operation belongs to no block. -/
structure Operation where
  kind : OpKind
  operands : List ValueId
  results : List ValueId
  span : Span
  erased : Bool := false
deriving DecidableEq

/-- The qualified name of an operation. -/
def Operation.name (op : Operation) : String := op.kind.name

/-- Where a value comes from. -/
inductive Origin where
  | argument (func : FuncId) (index : Nat)
  | result (op : OpId) (index : Nat)
deriving DecidableEq

/-- The operation that produces a value of this origin. -/
def Origin.op? : Origin → Option OpId
  | argument _ _ => none
  | result op _ => some op

/-- One value of the arena. -/
structure Value where
  ty : Ty
  origin : Origin
deriving DecidableEq

/-- One function. -/
structure Func where
  name : String
  args : List ValueId
  argTypes : List Ty
  resultTypes : List Ty
  /-- The block, or nothing for an external declaration. -/
  body : Option (List OpId)
  isPublic : Bool
deriving DecidableEq

namespace Func

/-- A function without a body. -/
def isDeclaration (func : Func) : Bool := func.body.isNone

/-- The operations of the block, none for a declaration. -/
def bodyOps (func : Func) : List OpId := func.body.getD []

end Func

/-- Function names with their ids, the newest first. -/
structure SymbolTable where
  entries : List (String × FuncId) := []
deriving DecidableEq

namespace SymbolTable

/-- The function of a name. -/
def lookup? (table : SymbolTable) (name : String) : Option FuncId :=
  table.entries.lookup name

/-- Gives a name to a function. -/
def insert (table : SymbolTable) (name : String) (func : FuncId) : SymbolTable :=
  ⟨(name, func) :: table.entries⟩

/-- Forgets a name. -/
def erase (table : SymbolTable) (name : String) : SymbolTable :=
  ⟨table.entries.filter fun entry => entry.1 ≠ name⟩

end SymbolTable

/-- A compilation unit. -/
structure Program where
  values : List Value := []
  ops : List Operation := []
  funcs : List Func := []
  symbols : SymbolTable := {}
deriving DecidableEq

namespace Program

/-- The program without functions. -/
def empty : Program := {}

/-- The value of an id. -/
def value (program : Program) (id : ValueId) : Except Fault Value :=
  Fault.fetch program.values id.index

/-- The type of a value. -/
def typeOf (program : Program) (id : ValueId) : Except Fault Ty := do
  return (← program.value id).ty

/-- The types of several values; the first dangling id is the fault. -/
def typesOf (program : Program) : List ValueId → Except Fault (List Ty)
  | [] => .ok []
  | id :: rest => do
    let ty ← program.typeOf id
    let types ← program.typesOf rest
    return ty :: types

/-- The operation that produces a value, or nothing for an argument. -/
def definingOp? (program : Program) (id : ValueId) : Except Fault (Option OpId) := do
  return (← program.value id).origin.op?

/-- The operation of an id. -/
def op (program : Program) (id : OpId) : Except Fault Operation :=
  Fault.fetch program.ops id.index

/-- One result of an operation. -/
def result (program : Program) (id : OpId) (index : Nat) : Except Fault ValueId := do
  Fault.fetch (← program.op id).results index

/-- The function of an id. -/
def func (program : Program) (id : FuncId) : Except Fault Func :=
  Fault.fetch program.funcs id.index

/-- All function ids, in order. -/
def funcIds (program : Program) : List FuncId :=
  (List.range program.funcs.length).map FuncId.mk

/-- The function of a name. -/
def lookupFunc? (program : Program) (name : String) : Option FuncId :=
  program.symbols.lookup? name

/-- The block of a function, empty for a declaration. -/
def bodyOps (program : Program) (id : FuncId) : Except Fault (List OpId) := do
  return (← program.func id).bodyOps

/-- The operations of every block, in the order of the functions. -/
def allOps (program : Program) : List OpId := program.funcs.flatMap Func.bodyOps

/-- The functions that have a body, in order. -/
def definedFuncs (program : Program) : List FuncId :=
  program.funcIds.filter fun id => program.funcs[id.index]?.any fun func => !func.isDeclaration

end Program

end TensorLowering
