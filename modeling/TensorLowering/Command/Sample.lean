import TensorLowering.Program.Build

/-!
# The sample program

The program that the `demo` subcommand lowers: one function that makes a sparse matrix and asks
for its number of columns, one that makes a dense matrix sparse, and on request one that changes
the order in which a sparse matrix is stored, for which there is no lowering.
-/

namespace TensorLowering

namespace Command

/-- A matrix of doubles that is stored by rows, with 32-bit overheads. -/
def rowMatrix : Ty :=
  .tensor [.dynamic, .dynamic] .f64
    (some { levels := [.dense, .compressed], pointerWidth := 32, indexWidth := 32 })

/-- A matrix of doubles that is stored by columns. -/
def columnMatrix : Ty :=
  .tensor [.dynamic, .dynamic] .f64
    (some { levels := [.dense, .compressed], order := some ⟨[1, 0]⟩ })

/-- Adds the function that makes a sparse matrix from a source. -/
def addLoad (program : Program) : Except Fault Program := do
  let id := program.nextFunc
  let program ← program.define "load_csr" [.ptr] [rowMatrix, .index]
  let source ← Fault.fetch (← program.func id).args 0
  let new := program.nextOp
  let program ← program.appendOp id .sparseNew [source] [rowMatrix] .nowhere
  let matrix ← program.result new 0
  let constant := program.nextOp
  let program ← program.appendOp id (.constant (.index 1)) [] [.index] .nowhere
  let one ← program.result constant 0
  let dim := program.nextOp
  let program ← program.appendOp id .tensorDim [matrix, one] [.index] .nowhere
  let columns ← program.result dim 0
  program.appendOp id .ret [matrix, columns] [] .nowhere

/-- Adds a function that converts its argument and returns the result. -/
def addConversion (name : String) (source target : Ty) (program : Program) :
    Except Fault Program := do
  let id := program.nextFunc
  let program ← program.define name [source] [target]
  let argument ← Fault.fetch (← program.func id).args 0
  let convert := program.nextOp
  let program ← program.appendOp id .sparseConvert [argument] [target] .nowhere
  let result ← program.result convert 0
  program.appendOp id .ret [result] [] .nowhere

/-- The sample program, with or without the conversion that cannot be lowered. -/
def sample (unsupported : Bool) : Except Fault Program := do
  let program ← addLoad .empty
  let program ← addConversion "sparsify" (.dense [.static 8, .static 8] .f64) rowMatrix program
  if unsupported then addConversion "transpose" rowMatrix columnMatrix program
  else return program

end Command

end TensorLowering
