import TensorLowering.Program.Build

/-!
# The textual form of programs

An operation prints with the types of its operands and results, so printing reads through value
ids and can meet a dangling one. All types of an operation are read before any of its text is
made.
-/

namespace TensorLowering

/-- A value as it is written in programs. -/
def ValueId.render (id : ValueId) : String := "%" ++ toString id.index

/-- Values in order, separated by commas. -/
def ValueId.renderAll (ids : List ValueId) : String := Text.commaSep (ids.map ValueId.render)

/-- The payload of a constant. -/
def Constant.render : Constant → String
  | int value _ => toString value
  | index value => toString value
  | dense _ values => "dense<[" ++ Text.commaSep (values.map fun n => toString n) ++ "]>"

namespace Operation

/-- What follows the name of an operation, given the types of its operands and results. -/
def renderTail (op : Operation) (operandTypes resultTypes : List Ty) : String :=
  match op.kind with
  | .constant value => " " ++ value.render ++ " : " ++ Ty.renderResults resultTypes
  | .call callee =>
    " @" ++ callee ++ "(" ++ ValueId.renderAll op.operands ++ ") : ("
      ++ Ty.renderAll operandTypes ++ ") -> " ++ Ty.renderResults resultTypes
  | _ =>
    if op.operands.isEmpty then
      if op.results.isEmpty then "" else " : " ++ Ty.renderResults resultTypes
    else
      " " ++ ValueId.renderAll op.operands ++ " : " ++ Ty.renderAll operandTypes
        ++ if op.results.isEmpty then "" else " -> " ++ Ty.renderResults resultTypes

/-- An operation, given the types of its operands and results. -/
def render (op : Operation) (operandTypes resultTypes : List Ty) : String :=
  (if op.results.isEmpty then "" else ValueId.renderAll op.results ++ " = ")
    ++ op.name ++ op.renderTail operandTypes resultTypes

end Operation

namespace Func

/-- One argument with its name. -/
def renderArg (id : ValueId) (ty : Ty) : String := id.render ++ ": " ++ ty.render

/-- The arguments; only functions with a body name theirs. -/
def renderArgs (func : Func) : String :=
  if func.isDeclaration then Ty.renderAll func.argTypes
  else Text.commaSep (List.zipWith renderArg func.args func.argTypes)

/-- The line that introduces a function. -/
def renderSignature (func : Func) : String :=
  "func.func " ++ (if func.isPublic then "" else "private ") ++ "@" ++ func.name
    ++ "(" ++ func.renderArgs ++ ")"
    ++ if func.resultTypes.isEmpty then "" else " -> " ++ Ty.renderResults func.resultTypes

end Func

namespace Program

/-- The text of one operation. -/
def renderOp (program : Program) (id : OpId) : Except Fault String := do
  let op ← program.op id
  let operandTypes ← program.typesOf op.operands
  let resultTypes ← program.typesOf op.results
  return op.render operandTypes resultTypes

/-- The lines of a block. -/
def renderBlock (program : Program) : List OpId → Except Fault (List String)
  | [] => .ok []
  | id :: rest => do
    let text ← program.renderOp id
    let lines ← program.renderBlock rest
    return ("    " ++ text ++ "\n") :: lines

/-- The text of one function. -/
def renderFunc (program : Program) (func : Func) : Except Fault String :=
  match func.body with
  | none => .ok ("  " ++ func.renderSignature ++ "\n")
  | some body => do
    let lines ← program.renderBlock body
    return "  " ++ func.renderSignature ++ " \x7b\n" ++ String.join lines ++ "  \x7d\n"

/-- The text of several functions. -/
def renderFuncs (program : Program) : List Func → Except Fault (List String)
  | [] => .ok []
  | func :: rest => do
    let text ← program.renderFunc func
    let texts ← program.renderFuncs rest
    return text :: texts

/-- The text of a program. -/
def render (program : Program) : Except Fault String := do
  let funcs ← program.renderFuncs program.funcs
  return "module \x7b\n" ++ String.join funcs ++ "\x7d"

end Program

end TensorLowering
