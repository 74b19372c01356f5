import TensorLowering.Conversion.Legality
import TensorLowering.Conversion.Renaming
import TensorLowering.Conversion.TypeMap
import TensorLowering.Pattern.Basic
import TensorLowering.Program.Printer

/-!
# Partial conversion

A conversion runs in four phases over the functions that have a body when it starts.

1. Signatures are converted by the type map; a changed argument gets a fresh value.
2. Each block is walked in order. An operation is offered to the patterns rooted at its name, and
   the first one that succeeds replaces it; operations created on the way are not offered.
3. The operands of everything that stands in a block are renamed.
4. Every operation that is still illegal is reported.

An attempt that declines is taken back: the operations it created are marked as erased and the
functions it declared disappear together with their names. What it recorded in the log stays. A
fault stops the conversion; the log up to it is handed back in place of a program.
-/

namespace TensorLowering

namespace Conversion

/-- What a conversion counts. -/
structure Stats where
  /-- Operations that a pattern replaced. -/
  converted : Nat := 0
  /-- Attempts that declined. -/
  declined : Nat := 0
  /-- Functions whose signature changed. -/
  signatures : Nat := 0
deriving DecidableEq

/-- A conversion under way. -/
structure Progress where
  program : Program
  aliases : Renaming := {}
  stats : Stats := {}
  log : List Event := []

/-- The result of a conversion. The program is the converted one also when errors remain. -/
structure Outcome where
  program : Program
  /-- The counts, or one diagnostic for each illegal operation. -/
  result : Except (List Diagnostic) Stats
  log : List Event

/-! ### Signatures -/

/-- Converts one argument. -/
def convertArg (types : TypeMap) (id : FuncId) (index : Nat) (ty : Ty) (state : Progress) :
    Except Fault Progress :=
  let converted := types.convert ty
  if converted = ty then
    .ok state
  else do
    let func ← state.program.func id
    let old ← Fault.fetch func.args index
    return { state with
      program := state.program.replaceArg id index converted
      aliases := state.aliases.insert old ⟨state.program.values.length⟩ }

/-- Converts the arguments from a position on. -/
def convertArgs (types : TypeMap) (id : FuncId) :
    Nat → List Ty → Progress → Except Fault Progress
  | _, [], state => .ok state
  | index, ty :: rest, state => do
    let state ← convertArg types id index ty state
    convertArgs types id (index + 1) rest state

/-- The type map changes an argument or a result of the function. -/
def changesSignature (types : TypeMap) (func : Func) : Bool :=
  !(func.argTypes.all types.isLegal && func.resultTypes.all types.isLegal)

/-- Converts the argument and result types of a function. -/
def convertSignature (types : TypeMap) (id : FuncId) (state : Progress) :
    Except Fault Progress := do
  let func ← state.program.func id
  let state ← convertArgs types id 0 func.argTypes state
  let program := state.program.modifyFunc id fun func =>
    { func with resultTypes := func.resultTypes.map types.convert }
  if changesSignature types func then
    return { state with
      program, stats := { state.stats with signatures := state.stats.signatures + 1 } }
  else
    return { state with program }

/-! ### Blocks -/

/-- Takes back what a declined attempt did to a program that had the given number of functions. -/
def rollBack (funcs : Nat) (attempt : Attempt) : Program :=
  (attempt.inserted.foldl Program.eraseOp attempt.program).truncateFuncs funcs

/-- Puts a list of operations in the place of one. -/
def splice (target : OpId) (inserted : List OpId) : List OpId → Option (List OpId)
  | [] => none
  | id :: rest =>
    if id = target then some (inserted ++ rest)
    else (splice target inserted rest).map (id :: ·)

/-- The values that replace the root. A pattern that succeeds must have named them. -/
def replacementOf (pattern : Pattern) (root : Operation) (attempt : Attempt) :
    Except Fault (List ValueId) :=
  match attempt.replacement with
  | some values => .ok values
  | none => .error (.notReplaced pattern.name root.name)

/-- The block of a function with new operations in the place of one. -/
def blockAfter (target : OpId) (inserted : List OpId) (func : Func) :
    Except Fault (List OpId) :=
  match func.body with
  | none => .error (.noBody func.name)
  | some body =>
    match splice target inserted body with
    | some block => .ok block
    | none => .error (.notInBody target.index func.name)

/-- Finishes a successful attempt: its operations take the place of the root, which is erased, and
the results of the root are renamed. -/
def commit (pattern : Pattern) (funcId : FuncId) (opId : OpId) (root : Operation)
    (attempt : Attempt) (aliases : Renaming) : Except Fault (Program × Renaming) := do
  let values ← replacementOf pattern root attempt
  let func ← attempt.program.func funcId
  let block ← blockAfter opId attempt.inserted func
  let program := attempt.program.modifyFunc funcId fun func => { func with body := some block }
  return (program.eraseOp opId, aliases.insertAll root.results values)

/-- Offers an operation to the patterns in turn, until one succeeds. -/
def offer (funcId : FuncId) (opId : OpId) (site : Site) :
    List Pattern → Progress → Except Halt Progress
  | [], state => .ok state
  | pattern :: rest, state => do
    let (result, attempt) ← (pattern.attempt site).run site.root
      { program := state.program, log := state.log }
    match result with
    | some () =>
      let log := attempt.log ++ [.replaced site.root.name pattern.label]
      let (program, aliases) ← Halt.guard log
        (commit pattern funcId opId site.root attempt state.aliases)
      return {
        program, aliases, log
        stats := { state.stats with converted := state.stats.converted + 1 } }
    | none =>
      offer funcId opId site rest { state with
        program := rollBack state.program.funcs.length attempt
        log := attempt.log ++ [.declined site.root.name pattern.label]
        stats := { state.stats with declined := state.stats.declined + 1 } }

/-- Converts one operation of a block, unless it was erased. -/
def convertOp (patterns : List Pattern) (funcId : FuncId) (opId : OpId) (state : Progress) :
    Except Halt Progress := do
  let root ← Halt.guard state.log (state.program.op opId)
  if root.erased then
    return state
  else
    let site : Site := { id := opId, root, operands := root.operands.map state.aliases.resolve }
    offer funcId opId site (Pattern.rootedAt patterns root.name) state

/-- Converts operations in order. -/
def convertOps (patterns : List Pattern) (funcId : FuncId) :
    List OpId → Progress → Except Halt Progress
  | [], state => .ok state
  | opId :: rest, state => do
    let state ← convertOp patterns funcId opId state
    convertOps patterns funcId rest state

/-- Converts the block of a function as it stands before the walk. -/
def convertBody (patterns : List Pattern) (funcId : FuncId) (state : Progress) :
    Except Halt Progress := do
  let body ← Halt.guard state.log (state.program.bodyOps funcId)
  convertOps patterns funcId body state

/-! ### Operands and legality -/

/-- Renames the operands of one operation. -/
def renameOperands (aliases : Renaming) (program : Program) (id : OpId) : Program :=
  program.modifyOp id fun op => { op with operands := op.operands.map aliases.resolve }

/-- Renames the operands of a whole block. -/
def renameBody (aliases : Renaming) (id : FuncId) (program : Program) : Except Fault Program := do
  let body ← program.bodyOps id
  return body.foldl (renameOperands aliases) program

/-- The report about an operation that may not remain. -/
def illegalOp (op : Operation) (func text : String) : Diagnostic :=
  ((Diagnostic.error ("failed to legalize operation '" ++ op.name ++ "'") op.span).withNote
    ("in function @" ++ func)).withNote text

/-- The reports about the illegal operations of a block, in order. -/
def illegalOps (legality : Legality) (program : Program) (func : String) :
    List OpId → Except Fault (List Diagnostic)
  | [] => .ok []
  | id :: rest => do
    let op ← program.op id
    if ← legality.isLegal program op then
      illegalOps legality program func rest
    else
      let text ← program.renderOp id
      let reports ← illegalOps legality program func rest
      return illegalOp op func text :: reports

/-- The reports about the illegal operations of several functions, in order. -/
def illegalIn (legality : Legality) (program : Program) :
    List FuncId → Except Fault (List Diagnostic)
  | [] => .ok []
  | id :: rest => do
    let func ← program.func id
    let here ← illegalOps legality program func.name func.bodyOps
    let there ← illegalIn legality program rest
    return here ++ there

/-! ### The whole conversion -/

/-- Performs a step for each function in turn. -/
def forEach {σ ε : Type} (step : FuncId → σ → Except ε σ) : List FuncId → σ → Except ε σ
  | [], state => .ok state
  | id :: rest, state => do
    let state ← step id state
    forEach step rest state

/-- Converts the signatures and walks the blocks. Operands still have their old names after it. -/
def walk (patterns : List Pattern) (types : TypeMap) (program : Program) :
    Except Halt Progress := do
  let state ← Halt.guard [] (forEach (convertSignature types) program.definedFuncs { program })
  forEach (convertBody patterns) program.definedFuncs state

/-- Converts a program as far as the patterns go. -/
def run (patterns : List Pattern) (types : TypeMap) (legality : Legality) (program : Program) :
    Except Halt Outcome := do
  let defined := program.definedFuncs
  let state ← walk patterns types program
  let program ← Halt.guard state.log (forEach (renameBody state.aliases) defined state.program)
  let reports ← Halt.guard state.log (illegalIn legality program defined)
  let stats := state.stats
  return {
    program
    result := if reports.isEmpty then .ok stats else .error reports
    log := state.log ++
      [.finished stats.converted stats.declined stats.signatures reports.length] }

end Conversion

end TensorLowering
