import TensorLowering.Program.Build

/-!
# Scripts: what one attempt asks for

A pattern never edits a program directly. It describes its attempt as a script, a tree of requests
with a continuation for each possible reply, and the script is run against the program. The only
requests are to look at the program, to create an operation in front of the root, to declare a
function, and to name the values that replace the root's results. Every script is finite, so a
statement about arbitrary attempts is an induction over the tree.

Created operations are held back in the attempt: they enter a block only if the attempt succeeds.
-/

namespace TensorLowering

/-- Something worth recording while a program is converted. -/
inductive Event where
  /-- A pattern replaced an operation. -/
  | replaced (op pattern : String)
  /-- A pattern was offered an operation and left it. -/
  | declined (op pattern : String)
  /-- A function was declared that had no symbol yet. -/
  | declared (name : String)
  | finished (converted declined signatures illegal : Nat)
deriving DecidableEq

/-- A run that stopped early: the fault, and what was recorded before it. -/
structure Halt where
  fault : Fault
  log : List Event
deriving DecidableEq

/-- Stops a run at a fault, with what was recorded so far. -/
def Halt.guard {α : Type} (log : List Event) : Except Fault α → Except Halt α
  | .ok result => .ok result
  | .error fault => .error ⟨fault, log⟩

/-- A finite tree of requests that ends with a result, a decline or a fault. -/
inductive Script (α : Type) where
  | done (result : α)
  /-- Give the root up to the next pattern. -/
  | decline
  | fail (fault : Fault)
  | inspect (next : Program → Script α)
  /-- Create an operation in front of the root; the reply is its results. -/
  | create (kind : OpKind) (operands : List ValueId) (types : List Ty)
      (next : List ValueId → Script α)
  | declare (name : String) (argTypes resultTypes : List Ty) (next : Script α)
  /-- Replace the results of the root by the given values. -/
  | replace (values : List ValueId) (next : Script α)

namespace Script

variable {α β : Type}

/-- Continues a script with its result. -/
def bind (script : Script α) (next : α → Script β) : Script β :=
  match script with
  | done result => next result
  | decline => decline
  | fail fault => fail fault
  | inspect k => inspect fun program => (k program).bind next
  | create kind operands types k => create kind operands types fun results => (k results).bind next
  | declare name argTypes resultTypes k => declare name argTypes resultTypes (k.bind next)
  | replace values k => replace values (k.bind next)

instance : Monad Script where
  pure := done
  bind := bind

/-- A computation that may meet a fault. -/
def ofExcept : Except Fault α → Script α
  | .ok result => done result
  | .error fault => fail fault

/-- A computation that may have no result, in which case the script declines. -/
def ofOption : Option α → Script α
  | some result => done result
  | none => decline

/-- The type of a value. -/
def typeOf (id : ValueId) : Script Ty := inspect fun program => ofExcept (program.typeOf id)

/-- Creates an operation with one result. -/
def createValue (kind : OpKind) (operands : List ValueId) (ty : Ty) : Script ValueId :=
  create kind operands [ty] fun results => ofExcept (Fault.fetch results 0)

/-- Calls a function, which is declared from the operand types when its name is new. -/
def createCall (callee : String) (operands : List ValueId) (types : List Ty) :
    Script (List ValueId) :=
  inspect fun program =>
    (ofExcept (program.typesOf operands)).bind fun argTypes =>
      declare callee argTypes types (create (.call callee) operands types done)

/-- Creates an operation and replaces the root by its results. -/
def replaceWithNew (kind : OpKind) (operands : List ValueId) (types : List Ty) :
    Script (List ValueId) :=
  create kind operands types fun results => replace results (done results)

/-- Calls a function and replaces the root by the results of the call. -/
def replaceWithCall (callee : String) (operands : List ValueId) (types : List Ty) :
    Script (List ValueId) :=
  (createCall callee operands types).bind fun results => replace results (done results)

end Script

/-- The state of a running attempt. -/
structure Attempt where
  program : Program
  /-- The operations created so far, in order. -/
  inserted : List OpId := []
  replacement : Option (List ValueId) := none
  /-- What was recorded, before the attempt and in it. -/
  log : List Event := []

namespace Attempt

/-- Creates an operation with the given span. -/
def create (attempt : Attempt) (kind : OpKind) (operands : List ValueId) (types : List Ty)
    (span : Span) : Attempt :=
  { attempt with
    program := attempt.program.addOp kind operands types span
    inserted := attempt.inserted ++ [attempt.program.nextOp] }

/-- Declares a function, and records it if the name is new. -/
def declare (attempt : Attempt) (name : String) (argTypes resultTypes : List Ty) : Attempt :=
  { attempt with
    program := attempt.program.declare name argTypes resultTypes
    log := attempt.log ++
      if (attempt.program.lookupFunc? name).isSome then [] else [.declared name] }

/-- Replaces the results of the root, once and by as many values as it has results. -/
def replace (attempt : Attempt) (root : Operation) (values : List ValueId) :
    Except Fault Attempt :=
  if attempt.replacement.isSome then
    .error (.replacedTwice root.name)
  else if values.length = root.results.length then
    .ok { attempt with replacement := some values }
  else
    .error (.replacementCount root.name values.length root.results.length)

end Attempt

/-- Runs a script for a root. A decline has no result but keeps the state that it leaves behind. -/
def Script.run {α : Type} (root : Operation) :
    Script α → Attempt → Except Halt (Option α × Attempt)
  | done result, attempt => .ok (some result, attempt)
  | decline, attempt => .ok (none, attempt)
  | fail fault, attempt => .error ⟨fault, attempt.log⟩
  | inspect next, attempt => (next attempt.program).run root attempt
  | create kind operands types next, attempt =>
    (next (attempt.program.nextValues types.length)).run root
      (attempt.create kind operands types root.span)
  | declare name argTypes resultTypes next, attempt =>
    next.run root (attempt.declare name argTypes resultTypes)
  | replace values next, attempt =>
    match attempt.replace root values with
    | .ok attempt => next.run root attempt
    | .error fault => .error ⟨fault, attempt.log⟩

end TensorLowering
