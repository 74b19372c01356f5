import TensorLowering.Program.Basic
import TensorLowering.Ty.Test

/-!
# Legality of operations

Which operations may remain after a conversion. A whole vocabulary can be illegal; a rule for one
kind of operation decides by looking at the operation; everything else is legal. A rule reads the
program through value ids, so it can meet a dangling one.
-/

namespace TensorLowering

/-- A decision about one operation of a program. -/
abbrev LegalityRule := Program → Operation → Except Fault Bool

/-- What may remain after a conversion. -/
structure Legality where
  /-- Names of the vocabularies that may not remain. -/
  illegal : List String := []
  /-- Rules by operation name, the newest first. -/
  rules : List (String × LegalityRule) := []

namespace Legality

/-- Makes a vocabulary illegal. -/
def forbid (legality : Legality) (dialect : String) : Legality :=
  { legality with illegal := legality.illegal ++ [dialect] }

/-- Sets the rule of one kind of operation, in place of an earlier one. -/
def withRule (legality : Legality) (op : String) (rule : LegalityRule) : Legality :=
  { legality with rules := (op, rule) :: legality.rules }

/-- The operation may remain. -/
def isLegal (legality : Legality) (program : Program) (op : Operation) : Except Fault Bool :=
  if legality.illegal.contains op.kind.dialect.name then
    .ok false
  else
    match legality.rules.lookup op.name with
    | some rule => rule program op
    | none => .ok true

/-- No value of the list is a sparse tensor. The first sparse one settles the answer. -/
def noneSparse (program : Program) : List ValueId → Except Fault Bool
  | [] => .ok true
  | id :: rest => do
    let ty ← program.typeOf id
    if ty.isSparse then return false else noneSparse program rest

/-- A closed vocabulary of rules. -/
inductive Rule where
  | always
  | never
  /-- No operand is a sparse tensor. -/
  | noSparseOperand
  | maxOperands (count : Nat)
  /-- There is a first operand and its type passes the test. -/
  | firstOperand (test : TypeTest)

/-- The decision that a rule of the vocabulary makes about an operation. -/
def Rule.holds : Rule → LegalityRule
  | always, _, _ => .ok true
  | never, _, _ => .ok false
  | noSparseOperand, program, op => noneSparse program op.operands
  | maxOperands count, _, op => .ok (op.operands.length ≤ count)
  | firstOperand test, program, op =>
    match op.operands with
    | [] => .ok false
    | id :: _ => do return test.holds (← program.typeOf id)

end Legality

end TensorLowering
