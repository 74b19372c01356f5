import TensorLowering.Pattern.Script

/-!
# Patterns

A pattern is rooted at one kind of operation and answers each offer with a script. The offer names
the root, shows it as it stands in the arena, and its operands after renaming, which may differ.
-/

namespace TensorLowering

/-- An operation that is offered to a pattern. -/
structure Site where
  id : OpId
  /-- The operation, with the operands it was built with. -/
  root : Operation
  /-- The operands after renaming by earlier replacements. -/
  operands : List ValueId

namespace Site

/-- One operand after renaming. -/
def operand (site : Site) (index : Nat) : Script ValueId :=
  .ofExcept (Fault.fetch site.operands index)

/-- One operand that the root was built with. -/
def source (site : Site) (index : Nat) : Script ValueId :=
  .ofExcept (Fault.fetch site.root.operands index)

/-- The type of one result of the root. -/
def resultType (site : Site) (index : Nat) : Script Ty :=
  (Script.ofExcept (Fault.fetch site.root.results index)).bind Script.typeOf

end Site

/-- A way to replace one kind of operation. -/
structure Pattern where
  name : String
  /-- The qualified name of the operations it is offered. -/
  root : String
  attempt : Site → Script Unit

namespace Pattern

/-- The text after the last double colon, if there is one. -/
def afterColons : List Char → Option (List Char)
  | [] => none
  | c :: rest =>
    match afterColons rest with
    | some text => some text
    | none => if c == ':' && rest.head? == some ':' then some rest.tail else none

/-- The last segment of the qualified name, which is how a pattern appears in the log. -/
def label (pattern : Pattern) : String :=
  match afterColons pattern.name.toList with
  | some text => String.ofList text
  | none => pattern.name

/-- The patterns for one kind of operation, in the order of registration. -/
def rootedAt (patterns : List Pattern) (root : String) : List Pattern :=
  patterns.filter (·.root == root)

end Pattern

end TensorLowering
