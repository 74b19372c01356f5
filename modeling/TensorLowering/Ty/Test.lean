import TensorLowering.Ty.Basic

/-!
# Tests on types

A closed vocabulary of questions about one type. Type maps, legality rules and recipes that are
given as data use it where they would otherwise hold a function.
-/

namespace TensorLowering

/-- A question about a type. -/
inductive TypeTest where
  | any
  | sparse
  | ptr
  /-- The type has an element type. -/
  | shaped
  /-- The type has a list of extents. -/
  | ranked
  | equals (ty : Ty)
  /-- The type has exactly this many extents, as a tensor or as a buffer. -/
  | rank (count : Nat)
  | int (width : Nat)
deriving DecidableEq

/-- The answer to the question. -/
def TypeTest.holds : TypeTest → Ty → Bool
  | any, _ => true
  | sparse, ty => ty.isSparse
  | ptr, ty => ty.isPtr
  | shaped, ty => ty.element?.isSome
  | ranked, ty => ty.shape?.isSome
  | equals other, ty => ty == other
  | rank count, ty => ty.shape?.any (·.length == count)
  | int width, ty => ty.isInt width

end TensorLowering
