import TensorLowering.Diagnostic

/-!
# Fitting an annotation to a rank

The check that is made when a sparse tensor type is formed. It reports the first defect, in the
order level count, storage order, pointer width, index width.
-/

namespace TensorLowering

namespace Sparsity

/-- What is wrong with an annotation. -/
inductive Defect where
  | levelCount (expected found : Nat)
  | wrongOrder (order : LevelOrder) (rank : Nat)
  | pointerWidth (width : Nat)
  | indexWidth (width : Nat)
deriving DecidableEq

/-- The widths that an overhead array may have; zero stands for the native width. -/
def overheadWidths : List Nat := [0, 8, 16, 32, 64]

/-- The levels must be as many as the dimensions. -/
def levelDefect? (sparsity : Sparsity) (rank : Nat) : Option Defect :=
  if sparsity.rank = rank then none else some (.levelCount rank sparsity.rank)

/-- An order must permute exactly the dimensions below the rank. -/
def orderDefect? (rank : Nat) : Option LevelOrder → Option Defect
  | none => none
  | some order =>
    if order.rank == rank && order.isPermutation then none else some (.wrongOrder order rank)

/-- A width must be one that an array may have. -/
def widthDefect? (defect : Nat → Defect) (width : Nat) : Option Defect :=
  if overheadWidths.contains width then none else some (defect width)

/-- The first defect of the annotation on a tensor of the given rank. -/
def defect? (sparsity : Sparsity) (rank : Nat) : Option Defect :=
  sparsity.levelDefect? rank
    <|> orderDefect? rank sparsity.order
    <|> widthDefect? .pointerWidth sparsity.pointerWidth
    <|> widthDefect? .indexWidth sparsity.indexWidth

namespace Defect

/-- The report of an unusable width of one of the two arrays. -/
def badWidth (array : String) (width : Nat) : Diagnostic :=
  (Diagnostic.error ("unexpected " ++ array ++ " bit width: " ++ toString width) .nowhere).withHelp
    "expected one of 0, 8, 16, 32, 64"

/-- The report of a defect. -/
def diagnostic : Defect → Diagnostic
  | levelCount expected found =>
    .error ("expected " ++ toString expected ++ " dimension level types, found "
      ++ toString found) .nowhere
  | wrongOrder order rank => .error (Fault.orderNotPermutation order rank).message .nowhere
  | pointerWidth width => badWidth "pointer" width
  | indexWidth width => badWidth "index" width

end Defect

end Sparsity

end TensorLowering
