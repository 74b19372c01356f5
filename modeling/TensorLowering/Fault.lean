import TensorLowering.Ty.Basic

/-!
# Violated invariants

A run that meets a broken invariant stops: there is no program to hand back. `Fault` lists the
invariants that can break, one constructor each, with the data that its message shows. Ordinary
outcomes, such as a pattern that declines or an operation that stays illegal, are not faults.
-/

namespace TensorLowering

/-- The reason why a run stopped without a result. -/
inductive Fault where
  /-- A position at or past the end of a list of the given length. -/
  | outOfBounds (length index : Nat)
  | redefinition (name : String)
  | appendToDeclaration (name : String)
  /-- A span of one file was merged with a span of another. -/
  | mixedFiles (left right : Nat)
  | replacedTwice (op : String)
  | replacementCount (op : String) (given expected : Nat)
  | notReplaced (pattern op : String)
  | noBody (func : String)
  | notInBody (op : Nat) (func : String)
  | notRanked (ty : Ty)
  | levelCount (levels rank : Nat)
  | orderNotPermutation (order : LevelOrder) (rank : Nat)
  | unsupportedElement (element : Ty)
deriving DecidableEq

namespace Fault

/-- The report of two quantities that should have been equal. -/
def unequal (detail : String) (left right : Nat) : String :=
  "assertion `left == right` failed" ++ detail
    ++ "\n  left: " ++ toString left ++ "\n right: " ++ toString right

/-- The wording of a fault. -/
def message : Fault → String
  | outOfBounds length index =>
    "index out of bounds: the len is " ++ toString length
      ++ " but the index is " ++ toString index
  | redefinition name => "redefinition of symbol '" ++ name ++ "'"
  | appendToDeclaration name => "cannot append to declaration '" ++ name ++ "'"
  | mixedFiles left right => unequal "" left right
  | replacedTwice op => op ++ " replaced twice"
  | replacementCount op given expected =>
    unequal (": replacement for " ++ op ++ " has the wrong number of values") given expected
  | notReplaced pattern op =>
    "pattern " ++ pattern ++ " matched " ++ op ++ " without replacing it"
  | noBody func => "function @" ++ func ++ " has no body"
  | notInBody op func => "op OpId(" ++ toString op ++ ") is not in the body of @" ++ func
  | notRanked ty => "newSparseTensor result " ++ ty.render ++ " is not a ranked tensor"
  | levelCount levels rank =>
    unequal (": " ++ toString levels ++ " dimension level types for a rank "
      ++ toString rank ++ " tensor") rank levels
  | orderNotPermutation order rank =>
    "dimension ordering " ++ order.render ++ " is not a permutation of rank " ++ toString rank
  | unsupportedElement element =>
    "unsupported element type " ++ element.render ++ " for a sparse tensor"

/-- The entry at a position, or the fault that names the length and the position. -/
def fetch {α : Type} (items : List α) (index : Nat) : Except Fault α :=
  match items[index]? with
  | some item => .ok item
  | none => .error (.outOfBounds items.length index)

end Fault

end TensorLowering
