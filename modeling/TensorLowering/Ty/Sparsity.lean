import TensorLowering.Text.Layout

/-!
# Sparsity annotations

A sparse tensor stores its dimensions level by level. The annotation lists the storage of each
level, optionally the order in which the dimensions are stored, and the widths of the integers
that the pointer and index arrays hold. An annotation is plain data: nothing here requires it to
fit a tensor, and the order need not be a permutation.
-/

namespace TensorLowering

/-- The storage of one level of a tensor. -/
inductive Level where
  /-- Every coordinate is stored. -/
  | dense
  /-- Only occupied coordinates are stored, with a pointer and an index array. -/
  | compressed
  /-- One coordinate is stored for each position of the level above. -/
  | singleton
deriving DecidableEq

/-- The word that names a level in printed types. -/
def Level.name : Level → String
  | .dense => "dense"
  | .compressed => "compressed"
  | .singleton => "singleton"

/-- The dimension stored at each level, outermost level first. -/
structure LevelOrder where
  dims : List Nat
deriving DecidableEq

namespace LevelOrder

/-- Dimensions stored in their own order. -/
def identity (rank : Nat) : LevelOrder := ⟨List.range rank⟩

/-- The number of levels that the order speaks of. -/
def rank (order : LevelOrder) : Nat := order.dims.length

/-- Marks the listed dimensions in a table of all dimensions below `n`. It fails at a dimension that
is not in the table or is marked already. -/
def markAll {n : Nat} : List Nat → Vector Bool n → Bool
  | [], _ => true
  | dim :: rest, marked =>
    if h : dim < n then
      if marked[dim] then false else markAll rest (marked.set dim true)
    else
      false

/-- Every dimension below the rank is stored at exactly one level. There are as many entries as
dimensions, so it is enough that none is out of range or repeated. -/
def isPermutation (order : LevelOrder) : Bool :=
  markAll order.dims (Vector.replicate order.rank false)

/-- For each dimension, the level at which it is stored. -/
def inverse (order : LevelOrder) : List Nat :=
  (List.range order.rank).map fun dim => order.dims.idxOf dim

/-- A dimension as it is written in an order. -/
def dimName (dim : Nat) : String := "d" ++ toString dim

/-- The order as a map from dimensions to levels. -/
def render (order : LevelOrder) : String :=
  "(" ++ Text.commaSep ((List.range order.rank).map dimName) ++ ") -> ("
    ++ Text.commaSep (order.dims.map dimName) ++ ")"

end LevelOrder

/-- The annotation that makes a tensor sparse. A width of zero stands for the native index width. -/
structure Sparsity where
  levels : List Level
  order : Option LevelOrder := none
  pointerWidth : Nat := 0
  indexWidth : Nat := 0
deriving DecidableEq

namespace Sparsity

/-- The number of annotated levels. -/
def rank (sparsity : Sparsity) : Nat := sparsity.levels.length

/-- The part of the printed annotation that gives the order, empty without one. -/
def renderOrder : Option LevelOrder → String
  | none => ""
  | some order => ", ordering = " ++ order.render

/-- The annotation as it is written inside a tensor type. -/
def render (sparsity : Sparsity) : String :=
  "#sparse<[" ++ Text.commaSep (sparsity.levels.map Level.name) ++ "]"
    ++ renderOrder sparsity.order
    ++ ", ptr = " ++ toString sparsity.pointerWidth
    ++ ", idx = " ++ toString sparsity.indexWidth ++ ">"

end Sparsity

end TensorLowering
