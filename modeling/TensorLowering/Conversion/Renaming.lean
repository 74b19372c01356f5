import TensorLowering.Program.Basic

/-!
# Renamings of values

Replaced values are recorded with what stands for them, and a replacement may itself be replaced
later. Resolving a value follows such chains to their end. Along a chain without repetition each
step uses another entry, so as many steps as there are entries always suffice.
-/

namespace TensorLowering

/-- Replaced values with their replacements, the newest entry first. -/
structure Renaming where
  entries : List (ValueId × ValueId) := []
deriving DecidableEq

namespace Renaming

/-- The direct replacement of a value. -/
def next? (aliases : Renaming) (id : ValueId) : Option ValueId :=
  aliases.entries.lookup id

/-- Records a replacement. A value that stands for itself is not recorded. -/
def insert (aliases : Renaming) (old new : ValueId) : Renaming :=
  if old = new then aliases else ⟨(old, new) :: aliases.entries⟩

/-- Records several replacements, pair by pair. -/
def insertAll (aliases : Renaming) : List ValueId → List ValueId → Renaming
  | old :: olds, new :: news => (aliases.insert old new).insertAll olds news
  | _, _ => aliases

/-- Follows a chain for at most the given number of steps. -/
def follow (aliases : Renaming) : Nat → ValueId → ValueId
  | 0, id => id
  | steps + 1, id =>
    match aliases.next? id with
    | some next => aliases.follow steps next
    | none => id

/-- What a value stands for in the end. -/
def resolve (aliases : Renaming) (id : ValueId) : ValueId :=
  aliases.follow aliases.entries.length id

end Renaming

end TensorLowering
