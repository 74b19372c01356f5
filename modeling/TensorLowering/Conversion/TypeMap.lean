import TensorLowering.Ty.Test

/-!
# Type maps

A type map is a list of partial conversions. The one that was added last is tried first, and a
type that none of them claims is kept.
-/

namespace TensorLowering

/-- Partial conversions of types, the newest first. -/
structure TypeMap where
  rules : List (Ty → Option Ty) := []

namespace TypeMap

/-- Adds a conversion, which is tried before the others. -/
def add (types : TypeMap) (rule : Ty → Option Ty) : TypeMap := ⟨rule :: types.rules⟩

/-- The answer of the first conversion that claims the type. -/
def firstClaim (ty : Ty) : List (Ty → Option Ty) → Option Ty
  | [] => none
  | rule :: rest =>
    match rule ty with
    | some converted => some converted
    | none => firstClaim ty rest

/-- The converted type. -/
def convert (types : TypeMap) (ty : Ty) : Ty := (firstClaim ty types.rules).getD ty

/-- Conversion leaves the type as it is. -/
def isLegal (types : TypeMap) (ty : Ty) : Bool := types.convert ty == ty

/-- The conversion that sends every type passing a test to one type. -/
def caseRule (test : TypeTest) (target : Ty) : Ty → Option Ty :=
  fun ty => if test.holds ty then some target else none

/-- The type map of several cases, added in order. -/
def ofCases (cases : List (TypeTest × Ty)) : TypeMap :=
  cases.foldl (fun types entry => types.add (caseRule entry.1 entry.2)) {}

end TypeMap

end TensorLowering
