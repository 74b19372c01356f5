import TensorLowering.Proofs.Reachability

/-!
# Programs that are written down

A program can be given as a list of functions with the lines of their blocks, in which values are
referred to by their numbers. It is built by defining, declaring and appending, so it is reachable.
A list that cannot be built stands for the empty program.
-/

namespace TensorLowering

/-- One operation of a block, with its operands as numbers of values. -/
structure Line where
  kind : OpKind
  operands : List Nat
  types : List Ty := []
  span : Span := .nowhere

/-- A function with its lines, or without any for an external declaration. -/
structure Listing where
  name : String
  argTypes : List Ty
  resultTypes : List Ty := []
  lines : Option (List Line)

namespace Program

/-- Appends lines to the block of a function. -/
def appendLines (id : FuncId) : List Line → Program → Except Fault Program
  | [], program => .ok program
  | line :: rest, program => do
    let program ← program.appendOp id line.kind (line.operands.map ValueId.mk) line.types line.span
    appendLines id rest program

/-- Adds functions as they are listed. -/
def addListings : List Listing → Program → Except Fault Program
  | [], program => .ok program
  | listing :: rest, program => do
    match listing.lines with
    | none => addListings rest (program.declare listing.name listing.argTypes listing.resultTypes)
    | some lines =>
      let id := program.nextFunc
      let program ← program.define listing.name listing.argTypes listing.resultTypes
      let program ← appendLines id lines program
      addListings rest program

/-- The program of a list of functions. -/
def listed (listings : List Listing) : Program :=
  (addListings listings .empty).toOption.getD .empty

variable {program after : Program}

/-- Appending lines leads to a reachable program. -/
theorem Reachable.appendLines {id : FuncId} {lines : List Line} (h : program.Reachable)
    (hrun : program.appendLines id lines = .ok after) : after.Reachable := by
  induction lines generalizing program with
  | nil =>
    simp only [Program.appendLines, Except.ok.injEq] at hrun
    exact hrun ▸ h
  | cons line rest ih =>
    simp only [Program.appendLines, bind_eq_ok] at hrun
    obtain ⟨middle, hmiddle, hrest⟩ := hrun
    exact ih (.appendOp h hmiddle) hrest

/-- Adding functions leads to a reachable program. -/
theorem Reachable.addListings {listings : List Listing} (h : program.Reachable)
    (hrun : program.addListings listings = .ok after) : after.Reachable := by
  induction listings generalizing program with
  | nil =>
    simp only [Program.addListings, Except.ok.injEq] at hrun
    exact hrun ▸ h
  | cons listing rest ih =>
    simp only [Program.addListings] at hrun
    split at hrun
    · exact ih (.declare _ _ _ h) hrun
    · simp only [bind_eq_ok] at hrun
      obtain ⟨defined, hdefined, middle, hmiddle, hrest⟩ := hrun
      exact ih ((Reachable.define h hdefined).appendLines hmiddle) hrest

/-- A program that is written down is reachable. -/
theorem reachable_listed (listings : List Listing) : (listed listings).Reachable := by
  unfold listed
  cases hrun : addListings listings .empty with
  | error fault => exact .empty
  | ok after => exact Reachable.empty.addListings hrun

end Program

end TensorLowering
