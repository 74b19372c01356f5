import Mathlib.Data.List.Forall2
import TensorLowering.Pattern.Basic

/-!
# Opening computations that may meet a fault

A computation that ends well did so step by step: each lemma here takes the success of a compound
computation apart into the successes of its parts. Reading an arena succeeds exactly on the
positions it has, so arena reads are restated as optional list entries.
-/

namespace TensorLowering

/-- A sequence of two computations ends well exactly when both do. -/
theorem bind_eq_ok {ε α β : Type} {first : Except ε α} {next : α → Except ε β} {b : β} :
    (first >>= next) = .ok b ↔ ∃ a, first = .ok a ∧ next a = .ok b := by
  cases first with
  | error e => simp [bind, Except.bind]
  | ok a => simp [bind, Except.bind]

/-- Returning a value ends well with that value only. -/
theorem pure_eq_ok {ε α : Type} {a b : α} : (pure a : Except ε α) = .ok b ↔ a = b := by
  simp [pure, Except.pure]

/-- Guarding a computation keeps its success. -/
theorem Halt.guard_eq_ok {α : Type} {log : List Event} {x : Except Fault α} {a : α} :
    Halt.guard log x = .ok a ↔ x = .ok a := by
  cases x <;> simp [Halt.guard]

/-- Fetching succeeds exactly on the entries of the list. -/
theorem Fault.fetch_eq_ok {α : Type} {items : List α} {index : Nat} {item : α} :
    Fault.fetch items index = .ok item ↔ items[index]? = some item := by
  unfold Fault.fetch
  cases items[index]? <;> simp

namespace Program

variable {program : Program}

/-- Operations are read from their arena. -/
theorem op_eq_ok {id : OpId} {op : Operation} :
    program.op id = .ok op ↔ program.ops[id.index]? = some op := Fault.fetch_eq_ok

/-- Functions are read from their arena. -/
theorem func_eq_ok {id : FuncId} {func : Func} :
    program.func id = .ok func ↔ program.funcs[id.index]? = some func := Fault.fetch_eq_ok

/-- Values are read from their arena. -/
theorem value_eq_ok {id : ValueId} {value : Value} :
    program.value id = .ok value ↔ program.values[id.index]? = some value := Fault.fetch_eq_ok

/-- The type of a value is the one its arena entry holds. -/
theorem typeOf_eq_ok {id : ValueId} {ty : Ty} :
    program.typeOf id = .ok ty ↔ ∃ origin, program.values[id.index]? = some ⟨ty, origin⟩ := by
  unfold Program.typeOf
  simp only [bind_eq_ok, value_eq_ok, pure_eq_ok]
  constructor
  · rintro ⟨⟨ty', origin⟩, hvalue, rfl⟩
    exact ⟨origin, hvalue⟩
  · rintro ⟨origin, hvalue⟩
    exact ⟨⟨ty, origin⟩, hvalue, rfl⟩

/-- The origin of a value is the one its arena entry holds. -/
theorem definingOp?_eq_ok {id : ValueId} {op? : Option OpId} :
    program.definingOp? id = .ok op? ↔
      ∃ value, program.values[id.index]? = some value ∧ value.origin.op? = op? := by
  unfold Program.definingOp?
  simp only [bind_eq_ok, value_eq_ok, pure_eq_ok]

/-- The types of several values are found one by one. -/
theorem typesOf_eq_ok {ids : List ValueId} {types : List Ty} :
    program.typesOf ids = .ok types ↔
      List.Forall₂ (fun id ty => program.typeOf id = .ok ty) ids types := by
  induction ids generalizing types with
  | nil => simp [Program.typesOf, eq_comm]
  | cons id rest ih =>
    simp only [Program.typesOf, bind_eq_ok, pure_eq_ok, ih]
    constructor
    · rintro ⟨ty, hty, tail, htail, rfl⟩
      exact .cons hty htail
    · rintro (_ | ⟨hty, htail⟩)
      exact ⟨_, hty, _, htail, rfl⟩

/-- The block of a function is read with the function. -/
theorem bodyOps_eq_ok {id : FuncId} {ids : List OpId} :
    program.bodyOps id = .ok ids ↔
      ∃ func, program.funcs[id.index]? = some func ∧ func.bodyOps = ids := by
  unfold Program.bodyOps
  simp only [bind_eq_ok, func_eq_ok, pure_eq_ok]

end Program

end TensorLowering
