import TensorLowering.Proofs.Walk

/-!
# Operands that are there

A value id may point past the end of the arena. If the operands that stand in the blocks do not,
they never come to do so: a value is renamed to a result of a new operation, to a fresh argument or
to a handle whose type was looked at, and a new operation reads renamed operands and results of
other new ones. This holds for any order of definitions and uses, and also if the renaming has
cycles.
-/

namespace TensorLowering

namespace Renaming

variable {aliases : Renaming}

/-- Whatever holds of a value and of all replacements holds where a chain is left. -/
theorem follow_of_targets {holds : ValueId → Prop}
    (htargets : ∀ v u, aliases.next? v = some u → holds u) (steps : Nat) {v : ValueId}
    (hv : holds v) : holds (aliases.follow steps v) := by
  induction steps generalizing v with
  | zero => exact hv
  | succ steps ih =>
    rw [follow]
    split
    · rename_i next hnext
      exact ih (htargets v next hnext)
    · exact hv

/-- A value that is renamed after several replacements was so before, or is renamed to a new one. -/
theorem next?_insertAll_cases {olds news : List ValueId} {v u : ValueId}
    (h : (aliases.insertAll olds news).next? v = some u) : aliases.next? v = some u ∨ u ∈ news := by
  induction olds generalizing aliases news with
  | nil => exact .inl (by simpa [insertAll] using h)
  | cons old olds ih =>
    cases news with
    | nil => exact .inl (by simpa [insertAll] using h)
    | cons new news =>
      rcases ih h with hbefore | hmem
      · by_cases hsame : old = new
        · exact .inl (by simpa [insert, hsame] using hbefore)
        · rw [next?_insert aliases hsame] at hbefore
          split at hbefore
          · exact .inr (by simp [Option.some.inj hbefore])
          · exact .inl hbefore
      · exact .inr (List.mem_cons_of_mem _ hmem)

end Renaming

namespace Program

/-- The value is in the arena. -/
def Has (program : Program) (v : ValueId) : Prop := v.index < program.values.length

instance (program : Program) : DecidablePred program.Has := fun v =>
  inferInstanceAs (Decidable (v.index < program.values.length))

/-- Every operand that stands in a block is in the arena. -/
def OperandsInRange (program : Program) : Prop :=
  ∀ op ∈ program.operations program.allOps, ∀ v ∈ op.operands, program.Has v

instance (program : Program) : Decidable program.OperandsInRange := by
  unfold OperandsInRange Has
  infer_instance

variable {program : Program}

/-- The values in the arena are those that have a type. -/
theorem has_iff_typeOf {v : ValueId} : program.Has v ↔ ∃ ty, program.typeOf v = .ok ty := by
  simp only [Has, typeOf_eq_ok]
  constructor
  · intro hlt
    exact ⟨_, _, List.getElem?_eq_getElem hlt⟩
  · rintro ⟨ty, origin, hvalue⟩
    exact (List.getElem?_eq_some_iff.mp hvalue).1

/-- Values do not disappear from a growing arena. -/
theorem Has.mono {before after : Program} (hvalues : before.values <+: after.values) {v : ValueId}
    (h : before.Has v) : after.Has v :=
  Nat.lt_of_lt_of_le h hvalues.length_le

/-- The operands of one operation of a block. -/
theorem OperandsInRange.has (h : program.OperandsInRange) {id : OpId} (hid : id ∈ program.allOps)
    {op : Operation} (hop : program.ops[id.index]? = some op) {v : ValueId} (hv : v ∈ op.operands) :
    program.Has v :=
  h op (List.mem_filterMap.mpr ⟨id, hid, hop⟩) v hv

end Program

namespace Lowering

open Conversion

/-- During a walk, replacements are in the arena, and so is what is read by the operations of the
source's blocks and by the new ones. -/
structure InRange (source : Program) (state : Progress) : Prop where
  targets : ∀ v u, state.aliases.next? v = some u → state.program.Has u
  operands : ∀ (id : OpId) (op : Operation), id ∈ source.allOps ∨ source.ops.length ≤ id.index →
    state.program.ops[id.index]? = some op → ∀ v ∈ op.operands, state.program.Has v

variable {source : Program} {state after : Progress}

/-- What a value of the arena stands for is in the arena. -/
theorem InRange.resolve (h : InRange source state) {v : ValueId} (hv : state.program.Has v) :
    state.program.Has (state.aliases.resolve v) :=
  Renaming.follow_of_targets h.targets _ hv

/-- Converting signatures brings nothing out of range. -/
theorem InRange.begin {start : Progress} (h : Resigned handleTypes source start)
    (hoperands : source.OperandsInRange) : InRange source start where
  targets v u hnext := by
    obtain ⟨i, k, func, ty, -, -, -, -, -, hvalue⟩ := h.keys v u hnext
    exact (List.getElem?_eq_some_iff.mp hvalue).1
  operands id op hid hop v hv := by
    rw [h.ops] at hop
    have hlt := (List.getElem?_eq_some_iff.mp hop).1
    have hmem := hid.resolve_right (by omega)
    exact (hoperands.has hmem hop hv).mono h.values

/-- Replacing an operation brings nothing out of range. -/
theorem InRange.replaces (h : InRange source state) {funcId : FuncId} {id : OpId} {root : Operation}
    (hread : ∀ v ∈ root.operands, state.program.Has v) {grown : Program} {new : List Operation}
    {values : List ValueId} (hreplaces : Replaces funcId id state after root grown new values) :
    InRange source after := by
  have hops := hreplaces.getElem?
  obtain ⟨hrewrites, hgrown, ⟨func, pre, post, -, -, -, hprogram⟩, haliases⟩ := hreplaces
  have hvalues : after.program.values = grown.values := by
    rw [hprogram]
    rfl
  have hmore : state.program.values <+: after.program.values := hvalues ▸ hrewrites.grows.values
  have hresults : ∀ op ∈ new, ∀ v ∈ op.results, after.program.Has v := by
    intro op hop v hv
    have hmem : op ∈ grown.ops := by simp [hrewrites.grows.ops, hop]
    obtain ⟨o, ho⟩ := List.mem_iff_getElem?.mp hmem
    rw [Program.Has, hvalues]
    exact hgrown.result_lt ho hv
  have hoperands : ∀ op ∈ new, ∀ v ∈ op.operands, after.program.Has v := by
    intro op hop v hv
    rcases hrewrites.expansion.scoped.mem hop hv with hrenamed | ⟨other, hother, hresult⟩
    · obtain ⟨x, hx, rfl⟩ := List.mem_map.mp hrenamed
      exact (h.resolve (hread x hx)).mono hmore
    · exact hresults other hother v hresult
  refine ⟨fun v u hnext => ?_, fun other op hother hop v hv => ?_⟩
  · rw [haliases] at hnext
    rcases Renaming.next?_insertAll_cases hnext with hbefore | hvalue
    · exact (h.targets v u hbefore).mono hmore
    rcases hrewrites.expansion.value_cases hvalue with ⟨op, hop, hresult⟩ | ⟨-, x, -, hshows⟩
    · exact hresults op hop u hresult
    · -- A handle that replaces a tensor has been seen to be one.
      have htype := Program.has_iff_typeOf.mpr ⟨_, hshows.resultOfCall.1⟩
      rwa [Program.Has, ← hvalues] at htype
  · rw [hops, Option.map_eq_some_iff] at hop
    obtain ⟨built, hbuilt, rfl⟩ := hop
    have hv' : v ∈ built.operands := by
      split at hv <;> exact hv
    rw [List.getElem?_append] at hbuilt
    split at hbuilt
    · exact (h.operands other built hother hbuilt v hv').mono hmore
    · exact hoperands built (List.mem_of_getElem? hbuilt) v hv'

/-- A visit brings nothing out of range. -/
theorem InRange.convertOp (h : InRange source state) (hvalid : state.program.Valid)
    {funcId : FuncId} {id : OpId} (hid : id ∈ source.allOps) (hstands : id ∈ state.program.allOps)
    (hrun : convertOp rules funcId id state = .ok after) : InRange source after := by
  obtain ⟨root, hroot, -, ⟨hprogram, haliases, -⟩ | ⟨grown, new, values, hreplaces⟩⟩ :=
    convertOp_cases hvalid hstands hrun
  · refine ⟨?_, ?_⟩ <;> rw [hprogram]
    · rw [haliases]
      exact h.targets
    · exact h.operands
  · exact h.replaces (h.operands id root (.inl hid) hroot) hreplaces

end Lowering

end TensorLowering
