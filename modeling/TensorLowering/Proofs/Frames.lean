import TensorLowering.Proofs.History

/-!
# What a run leaves alone

A run replaces operations, and it does not change them. Of what was in the arenas before it, only
this is different afterwards: operations that were replaced are erased, the operands of operations
that still stand in a block are renamed, and functions that have a block have a new signature and a
new block. Declarations, values and operations outside the blocks are as they were. This holds for
any patterns, also when errors remain.
-/

namespace TensorLowering

/-- What was there before is there afterwards, up to renamed operands in the blocks, to erased
operations, and to the signatures and blocks of the functions that have one. -/
structure Program.Preserves (before after : Program) : Prop where
  values : ∀ id value, before.value id = .ok value → after.value id = .ok value
  ops : ∀ id op, before.op id = .ok op → ∃ now, after.op id = .ok now ∧
    now.kind = op.kind ∧ now.results = op.results ∧ now.span = op.span
  outside : ∀ id op, before.op id = .ok op → id ∉ before.allOps → after.op id = .ok op
  erased : ∀ id op now, before.op id = .ok op → after.op id = .ok now → now.erased = true →
    now.operands = op.operands
  funcs : ∀ id func, before.func id = .ok func → ∃ now, after.func id = .ok now ∧
    now.name = func.name ∧ now.isPublic = func.isPublic ∧ now.isDeclaration = func.isDeclaration
  declarations : ∀ id func, before.func id = .ok func → func.isDeclaration = true →
    after.func id = .ok func

namespace Conversion

variable {patterns : List Pattern} {types : TypeMap} {source target : Program}
  {start final : Progress} {turns : List Turn} {id : OpId}

/-! ### Functions -/

/-- A function keeps its name, its visibility and whether it has a block. -/
theorem frame_of_resign (aliases : Renaming) (expand : OpId → List OpId) (func : Func) :
    ((resign types aliases func).expandBody expand).name = func.name ∧
      ((resign types aliases func).expandBody expand).isPublic = func.isPublic ∧
      ((resign types aliases func).expandBody expand).isDeclaration = func.isDeclaration := by
  unfold resign
  split <;> simp [Func.expandBody, Func.isDeclaration]

/-- A declaration has no signature to convert and no block to expand. -/
theorem resign_of_declaration (aliases : Renaming) (expand : OpId → List OpId) {func : Func}
    (hdecl : func.isDeclaration = true) :
    (resign types aliases func).expandBody expand = func := by
  have hnone : func.body = none := by simpa [Func.isDeclaration] using hdecl
  rw [resign, if_pos hdecl, Func.expandBody, hnone, Option.map_none, ← hnone]

/-! ### Operations -/

section Ran

variable (h : Ran patterns types source start turns final target)

include h

/-- What stands in a block at the end of the walk stood in one at the beginning or is new. -/
theorem Ran.origin (hid : id ∈ final.program.allOps) :
    id ∈ source.allOps ∨ source.ops.length ≤ id.index := by
  obtain ⟨decls, hfuncs, hdecls⟩ := h.recounts.funcs
  rw [Program.allOps_of_expanded hfuncs hdecls, h.resigned.allOps] at hid
  obtain ⟨first, hfirst, hstands⟩ := List.mem_flatMap.mp hid
  rcases mem_standIns hstands with rfl | ⟨turn, hturn, trial, htrial, hcreated⟩
  · exact .inl hfirst
  · have hge := (h.recounts.created turn hturn trial htrial).fresh id hcreated
    exact .inr (h.resigned.ops ▸ hge)

/-- An operation that stood in no block is as it was. -/
theorem Ran.op_of_outside {op : Operation} (hop : source.ops[id.index]? = some op)
    (hout : id ∉ source.allOps) : target.ops[id.index]? = some op := by
  obtain ⟨built, -, hbuilt, hnow⟩ := h.op hop
  have hkept : id ∉ replaced turns := by
    intro hmem
    obtain ⟨turn, hturn, rfl⟩ := List.mem_map.mp hmem
    exact hout (h.order ▸ List.mem_map_of_mem (List.mem_filter.mp hturn).1)
  have hunnamed : id ∉ source.definedFuncs.flatMap final.program.blockOf := by
    intro hmem
    have hlt := (List.getElem?_eq_some_iff.mp hop).1
    rcases h.origin (Program.mem_allOps_of_blocks hmem) with hin | hge
    · exact hout hin
    · omega
  rw [if_neg hkept] at hbuilt
  rw [hnow, if_neg hunnamed, hbuilt]

/-- An operation that is erased has the operands that it had. -/
theorem Ran.operands_of_erased {op now : Operation} (hop : source.ops[id.index]? = some op)
    (hnow : target.ops[id.index]? = some now) (herased : now.erased = true) :
    now.operands = op.operands := by
  obtain ⟨built, hfinal, hbuilt, htarget⟩ := h.op hop
  obtain rfl := Option.some.inj (htarget.symm.trans hnow)
  -- It was erased before the operands were renamed, so it stood in no block then.
  have hgone : built.erased = true := by
    split at herased <;> exact herased
  have hkept := h.renamed.of_erased h.recounts.valid hfinal hgone
  rw [Option.some.inj (hnow.symm.trans hkept), hbuilt]
  split <;> rfl

/-- An operation keeps its kind, its results and its span. -/
theorem Ran.exists_op {op : Operation} (hop : source.ops[id.index]? = some op) :
    ∃ now, target.ops[id.index]? = some now ∧
      now.kind = op.kind ∧ now.results = op.results ∧ now.span = op.span := by
  obtain ⟨built, -, hbuilt, hnow⟩ := h.op hop
  have hsame : built.kind = op.kind ∧ built.results = op.results ∧ built.span = op.span := by
    rw [hbuilt]
    split <;> exact ⟨rfl, rfl, rfl⟩
  refine ⟨_, hnow, ?_⟩
  split <;> exact hsame

end Ran

/-- Operations are replaced and never changed. Whatever the patterns, the type map and the legality
are, and whether errors remain or not, a run preserves the values, the operations and the functions
that were there. -/
theorem run_preserves {legality : Legality} {program : Program} {outcome : Outcome}
    (hreach : program.Reachable) (hrun : run patterns types legality program = .ok outcome) :
    program.Preserves outcome.program := by
  obtain ⟨final, target, reports, hwalk, hrename, -, rfl⟩ := run_eq_ok.mp hrun
  obtain ⟨start, turns, h⟩ := exists_ran hreach.valid hwalk hrename
  exact {
    values := fun id value hvalue => by
      have hvalues : program.values <+: target.values :=
        h.renamed.values ▸ h.resigned.values.trans h.recounts.values
      exact Program.value_eq_ok.mpr (getElem?_mono hvalues (Program.value_eq_ok.mp hvalue))
    ops := fun id op hop => by
      obtain ⟨now, hnow, hsame⟩ := h.exists_op (Program.op_eq_ok.mp hop)
      exact ⟨now, Program.op_eq_ok.mpr hnow, hsame⟩
    outside := fun id op hop hout =>
      Program.op_eq_ok.mpr (h.op_of_outside (Program.op_eq_ok.mp hop) hout)
    erased := fun id op now hop hnow =>
      h.operands_of_erased (Program.op_eq_ok.mp hop) (Program.op_eq_ok.mp hnow)
    funcs := fun id func hfunc =>
      ⟨_, Program.func_eq_ok.mpr (h.func (Program.func_eq_ok.mp hfunc)), frame_of_resign ..⟩
    declarations := fun id func hfunc hdecl => by
      have hnow := h.func (Program.func_eq_ok.mp hfunc)
      rw [resign_of_declaration _ _ hdecl] at hnow
      exact Program.func_eq_ok.mpr hnow }

/-- The extent is erased and reads what it read, the return reads the call, the operation outside
the blocks is as it was, and only the function that has a block takes an integer. -/
theorem run_preserves_measured : ∃ outcome,
    (measured.addOp .ret [⟨2⟩] [.index] .nowhere).Reachable ∧
    run [hesitant, Program.scaling] Program.indexTypes {}
      (measured.addOp .ret [⟨2⟩] [.index] .nowhere) = .ok outcome ∧
    (outcome.program.ops.take 3).map (fun op => (op.erased, op.operands)) =
      [(true, [⟨1⟩, ⟨2⟩]), (false, [⟨13⟩]), (false, [⟨2⟩])] ∧
    (outcome.program.funcs.take 2).map Func.argTypes =
      [[.index], [.dense [.dynamic] .f64, .int 64]] ∧
    (measured.addOp .ret [⟨2⟩] [.index] .nowhere).Preserves outcome.program := by
  have hreach : (measured.addOp .ret [⟨2⟩] [.index] .nowhere).Reachable :=
    .addOp _ _ _ _ (Program.reachable_listed _)
  refine ⟨_, hreach, rfl, by decide +kernel, by decide +kernel, ?_⟩
  exact run_preserves hreach (rfl : run [hesitant, Program.scaling] Program.indexTypes {}
    (measured.addOp .ret [⟨2⟩] [.index] .nowhere) = .ok _)

end Conversion

end TensorLowering
