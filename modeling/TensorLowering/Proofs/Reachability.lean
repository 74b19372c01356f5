import TensorLowering.Proofs.Attempts

/-!
# Reachable programs

A program is reachable if it can be built from the empty one by defining and declaring functions, by
creating operations inside and outside blocks, and by conversions with any patterns, type map and
legality. Every reachable program is valid: conversions keep the invariant phase by phase, and within
a block offer by offer.
-/

namespace TensorLowering

namespace Conversion

/-! ### Opening the phases -/

/-- What every step keeps is kept by the sequence of all steps. -/
theorem forEach_invariant {σ ε : Type} {step : FuncId → σ → Except ε σ} (kept : σ → Prop)
    {ids : List FuncId}
    (hstep : ∀ id ∈ ids, ∀ state after, kept state → step id state = .ok after → kept after)
    {state after : σ} (hrun : forEach step ids state = .ok after) (hstate : kept state) :
    kept after := by
  induction ids generalizing state with
  | nil =>
    simp only [forEach, Except.ok.injEq] at hrun
    exact hrun ▸ hstate
  | cons id rest ih =>
    simp only [forEach, bind_eq_ok] at hrun
    obtain ⟨middle, hmiddle, hrest⟩ := hrun
    exact ih (fun other hother => hstep other (List.mem_cons_of_mem _ hother)) hrest
      (hstep id List.mem_cons_self state middle hstate hmiddle)

/-- An argument whose type changes gets a fresh value, and the old one is renamed to it. -/
theorem convertArg_eq_ok {types : TypeMap} {id : FuncId} {index : Nat} {ty : Ty}
    {state after : Progress} :
    convertArg types id index ty state = .ok after ↔
      (types.convert ty = ty ∧ after = state) ∨
      (types.convert ty ≠ ty ∧ ∃ func old, state.program.funcs[id.index]? = some func ∧
        func.args[index]? = some old ∧ after = { state with
          program := state.program.replaceArg id index (types.convert ty)
          aliases := state.aliases.insert old ⟨state.program.values.length⟩ }) := by
  unfold convertArg
  by_cases hty : types.convert ty = ty
  · simp [hty, eq_comm]
  · simp only [hty, ↓reduceIte, bind_eq_ok, Program.func_eq_ok, Fault.fetch_eq_ok, pure_eq_ok,
      false_and, ne_eq, not_false_eq_true, true_and, false_or]
    constructor
    · rintro ⟨func, hfunc, old, hold, rfl⟩
      exact ⟨func, old, hfunc, hold, rfl⟩
    · rintro ⟨func, old, hfunc, hold, rfl⟩
      exact ⟨func, hfunc, old, hold, rfl⟩

/-- An offer to several patterns is settled by the first one, or passed on after its attempt was
taken back. -/
theorem offer_cons_eq_ok {funcId : FuncId} {opId : OpId} {site : Site} {pattern : Pattern}
    {rest : List Pattern} {state after : Progress} :
    offer funcId opId site (pattern :: rest) state = .ok after ↔
      (∃ attempt program aliases,
        (pattern.attempt site).run site.root { program := state.program, log := state.log } =
          .ok (some (), attempt) ∧
        commit pattern funcId opId site.root attempt state.aliases = .ok (program, aliases) ∧
        after = {
          program, aliases
          log := attempt.log ++ [.replaced site.root.name pattern.label]
          stats := { state.stats with converted := state.stats.converted + 1 } }) ∨
      (∃ attempt,
        (pattern.attempt site).run site.root { program := state.program, log := state.log } =
          .ok (none, attempt) ∧
        offer funcId opId site rest { state with
          program := rollBack state.program.funcs.length attempt
          log := attempt.log ++ [.declined site.root.name pattern.label]
          stats := { state.stats with declined := state.stats.declined + 1 } } = .ok after) := by
  simp only [offer, bind_eq_ok, Prod.exists]
  constructor
  · rintro ⟨_ | ⟨⟩, attempt, hrun, hrest⟩
    · exact Or.inr ⟨attempt, hrun, hrest⟩
    · simp only [bind_eq_ok, Halt.guard_eq_ok, pure_eq_ok, Prod.exists] at hrest
      obtain ⟨program, aliases, hcommit, rfl⟩ := hrest
      exact Or.inl ⟨attempt, program, aliases, hrun, hcommit, rfl⟩
  · rintro (⟨attempt, program, aliases, hrun, hcommit, rfl⟩ | ⟨attempt, hrun, hrest⟩)
    · refine ⟨some (), attempt, hrun, ?_⟩
      simp only [bind_eq_ok, Halt.guard_eq_ok, pure_eq_ok, Prod.exists]
      exact ⟨program, aliases, hcommit, rfl⟩
    · exact ⟨none, attempt, hrun, hrest⟩

/-- An operation is left alone if it is erased, and offered to its patterns otherwise. -/
theorem convertOp_eq_ok {patterns : List Pattern} {funcId : FuncId} {opId : OpId}
    {state after : Progress} :
    convertOp patterns funcId opId state = .ok after ↔
      ∃ root, state.program.ops[opId.index]? = some root ∧
        ((root.erased = true ∧ after = state) ∨
          (root.erased = false ∧ offer funcId opId
            { id := opId, root, operands := root.operands.map state.aliases.resolve }
            (Pattern.rootedAt patterns root.name) state = .ok after)) := by
  unfold convertOp
  simp only [bind_eq_ok, Halt.guard_eq_ok, Program.op_eq_ok]
  refine exists_congr fun root => and_congr_right fun _ => ?_
  cases root.erased with
  | true => simp [pure, Except.pure, eq_comm]
  | false => simp

/-- The walk over a block, step by step. -/
theorem convertOps_cons_eq_ok {patterns : List Pattern} {funcId : FuncId} {opId : OpId}
    {rest : List OpId} {state after : Progress} :
    convertOps patterns funcId (opId :: rest) state = .ok after ↔
      ∃ middle, convertOp patterns funcId opId state = .ok middle ∧
        convertOps patterns funcId rest middle = .ok after := by
  simp only [convertOps, bind_eq_ok]

/-! ### Validity along a conversion -/

/-- Converting arguments keeps a program valid. -/
theorem convertArgs_valid {types : TypeMap} {id : FuncId} {index : Nat} {tys : List Ty}
    {state after : Progress} (hrun : convertArgs types id index tys state = .ok after)
    (hvalid : state.program.Valid) : after.program.Valid := by
  induction tys generalizing index state with
  | nil =>
    simp only [convertArgs, Except.ok.injEq] at hrun
    exact hrun ▸ hvalid
  | cons ty rest ih =>
    simp only [convertArgs, bind_eq_ok] at hrun
    obtain ⟨middle, hmiddle, hrest⟩ := hrun
    apply ih hrest
    rcases convertArg_eq_ok.mp hmiddle with ⟨-, rfl⟩ | ⟨-, func, old, hfunc, hold, rfl⟩
    · exact hvalid
    · exact hvalid.replaceArg hfunc (List.getElem?_eq_some_iff.mp hold).1 _

/-- Converting a signature keeps a program valid. -/
theorem convertSignature_valid {types : TypeMap} {id : FuncId} {state after : Progress}
    (hrun : convertSignature types id state = .ok after) (hvalid : state.program.Valid) :
    after.program.Valid := by
  simp only [convertSignature, bind_eq_ok] at hrun
  obtain ⟨func, -, middle, hargs, hrun⟩ := hrun
  have hmiddle := convertArgs_valid hargs hvalid
  have hafter : after.program = middle.program.modifyFunc id fun func =>
      { func with resultTypes := func.resultTypes.map types.convert } := by
    split at hrun <;> exact (pure_eq_ok.mp hrun) ▸ rfl
  have hall := Program.allOps_modifyFunc middle.program id
    (fun func => { func with resultTypes := func.resultTypes.map types.convert }) fun _ => rfl
  rw [hafter]
  refine hmiddle.modifyFunc id _ ?_ ?_ ?_ ?_ ?_
  iterate 3 exact fun _ => rfl
  · rw [hall]
    exact hmiddle.nodup
  · rw [hall]
    exact hmiddle.live

/-- Converting several signatures keeps a program valid. -/
theorem convertSignatures_valid {types : TypeMap} {ids : List FuncId} {state after : Progress}
    (hrun : forEach (convertSignature types) ids state = .ok after) (hvalid : state.program.Valid) :
    after.program.Valid :=
  forEach_invariant (fun state => state.program.Valid)
    (fun _ _ _ _ hstate hstep => convertSignature_valid hstep hstate) hrun hvalid

/-- An offer keeps a program valid, whichever pattern settles it. -/
theorem offer_valid {funcId : FuncId} {opId : OpId} {site : Site} {patterns : List Pattern}
    {state after : Progress} (hrun : offer funcId opId site patterns state = .ok after)
    (hvalid : state.program.Valid) : after.program.Valid := by
  induction patterns generalizing state with
  | nil =>
    simp only [offer, Except.ok.injEq] at hrun
    exact hrun ▸ hvalid
  | cons pattern rest ih =>
    rcases offer_cons_eq_ok.mp hrun with
      ⟨attempt, program, aliases, hattempt, hcommit, rfl⟩ | ⟨attempt, hattempt, hrest⟩
    · obtain ⟨new, hgrows, hinserted⟩ := Script.run_grows _ _ hattempt
      exact commit_valid hvalid (Script.run_valid _ _ hattempt hvalid) hgrows
        (by simpa using hinserted) hcommit
    · obtain ⟨new, hgrows, hinserted⟩ := Script.run_grows _ _ hattempt
      exact ih hrest (rollBack_valid hvalid (Script.run_valid _ _ hattempt hvalid) hgrows
        (by simpa using hinserted))

/-- A visit keeps a program valid. -/
theorem convertOp_valid {patterns : List Pattern} {funcId : FuncId} {opId : OpId}
    {state after : Progress} (hrun : convertOp patterns funcId opId state = .ok after)
    (hvalid : state.program.Valid) : after.program.Valid := by
  obtain ⟨root, -, ⟨-, rfl⟩ | ⟨-, hoffer⟩⟩ := convertOp_eq_ok.mp hrun
  · exact hvalid
  · exact offer_valid hoffer hvalid

/-- Walking over operations keeps a program valid. -/
theorem convertOps_valid {patterns : List Pattern} {funcId : FuncId} {ids : List OpId}
    {state after : Progress} (hrun : convertOps patterns funcId ids state = .ok after)
    (hvalid : state.program.Valid) : after.program.Valid := by
  induction ids generalizing state with
  | nil =>
    simp only [convertOps, Except.ok.injEq] at hrun
    exact hrun ▸ hvalid
  | cons opId rest ih =>
    obtain ⟨middle, hmiddle, hrest⟩ := convertOps_cons_eq_ok.mp hrun
    exact ih hrest (convertOp_valid hmiddle hvalid)

/-- Renaming operands keeps a program valid. -/
theorem foldl_renameOperands_valid (aliases : Renaming) (ids : List OpId) {program : Program}
    (hvalid : program.Valid) : (ids.foldl (renameOperands aliases) program).Valid := by
  induction ids generalizing program with
  | nil => exact hvalid
  | cons id rest ih => exact ih (hvalid.modifyOp id _ (fun _ => rfl) fun _ _ => rfl)

/-- The walk keeps a program valid. -/
theorem walk_valid {patterns : List Pattern} {types : TypeMap} {program : Program}
    {state : Progress} (hwalk : walk patterns types program = .ok state) (hvalid : program.Valid) :
    state.program.Valid := by
  simp only [walk, bind_eq_ok, Halt.guard_eq_ok] at hwalk
  obtain ⟨signed, hsigned, hwalk⟩ := hwalk
  refine forEach_invariant (fun state => state.program.Valid)
    (fun id _ state after hstate hstep => ?_) hwalk (convertSignatures_valid hsigned hvalid)
  simp only [convertBody, bind_eq_ok] at hstep
  obtain ⟨body, -, hops⟩ := hstep
  exact convertOps_valid hops hstate

/-- A conversion walks, renames and reports. -/
theorem run_eq_ok {patterns : List Pattern} {types : TypeMap} {legality : Legality}
    {program : Program} {outcome : Outcome} :
    run patterns types legality program = .ok outcome ↔
      ∃ state renamed reports, walk patterns types program = .ok state ∧
        forEach (renameBody state.aliases) program.definedFuncs state.program = .ok renamed ∧
        illegalIn legality renamed program.definedFuncs = .ok reports ∧
        outcome = {
          program := renamed
          result := if reports.isEmpty then .ok state.stats else .error reports
          log := state.log ++ [.finished state.stats.converted state.stats.declined
            state.stats.signatures reports.length] } := by
  simp only [run, bind_eq_ok, Halt.guard_eq_ok, pure_eq_ok]
  constructor
  · rintro ⟨state, hwalk, renamed, hrename, reports, hreports, rfl⟩
    exact ⟨state, renamed, reports, hwalk, hrename, hreports, rfl⟩
  · rintro ⟨state, renamed, reports, hwalk, hrename, hreports, rfl⟩
    exact ⟨state, hwalk, renamed, hrename, reports, hreports, rfl⟩

/-- Renaming the operands of several blocks keeps a program valid. -/
theorem renameBodies_valid {aliases : Renaming} {ids : List FuncId} {program after : Program}
    (hrun : forEach (renameBody aliases) ids program = .ok after) (hvalid : program.Valid) :
    after.Valid := by
  refine forEach_invariant Program.Valid (fun id _ program after hprogram hstep => ?_) hrun hvalid
  simp only [renameBody, bind_eq_ok, pure_eq_ok] at hstep
  obtain ⟨body, -, rfl⟩ := hstep
  exact foldl_renameOperands_valid _ _ hprogram

/-- A conversion keeps a program valid, also when errors remain. -/
theorem run_valid {patterns : List Pattern} {types : TypeMap} {legality : Legality}
    {program : Program} {outcome : Outcome}
    (hrun : run patterns types legality program = .ok outcome) (hvalid : program.Valid) :
    outcome.program.Valid := by
  obtain ⟨state, renamed, reports, hwalk, hrename, -, rfl⟩ := run_eq_ok.mp hrun
  exact renameBodies_valid hrename (walk_valid hwalk hvalid)

end Conversion

namespace Program

/-- The programs that can be built from the empty one. -/
inductive Reachable : Program → Prop
  | empty : Reachable .empty
  | define {program after : Program} {name : String} {argTypes resultTypes : List Ty} :
      Reachable program → program.define name argTypes resultTypes = .ok after → Reachable after
  | declare {program : Program} (name : String) (argTypes resultTypes : List Ty) :
      Reachable program → Reachable (program.declare name argTypes resultTypes)
  | addOp {program : Program} (kind : OpKind) (operands : List ValueId) (types : List Ty)
      (span : Span) : Reachable program → Reachable (program.addOp kind operands types span)
  | appendOp {program after : Program} {id : FuncId} {kind : OpKind} {operands : List ValueId}
      {types : List Ty} {span : Span} : Reachable program →
      program.appendOp id kind operands types span = .ok after → Reachable after
  | convert {program : Program} {patterns : List Pattern} {types : TypeMap} {legality : Legality}
      {outcome : Conversion.Outcome} : Reachable program →
      Conversion.run patterns types legality program = .ok outcome → Reachable outcome.program

/-- Every program that can be built is valid. -/
theorem Reachable.valid {program : Program} (hreach : program.Reachable) : program.Valid := by
  induction hreach with
  | empty => exact Valid.empty
  | define _ hdefine ih => exact ih.define hdefine
  | declare name argTypes resultTypes _ ih => exact ih.declare name argTypes resultTypes
  | addOp kind operands types span _ ih => exact ih.addOp kind operands types span
  | appendOp _ happend ih => exact ih.appendOp happend
  | convert _ hrun ih => exact Conversion.run_valid hrun ih

end Program

end TensorLowering
