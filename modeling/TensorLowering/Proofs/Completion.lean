import TensorLowering.Proofs.Rejections

/-!
# Runs that come to their end

A run stops early only at a fault. Here each phase is shown to meet none. Signatures are converted
in any valid program. The walk comes to its end if every visit does, and two kinds of visits always
do: an operation that is declined, and a return without results. Renaming asks for the functions
only, and the reports can be made when definitions precede uses and the source of every extent is
there.
-/

namespace TensorLowering

/-- The program after an operation without results, which stands between others in a block, has been
built again. -/
def Program.rebuild (program : Program) (funcId : FuncId) (id : OpId) (op : Operation)
    (pre post : List OpId) : Program :=
  ((program.addOp op.kind op.operands [] op.span).modifyFunc funcId fun func =>
    { func with body := some (pre ++ [program.nextOp] ++ post) }).eraseOp id

namespace Conversion

/-- A step that never stops, under an invariant that it keeps, can be performed for each function.
-/
theorem exists_forEach {σ ε : Type} {step : FuncId → σ → Except ε σ} (invariant : σ → Prop)
    {ids : List FuncId} (state : σ) (hstate : invariant state)
    (hstep : ∀ id ∈ ids, ∀ state, invariant state →
      ∃ after, step id state = .ok after ∧ invariant after) :
    ∃ after, forEach step ids state = .ok after ∧ invariant after := by
  induction ids generalizing state with
  | nil => exact ⟨state, rfl, hstate⟩
  | cons id rest ih =>
    obtain ⟨middle, hmiddle, hkept⟩ := hstep id List.mem_cons_self state hstate
    obtain ⟨after, hafter, hlast⟩ := ih middle hkept fun other hother =>
      hstep other (List.mem_cons_of_mem _ hother)
    exact ⟨after, bind_eq_ok.mpr ⟨middle, hmiddle, hafter⟩, hlast⟩

/-! ### Signatures and names -/

/-- An argument that is there can be converted. -/
theorem exists_convertArg (types : TypeMap) {id : FuncId} (ty : Ty) {index : Nat} {state : Progress}
    {func : Func} (hfunc : state.program.funcs[id.index]? = some func)
    (hargs : index < func.args.length) :
    ∃ after func', convertArg types id index ty state = .ok after ∧
      after.program.funcs[id.index]? = some func' ∧ func'.args.length = func.args.length ∧
      after.program.funcs.length = state.program.funcs.length := by
  by_cases hsame : types.convert ty = ty
  · exact ⟨state, func, by simp [convertArg, hsame], hfunc, rfl, rfl⟩
  · have hrun : convertArg types id index ty state = .ok { state with
        program := state.program.replaceArg id index (types.convert ty)
        aliases := state.aliases.insert func.args[index] ⟨state.program.values.length⟩ } := by
      simp only [convertArg, if_neg hsame, bind_eq_ok, Program.func_eq_ok, Fault.fetch_eq_ok,
        pure_eq_ok]
      exact ⟨func, hfunc, _, List.getElem?_eq_getElem hargs, rfl⟩
    have hfunc' : (state.program.replaceArg id index (types.convert ty)).funcs[id.index]? = some
        { func with
          args := func.args.set index ⟨state.program.values.length⟩
          argTypes := func.argTypes.set index (types.convert ty) } := by
      simp [Program.replaceArg, hfunc]
    exact ⟨_, _, hrun, hfunc', by simp, by simp [Program.replaceArg]⟩

/-- Arguments that are there can be converted, and the functions stay as many. -/
theorem exists_convertArgs (types : TypeMap) {id : FuncId} {tys : List Ty} {index : Nat}
    {state : Progress} {func : Func} (hfunc : state.program.funcs[id.index]? = some func)
    (hargs : index + tys.length ≤ func.args.length) :
    ∃ after, convertArgs types id index tys state = .ok after ∧
      after.program.funcs.length = state.program.funcs.length := by
  induction tys generalizing index state func with
  | nil => exact ⟨state, rfl, rfl⟩
  | cons ty rest ih =>
    rw [List.length_cons] at hargs
    obtain ⟨middle, func', hmiddle, hfunc', hlength, hsize⟩ :=
      exists_convertArg types ty hfunc (by omega : index < func.args.length)
    obtain ⟨after, hafter, hsize'⟩ := ih hfunc' (by omega : index + 1 + rest.length ≤ _)
    exact ⟨after, bind_eq_ok.mpr ⟨middle, hmiddle, hafter⟩, hsize'.trans hsize⟩

/-- The signature of a function of a valid program can be converted. -/
theorem exists_convertSignature (types : TypeMap) {id : FuncId} {state : Progress}
    (hvalid : state.program.Valid) (hid : id.index < state.program.funcs.length) :
    ∃ after, convertSignature types id state = .ok after ∧
      after.program.funcs.length = state.program.funcs.length := by
  have hfunc := List.getElem?_eq_getElem hid
  have harity := hvalid.arity _ (List.mem_of_getElem? hfunc)
  obtain ⟨middle, hmiddle, hsize⟩ := exists_convertArgs types hfunc
    (by omega : 0 + (state.program.funcs[id.index]).argTypes.length ≤ _)
  by_cases hchange : changesSignature types state.program.funcs[id.index] = true
  · refine ⟨_, bind_eq_ok.mpr ⟨_, Program.func_eq_ok.mpr hfunc, bind_eq_ok.mpr
      ⟨middle, hmiddle, if_pos hchange⟩⟩, ?_⟩
    simpa [Program.modifyFunc] using hsize
  · refine ⟨_, bind_eq_ok.mpr ⟨_, Program.func_eq_ok.mpr hfunc, bind_eq_ok.mpr
      ⟨middle, hmiddle, if_neg hchange⟩⟩, ?_⟩
    simpa [Program.modifyFunc] using hsize

/-- The signatures of a valid program can be converted. -/
theorem exists_signatures (types : TypeMap) {program : Program} (hvalid : program.Valid) :
    ∃ start, forEach (convertSignature types) program.definedFuncs { program } = .ok start := by
  have hstep : ∀ id ∈ program.definedFuncs, ∀ state : Progress,
      state.program.Valid ∧ state.program.funcs.length = program.funcs.length →
      ∃ after, convertSignature types id state = .ok after ∧
        after.program.Valid ∧ after.program.funcs.length = program.funcs.length := by
    rintro id hid state ⟨hstate, hsize⟩
    obtain ⟨func, body, hfunc, -⟩ := exists_of_mem_definedFuncs hid
    have hlt := (List.getElem?_eq_some_iff.mp hfunc).1
    obtain ⟨after, hafter, hsize'⟩ := exists_convertSignature types hstate (hsize ▸ hlt)
    exact ⟨after, hafter, convertSignature_valid hafter hstate, hsize'.trans hsize⟩
  obtain ⟨start, hstart, -⟩ := exists_forEach (fun state : Progress =>
    state.program.Valid ∧ state.program.funcs.length = program.funcs.length) { program }
      ⟨hvalid, rfl⟩ hstep
  exact ⟨start, hstart⟩

/-- Operands can be renamed in functions that are there. -/
theorem exists_renameBodies (aliases : Renaming) {program : Program} {ids : List FuncId}
    (hids : ∀ id ∈ ids, id.index < program.funcs.length) :
    ∃ after, forEach (renameBody aliases) ids program = .ok after := by
  have hstep : ∀ id ∈ ids, ∀ state : Program, state.funcs = program.funcs →
      ∃ after, renameBody aliases id state = .ok after ∧ after.funcs = program.funcs := by
    intro id hid state hstate
    have hfunc := List.getElem?_eq_getElem (hstate ▸ hids id hid : id.index < state.funcs.length)
    refine ⟨_, bind_eq_ok.mpr ⟨_, Program.bodyOps_eq_ok.mpr ⟨_, hfunc, rfl⟩, rfl⟩, ?_⟩
    rw [foldl_renameOperands_funcs, hstate]
  obtain ⟨after, hafter, -⟩ := exists_forEach (fun state : Program => state.funcs = program.funcs)
    program rfl hstep
  exact ⟨after, hafter⟩

/-- What a successful attempt asks for can be done if the root stands in the block. -/
theorem exists_commit (pattern : Pattern) {funcId : FuncId} {opId : OpId} (root : Operation)
    {attempt : Attempt} (aliases : Renaming) {func : Func} {body : List OpId} {values : List ValueId}
    (hvalues : attempt.replacement = some values)
    (hfunc : attempt.program.funcs[funcId.index]? = some func) (hbody : func.body = some body)
    (hmem : opId ∈ body) : ∃ program, commit pattern funcId opId root attempt aliases =
      .ok (program, aliases.insertAll root.results values) := by
  obtain ⟨pre, post, rfl, hpre⟩ := List.eq_append_cons_of_mem hmem
  exact ⟨_, commit_eq_ok.mpr ⟨values, func, pre, post, hvalues, hfunc, hbody, hpre, rfl, rfl⟩⟩

end Conversion

namespace Lowering

open Conversion

/-! ### Visits -/

section Visits

variable {state : Progress} {opId : OpId} {root : Operation}
  (hroot : state.program.ops[opId.index]? = some root) (hlive : root.erased = false)

include hroot hlive

/-- A visit to an operation is an offer to its rule. -/
theorem convertOp_eq_ok_of_offer {funcId : FuncId} {after : Progress}
    (hoffer : offer funcId opId
      { id := opId, root, operands := root.operands.map state.aliases.resolve }
      (ruleFor root.kind).toList state = .ok after) :
    convertOp rules funcId opId state = .ok after := by
  refine convertOp_eq_ok.mpr ⟨root, hroot, .inr ⟨hlive, ?_⟩⟩
  rwa [Operation.name, rootedAt_rules]

/-- A visit to an operation that is declined only counts the attempt, if there was one. -/
theorem exists_convertOp_of_declined (funcId : FuncId)
    (hdeclined : Declined state.program root (root.operands.map state.aliases.resolve)) :
    ∃ log, convertOp rules funcId opId state = .ok { state with
      log
      stats := { state.stats with
        declined := state.stats.declined + (ruleFor root.kind).toList.length } } := by
  cases hrule : ruleFor root.kind with
  | none => exact ⟨state.log, convertOp_eq_ok_of_offer hroot hlive (by rw [hrule]; rfl)⟩
  | some pattern =>
    refine ⟨state.log ++ [.declined root.name pattern.label],
      convertOp_eq_ok_of_offer hroot hlive ?_⟩
    rw [hrule, Option.toList_some]
    refine offer_cons_eq_ok.mpr (.inr ⟨_, (run_eq_none_iff hrule).mpr ⟨rfl, hdeclined⟩, ?_⟩)
    simp only [offer, rollBack_self]
    rfl

/-- A visit to a return without results builds it again with its renamed operands. -/
theorem exists_convertOp_of_ret {funcId : FuncId} {func : Func} {pre post : List OpId}
    (hkind : root.kind = .ret) (hresults : root.results = [])
    (hfunc : state.program.funcs[funcId.index]? = some func)
    (hbody : func.body = some (pre ++ opId :: post)) (hpre : opId ∉ pre) :
    ∃ log, convertOp rules funcId opId state = .ok {
      program := state.program.rebuild funcId opId
        { root with operands := root.operands.map state.aliases.resolve } pre post
      aliases := state.aliases
      stats := { state.stats with converted := state.stats.converted + 1 }
      log } := by
  have hattempt : (returnRule.attempt ⟨opId, root, root.operands.map state.aliases.resolve⟩).run
      root { program := state.program, log := state.log } = .ok (some (), _) :=
    Script.run_replaceWithNew.mpr ⟨rfl, by simp [hresults], rfl, rfl⟩
  refine ⟨state.log ++ [.replaced root.name returnRule.label],
    convertOp_eq_ok_of_offer hroot hlive ?_⟩
  rw [hkind]
  refine offer_cons_eq_ok.mpr (.inl ⟨_, _, _, hattempt, commit_eq_ok.mpr
    ⟨_, func, pre, post, rfl, hfunc, hbody, hpre, rfl, rfl⟩, ?_⟩)
  rw [hresults]
  rfl

end Visits

/-! ### The walk -/

variable {source : Program} {start state : Progress} {done : List OpId} {expand : OpId → List OpId}

/-- The source of a walk is still there, up to marks of erasure. -/
theorem Walk.extends (hresigned : Resigned handleTypes source start)
    (h : Walk source start done expand state) : source.Extends state.program where
  values := hresigned.values.trans h.values
  ops o op hop := by
    by_cases hid : (⟨o⟩ : OpId) ∈ done
    · obtain ⟨op', hop', hrecord⟩ := h.records ⟨o⟩ hid
      obtain rfl := Option.some.inj (hop.symm.trans hop')
      generalize expand ⟨o⟩ = ids at hrecord
      cases hrecord with
      | kept hkept => exact ⟨op.erased, hkept⟩
      | replaced herased => exact ⟨true, herased⟩
    · exact ⟨op.erased, (h.pending ⟨o⟩ hid).2 op hop⟩

/-- Every visit of a walk comes to its end, and keeps an invariant. -/
def EachVisit (source : Program) (start : Progress) (invariant : Progress → Prop) : Prop :=
  ∀ (done post : List OpId) (expand : OpId → List OpId) (state : Progress) (id : OpId)
    (op : Operation) (funcId : FuncId) (func : Func) (body : List OpId),
    source.allOps = done ++ id :: post → Walk source start done expand state → invariant state →
    source.ops[id.index]? = some op → start.program.funcs[funcId.index]? = some func →
    func.body = some body → id ∈ body →
    ∃ after, convertOp rules funcId id state = .ok after ∧ invariant after

/-- When an operation is visited, it stands in the expanded block as it did at the beginning. -/
theorem Walk.stands {id : OpId} {op : Operation} {func : Func} {body post : List OpId}
    (h : Walk source start done expand state) (hsource : source.Valid)
    (hall : source.allOps = done ++ id :: post) (hop : source.ops[id.index]? = some op)
    (hbody : func.body = some body) (hmem : id ∈ body) :
    state.program.ops[id.index]? = some op ∧ op.erased = false ∧
      (func.expandBody expand).body = some (body.flatMap expand) ∧ id ∈ body.flatMap expand := by
  have hnew : id ∉ done := by
    have hnodup := hsource.nodup
    rw [hall] at hnodup
    exact fun hin => (List.nodup_append.mp hnodup).2.2 id hin id List.mem_cons_self rfl
  obtain ⟨hexpand, hnow⟩ := h.pending id hnew
  obtain ⟨op', hop', hlive⟩ := hsource.live id (by simp [hall])
  obtain rfl := Option.some.inj (hop.symm.trans hop')
  exact ⟨hnow op hop, hlive, by simp [Func.expandBody, hbody],
    List.mem_flatMap.mpr ⟨id, hmem, by simp [hexpand]⟩⟩

section Run

variable {invariant : Progress → Prop} (hresigned : Resigned handleTypes source start)
  (hsource : source.Valid) (hstart : start.program.Valid) (hssa : source.DefBeforeUse)
  (hvisit : EachVisit source start invariant) (hstate : invariant state)

include hresigned hsource hstart hssa hvisit hstate

/-- The operations of a block can be visited. -/
theorem Walk.exists_convertOps (h : Walk source start done expand state) {funcId : FuncId}
    {func : Func} {body ids rest : List OpId}
    (hfunc : start.program.funcs[funcId.index]? = some func) (hbody : func.body = some body)
    (hids : ∀ id ∈ ids, id ∈ body) (hall : source.allOps = done ++ (ids ++ rest)) :
    ∃ after, Conversion.convertOps rules funcId ids state = .ok after ∧ invariant after := by
  induction ids generalizing done expand state with
  | nil => exact ⟨state, rfl, hstate⟩
  | cons id ids ih =>
    obtain ⟨op, hop, -⟩ := hsource.live id (by simp [hall])
    obtain ⟨middle, hmiddle, hkept⟩ := hvisit done (ids ++ rest) expand state id op funcId func body
      hall h hstate hop hfunc hbody (hids id List.mem_cons_self)
    have hsingle : Conversion.convertOps rules funcId [id] state = .ok middle :=
      convertOps_cons_eq_ok.mpr ⟨middle, hmiddle, rfl⟩
    obtain ⟨expand', hstep⟩ := h.convertOps hresigned hsource hstart hssa hfunc hbody
      (fun other hother => hids other (List.mem_singleton.mp hother ▸ List.mem_cons_self))
      (by simpa using hall) hsingle
    obtain ⟨after, hafter, hlast⟩ := ih hkept hstep
      (fun other hother => hids other (List.mem_cons_of_mem _ hother)) (by rw [hall]; simp)
    exact ⟨after, convertOps_cons_eq_ok.mpr ⟨middle, hmiddle, hafter⟩, hlast⟩

/-- The blocks of several functions can be visited. -/
theorem Walk.exists_forEach (h : Walk source start done expand state) {ids : List FuncId}
    (hall : source.allOps = done ++ ids.flatMap source.blockOf)
    (hdefined : ∀ id ∈ ids, id ∈ source.definedFuncs) :
    ∃ after, Conversion.forEach (convertBody rules) ids state = .ok after ∧ invariant after := by
  induction ids generalizing done expand state with
  | nil => exact ⟨state, rfl, hstate⟩
  | cons id rest ih =>
    obtain ⟨func, body, hfunc, hbody, hsame⟩ :=
      exists_original_block hresigned (hdefined id List.mem_cons_self)
    rw [List.flatMap_cons, hsame] at hall
    have hunvisited : ∀ other ∈ body, other ∉ done := by
      intro other hother hin
      have hnodup := hsource.nodup
      rw [hall] at hnodup
      exact (List.nodup_append.mp hnodup).2.2 other hin other (List.mem_append_left _ hother) rfl
    obtain ⟨middle, hmiddle, hkept⟩ := h.exists_convertOps hresigned hsource hstart hssa hvisit
      hstate hfunc hbody (fun other hother => hother) hall
    obtain ⟨expand', hstep⟩ := h.convertOps hresigned hsource hstart hssa hfunc hbody
      (fun other hother => hother) hall hmiddle
    obtain ⟨after, hafter, hlast⟩ := ih hkept hstep (by rw [hall, List.append_assoc])
      fun other hother => hdefined other (List.mem_cons_of_mem _ hother)
    have hblock : state.program.bodyOps id = .ok body :=
      Program.bodyOps_eq_ok.mpr ⟨_, h.func hfunc, h.bodyOps_of_unvisited hbody hunvisited⟩
    refine ⟨after, bind_eq_ok.mpr ⟨middle, ?_, hafter⟩, hlast⟩
    exact bind_eq_ok.mpr ⟨body, Halt.guard_eq_ok.mpr hblock, hmiddle⟩

end Run

/-- The walk comes to its end if every visit does, whatever the signatures have become. -/
theorem exists_walk_of_eachVisit {invariant : Progress → Prop} (hsource : source.Valid)
    (hssa : source.DefBeforeUse)
    (hvisits : ∀ start, Resigned handleTypes source start →
      invariant start ∧ EachVisit source start invariant) :
    ∃ state, walk rules handleTypes source = .ok state ∧ invariant state := by
  obtain ⟨start, hsigned⟩ := exists_signatures handleTypes hsource
  have hresigned := resigned_of_forEach hsource hsigned
  have hstart := convertSignatures_valid hsigned hsource
  obtain ⟨hbegin, hvisit⟩ := hvisits start hresigned
  obtain ⟨state, hstate, hlast⟩ := (Walk.begin hresigned hsource hstart).exists_forEach hresigned
    hsource hstart hssa hvisit hbegin (by rw [source.flatMap_blockOf, List.nil_append])
    fun _ hid => hid
  exact ⟨state, bind_eq_ok.mpr ⟨start, Halt.guard_eq_ok.mpr hsigned, hstate⟩, hlast⟩

/-! ### Reports -/

/-- An operation of the source that still stands in the place it had: its operands are substituted,
and it was declined. -/
def Standing (source : Program) (state : Progress) (id : OpId) (op : Operation) : Prop :=
  id ∈ source.allOps ∧ ∃ built, source.ops[id.index]? = some built ∧
    op = { built with operands := built.operands.map state.aliases.resolve } ∧
    Declined state.program built (built.operands.map state.aliases.resolve)

/-- What stands in the blocks of a lowered program: operations of the source, returns without
results, and operations without rules. -/
theorem Lowered.cases_of_mem {target : Program} (hsource : source.Valid)
    (h : Lowered source start state expand target) {id : OpId} {op : Operation}
    (hid : id ∈ target.allOps) (hop : target.ops[id.index]? = some op) :
    Standing source state id op ∨ (op.kind = .ret ∧ op.results = []) ∨ ruleFor op.kind = none := by
  rw [h.allOps hsource] at hid
  obtain ⟨origin, horigin, hid⟩ := List.mem_flatMap.mp hid
  obtain ⟨built, hbuilt, -⟩ := hsource.live origin horigin
  have hbecame := h.became hsource horigin hbuilt
  have hkept := h.declined horigin hbuilt
  generalize expand origin = ids at hbecame hkept hid
  cases hbecame with
  | kept hnow =>
    obtain rfl := List.mem_singleton.mp hid
    obtain rfl := Option.some.inj (hop.symm.trans hnow)
    exact .inl ⟨horigin, built, hbuilt, rfl, hkept rfl⟩
  | replaced _ _ hexpansion =>
    have hmem : op ∈ target.operations ids := List.mem_filterMap.mpr ⟨id, hid, hop⟩
    rcases hexpansion.ret_or_plain with ⟨-, -, new, hnew, hkind, -, hresults, -⟩ | ⟨-, hplain⟩
    · rw [hnew, List.mem_singleton] at hmem
      exact .inr (.inl (hmem ▸ ⟨hkind, hresults⟩))
    · exact .inr (.inr (hplain op hmem))

variable {program : Program}

/-- An operation that can be judged and written down. -/
def Reportable (program : Program) (id : OpId) : Prop :=
  ∃ op legal text, program.ops[id.index]? = some op ∧ legality.isLegal program op = .ok legal ∧
    program.renderOp id = .ok text

/-- In a valid program whose definitions precede uses, everything that stands in a block can be
reported if the source of every extent is there. -/
theorem reportable_of_mem (hvalid : program.Valid) (hssa : program.DefBeforeUse) {id : OpId}
    (hid : id ∈ program.allOps)
    (hdim : ∀ op, program.ops[id.index]? = some op → op.kind = .tensorDim →
      ∃ v, op.operands[0]? = some v) : Reportable program id := by
  obtain ⟨op, hop, -⟩ := hvalid.live id hid
  have htyped : ∀ v ∈ op.operands, ∃ ty, program.typeOf v = .ok ty := fun v hv =>
    exists_typeOf_operand hvalid hssa hid hop hv
  obtain ⟨operandTypes, hoperandTypes⟩ := exists_typesOf htyped
  obtain ⟨resultTypes, hresultTypes⟩ := exists_typesOf_results hvalid hop
  obtain ⟨legal, hlegal⟩ : ∃ legal, legality.isLegal program op = .ok legal := by
    rcases kind_cases op.kind with hkind | hkind | hkind | hkind
    · rw [isLegal_of_ret hkind]
      rcases noneSparse_cases htyped with ⟨hnone, -⟩ | ⟨hsome, -⟩
      · exact ⟨true, hnone⟩
      · exact ⟨false, hsome⟩
    · obtain ⟨v, hv⟩ := hdim op hop hkind
      obtain ⟨ty, hty⟩ := htyped v (List.mem_of_getElem? hv)
      rw [isLegal_of_tensorDim hkind]
      exact ⟨_, bind_eq_ok.mpr ⟨v, Fault.fetch_eq_ok.mpr hv, bind_eq_ok.mpr ⟨ty, hty, rfl⟩⟩⟩
    · exact ⟨false, isLegal_of_sparse hkind⟩
    · exact ⟨true, isLegal_of_plain hkind⟩
  refine ⟨op, legal, _, hop, hlegal, bind_eq_ok.mpr ⟨op, Program.op_eq_ok.mpr hop, bind_eq_ok.mpr
    ⟨operandTypes, hoperandTypes, bind_eq_ok.mpr ⟨resultTypes, hresultTypes, rfl⟩⟩⟩⟩

/-- The reports about a block can be made. -/
theorem exists_illegalOps (func : String) {ids : List OpId} (h : ∀ id ∈ ids, Reportable program id) :
    ∃ reports, illegalOps legality program func ids = .ok reports := by
  induction ids with
  | nil => exact ⟨[], rfl⟩
  | cons id rest ih =>
    obtain ⟨op, legal, text, hop, hlegal, htext⟩ := h id List.mem_cons_self
    obtain ⟨reports, hreports⟩ := ih fun other hother => h other (List.mem_cons_of_mem _ hother)
    simp only [illegalOps, bind_eq_ok, Program.op_eq_ok]
    cases legal with
    | true => exact ⟨reports, op, hop, true, hlegal, hreports⟩
    | false =>
      exact ⟨_, op, hop, false, hlegal, bind_eq_ok.mpr ⟨text, htext, bind_eq_ok.mpr
        ⟨reports, hreports, rfl⟩⟩⟩

/-- The reports about functions that are there can be made. -/
theorem exists_illegalIn {ids : List FuncId} (hids : ∀ id ∈ ids, id.index < program.funcs.length)
    (h : ∀ id ∈ program.allOps, Reportable program id) :
    ∃ reports, illegalIn legality program ids = .ok reports := by
  induction ids with
  | nil => exact ⟨[], rfl⟩
  | cons id rest ih =>
    have hlt := hids id List.mem_cons_self
    have hfunc := List.getElem?_eq_getElem hlt
    obtain ⟨here, hhere⟩ := exists_illegalOps program.funcs[id.index].name
      fun other hother => h other (Program.mem_allOps hfunc hother)
    obtain ⟨there, hthere⟩ := ih fun other hother => hids other (List.mem_cons_of_mem _ hother)
    exact ⟨_, bind_eq_ok.mpr ⟨_, Program.func_eq_ok.mpr hfunc, bind_eq_ok.mpr ⟨here, hhere,
      bind_eq_ok.mpr ⟨there, hthere, rfl⟩⟩⟩⟩

/-- A run comes to its end if its walk does. -/
theorem exists_lower_of_walk (hvalid : program.Valid) (hssa : program.DefBeforeUse)
    (hwalk : walk rules handleTypes program = .ok state) :
    ∃ outcome, lower program = .ok outcome := by
  obtain ⟨start, expand, hresigned, hwalked⟩ := exists_walk hvalid hssa hwalk
  have hids : ∀ id ∈ program.definedFuncs, id.index < state.program.funcs.length := by
    intro id hid
    obtain ⟨func, body, hfunc, -⟩ := exists_of_mem_definedFuncs hid
    exact (List.getElem?_eq_some_iff.mp (hwalked.func (hresigned.func hfunc))).1
  obtain ⟨target, hrename⟩ := exists_renameBodies state.aliases hids
  have hlowered : Lowered program start state expand target :=
    ⟨hresigned, hwalked,
      renamed_of_forEach (hwalked.valid.nodup_blocks (nodup_definedFuncs program)) hrename⟩
  have htarget : target.Valid := renameBodies_valid hrename hwalked.valid
  have hordered := hlowered.defBeforeUse hvalid hssa htarget
  have hreportable : ∀ id ∈ target.allOps, Reportable target id := by
    refine fun id hid => reportable_of_mem htarget hordered hid fun op hop hkind => ?_
    rcases hlowered.cases_of_mem hvalid hid hop with
      ⟨-, built, -, rfl, hdeclined⟩ | ⟨hret, -⟩ | hplain
    · simp only [Declined, show built.kind = .tensorDim from hkind] at hdeclined
      obtain ⟨tensor, ty, htensor, -⟩ := hdeclined
      exact ⟨tensor, htensor⟩
    · simp [hkind] at hret
    · simp [hkind, ruleFor] at hplain
  obtain ⟨reports, hreports⟩ :=
    exists_illegalIn (fun id hid => hlowered.renamed.funcs ▸ hids id hid) hreportable
  exact ⟨_, run_eq_ok.mpr ⟨state, target, reports, hwalk, hrename, hreports, rfl⟩⟩

end Lowering

end TensorLowering
