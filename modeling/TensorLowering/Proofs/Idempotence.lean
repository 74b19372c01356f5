import TensorLowering.Proofs.Acceptance
import TensorLowering.Proofs.Finished
import TensorLowering.Proofs.Readings
import TensorLowering.Proofs.Resubmission

/-!
# Lowering twice

In a program that a successful run has left, the signatures stay, every return is built again with
the same contents, the rule for extents declines at every dense tensor, and no other operation has
a rule. So a second run succeeds, it counts the returns and the extents, and the program reads as
before.
-/

namespace TensorLowering

/-- The number of operations of a kind among the given ones. -/
def Program.countKind (program : Program) (kind : OpKind) (ids : List OpId) : Nat :=
  (program.operations ids).countP fun op => op.kind = kind

/-- Counting from the first operation on. -/
theorem Program.countKind_cons {program : Program} {id : OpId} {op : Operation}
    (hop : program.ops[id.index]? = some op) (kind : OpKind) (rest : List OpId) :
    program.countKind kind (id :: rest) =
      program.countKind kind rest + if op.kind = kind then 1 else 0 := by
  simp [countKind, operations_cons hop, List.countP_cons]

/-- A change that leaves the function as it is leaves the program as it is. -/
theorem Program.modifyFunc_self {program : Program} {id : FuncId} {func : Func}
    {change : Func → Func} (hfunc : program.funcs[id.index]? = some func)
    (h : change func = func) : program.modifyFunc id change = program := by
  have hfuncs : program.funcs.modify id.index change = program.funcs := by
    refine List.ext_getElem? fun i => ?_
    rw [List.getElem?_modify]
    by_cases hi : id.index = i
    · subst hi
      simp [hfunc, h]
    · simp [hi]
  rw [modifyFunc, hfuncs]

/-- Programs that read the same agree about what may remain. -/
theorem Program.ReadsAs.isLegal_eq {before after : Program} (h : before.ReadsAs after)
    (op : Operation) :
    Lowering.legality.isLegal after op = Lowering.legality.isLegal before op :=
  Lowering.isLegal_congr rfl rfl fun v _ => h.typeOf_eq v

namespace Conversion

variable {types : TypeMap} {program : Program}

/-- A step that leaves the state alone does so for all functions. -/
theorem forEach_self {σ ε : Type} {step : FuncId → σ → Except ε σ} {ids : List FuncId} {state : σ}
    (h : ∀ id ∈ ids, step id state = .ok state) : forEach step ids state = .ok state := by
  induction ids with
  | nil => rfl
  | cons id rest ih =>
    exact bind_eq_ok.mpr ⟨state, h id List.mem_cons_self,
      ih fun other hother => h other (List.mem_cons_of_mem _ hother)⟩

/-- Arguments of legal types are left alone. -/
theorem convertArgs_self {id : FuncId} {index : Nat} {tys : List Ty} {state : Progress}
    (h : tys.all types.isLegal = true) : convertArgs types id index tys state = .ok state := by
  induction tys generalizing index with
  | nil => rfl
  | cons ty rest ih =>
    rw [List.all_cons, Bool.and_eq_true, TypeMap.isLegal, beq_iff_eq] at h
    refine bind_eq_ok.mpr ⟨state, ?_, ih h.2⟩
    rw [convertArg, if_pos h.1]

/-- A signature of legal types is left alone. -/
theorem convertSignature_self {id : FuncId} {func : Func} {state : Progress}
    (hfunc : state.program.funcs[id.index]? = some func)
    (h : changesSignature types func = false) : convertSignature types id state = .ok state := by
  have hlegal : func.argTypes.all types.isLegal = true ∧
      func.resultTypes.all types.isLegal = true := by
    simpa [changesSignature] using h
  have hresults : func.resultTypes.map types.convert = func.resultTypes := by
    refine (List.map_congr_left fun ty hty => ?_).trans (List.map_id _)
    exact beq_iff_eq.mp (List.all_eq_true.mp hlegal.2 ty hty)
  have hsame : (state.program.modifyFunc id fun func =>
      { func with resultTypes := func.resultTypes.map types.convert }) = state.program :=
    Program.modifyFunc_self hfunc (by rw [hresults])
  refine bind_eq_ok.mpr ⟨func, Program.func_eq_ok.mpr hfunc,
    bind_eq_ok.mpr ⟨state, convertArgs_self hlegal.1, ?_⟩⟩
  simp only [h, hsame]
  rfl

end Conversion

namespace Lowering

open Conversion

variable {program : Program} {state : Progress} {id : OpId} {pending : List OpId}

/-- A second walk under way: the program reads as before, what is yet to be visited is untouched,
nothing is renamed, and what was visited is counted. -/
structure Replays (program : Program) (pending : List OpId) (state : Progress) : Prop where
  readsAs : program.ReadsAs state.program
  untouched : ∀ id ∈ pending, ∀ op, program.ops[id.index]? = some op →
    state.program.ops[id.index]? = some op
  aliases : state.aliases = {}
  converted : state.stats.converted + program.countKind .ret pending =
    program.countKind .ret program.allOps
  declined : state.stats.declined + program.countKind .tensorDim pending =
    program.countKind .tensorDim program.allOps
  signatures : state.stats.signatures = 0

/-- Nothing is renamed by the empty renaming. -/
theorem resolve_empty (v : ValueId) : ({} : Renaming).resolve v = v :=
  Renaming.resolve_of_next?_eq_none rfl

/-- An extent that may remain is declined. -/
theorem declined_of_isLegal {op : Operation} (hkind : op.kind = .tensorDim)
    (hlegal : legality.isLegal program op = .ok true) : Declined program op op.operands := by
  rw [isLegal_of_tensorDim hkind, denseSource] at hlegal
  simp only [bind_eq_ok, Fault.fetch_eq_ok, pure_eq_ok] at hlegal
  obtain ⟨v, hv, ty, hty, hdense⟩ := hlegal
  rw [Declined, hkind]
  refine ⟨v, ty, hv, hty, ?_⟩
  simpa using (Bool.and_eq_true_iff.mp hdense).2

/-- At the beginning nothing is counted. -/
theorem Replays.begin (program : Program) : Replays program program.allOps { program } where
  readsAs := .refl program
  untouched _ _ _ hop := hop
  aliases := rfl
  converted := Nat.zero_add _
  declined := Nat.zero_add _
  signatures := rfl

/-- Leaving an operation alone counts an attempt if it asks for an extent. -/
theorem Replays.keeps {op : Operation} (h : Replays program (id :: pending) state)
    (hop : program.ops[id.index]? = some op) (hret : op.kind ≠ .ret)
    (hrule : (ruleFor op.kind).toList.length = if op.kind = .tensorDim then 1 else 0)
    (log : List Event) : Replays program pending { state with
      log
      stats := { state.stats with
        declined := state.stats.declined + (ruleFor op.kind).toList.length } } where
  readsAs := h.readsAs
  untouched other hother := h.untouched other (List.mem_cons_of_mem _ hother)
  aliases := h.aliases
  converted := by
    have hcount := h.converted
    rwa [Program.countKind_cons hop, if_neg hret, Nat.add_zero] at hcount
  declined := by
    have hcount := h.declined
    rw [Program.countKind_cons hop] at hcount
    simp only [hrule]
    omega
  signatures := h.signatures

/-- Building a return again counts it. -/
theorem Replays.rebuilds {op : Operation} {funcId : FuncId} {func : Func} {pre post : List OpId}
    (h : Replays program (id :: pending) state) (hid : id ∉ pending)
    (hvalid : state.program.Valid) (hop : program.ops[id.index]? = some op)
    (hlive : op.erased = false) (hkind : op.kind = .ret) (hresults : op.results = [])
    (hfunc : state.program.funcs[funcId.index]? = some func)
    (hbody : func.body = some (pre ++ id :: post)) (log : List Event) :
    Replays program pending {
      program := state.program.rebuild funcId id op pre post
      aliases := state.aliases
      stats := { state.stats with converted := state.stats.converted + 1 }
      log } where
  readsAs := h.readsAs.trans (Program.readsAs_rebuild hvalid
    (h.untouched id List.mem_cons_self op hop) hlive hresults hfunc hbody)
  untouched other hother built hbuilt := by
    have hnow := h.untouched other (List.mem_cons_of_mem _ hother) built hbuilt
    have hindex : id.index ≠ other.index := fun heq => hid (OpId.eq_of_index heq ▸ hother)
    rw [Program.rebuild_getElem? funcId id pre post hlive hresults,
      List.getElem?_append_left (List.getElem?_eq_some_iff.mp hnow).1, hnow, Option.map_some,
      if_neg hindex]
  aliases := h.aliases
  converted := by
    have hcount := h.converted
    rw [Program.countKind_cons hop, if_pos hkind] at hcount
    simp only
    omega
  declined := by
    have hcount := h.declined
    rwa [Program.countKind_cons hop, if_neg (by simp [hkind]), Nat.add_zero] at hcount
  signatures := h.signatures

/-- At the end everything is counted. -/
theorem Replays.stats_eq (h : Replays program [] state) : state.stats = {
    converted := program.countKind .ret program.allOps
    declined := program.countKind .tensorDim program.allOps
    signatures := 0 } := by
  rw [← h.converted, ← h.declined, ← h.signatures]
  rfl

/-- In a finished program every visit builds a return again or is declined. -/
theorem Finished.keptByVisits (h : Finished program) :
    KeptByVisits False rules program (Replays program) := by
  intro funcId id rest state func hid hnew hscheduled hfunc hmem hreplays
  obtain ⟨op, hop, hlive⟩ := h.valid.live id hid
  have hlisted : op ∈ program.operations program.allOps := List.mem_filterMap.mpr ⟨id, hid, hop⟩
  have hnow := hreplays.untouched id List.mem_cons_self op hop
  have hoperands : op.operands.map state.aliases.resolve = op.operands := by
    rw [hreplays.aliases]
    exact List.map_id'' resolve_empty _
  have hlegal := (hreplays.readsAs.isLegal_eq op).trans (h.legal op hlisted)
  have hleft (hret : op.kind ≠ .ret) (hdeclined : Declined state.program op op.operands)
      (hrule : (ruleFor op.kind).toList.length = if op.kind = .tensorDim then 1 else 0) :
      Ensures False (Replays program rest) (convertOp rules funcId id state) := by
    obtain ⟨log, hrun⟩ := exists_convertOp_of_declined hnow hlive funcId (by rwa [hoperands])
    rw [hrun]
    exact hreplays.keeps hop hret hrule log
  rcases kind_cases op.kind with hret | hdim | hsparse | hplain
  · have hresults := h.rets op hlisted hret
    obtain ⟨body, hbody, hstands⟩ : ∃ body, func.body = some body ∧ id ∈ body := by
      cases hbody : func.body with
      | none => simp [Func.bodyOps, hbody] at hmem
      | some body => exact ⟨body, rfl, by simpa [Func.bodyOps, hbody] using hmem⟩
    obtain ⟨pre, post, rfl, hpre⟩ := List.eq_append_cons_of_mem hstands
    obtain ⟨log, hrun⟩ := exists_convertOp_of_ret hnow hlive hret hresults hfunc hbody hpre
    rw [hrun, hoperands]
    exact hreplays.rebuilds hnew hscheduled.valid hop hlive hret hresults hfunc hbody log
  · exact hleft (by simp [hdim]) (declined_of_isLegal hdim hlegal) (by rw [hdim]; rfl)
  · -- What is left of a successful run is legal, and these operations never are.
    rw [isLegal_of_sparse hsparse] at hlegal
    simp at hlegal
  · refine hleft (fun hret => ?_) (declined_of_plain hplain) ?_
    · simp [hret, ruleFor] at hplain
    · rw [hplain, if_neg fun hdim => by simp [hdim, ruleFor] at hplain]
      rfl

/-- A finished program is lowered to one that reads the same. -/
theorem Finished.exists_lower (h : Finished program) : ∃ again,
    lower program = .ok again ∧ again.program.Valid ∧ program.ReadsAs again.program ∧
    again.result = .ok {
      converted := program.countKind .ret program.allOps
      declined := program.countKind .tensorDim program.allOps
      signatures := 0 } := by
  have hsigned : forEach (convertSignature handleTypes) program.definedFuncs { program } =
      .ok { program } := by
    refine forEach_self fun id hid => ?_
    obtain ⟨func, body, hfunc, hbody⟩ := exists_of_mem_definedFuncs hid
    exact convertSignature_self hfunc (h.signatures func (List.mem_of_getElem? hfunc)
      (by simp [Func.isDeclaration, hbody]))
  have hresigned := resigned_of_forEach h.valid hsigned
  -- No visit may stop here, so the walk comes to its end.
  obtain ⟨state, hbodies, hscheduled, hreplays⟩ :=
    (h.keptByVisits.walk hresigned h.valid (.begin program)).exists_ok
  have hwalk : walk rules handleTypes program = .ok state := by
    simp only [walk, bind_eq_ok, Halt.guard_eq_ok]
    exact ⟨_, hsigned, hbodies⟩
  have hids : ∀ id ∈ program.definedFuncs, id.index < state.program.funcs.length := by
    intro id hid
    obtain ⟨func, body, hfunc, -⟩ := exists_of_mem_definedFuncs hid
    rw [hreplays.readsAs.length_funcs]
    exact (List.getElem?_eq_some_iff.mp hfunc).1
  obtain ⟨target, hrename⟩ := exists_renameBodies state.aliases hids
  obtain rfl : target = state.program :=
    (renamed_of_forEach (hscheduled.valid.nodup_blocks (nodup_definedFuncs program))
      hrename).eq_of_fixed fun v => hreplays.aliases ▸ resolve_empty v
  have hreports : illegalIn legality state.program program.definedFuncs = .ok [] := by
    refine illegalIn_eq_nil.mpr fun id hid =>
      ⟨_, List.getElem?_eq_getElem (hids id hid), fun other hother => ?_⟩
    have hstands := Program.mem_allOps (List.getElem?_eq_getElem (hids id hid)) hother
    obtain ⟨op, hop, -⟩ := hscheduled.valid.live other hstands
    have hlisted : op ∈ program.operations program.allOps :=
      hreplays.readsAs.operations_allOps ▸ List.mem_filterMap.mpr ⟨other, hstands, hop⟩
    exact ⟨op, hop, (hreplays.readsAs.isLegal_eq op).trans (h.legal op hlisted)⟩
  refine ⟨_, run_eq_ok.mpr ⟨state, _, [], hwalk, hrename, hreports, rfl⟩, hscheduled.valid,
    hreplays.readsAs, ?_⟩
  exact congrArg Except.ok hreplays.stats_eq

/-- A program stays as it is under a run. No value or function is new, the returns are counted as
converted, the extents as declined and no signature is, and the text is the same as before. -/
structure StaysLowered (program : Program) (again : Outcome) : Prop where
  run : lower program = .ok again
  result : again.result = .ok {
    converted := program.countKind .ret program.allOps
    declined := program.countKind .tensorDim program.allOps
    signatures := 0 }
  values : again.program.values = program.values
  funcs : again.program.funcs.length = program.funcs.length
  text : ∃ text, program.render = .ok text ∧ again.program.render = .ok text

/-- A successful run leaves a program that can be lowered again, successfully, and that stays as it
is then. No order of definitions and uses is asked for. -/
theorem lower_idempotent {outcome : Outcome} {stats : Stats} (hreach : program.Reachable)
    (hrange : program.OperandsInRange) (hrun : lower program = .ok outcome)
    (hresult : outcome.result = .ok stats) : ∃ again, StaysLowered outcome.program again := by
  have hfinished := finished_of_lower hreach.valid hrange hrun hresult
  obtain ⟨again, hagain, hvalid, hreads, hstats⟩ := hfinished.exists_lower
  obtain ⟨text, htext⟩ := Program.exists_render hfinished.valid hfinished.operands
  exact ⟨again, hagain, hstats, hreads.values, hreads.length_funcs, text, htext,
    (hreads.render_eq hfinished.valid hvalid).trans htext⟩

/-- Two extents are asked along a dimension that is given only later, and one of them is that of a
sparse vector. -/
def belated : Program := .listed
  [{ name := "belated"
     argTypes := [sparseVector, .dense [.dynamic] .f64]
     resultTypes := [.index, .index, sparseVector]
     lines := some [
      { kind := .tensorDim, operands := [1, 3], types := [.index] },
      { kind := .constant (.index 0), operands := [], types := [.index] },
      { kind := .tensorDim, operands := [0, 3], types := [.index] },
      { kind := .sparseConvert, operands := [1], types := [sparseVector] },
      { kind := .ret, operands := [2, 4, 5] }] }]

/-- The extent of the dense vector is asked before its dimension is there, and lowering twice is
still lowering once. -/
theorem lower_idempotent_belated : belated.Reachable ∧ belated.OperandsInRange ∧
    ¬ belated.DefBeforeUse ∧ ∃ outcome stats, lower belated = .ok outcome ∧
      outcome.result = .ok stats ∧ ∃ again, StaysLowered outcome.program again := by
  have hreach : belated.Reachable := Program.reachable_listed _
  have hrange : belated.OperandsInRange := by decide +kernel
  have hlate : ¬ belated.DefBeforeUse := by decide +kernel
  obtain ⟨outcome, stats, hrun, hresult⟩ :=
    exists_of_accepts (by decide +kernel : accepts belated = true)
  exact ⟨hreach, hrange, hlate, outcome, stats, hrun, hresult,
    lower_idempotent hreach hrange hrun hresult⟩

end Lowering

end TensorLowering
