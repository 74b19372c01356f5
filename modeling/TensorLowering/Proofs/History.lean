import TensorLowering.Proofs.Finished
import TensorLowering.Proofs.Representation

/-!
# The history of a run

A run that comes to its end has a history: the turns that the operations of the source had, one for
each, in the order in which they stand in the blocks. Operations that are created on the way have no
turn. The history tells what is in every block afterwards, which operations are erased and what is
counted, whatever the patterns are.
-/

namespace TensorLowering

/-- The operations among the given ones that are erased. -/
def Program.erasedAmong (program : Program) (ids : List OpId) : List OpId :=
  ids.filter fun id => program.ops[id.index]?.any Operation.erased

namespace Conversion

/-- The turns that led from one state to another, in order. -/
inductive History (patterns : List Pattern) (start : Progress) : List Turn → Progress → Prop
  | nil : History patterns start [] start
  | snoc {turns : List Turn} {turn : Turn} {state after : Progress} :
      History patterns start turns state → turn.Leads patterns state after →
      History patterns start (turns ++ [turn]) after

/-- What stands in the place of an operation after the given turns. -/
def standIns (turns : List Turn) (id : OpId) : List OpId :=
  match turns.find? fun turn => turn.op = id with
  | some turn => turn.place
  | none => [id]

variable {patterns : List Pattern} {types : TypeMap} {start state : Progress} {turns : List Turn}
  {turn : Turn} {id other : OpId}

/-! ### What stands where -/

/-- Turns of other operations do not matter. -/
theorem standIns_append (h : id ∉ turns.map Turn.op) (later : List Turn) :
    standIns (turns ++ later) id = standIns later id := by
  have hnone : turns.find? (fun turn => turn.op = id) = none := by
    refine List.find?_eq_none.mpr fun turn hturn heq => h ?_
    exact List.mem_map.mpr ⟨turn, hturn, of_decide_eq_true heq⟩
  rw [standIns, List.find?_append, hnone, Option.none_or, standIns]

/-- An operation that had no turn stands in its place. -/
theorem standIns_of_notMem (h : id ∉ turns.map Turn.op) : standIns turns id = [id] := by
  simpa [standIns] using standIns_append h []

/-- An operation has one turn, so there is no doubt about what stands in its place. -/
theorem standIns_of_mem (hnodup : (turns.map Turn.op).Nodup) (hturn : turn ∈ turns) :
    standIns turns turn.op = turn.place := by
  have hsome : turns.find? (fun other => other.op = turn.op) = some turn := by
    obtain ⟨found, hfound⟩ := Option.isSome_iff_exists.mp
      (List.find?_isSome (p := fun other => other.op = turn.op).mpr ⟨turn, hturn, by simp⟩)
    have hop : found.op = turn.op := by simpa using List.find?_some hfound
    rw [hfound, List.inj_on_of_nodup_map hnodup (List.mem_of_find?_eq_some hfound) hturn hop]
  rw [standIns, hsome]

/-- What stands in the place of an operation is the operation or was created in a turn. -/
theorem mem_standIns (h : other ∈ standIns turns id) :
    other = id ∨ ∃ turn ∈ turns, ∃ trial ∈ turn.trials, other ∈ trial.attempt.inserted := by
  unfold standIns at h
  split at h
  · rename_i turn hfound
    have hop : turn.op = id := by simpa using List.find?_some hfound
    unfold Turn.place at h
    split at h
    · rename_i trial hsuccess
      refine .inr ⟨turn, List.mem_of_find?_eq_some hfound, trial, ?_, h⟩
      simp [Turn.trials, hsuccess]
    · exact .inl ((List.mem_singleton.mp h).trans hop)
  · exact .inl (List.mem_singleton.mp h)

/-- One more turn, of an operation that had none and that stands only in its own place. -/
theorem standIns_snoc (hnew : turn.op ∉ turns.map Turn.op)
    (hown : ∀ id, turn.op ∈ standIns turns id → id = turn.op) :
    standIns (turns ++ [turn]) =
      fun id => (standIns turns id).flatMap (replacing turn.op turn.place) := by
  funext id
  by_cases hid : id = turn.op
  · subst hid
    rw [standIns_append hnew, standIns_of_notMem hnew, List.flatMap_singleton, replacing_self]
    simp [standIns]
  · have hothers :
        (standIns turns id).flatMap (replacing turn.op turn.place) = standIns turns id := by
      rw [List.flatMap_congr fun other hother => replacing_of_ne fun heq => ?_,
        List.flatMap_singleton']
      exact hid (hown id (heq ▸ hother))
    rw [hothers, standIns, standIns, List.find?_append]
    simp [Ne.symm hid]

/-- The operations that were replaced in more turns. -/
theorem replaced_append (turns later : List Turn) :
    replaced (turns ++ later) = replaced turns ++ replaced later := by
  rw [replaced, replaced, replaced, List.filter_append, List.map_append]

/-- An operation was replaced exactly if the attempt that succeeded is on record. -/
theorem mem_replaced (hnodup : (turns.map Turn.op).Nodup) (hturn : turn ∈ turns) :
    turn.op ∈ replaced turns ↔ turn.success.isSome = true := by
  constructor
  · intro hmem
    obtain ⟨found, hfound, hop⟩ := List.mem_map.mp hmem
    obtain ⟨hfound, hsuccess⟩ := List.mem_filter.mp hfound
    rwa [List.inj_on_of_nodup_map hnodup hfound hturn hop] at hsuccess
  · intro hsuccess
    exact List.mem_map.mpr ⟨turn, List.mem_filter.mpr ⟨hturn, hsuccess⟩, rfl⟩

/-! ### What a history tells -/

/-- The turns tell all differences between two states. -/
structure Recounts (start : Progress) (turns : List Turn) (state : Progress) : Prop where
  valid : state.program.Valid
  size : start.program.ops.length ≤ state.program.ops.length
  values : start.program.values <+: state.program.values
  funcs : ∃ decls, state.program.funcs =
    start.program.funcs.map (Func.expandBody (standIns turns)) ++ decls ∧
      ∀ func ∈ decls, func.body = none
  ops : ∀ (o : Nat) (op : Operation), start.program.ops[o]? = some op →
    state.program.ops[o]? =
      some (if (⟨o⟩ : OpId) ∈ replaced turns then { op with erased := true } else op)
  created : ∀ turn ∈ turns, ∀ trial ∈ turn.trials, trial.CreatesFrom start.program.ops.length
  stats : state.stats = { start.stats with
    converted := start.stats.converted + (replaced turns).length
    declined := start.stats.declined + (turns.flatMap Turn.declined).length }

/-- Before the first turn nothing is different. -/
theorem Recounts.nil (hvalid : start.program.Valid) : Recounts start [] start where
  valid := hvalid
  size := Nat.le_refl _
  values := List.prefix_rfl
  funcs := ⟨[], by rw [List.append_nil, show standIns [] = fun id => [id] from rfl,
    map_expandBody_single], by simp⟩
  ops o op hop := by simpa [replaced] using hop
  created := by simp
  stats := by simp [replaced]

/-- One more turn, of an operation of the beginning that had none. -/
theorem Recounts.snoc {after : Progress} (h : Recounts start turns state)
    (heffect : turn.Effect state after) (hnew : turn.op ∉ turns.map Turn.op)
    (hold : turn.op.index < start.program.ops.length) : Recounts start (turns ++ [turn]) after where
  valid := heffect.valid
  size := Nat.le_trans h.size heffect.reshapes.size
  values := h.values.trans heffect.values
  funcs := by
    obtain ⟨decls, hfuncs, hdecls⟩ := h.funcs
    rw [standIns_snoc hnew fun id hid => ?_]
    · exact heffect.reshapes.expanded hfuncs hdecls
    · -- What was created in a turn is not an operation of the beginning.
      rcases mem_standIns hid with heq | ⟨earlier, hearlier, trial, htrial, hcreated⟩
      · exact heq.symm
      · have hge := (h.created earlier hearlier trial htrial).fresh _ hcreated
        omega
  ops o op hop := by
    rw [heffect.ops o _ (h.ops o op hop), replaced_append]
    by_cases hbefore : (⟨o⟩ : OpId) ∈ replaced turns
    · simp [hbefore]
    · simp [hbefore]
  created := by
    simp only [List.forall_mem_append, List.forall_mem_singleton]
    exact ⟨h.created, fun trial htrial => (heffect.created trial htrial).mono h.size⟩
  stats := by
    rw [heffect.stats, h.stats, replaced_append]
    simp [Nat.add_assoc]

/-- A history in which every operation of the beginning has at most one turn, and others have none,
tells all differences. -/
theorem History.recounts (h : History patterns start turns state) (hvalid : start.program.Valid)
    (hnodup : (turns.map Turn.op).Nodup)
    (hold : ∀ turn ∈ turns, turn.op.index < start.program.ops.length) :
    Recounts start turns state := by
  induction h with
  | nil => exact .nil hvalid
  | @snoc turns turn state after _ hleads ih =>
    simp only [List.forall_mem_append, List.forall_mem_singleton] at hold
    simp only [List.map_append, List.map_cons, List.map_nil] at hnodup
    obtain ⟨hnodup, -, hdisjoint⟩ := List.nodup_append.mp hnodup
    have hbefore := ih hnodup hold.1
    refine hbefore.snoc (hleads.effect hbefore.valid) (fun hmem => ?_) hold.2
    exact hdisjoint _ hmem _ (List.mem_singleton.mpr rfl) rfl

/-! ### The history of a walk -/

/-- The turns so far, in the order of the schedule. -/
def Visited (patterns : List Pattern) (start : Progress) (pending : List OpId) (state : Progress) :
    Prop :=
  ∃ turns, History patterns start turns state ∧ turns.map Turn.op ++ pending = start.program.allOps

/-- A visit is the next turn. -/
theorem keptByVisits_visited (patterns : List Pattern) (start : Progress) :
    KeptByVisits True patterns start.program (Visited patterns start) := by
  intro funcId id rest state func _ _ hscheduled hfunc hmem hvisited
  refine ensures_of_forall fun after hafter => ?_
  obtain ⟨turns, hhistory, hops⟩ := hvisited
  obtain ⟨root, hroot, hlive⟩ := hscheduled.valid.live id (Program.mem_allOps hfunc hmem)
  obtain ⟨turn, rfl, -, hleads⟩ := exists_turn hroot hlive hafter
  refine ⟨turns ++ [turn], hhistory.snoc hleads, ?_⟩
  rw [← hops, List.map_append, List.append_assoc]
  rfl

/-! ### The history of a run -/

/-- A run, told by the turns of its walk. -/
structure Ran (patterns : List Pattern) (types : TypeMap) (source : Program) (start : Progress)
    (turns : List Turn) (final : Progress) (target : Program) : Prop where
  signed : forEach (convertSignature types) source.definedFuncs { program := source } = .ok start
  resigned : Resigned types source start
  history : History patterns start turns final
  order : turns.map Turn.op = source.allOps
  recounts : Recounts start turns final
  renamed : Renamed final.aliases (source.definedFuncs.flatMap final.program.blockOf) final.program
    target

/-- Every run has a history. -/
theorem exists_ran {source target : Program} {final : Progress} (hsource : source.Valid)
    (hwalk : walk patterns types source = .ok final)
    (hrename : forEach (renameBody final.aliases) source.definedFuncs final.program = .ok target) :
    ∃ start turns, Ran patterns types source start turns final target := by
  have hfinal := walk_valid hwalk hsource
  simp only [walk, bind_eq_ok, Halt.guard_eq_ok] at hwalk
  obtain ⟨start, hsigned, hbodies⟩ := hwalk
  have hresigned := resigned_of_forEach hsource hsigned
  have hstart := convertSignatures_valid hsigned hsource
  have hends := (keptByVisits_visited patterns start).walk hresigned hstart ⟨[], .nil, rfl⟩
  obtain ⟨-, turns, hhistory, horder⟩ := hends.of_ok hbodies
  rw [List.append_nil] at horder
  refine ⟨start, turns, hsigned, hresigned, hhistory, horder.trans hresigned.allOps, ?_,
    renamed_of_forEach (hfinal.nodup_blocks (nodup_definedFuncs source)) hrename⟩
  refine hhistory.recounts hstart (horder ▸ hstart.nodup) fun turn hturn => ?_
  exact hstart.lt_length (horder ▸ List.mem_map_of_mem hturn)

/-- Converting arguments counts nothing. -/
theorem convertArgs_stats {id : FuncId} {index : Nat} {tys : List Ty} {state after : Progress}
    (hrun : convertArgs types id index tys state = .ok after) : after.stats = state.stats := by
  induction tys generalizing index state with
  | nil =>
    simp only [convertArgs, Except.ok.injEq] at hrun
    exact hrun ▸ rfl
  | cons ty rest ih =>
    simp only [convertArgs, bind_eq_ok] at hrun
    obtain ⟨middle, hmiddle, hrest⟩ := hrun
    rw [ih hrest]
    rcases convertArg_eq_ok.mp hmiddle with ⟨-, rfl⟩ | ⟨-, func, old, -, -, rfl⟩ <;> rfl

/-- Converting signatures counts no operation and no attempt. -/
theorem convertSignature_counts {id : FuncId} {after : Progress}
    (hrun : convertSignature types id state = .ok after) :
    after.stats.converted = state.stats.converted ∧
      after.stats.declined = state.stats.declined := by
  simp only [convertSignature, bind_eq_ok] at hrun
  obtain ⟨func, -, middle, hmiddle, hrun⟩ := hrun
  have hstats := convertArgs_stats hmiddle
  split at hrun <;> (obtain rfl := pure_eq_ok.mp hrun; simp [hstats])

section Ran

variable {source target : Program} {final : Progress}
  (h : Ran patterns types source start turns final target)

include h

/-- A function, its signature converted and its block expanded. -/
theorem Ran.func {i : Nat} {func : Func} (hfunc : source.funcs[i]? = some func) :
    target.funcs[i]? = some ((resign types start.aliases func).expandBody (standIns turns)) := by
  obtain ⟨decls, hfuncs, -⟩ := h.recounts.funcs
  have hstart := h.resigned.func hfunc
  have hlt := (List.getElem?_eq_some_iff.mp hstart).1
  rw [h.renamed.funcs, hfuncs, List.getElem?_append_left (by simpa using hlt), List.getElem?_map,
    hstart, Option.map_some]

/-- The block of a function, operation by operation. -/
theorem Ran.bodyOps {id : FuncId} {body : List OpId} (hbody : source.bodyOps id = .ok body) :
    target.bodyOps id = .ok (body.flatMap (standIns turns)) := by
  obtain ⟨func, hfunc, rfl⟩ := Program.bodyOps_eq_ok.mp hbody
  refine Program.bodyOps_eq_ok.mpr ⟨_, h.func hfunc, ?_⟩
  rw [Func.bodyOps_expandBody, bodyOps_resign]

/-- An operation of the source: it is erased if it was replaced, and then its operands are renamed
if it stands in a block. -/
theorem Ran.op {o : Nat} {op : Operation} (hop : source.ops[o]? = some op) :
    ∃ built, final.program.ops[o]? = some built ∧
      built = (if (⟨o⟩ : OpId) ∈ replaced turns then { op with erased := true } else op) ∧
      target.ops[o]? = some
        (if (⟨o⟩ : OpId) ∈ source.definedFuncs.flatMap final.program.blockOf then
          { built with operands := built.operands.map final.aliases.resolve } else built) := by
  have hbuilt := h.recounts.ops o op (h.resigned.ops ▸ hop)
  exact ⟨_, hbuilt, rfl, by rw [h.renamed.ops, hbuilt, Option.map_some]⟩

/-- The operations of the source that are erased are those that were replaced. -/
theorem Ran.erasedAmong (hsource : source.Valid) :
    target.erasedAmong source.allOps = replaced turns := by
  have hnodup : (turns.map Turn.op).Nodup := h.order ▸ hsource.nodup
  rw [Program.erasedAmong, ← h.order, replaced, List.filter_map]
  refine congrArg (List.map Turn.op) (List.filter_congr fun turn hturn => ?_)
  obtain ⟨op, hop, hlive⟩ := hsource.live turn.op (h.order ▸ List.mem_map_of_mem hturn)
  obtain ⟨built, -, rfl, hnow⟩ := h.op hop
  have hmem := mem_replaced hnodup hturn
  by_cases hsuccess : turn.success.isSome = true
  · simp only [Function.comp_apply, hnow, Option.any_some, hmem.mpr hsuccess, hsuccess, ↓reduceIte]
    split <;> rfl
  · have hnot : turn.op ∉ replaced turns := fun hin => hsuccess (hmem.mp hin)
    simp only [Function.comp_apply, hnow, Option.any_some, hnot, ↓reduceIte]
    split <;> simp [hlive, hsuccess]

/-- The counts of a run. -/
theorem Ran.stats : final.stats.converted = (replaced turns).length ∧
    final.stats.declined = (turns.flatMap Turn.declined).length := by
  obtain ⟨hconverted, hdeclined⟩ : start.stats.converted = 0 ∧ start.stats.declined = 0 := by
    refine forEach_invariant (fun state => state.stats.converted = 0 ∧ state.stats.declined = 0)
      (fun id _ state after hstate hstep => ?_) h.signed ⟨rfl, rfl⟩
    obtain ⟨hconverted, hdeclined⟩ := convertSignature_counts hstep
    rwa [hconverted, hdeclined]
  rw [h.recounts.stats, hconverted, hdeclined]
  exact ⟨Nat.zero_add _, Nat.zero_add _⟩

end Ran

/-- The schedule of a run and the blocks that it leaves. -/
structure Chronicle (patterns : List Pattern) (types : TypeMap) (program : Program)
    (outcome : Outcome) (start : Progress) (turns : List Turn) (final : Progress) : Prop where
  signed : forEach (convertSignature types) program.definedFuncs { program } = .ok start
  walked : walk patterns types program = .ok final
  history : History patterns start turns final
  /-- The operations that stand in the blocks have one turn each, in order, and no others do. -/
  order : turns.map Turn.op = program.allOps
  /-- An operation gives place to itself if all patterns for it declined, or else to what was
  created by the first pattern, in the order of registration, that succeeded after all before it had
  declined. -/
  places : ∀ turn ∈ turns, standIns turns turn.op = turn.place
  /-- What is created is new and has no turn. -/
  created : ∀ turn ∈ turns, ∀ trial ∈ turn.trials, trial.CreatesFrom program.ops.length ∧
    ∀ id ∈ trial.attempt.inserted, id ∉ turns.map Turn.op
  /-- A block consists afterwards of what its operations have given place to. -/
  block : ∀ id ∈ program.definedFuncs, ∃ body, program.bodyOps id = .ok body ∧
    outcome.program.bodyOps id = .ok (body.flatMap (standIns turns))
  /-- The counts are those of the erased operations and of the declined attempts. -/
  logged : ∃ illegal, outcome.log.getLast? = some (.finished
    (outcome.program.erasedAmong program.allOps).length (turns.flatMap Turn.declined).length
    final.stats.signatures illegal)
  counted : ∀ stats, outcome.result = .ok stats →
    stats.converted = (outcome.program.erasedAmong program.allOps).length ∧
    stats.declined = (turns.flatMap Turn.declined).length

/-- Every run, with any patterns, type map and legality, goes by its schedule. -/
theorem run_history {legality : Legality} {program : Program} {outcome : Outcome}
    (hreach : program.Reachable) (hrun : run patterns types legality program = .ok outcome) :
    ∃ start turns final, Chronicle patterns types program outcome start turns final := by
  have hvalid := hreach.valid
  obtain ⟨final, target, reports, hwalk, hrename, -, rfl⟩ := run_eq_ok.mp hrun
  obtain ⟨start, turns, h⟩ := exists_ran hvalid hwalk hrename
  have hnodup : (turns.map Turn.op).Nodup := h.order ▸ hvalid.nodup
  obtain ⟨hconverted, hdeclined⟩ := h.stats
  rw [← h.erasedAmong hvalid] at hconverted
  refine ⟨start, turns, final, h.signed, hwalk, h.history, h.order,
    fun turn hturn => standIns_of_mem hnodup hturn, fun turn hturn trial htrial => ?_,
    fun id hid => ?_, ⟨reports.length, ?_⟩, fun stats hstats => ?_⟩
  · have hcreates := h.recounts.created turn hturn trial htrial
    rw [h.resigned.ops] at hcreates
    refine ⟨hcreates, fun id hid hmem => ?_⟩
    rw [h.order] at hmem
    exact absurd (hvalid.lt_length hmem) (Nat.not_lt.mpr (hcreates.fresh id hid))
  · obtain ⟨func, body, hfunc, -⟩ := exists_of_mem_definedFuncs hid
    have hbody := Program.bodyOps_eq_ok.mpr ⟨func, hfunc, rfl⟩
    exact ⟨func.bodyOps, hbody, h.bodyOps hbody⟩
  · rw [List.getLast?_append, List.getLast?_singleton, Option.some_or, hconverted, hdeclined]
  · simp only at hstats
    split at hstats
    · obtain rfl := Except.ok.inj hstats
      exact ⟨hconverted, hdeclined⟩
    · simp at hstats

/-- The extent is offered to a pattern that declines and then to one that succeeds, and the return
is offered to none. -/
theorem run_history_measured : measured.Reachable ∧ ∃ outcome,
    run [hesitant, Program.scaling] {} {} measured = .ok outcome ∧
    measured.allOps = [⟨0⟩, ⟨1⟩] ∧ outcome.program.bodyOps ⟨1⟩ = .ok [⟨4⟩, ⟨1⟩] ∧
    outcome.program.erasedAmong measured.allOps = [⟨0⟩] ∧ ∃ start turns final,
      Chronicle [hesitant, Program.scaling] {} measured outcome start turns final := by
  have hreach : measured.Reachable := Program.reachable_listed _
  refine ⟨hreach, _, rfl, by decide +kernel, by decide +kernel, by decide +kernel, ?_⟩
  exact run_history hreach (rfl : run [hesitant, Program.scaling] {} {} measured = .ok _)

end Conversion

end TensorLowering
