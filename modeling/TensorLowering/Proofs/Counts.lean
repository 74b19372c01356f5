import TensorLowering.Proofs.Courses
import TensorLowering.Proofs.History

/-!
# What a lowering counts

The counts of a lowering are sums over functions and over operations. A signature counts if the type
map changes it. An operation that has a rule is offered to it once, and counts as converted if it
does not stand in its own place afterwards, and as a declined attempt otherwise. None of this depends
on what was visited before.
-/

namespace TensorLowering

namespace Conversion

variable {types : TypeMap} {id : FuncId} {state after : Progress}

/-! ### Signatures -/

/-- The type map changes the signature of a function. -/
def changes (types : TypeMap) (program : Program) (id : FuncId) : Bool :=
  program.funcs[id.index]?.any (changesSignature types)

/-- Converting the arguments of a function leaves the others alone. -/
theorem convertArgs_funcs {index : Nat} {tys : List Ty}
    (hrun : convertArgs types id index tys state = .ok after) {i : Nat} (hi : i ≠ id.index) :
    after.program.funcs[i]? = state.program.funcs[i]? := by
  induction tys generalizing index state with
  | nil =>
    simp only [convertArgs, Except.ok.injEq] at hrun
    rw [hrun]
  | cons ty rest ih =>
    simp only [convertArgs, bind_eq_ok] at hrun
    obtain ⟨middle, hmiddle, hrest⟩ := hrun
    rw [ih hrest]
    rcases convertArg_eq_ok.mp hmiddle with ⟨-, rfl⟩ | ⟨-, func, old, -, -, rfl⟩
    · rfl
    · simp [Program.replaceArg, Ne.symm hi]

/-- Converting a signature leaves the other functions alone and counts it if it changes. -/
theorem convertSignature_signatures (hrun : convertSignature types id state = .ok after) :
    (∀ i ≠ id.index, after.program.funcs[i]? = state.program.funcs[i]?) ∧
      after.stats.signatures =
        state.stats.signatures + if changes types state.program id then 1 else 0 := by
  simp only [convertSignature, bind_eq_ok, Program.func_eq_ok] at hrun
  obtain ⟨func, hfunc, middle, hmiddle, hrun⟩ := hrun
  have hothers : ∀ i ≠ id.index, ∀ change,
      (middle.program.modifyFunc id change).funcs[i]? = state.program.funcs[i]? := by
    intro i hi change
    simp [Program.modifyFunc, Ne.symm hi, convertArgs_funcs hmiddle hi]
  have hchanges : changes types state.program id = changesSignature types func := by
    simp [changes, hfunc]
  rw [hchanges, ← convertArgs_stats hmiddle]
  split at hrun <;> obtain rfl := pure_eq_ok.mp hrun
  · rename_i hchange
    exact ⟨fun i hi => hothers i hi _, by simp [hchange]⟩
  · rename_i hsame
    exact ⟨fun i hi => hothers i hi _, by simp [hsame]⟩

/-- The signatures that change are counted. -/
theorem forEach_signatures {ids : List FuncId} (hnodup : ids.Nodup)
    (hrun : forEach (convertSignature types) ids state = .ok after) :
    after.stats.signatures = state.stats.signatures + ids.countP (changes types state.program) := by
  induction ids generalizing state with
  | nil =>
    simp only [forEach, Except.ok.injEq] at hrun
    rw [hrun, List.countP_nil, Nat.add_zero]
  | cons id rest ih =>
    simp only [forEach, bind_eq_ok] at hrun
    obtain ⟨middle, hmiddle, hrest⟩ := hrun
    obtain ⟨hnew, hnodup⟩ := List.nodup_cons.mp hnodup
    obtain ⟨hothers, hcount⟩ := convertSignature_signatures hmiddle
    have hsame : rest.countP (changes types middle.program) =
        rest.countP (changes types state.program) := by
      refine List.countP_congr fun other hother => ?_
      have hne : other.index ≠ id.index := by
        intro heq
        obtain rfl : other = id := by
          cases other
          cases id
          exact congrArg FuncId.mk heq
        exact hnew hother
      rw [changes, changes, hothers _ hne]
    rw [ih hnodup hrest, hcount, hsame, List.countP_cons, Nat.add_assoc, Nat.add_comm (ite _ _ _)]

end Conversion

namespace Lowering

open Conversion

/-! ### Operations -/

/-- There is a rule for an operation. -/
def offered (program : Program) (id : OpId) : Bool :=
  program.ops[id.index]?.any fun op => (ruleFor op.kind).isSome

/-- A turn has one attempt if there is a rule, and none otherwise. -/
theorem length_of_leads {turn : Turn} {state after : Progress} (h : turn.Leads rules state after) :
    turn.declined.length + (replaced [turn]).length =
      if offered state.program turn.op then 1 else 0 := by
  have hone (kind : OpKind) :
      (ruleFor kind).toList.length = if (ruleFor kind).isSome then 1 else 0 := by
    cases ruleFor kind <;> rfl
  cases h with
  | kept hroot _ hpatterns =>
    have hlength := congrArg List.length hpatterns
    rw [Operation.name, rootedAt_rules, hone, List.length_map] at hlength
    rw [offered, Program.op_eq_ok.mp hroot, Option.any_some, hlength]
    rfl
  | @replaced _ _ _ declined _ _ _ _ _ _ hroot _ hpatterns =>
    have hlength := congrArg List.length hpatterns
    rw [Operation.name, rootedAt_rules, hone, List.length_append, List.length_map, List.length_cons]
      at hlength
    rw [offered, Program.op_eq_ok.mp hroot, Option.any_some]
    change declined.length + 1 = _
    split at hlength
    · rename_i hrule
      rw [if_pos hrule]
      omega
    · omega

/-- The attempts of a history are the offers. -/
theorem length_of_history {start state : Progress} {turns : List Turn}
    (h : History rules start turns state) (hvalid : start.program.Valid)
    (hnodup : (turns.map Turn.op).Nodup)
    (hold : ∀ turn ∈ turns, turn.op.index < start.program.ops.length) :
    (turns.flatMap Turn.declined).length + (replaced turns).length =
      (turns.map Turn.op).countP (offered start.program) := by
  induction h with
  | nil => rfl
  | @snoc turns turn state after hhistory hleads ih =>
    rw [List.map_append] at hnodup
    have hbefore := fun other hother => hold other (List.mem_append_left [turn] hother)
    have hcount := ih hnodup.of_append_left hbefore
    have hrecounts := hhistory.recounts hvalid hnodup.of_append_left hbefore
    -- The operation is of the same kind as in the beginning, whether or not it is erased.
    have hsame : offered state.program turn.op = offered start.program turn.op := by
      have hget := List.getElem?_eq_getElem (hold turn (by simp))
      rw [offered, offered, hget, hrecounts.ops _ _ hget]
      split <;> rfl
    have hturn := hsame ▸ length_of_leads hleads
    rw [List.flatMap_append, List.length_append, replaced_append, List.length_append,
      List.map_append, List.countP_append, ← hcount]
    simp only [List.flatMap_cons, List.flatMap_nil, List.append_nil, List.map_cons, List.map_nil,
      List.countP_singleton]
    omega

/-- The counts of a lowering. -/
theorem Course.stats_eq (c : Course) :
    c.state.stats.signatures = c.source.definedFuncs.countP (changes handleTypes c.source) ∧
    c.state.stats.converted = c.source.allOps.countP (fun id => c.expand id ≠ [id]) ∧
    c.state.stats.declined + c.state.stats.converted =
      c.source.allOps.countP (offered c.source) := by
  obtain ⟨start, turns, hran⟩ := exists_ran c.valid c.walked c.renames
  obtain ⟨hconverted, hdeclined⟩ := hran.stats
  refine ⟨?_, ?_, ?_⟩
  · have hsignatures := forEach_signatures (nodup_definedFuncs c.source) hran.signed
    rw [hran.recounts.stats]
    exact hsignatures.trans (Nat.zero_add _)
  · rw [hconverted, ← hran.erasedAmong c.valid, Program.erasedAmong, ← List.countP_eq_length_filter]
    refine List.countP_congr fun id hid => ?_
    rw [c.erased_iff hid, decide_eq_true_eq]
  · have hstart := convertSignatures_valid hran.signed c.valid
    have hallOps := hran.order.trans hran.resigned.allOps.symm
    have hattempts := length_of_history hran.history hstart (hallOps ▸ hstart.nodup)
      fun turn hturn => hstart.lt_length (hallOps ▸ List.mem_map_of_mem hturn)
    have hoffered : offered start.program = offered c.source := by
      funext id
      rw [offered, offered, hran.resigned.ops]
    rw [hdeclined, hconverted, hattempts, hran.order, hoffered]

end Lowering

end TensorLowering
