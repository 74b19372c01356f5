import TensorLowering.Proofs.Walk
import TensorLowering.Proofs.Withdrawal

/-!
# The turn of an operation

When a walk comes to an operation, the patterns for its name are tried in the order in which they
were registered. An attempt that declines is taken back before the next pattern is tried, and the
first one that succeeds takes the place of the operation. A turn is the record of these attempts.
That it leads from one state to another says all that a visit can do, and what visits keep is
derived from it.
-/

namespace TensorLowering

/-- Expanding twice is expanding once. -/
theorem map_expandBody_map (funcs : List Func) (expand more : OpId → List OpId) :
    (funcs.map (Func.expandBody expand)).map (Func.expandBody more) =
      funcs.map (Func.expandBody fun id => (expand id).flatMap more) := by
  rw [List.map_map]
  refine List.map_congr_left fun func _ => ?_
  cases hbody : func.body <;> simp [Func.expandBody, hbody, List.flatMap_assoc]

/-- The block of an expanded function. -/
theorem Func.bodyOps_expandBody (expand : OpId → List OpId) (func : Func) :
    (func.expandBody expand).bodyOps = func.bodyOps.flatMap expand := by
  cases hbody : func.body <;> simp [bodyOps, expandBody, hbody]

/-- If the blocks are expanded, so is the list of all operations; declarations do not matter. -/
theorem Program.allOps_of_expanded {before after : Program} {expand : OpId → List OpId}
    {decls : List Func} (hfuncs : after.funcs = before.funcs.map (Func.expandBody expand) ++ decls)
    (hdecls : ∀ func ∈ decls, func.body = none) :
    after.allOps = before.allOps.flatMap expand := by
  have hempty : decls.flatMap Func.bodyOps = [] :=
    List.flatMap_eq_nil_iff.mpr fun func hfunc => by simp [Func.bodyOps, hdecls func hfunc]
  rw [allOps, hfuncs, List.flatMap_append, hempty, List.append_nil, List.flatMap_map, allOps,
    List.flatMap_assoc]
  exact List.flatMap_congr fun func _ => func.bodyOps_expandBody expand

namespace Conversion

/-! ### Attempts in order -/

/-- An attempt of a pattern, as it was when it ended. -/
structure Trial where
  pattern : Pattern
  attempt : Attempt

/-- The attempts that were made when an operation had its turn. -/
structure Turn where
  func : FuncId
  op : OpId
  /-- The attempts that declined, in order. -/
  declined : List Trial
  /-- The attempt that succeeded, if one did. -/
  success : Option Trial

/-- All attempts of a turn, in order. -/
def Turn.trials (turn : Turn) : List Trial := turn.declined ++ turn.success.toList

/-- What stands in the place of the operation after its turn: the operations that the successful
attempt created, in the order of their creation, or the operation itself. -/
def Turn.place (turn : Turn) : List OpId :=
  match turn.success with
  | some trial => trial.attempt.inserted
  | none => [turn.op]

/-- The operations that were replaced when they had their turns. -/
def replaced (turns : List Turn) : List OpId :=
  (turns.filter fun turn => turn.success.isSome).map Turn.op

/-- An operation as it is offered, with the present names of its operands. -/
def Progress.site (state : Progress) (id : OpId) (root : Operation) : Site :=
  { id, root, operands := root.operands.map state.aliases.resolve }

/-- The patterns are tried one after the other, and all of them decline. -/
inductive Declines (site : Site) : Progress → List Trial → Progress → Prop
  | nil {state : Progress} : Declines site state [] state
  | cons {state after : Progress} {trial : Trial} {rest : List Trial} :
      (trial.pattern.attempt site).run site.root { program := state.program, log := state.log } =
        .ok (none, trial.attempt) →
      Declines site (state.passOver site trial.pattern trial.attempt) rest after →
      Declines site state (trial :: rest) after

/-- A turn leads from one state to another. -/
inductive Turn.Leads (patterns : List Pattern) : Turn → Progress → Progress → Prop
  /-- All patterns for the operation decline. -/
  | kept {func : FuncId} {op : OpId} {root : Operation} {declined : List Trial}
      {state after : Progress} (hroot : state.program.op op = .ok root)
      (hlive : root.erased = false)
      (hpatterns : Pattern.rootedAt patterns root.name = declined.map Trial.pattern)
      (hdeclines : Declines (state.site op root) state declined after) :
      Leads patterns ⟨func, op, declined, none⟩ state after
  /-- Some patterns for the operation decline, the next one succeeds, and no others are tried. -/
  | replaced {func : FuncId} {op : OpId} {root : Operation} {declined : List Trial}
      {trial : Trial} {later : List Pattern} {state middle : Progress} {program : Program}
      {aliases : Renaming} (hroot : state.program.op op = .ok root) (hlive : root.erased = false)
      (hpatterns : Pattern.rootedAt patterns root.name =
        declined.map Trial.pattern ++ trial.pattern :: later)
      (hdeclines : Declines (state.site op root) state declined middle)
      (hsuccess : (trial.pattern.attempt (state.site op root)).run root
        { program := middle.program, log := middle.log } = .ok (some (), trial.attempt))
      (hcommit : commit trial.pattern func op root trial.attempt middle.aliases =
        .ok (program, aliases)) :
      Leads patterns ⟨func, op, declined, some trial⟩ state {
        program, aliases
        log := trial.attempt.log ++ [.replaced root.name trial.pattern.label]
        stats := { middle.stats with converted := middle.stats.converted + 1 } }

/-- An offer goes to the patterns in order, up to the first one that succeeds. -/
theorem exists_declines {funcId : FuncId} {opId : OpId} {site : Site} {patterns : List Pattern}
    {state after : Progress} (hrun : offer funcId opId site patterns state = .ok after) :
    ∃ declined middle, Declines site state declined middle ∧
      ((patterns = declined.map Trial.pattern ∧ after = middle) ∨
        ∃ (trial : Trial) (later : List Pattern) (program : Program) (aliases : Renaming),
          patterns = declined.map Trial.pattern ++ trial.pattern :: later ∧
          (trial.pattern.attempt site).run site.root
            { program := middle.program, log := middle.log } = .ok (some (), trial.attempt) ∧
          commit trial.pattern funcId opId site.root trial.attempt middle.aliases =
            .ok (program, aliases) ∧
          after = {
            program, aliases
            log := trial.attempt.log ++ [.replaced site.root.name trial.pattern.label]
            stats := { middle.stats with converted := middle.stats.converted + 1 } }) := by
  induction patterns generalizing state with
  | nil =>
    simp only [offer, Except.ok.injEq] at hrun
    exact ⟨[], state, .nil, .inl ⟨rfl, hrun.symm⟩⟩
  | cons pattern rest ih =>
    rcases offer_cons_eq_ok.mp hrun with
      ⟨attempt, program, aliases, hattempt, hcommit, rfl⟩ | ⟨attempt, hattempt, hrest⟩
    · exact ⟨[], state, .nil,
        .inr ⟨⟨pattern, attempt⟩, rest, program, aliases, rfl, hattempt, hcommit, rfl⟩⟩
    · obtain ⟨declined, middle, hdeclines, hends⟩ := ih hrest
      refine ⟨⟨pattern, attempt⟩ :: declined, middle, .cons hattempt hdeclines, ?_⟩
      rcases hends with ⟨rfl, rfl⟩ | ⟨trial, later, program, aliases, rfl, hends⟩
      · exact .inl ⟨rfl, rfl⟩
      · exact .inr ⟨trial, later, program, aliases, rfl, hends⟩

/-- A visit is a turn, unless the operation was erased. -/
theorem exists_turn {patterns : List Pattern} {funcId : FuncId} {opId : OpId}
    {state after : Progress} {root : Operation}
    (hroot : state.program.ops[opId.index]? = some root) (hlive : root.erased = false)
    (hrun : convertOp patterns funcId opId state = .ok after) :
    ∃ turn : Turn, turn.op = opId ∧ turn.func = funcId ∧ turn.Leads patterns state after := by
  obtain ⟨_, hroot', ⟨herased, -⟩ | ⟨-, hoffer⟩⟩ := convertOp_eq_ok.mp hrun
  · obtain rfl := Option.some.inj (hroot.symm.trans hroot')
    simp [hlive] at herased
  · obtain rfl := Option.some.inj (hroot.symm.trans hroot')
    have hop := Program.op_eq_ok.mpr hroot
    obtain ⟨declined, middle, hdeclines, ⟨hall, rfl⟩ |
      ⟨trial, later, program, aliases, hpatterns, hsuccess, hcommit, rfl⟩⟩ := exists_declines hoffer
    · exact ⟨⟨funcId, opId, declined, none⟩, rfl, rfl, .kept hop hlive hall hdeclines⟩
    · exact ⟨⟨funcId, opId, declined, some trial⟩, rfl, rfl,
        .replaced hop hlive hpatterns hdeclines hsuccess hcommit⟩

/-! ### Blocks after a turn -/

/-- One operation gives place to others, and the others stay. -/
def replacing (id : OpId) (new : List OpId) : OpId → List OpId :=
  Function.update (fun other => [other]) id new

/-- Within the blocks, one operation has given place to others; and there may be new
declarations. -/
structure Reshapes (before after : Program) (id : OpId) (new : List OpId) : Prop where
  funcs : ∃ decls, after.funcs = before.funcs.map (Func.expandBody (replacing id new)) ++ decls ∧
    ∀ func ∈ decls, func.body = none
  /-- What takes the place is the operation itself or new. -/
  fresh : ∀ other ∈ new, other = id ∨ before.ops.length ≤ other.index
  size : before.ops.length ≤ after.ops.length

variable {before after : Program} {id : OpId} {new : List OpId}

/-- What stands in the place of the operation. -/
@[simp] theorem replacing_self : replacing id new id = new := Function.update_self ..

/-- The others stay. -/
theorem replacing_of_ne {other : OpId} (h : other ≠ id) : replacing id new other = [other] :=
  Function.update_of_ne h ..

/-- Nothing has changed. -/
theorem Reshapes.refl (program : Program) (id : OpId) : Reshapes program program id [id] where
  funcs := by
    have hsingle : replacing id [id] = fun other => [other] := Function.update_eq_self id _
    exact ⟨[], by rw [List.append_nil, hsingle, map_expandBody_single], by simp⟩
  fresh other hother := .inl (List.mem_singleton.mp hother)
  size := Nat.le_refl _

/-- What stands in a block afterwards stood there before or is new. -/
theorem Reshapes.mem_allOps (h : Reshapes before after id new) {other : OpId}
    (hother : other ∈ after.allOps) : (other ∈ before.allOps ∧ other ≠ id) ∨ other ∈ new := by
  obtain ⟨decls, hfuncs, hdecls⟩ := h.funcs
  rw [Program.allOps_of_expanded hfuncs hdecls] at hother
  obtain ⟨first, hfirst, hmem⟩ := List.mem_flatMap.mp hother
  by_cases heq : first = id
  · rw [heq, replacing_self] at hmem
    exact .inr hmem
  · rw [replacing_of_ne heq, List.mem_singleton] at hmem
    subst hmem
    exact .inl ⟨hfirst, heq⟩

/-- Blocks that were expanded before are expanded further. -/
theorem Reshapes.expanded (h : Reshapes before after id new) {start : Program}
    {expand : OpId → List OpId} {decls : List Func}
    (hfuncs : before.funcs = start.funcs.map (Func.expandBody expand) ++ decls)
    (hdecls : ∀ func ∈ decls, func.body = none) : ∃ decls, after.funcs =
      start.funcs.map (Func.expandBody fun other => (expand other).flatMap (replacing id new)) ++
        decls ∧ ∀ func ∈ decls, func.body = none := by
  obtain ⟨more, hafter, hmore⟩ := h.funcs
  refine ⟨decls.map (Func.expandBody (replacing id new)) ++ more, ?_, fun func hfunc => ?_⟩
  · rw [hafter, hfuncs, List.map_append, map_expandBody_map, List.append_assoc]
  · rcases List.mem_append.mp hfunc with hold | hnew
    · obtain ⟨decl, hdecl, rfl⟩ := List.mem_map.mp hold
      simp [Func.expandBody, hdecls decl hdecl]
    · exact hmore func hnew

/-- Changing the one block in which an operation stands is changing all blocks. -/
theorem modify_eq_map_replacing {program : Program} (hvalid : program.Valid) {funcId : FuncId}
    {func : Func} {pre post : List OpId} (hfunc : program.funcs[funcId.index]? = some func)
    (hbody : func.body = some (pre ++ id :: post)) (new : List OpId) :
    program.funcs.modify funcId.index
        (fun func => { func with body := some (pre ++ new ++ post) }) =
      program.funcs.map (Func.expandBody (replacing id new)) := by
  have hnodup : (pre ++ id :: post).Nodup := by
    simpa [Func.bodyOps, hbody] using hvalid.block_nodup hfunc
  have hmodify : (program.funcs.map (Func.expandBody fun other => [other])).modify funcId.index
        (fun func => { func with body := some (pre ++ new ++ post) }) =
      program.funcs.map (Func.expandBody (replacing id new)) :=
    Lowering.map_expandBody_update hvalid hfunc hbody (by simp) rfl (List.flatMap_singleton' _)
      hnodup
  rwa [map_expandBody_single] at hmodify

/-- Putting the operations of an attempt in the place of its root. -/
theorem reshapes_of_commit {grown : Program} {ops : List Operation} (hgrown : grown.Valid)
    (hgrows : before.Grows grown ops) {funcId : FuncId} {func : Func} {pre post : List OpId}
    (hfunc : grown.funcs[funcId.index]? = some func)
    (hbody : func.body = some (pre ++ id :: post)) :
    Reshapes before ((grown.modifyFunc funcId fun func =>
      { func with body := some (pre ++ before.nextOps ops.length ++ post) }).eraseOp id) id
      (before.nextOps ops.length) where
  funcs := by
    obtain ⟨decls, hdecls, hnone⟩ := hgrows.funcs
    refine ⟨decls.map (Func.expandBody (replacing id (before.nextOps ops.length))), ?_, ?_⟩
    · change grown.funcs.modify funcId.index _ = _
      rw [modify_eq_map_replacing hgrown hfunc hbody, hdecls, List.map_append]
    · intro func hfunc
      obtain ⟨decl, hdecl, rfl⟩ := List.mem_map.mp hfunc
      simp [Func.expandBody, hnone decl hdecl]
  fresh other hother := by
    obtain ⟨i, -, rfl⟩ := List.mem_map.mp hother
    exact .inr (Nat.le_add_right _ i)
  size := by
    have hsize : before.ops.length ≤ grown.ops.length := by
      rw [hgrows.ops, List.length_append]
      exact Nat.le_add_right _ _
    simpa [Program.eraseOp, Program.modifyOp, Program.modifyFunc] using hsize

/-- Additions to the arenas leave every operation in its place. -/
theorem Reshapes.of_padded (h : before.Padded after) (id : OpId) :
    Reshapes before after id [id] where
  funcs := h.funcs ▸ (Reshapes.refl before id).funcs
  fresh := (Reshapes.refl before id).fresh
  size := h.old_ops.length_le

/-- Additions to the arenas do not matter for what takes the place of an operation later. -/
theorem Reshapes.after_padded {middle : Program} (h : Reshapes middle after id new)
    (hpadded : before.Padded middle) : Reshapes before after id new where
  funcs := hpadded.funcs ▸ h.funcs
  fresh other hother := (h.fresh other hother).imp_right
    (Nat.le_trans hpadded.old_ops.length_le)
  size := Nat.le_trans hpadded.old_ops.length_le h.size

/-! ### What a turn does -/

/-- The ids of the operations that the attempt created increase, from the given number on. -/
structure Trial.CreatesFrom (trial : Trial) (count : Nat) : Prop where
  fresh : ∀ id ∈ trial.attempt.inserted, count ≤ id.index
  order : trial.attempt.inserted.Pairwise fun first second => first.index < second.index

/-- What is new in a larger arena is new in a smaller one. -/
theorem Trial.CreatesFrom.mono {trial : Trial} {count count' : Nat} (h : trial.CreatesFrom count)
    (hle : count' ≤ count) : trial.CreatesFrom count' :=
  ⟨fun id hid => Nat.le_trans hle (h.fresh id hid), h.order⟩

/-- An attempt creates operations at the end of the arena. -/
theorem Trial.createsFrom {trial : Trial} {script : Script Unit} {root : Operation}
    {program : Program} {log : List Event} {result : Option Unit}
    (hrun : script.run root { program, log } = .ok (result, trial.attempt)) :
    trial.CreatesFrom program.ops.length := by
  obtain ⟨ops, -, hinserted⟩ := Script.run_grows _ _ hrun
  rw [List.nil_append] at hinserted
  constructor
  · intro id hid
    rw [hinserted] at hid
    obtain ⟨i, -, rfl⟩ := List.mem_map.mp hid
    exact Nat.le_add_right _ i
  · rw [hinserted, Program.nextOps, List.pairwise_map]
    exact List.pairwise_lt_range.imp fun hlt => Nat.add_lt_add_left hlt _

section Declines

variable {site : Site} {state last : Progress} {declined : List Trial}
  (h : Declines site state declined last)

include h

/-- Attempts that declined leave additions to the arenas. -/
theorem Declines.padded : state.program.Padded last.program := by
  induction h with
  | nil => exact .refl _
  | cons hrun _ ih => exact (rollBack_padded hrun).trans ih

/-- Attempts that declined leave a valid program. -/
theorem Declines.valid (hvalid : state.program.Valid) : last.program.Valid := by
  induction h with
  | nil => exact hvalid
  | cons hrun _ ih => exact ih (passOver_valid hvalid hrun)

/-- Attempts that declined are counted. -/
theorem Declines.stats : last.stats =
    { state.stats with declined := state.stats.declined + declined.length } := by
  induction h with
  | nil => rfl
  | cons hrun _ ih =>
    simp only [ih, Progress.passOver, List.length_cons, Stats.mk.injEq, true_and, and_true]
    omega

/-- Attempts that declined created new operations. -/
theorem Declines.createsFrom : ∀ trial ∈ declined, trial.CreatesFrom state.program.ops.length := by
  induction h with
  | nil => simp
  | cons hrun _ ih =>
    refine List.forall_mem_cons.mpr ⟨Trial.createsFrom hrun, fun trial htrial => ?_⟩
    exact (ih trial htrial).mono (rollBack_padded hrun).old_ops.length_le

end Declines

/-- What a turn does. -/
structure Turn.Effect (turn : Turn) (state after : Progress) : Prop where
  valid : after.program.Valid
  reshapes : Reshapes state.program after.program turn.op turn.place
  values : state.program.values <+: after.program.values
  ops : ∀ (o : Nat) (op : Operation), state.program.ops[o]? = some op →
    after.program.ops[o]? =
      some (if (⟨o⟩ : OpId) ∈ replaced [turn] then { op with erased := true } else op)
  created : ∀ trial ∈ turn.trials, trial.CreatesFrom state.program.ops.length
  stats : after.stats = { state.stats with
    converted := state.stats.converted + (replaced [turn]).length
    declined := state.stats.declined + turn.declined.length }

/-- The effect of a turn. -/
theorem Turn.Leads.effect {patterns : List Pattern} {turn : Turn} {state after : Progress}
    (h : turn.Leads patterns state after) (hvalid : state.program.Valid) :
    turn.Effect state after := by
  cases h with
  | kept hroot hlive hpatterns hdeclines =>
    have hpadded := hdeclines.padded
    exact {
      valid := hdeclines.valid hvalid
      reshapes := .of_padded hpadded _
      values := hpadded.values
      ops := fun o op hop => by simpa [Conversion.replaced] using getElem?_mono hpadded.old_ops hop
      created := by simpa [trials] using hdeclines.createsFrom
      stats := by simpa [Conversion.replaced] using hdeclines.stats }
  | @replaced func id root declined trial later state middle program aliases hroot hlive hpatterns
      hdeclines hsuccess hcommit =>
    have hpadded := hdeclines.padded
    have hmiddle := hdeclines.valid hvalid
    have hgrown := Script.run_valid _ _ hsuccess hmiddle
    obtain ⟨ops, hgrows, hinserted⟩ := Script.run_grows _ _ hsuccess
    rw [List.nil_append] at hinserted
    have hafter := commit_valid hmiddle hgrown hgrows hinserted hcommit
    obtain ⟨values, home, pre, post, -, hfunc, hbody, -, rfl, -⟩ := commit_eq_ok.mp hcommit
    have hreshapes := reshapes_of_commit hgrown hgrows hfunc hbody
    rw [← hinserted] at hreshapes
    exact {
      valid := hafter
      reshapes := hreshapes.after_padded hpadded
      values := hpadded.values.trans hgrows.values
      ops := fun o op hop => by
        have hkept : trial.attempt.program.ops[o]? = some op := by
          rw [hgrows.ops]
          exact getElem?_mono (hpadded.old_ops.trans (List.prefix_append _ _)) hop
        have herase := foldl_eraseOp_getElem? [id] (trial.attempt.program.modifyFunc func
          fun func => { func with body := some (pre ++ trial.attempt.inserted ++ post) }) o
        refine herase.trans ?_
        change trial.attempt.program.ops[o]?.map _ = _
        rw [hkept]
        rfl
      created := by
        have hnew := (Trial.createsFrom hsuccess).mono hpadded.old_ops.length_le
        simp only [trials, Option.toList_some, List.forall_mem_append, List.forall_mem_singleton]
        exact ⟨hdeclines.createsFrom, hnew⟩
      stats := by simp [Conversion.replaced, hdeclines.stats] }

/-- A visit puts new operations in the place of one, or leaves the blocks as they are. -/
theorem convertOp_reshapes {patterns : List Pattern} {funcId : FuncId} {state after : Progress}
    (hvalid : state.program.Valid) (hrun : convertOp patterns funcId id state = .ok after) :
    ∃ new, Reshapes state.program after.program id new := by
  obtain ⟨root, hroot, ⟨-, rfl⟩ | ⟨hlive, -⟩⟩ := convertOp_eq_ok.mp hrun
  · exact ⟨[id], .refl _ id⟩
  · obtain ⟨turn, rfl, -, hleads⟩ := exists_turn hroot hlive hrun
    exact ⟨turn.place, (hleads.effect hvalid).reshapes⟩

end Conversion

end TensorLowering
