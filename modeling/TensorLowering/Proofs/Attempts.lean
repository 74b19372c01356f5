import TensorLowering.Conversion.Run
import TensorLowering.Proofs.Validity

/-!
# What an attempt can do to a program

Whatever a script asks for, the program it leaves behind continues the one it was given: values,
operations and declarations are added at the ends of their arenas, and blocks are not touched. The
statements here hold for every script, so they cover patterns that are not known. From them follow
the two ways in which an attempt ends: taken back, or put in the place of its root. Both keep the
program valid.
-/

namespace TensorLowering

namespace Program

/-- The ids that the next operations receive. -/
def nextOps (program : Program) (count : Nat) : List OpId :=
  (List.range count).map fun i => ⟨program.ops.length + i⟩

/-- One program continues another by the given operations, by values and by declarations. -/
structure Grows (before after : Program) (new : List Operation) : Prop where
  values : before.values <+: after.values
  ops : after.ops = before.ops ++ new
  live : ∀ op ∈ new, op.erased = false
  fresh : ∀ op ∈ new, ∀ v ∈ op.results, before.values.length ≤ v.index
  funcs : ∃ decls, after.funcs = before.funcs ++ decls ∧ ∀ func ∈ decls, func.body = none

/-- Every program continues itself by nothing. -/
theorem Grows.refl (program : Program) : program.Grows program [] where
  values := List.prefix_rfl
  ops := (List.append_nil _).symm
  live := by simp
  fresh := by simp
  funcs := ⟨[], by simp, by simp⟩

/-- Continuations compose. -/
theorem Grows.trans {first second third : Program} {new more : List Operation}
    (h : first.Grows second new) (h' : second.Grows third more) :
    first.Grows third (new ++ more) where
  values := h.values.trans h'.values
  ops := by rw [h'.ops, h.ops, List.append_assoc]
  live op hop := by
    rcases List.mem_append.mp hop with hnew | hmore
    · exact h.live op hnew
    · exact h'.live op hmore
  fresh op hop v hv := by
    rcases List.mem_append.mp hop with hnew | hmore
    · exact h.fresh op hnew v hv
    · exact Nat.le_trans h.values.length_le (h'.fresh op hmore v hv)
  funcs := by
    obtain ⟨decls, hdecls, hbody⟩ := h.funcs
    obtain ⟨decls', hdecls', hbody'⟩ := h'.funcs
    refine ⟨decls ++ decls', by rw [hdecls', hdecls, List.append_assoc], fun func hfunc => ?_⟩
    rcases List.mem_append.mp hfunc with hleft | hright
    · exact hbody func hleft
    · exact hbody' func hright

/-- Adding an operation continues a program. -/
theorem Grows.addOp (program : Program) (kind : OpKind) (operands : List ValueId)
    (types : List Ty) (span : Span) :
    program.Grows (program.addOp kind operands types span)
      [{ kind, operands, results := program.nextValues types.length, span }] where
  values := List.prefix_append _ _
  ops := rfl
  live := by simp
  fresh op hop v hv := by
    obtain rfl := List.mem_singleton.mp hop
    obtain ⟨i, -, rfl⟩ := List.mem_map.mp hv
    exact Nat.le_add_right _ _
  funcs := ⟨[], by simp [Program.addOp], by simp⟩

/-- Declaring a function continues a program. -/
theorem Grows.declare (program : Program) (name : String) (argTypes resultTypes : List Ty) :
    program.Grows (program.declare name argTypes resultTypes) [] := by
  unfold Program.declare
  split
  · exact Grows.refl program
  · exact ⟨List.prefix_append _ _, (List.append_nil _).symm, by simp, by simp, ⟨_, rfl, by simp⟩⟩

/-- The operations that a continuation adds, with their ids. -/
theorem nextOps_append {before after : Program} {new : List Operation} (h : before.Grows after new)
    (count : Nat) :
    before.nextOps (new.length + count) = before.nextOps new.length ++ after.nextOps count := by
  have hlength : after.ops.length = before.ops.length + new.length := by rw [h.ops]; simp
  unfold nextOps
  rw [hlength, List.range_add, List.map_append, List.map_map]
  simp only [Function.comp_def, Nat.add_assoc]

/-- The new operations stand at the new ids. -/
theorem Grows.getElem? {before after : Program} {new : List Operation} (h : before.Grows after new)
    (i : Nat) : after.ops[before.ops.length + i]? = new[i]? := by
  rw [h.ops, List.getElem?_append_right (Nat.le_add_right _ _), Nat.add_sub_cancel_left]

/-- Continuing a program touches no block. -/
theorem Grows.allOps {before after : Program} {new : List Operation} (h : before.Grows after new) :
    after.allOps = before.allOps := by
  obtain ⟨decls, hdecls, hbody⟩ := h.funcs
  have hempty : decls.flatMap Func.bodyOps = [] :=
    List.flatMap_eq_nil_iff.mpr fun func hfunc => by simp [Func.bodyOps, hbody func hfunc]
  rw [Program.allOps, Program.allOps, hdecls, List.flatMap_append, hempty, List.append_nil]

/-- A function stays where it is when the program is continued. -/
theorem Grows.func {before after : Program} {new : List Operation} (h : before.Grows after new)
    {i : Nat} {func : Func} (hfunc : before.funcs[i]? = some func) :
    after.funcs[i]? = some func := by
  obtain ⟨decls, hdecls, -⟩ := h.funcs
  exact getElem?_mono ⟨decls, hdecls.symm⟩ hfunc

/-- New ids are distinct. -/
theorem nodup_nextOps (program : Program) (count : Nat) : (program.nextOps count).Nodup := by
  apply List.Nodup.map _ List.nodup_range
  intro i j hij
  simpa using hij

/-- New ids stand in no block of a valid program. -/
theorem Valid.notMem_allOps {program : Program} (h : program.Valid) {count : Nat} {id : OpId}
    (hid : id ∈ program.nextOps count) : id ∉ program.allOps := by
  intro hin
  obtain ⟨i, -, rfl⟩ := List.mem_map.mp hid
  have := h.lt_length hin
  simp only at this
  omega

end Program

/-- The root is replaced once, by as many values as it has results. -/
theorem Attempt.replace_eq_ok {attempt after : Attempt} {root : Operation} {values : List ValueId} :
    attempt.replace root values = .ok after ↔ attempt.replacement = none ∧
      values.length = root.results.length ∧ after = { attempt with replacement := some values } := by
  unfold Attempt.replace
  cases attempt.replacement with
  | some values' => simp
  | none =>
    by_cases hlength : values.length = root.results.length
    · simp [hlength, eq_comm]
    · simp [hlength]

namespace Script

variable {α β : Type}

/-- Running a continued script runs the first part and then the rest, unless it declines. -/
theorem run_bind (script : Script α) (next : α → Script β) (root : Operation) (attempt : Attempt) :
    (script.bind next).run root attempt =
      match script.run root attempt with
      | .ok (some result, attempt) => (next result).run root attempt
      | .ok (none, attempt) => .ok (none, attempt)
      | .error halt => .error halt := by
  induction script generalizing attempt with
  | done result => rfl
  | decline => rfl
  | fail fault => rfl
  | inspect k ih => exact ih attempt.program attempt
  | create kind operands types k ih => exact ih _ _
  | declare name argTypes resultTypes k ih => exact ih _
  | replace values k ih =>
    simp only [bind, run]
    cases attempt.replace root values with
    | error fault => rfl
    | ok attempt => exact ih attempt

/-- Every script continues the program it is given, and lists the operations that it creates. -/
theorem run_grows (script : Script α) (root : Operation) {attempt after : Attempt}
    {result : Option α} (hrun : script.run root attempt = .ok (result, after)) :
    ∃ new, attempt.program.Grows after.program new ∧
      after.inserted = attempt.inserted ++ attempt.program.nextOps new.length := by
  induction script generalizing attempt with
  | done value =>
    simp only [run, Except.ok.injEq, Prod.mk.injEq] at hrun
    obtain ⟨-, rfl⟩ := hrun
    exact ⟨[], .refl _, by simp [Program.nextOps]⟩
  | decline =>
    simp only [run, Except.ok.injEq, Prod.mk.injEq] at hrun
    obtain ⟨-, rfl⟩ := hrun
    exact ⟨[], .refl _, by simp [Program.nextOps]⟩
  | fail fault => simp [run] at hrun
  | inspect k ih => exact ih attempt.program hrun
  | create kind operands types k ih =>
    obtain ⟨new, hgrows, hinserted⟩ := ih _ hrun
    have hfirst := Program.Grows.addOp attempt.program kind operands types root.span
    refine ⟨_, hfirst.trans hgrows, ?_⟩
    rw [hinserted, List.length_append, Program.nextOps_append hfirst]
    simp [Attempt.create, Program.nextOps, Program.nextOp]
  | declare name argTypes resultTypes k ih =>
    obtain ⟨new, hgrows, hinserted⟩ := ih hrun
    have hfirst := Program.Grows.declare attempt.program name argTypes resultTypes
    refine ⟨_, hfirst.trans hgrows, ?_⟩
    rw [hinserted, List.length_append, Program.nextOps_append hfirst]
    simp [Attempt.declare, Program.nextOps]
  | replace values k ih =>
    simp only [run] at hrun
    split at hrun
    · rename_i changed hreplace
      obtain ⟨-, -, rfl⟩ := Attempt.replace_eq_ok.mp hreplace
      obtain ⟨new, hgrows, hinserted⟩ := ih hrun
      exact ⟨new, hgrows, hinserted⟩
    · simp at hrun

/-- Every script keeps its program valid. -/
theorem run_valid (script : Script α) (root : Operation) {attempt after : Attempt}
    {result : Option α} (hrun : script.run root attempt = .ok (result, after))
    (hvalid : attempt.program.Valid) : after.program.Valid := by
  induction script generalizing attempt with
  | done value =>
    simp only [run, Except.ok.injEq, Prod.mk.injEq] at hrun
    obtain ⟨-, rfl⟩ := hrun
    exact hvalid
  | decline =>
    simp only [run, Except.ok.injEq, Prod.mk.injEq] at hrun
    obtain ⟨-, rfl⟩ := hrun
    exact hvalid
  | fail fault => simp [run] at hrun
  | inspect k ih => exact ih attempt.program hrun hvalid
  | create kind operands types k ih => exact ih _ hrun (hvalid.addOp kind operands types root.span)
  | declare name argTypes resultTypes k ih => exact ih hrun (hvalid.declare name argTypes resultTypes)
  | replace values k ih =>
    simp only [run] at hrun
    split at hrun
    · rename_i changed hreplace
      obtain ⟨-, -, rfl⟩ := Attempt.replace_eq_ok.mp hreplace
      exact ih hrun hvalid
    · simp at hrun

end Script

namespace Conversion

/-- Erasing operations that stand in no block. -/
theorem foldl_eraseOp_valid (ids : List OpId) {program : Program} (hvalid : program.Valid)
    (hout : ∀ id ∈ ids, id ∉ program.allOps) : (ids.foldl Program.eraseOp program).Valid := by
  induction ids generalizing program with
  | nil => exact hvalid
  | cons id rest ih =>
    exact ih (hvalid.eraseOp (hout id List.mem_cons_self))
      fun other hother => hout other (List.mem_cons_of_mem _ hother)

/-- Erasing operations keeps the functions. -/
theorem foldl_eraseOp_funcs (ids : List OpId) (program : Program) :
    (ids.foldl Program.eraseOp program).funcs = program.funcs := by
  induction ids generalizing program with
  | nil => rfl
  | cons id rest ih => exact ih (program.eraseOp id)

/-- Taking an attempt back leaves a valid program. -/
theorem rollBack_valid {before : Program} {attempt : Attempt} {new : List Operation}
    (hvalid : before.Valid) (hafter : attempt.program.Valid)
    (hgrows : before.Grows attempt.program new)
    (hinserted : attempt.inserted = before.nextOps new.length) :
    (rollBack before.funcs.length attempt).Valid := by
  have hout : ∀ id ∈ attempt.inserted, id ∉ attempt.program.allOps := by
    intro id hid
    rw [hgrows.allOps]
    exact hvalid.notMem_allOps (hinserted ▸ hid)
  obtain ⟨decls, hdecls, hbody⟩ := hgrows.funcs
  apply (foldl_eraseOp_valid attempt.inserted hafter hout).truncateFuncs
  intro func hfunc
  rw [foldl_eraseOp_funcs, hdecls, List.drop_left] at hfunc
  simp [Func.bodyOps, hbody func hfunc]

/-- A list is put in the place of the first occurrence of the target. -/
theorem splice_eq_some {target : OpId} {inserted body block : List OpId} :
    splice target inserted body = some block ↔ ∃ pre post, body = pre ++ target :: post ∧
      target ∉ pre ∧ block = pre ++ inserted ++ post := by
  induction body generalizing block with
  | nil => simp [splice]
  | cons id rest ih =>
    simp only [splice]
    by_cases hid : id = target
    · subst hid
      rw [if_pos rfl, Option.some.injEq]
      constructor
      · rintro rfl
        exact ⟨[], rest, by simp, by simp, by simp⟩
      · rintro ⟨pre, post, hbody, hpre, rfl⟩
        cases pre with
        | nil => simp_all
        | cons first pre => simp_all
    · rw [if_neg hid, Option.map_eq_some_iff]
      constructor
      · rintro ⟨block', hblock, rfl⟩
        obtain ⟨pre, post, rfl, hpre, rfl⟩ := ih.mp hblock
        exact ⟨id :: pre, post, by simp, by simp [Ne.symm hid, hpre], by simp⟩
      · rintro ⟨pre, post, hbody, hpre, rfl⟩
        cases pre with
        | nil => simp_all
        | cons first pre =>
          simp only [List.cons_append, List.cons.injEq] at hbody
          obtain ⟨rfl, rfl⟩ := hbody
          refine ⟨pre ++ inserted ++ post, ih.mpr ⟨pre, post, rfl, ?_, rfl⟩, by simp⟩
          exact fun hin => hpre (List.mem_cons_of_mem _ hin)

/-- All that a commit does, once it goes through. -/
theorem commit_eq_ok {pattern : Pattern} {funcId : FuncId} {opId : OpId} {root : Operation}
    {attempt : Attempt} {aliases aliases' : Renaming} {program : Program} :
    commit pattern funcId opId root attempt aliases = .ok (program, aliases') ↔
      ∃ values func pre post, attempt.replacement = some values ∧
        attempt.program.funcs[funcId.index]? = some func ∧
        func.body = some (pre ++ opId :: post) ∧ opId ∉ pre ∧
        program = (attempt.program.modifyFunc funcId fun func =>
          { func with body := some (pre ++ attempt.inserted ++ post) }).eraseOp opId ∧
        aliases' = aliases.insertAll root.results values := by
  unfold commit
  simp only [bind_eq_ok, Program.func_eq_ok, pure_eq_ok, Prod.mk.injEq]
  constructor
  · rintro ⟨values, hvalues, func, hfunc, block, hblock, rfl, rfl⟩
    unfold replacementOf at hvalues
    unfold blockAfter at hblock
    split at hvalues
    · rename_i given hgiven
      obtain rfl := Except.ok.inj hvalues
      split at hblock
      · simp at hblock
      · rename_i body hbody
        split at hblock
        · rename_i spliced hsplice
          obtain rfl := Except.ok.inj hblock
          obtain ⟨pre, post, rfl, hpre, rfl⟩ := splice_eq_some.mp hsplice
          exact ⟨_, func, pre, post, hgiven, hfunc, hbody, hpre, rfl, rfl⟩
        · simp at hblock
    · simp at hvalues
  · rintro ⟨values, func, pre, post, hvalues, hfunc, hbody, hpre, rfl, rfl⟩
    have hsplice : splice opId attempt.inserted (pre ++ opId :: post) =
        some (pre ++ attempt.inserted ++ post) :=
      splice_eq_some.mpr ⟨pre, post, rfl, hpre, rfl⟩
    refine ⟨values, by simp [replacementOf, hvalues], func, hfunc,
      pre ++ attempt.inserted ++ post, by simp [blockAfter, hbody, hsplice], rfl, rfl⟩

/-- Putting an attempt in the place of its root leaves a valid program. -/
theorem commit_valid {before program : Program} {attempt : Attempt} {new : List Operation}
    {pattern : Pattern} {funcId : FuncId} {opId : OpId} {root : Operation}
    {aliases aliases' : Renaming} (hvalid : before.Valid) (hafter : attempt.program.Valid)
    (hgrows : before.Grows attempt.program new)
    (hinserted : attempt.inserted = before.nextOps new.length)
    (hcommit : commit pattern funcId opId root attempt aliases = .ok (program, aliases')) :
    program.Valid := by
  obtain ⟨values, func, pre, post, -, hfunc, hbody, -, rfl, -⟩ := commit_eq_ok.mp hcommit
  apply hafter.replaceInBody hfunc (by simp [Func.bodyOps, hbody])
  · rw [hinserted]
    exact before.nodup_nextOps _
  · intro id hid
    rw [hgrows.allOps]
    exact hvalid.notMem_allOps (hinserted ▸ hid)
  · intro id hid
    rw [hinserted] at hid
    obtain ⟨i, hi, rfl⟩ := List.mem_map.mp hid
    have hlt : i < new.length := List.mem_range.mp hi
    exact ⟨new[i], by rw [hgrows.getElem?, List.getElem?_eq_getElem hlt],
      hgrows.live _ (List.getElem_mem hlt)⟩

end Conversion

end TensorLowering
