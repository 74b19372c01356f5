import Mathlib.Logic.Relation
import TensorLowering.Proofs.Finished

/-!
# The history of a renaming

Entries are only ever added to a renaming, so that it holds its own history: at any earlier moment
it consisted of the older ones of its entries. Each entry is recorded for a value that had none, and
its replacement does not lead back to that value. For an argument this holds because its replacement
is fresh. For a result it holds because no operation visited so far could refer to it; the
replacement may well be older than the result, when a tensor is folded into its handle. What was
recorded in this way has no key twice and no cycle, and it had none at any earlier moment.
-/

namespace TensorLowering

namespace Renaming

/-! ### Entries in the order of their recording -/

/-- Entries that were recorded one by one, the newest in front: each for a value without an entry,
and with a replacement that does not lead back to it. -/
inductive Grown : List (ValueId × ValueId) → Prop
  | nil : Grown []
  | cons {old new : ValueId} {rest : List (ValueId × ValueId)} (hold : next? ⟨rest⟩ old = none)
      (hnew : resolve ⟨rest⟩ new ≠ old) (hrest : Grown rest) : Grown ((old, new) :: rest)

variable {entries earlier : List (ValueId × ValueId)} {aliases : Renaming}

/-- A value leads to another along one entry or more. -/
def Leads (aliases : Renaming) : ValueId → ValueId → Prop :=
  Relation.TransGen fun v u => aliases.next? v = some u

/-- The older entries were recorded in the same way. -/
theorem Grown.of_suffix (h : Grown entries) (hsuffix : earlier <:+ entries) : Grown earlier := by
  induction h with
  | nil =>
    rw [List.suffix_nil.mp hsuffix]
    exact .nil
  | cons hold hnew hrest ih =>
    rcases List.suffix_cons_iff.mp hsuffix with rfl | hsuffix
    · exact .cons hold hnew hrest
    · exact ih hsuffix

/-- One more entry. -/
theorem Grown.insert (h : Grown aliases.entries) {old new : ValueId}
    (hold : aliases.next? old = none) (hnew : aliases.resolve new ≠ old) :
    Grown (aliases.insert old new).entries := by
  rw [Renaming.insert, if_neg (ne_of_resolve_ne hold hnew)]
  exact .cons hold hnew h

/-- No cycle was closed. -/
theorem Grown.acyclic (h : Grown entries) : Acyclic ⟨entries⟩ := by
  induction h with
  | nil => exact .of_targets fun v u hnext => by simp [next?] at hnext
  | @cons old new rest hold hnew _ ih =>
    have hinsert := ih.insert hold hnew
    rwa [Renaming.insert, if_neg (ne_of_resolve_ne hold hnew)] at hinsert

/-- A value without an entry is no key. -/
theorem notMem_keys_of_next? {v : ValueId} (h : aliases.next? v = none) :
    v ∉ aliases.entries.map Prod.fst := by
  intro hmem
  obtain ⟨entry, hentry, rfl⟩ := List.mem_map.mp hmem
  have hne := List.lookup_eq_none_iff.mp h entry hentry
  simp at hne

/-- No value was given a second entry. -/
theorem Grown.nodup_keys (h : Grown entries) : (entries.map Prod.fst).Nodup := by
  induction h with
  | nil => exact List.nodup_nil
  | cons hold _ _ ih => exact List.nodup_cons.mpr ⟨notMem_keys_of_next? hold, ih⟩

/-- An entry that was there at an earlier moment is still the one that counts. -/
theorem Grown.next?_of_suffix (h : Grown entries) (hsuffix : earlier <:+ entries)
    {v u : ValueId} (hnext : next? ⟨earlier⟩ v = some u) : next? ⟨entries⟩ v = some u := by
  induction h with
  | nil => rwa [List.suffix_nil.mp hsuffix] at hnext
  | @cons old new rest hold hnew _ ih =>
    rcases List.suffix_cons_iff.mp hsuffix with rfl | hsuffix
    · exact hnext
    · have hrest := ih hsuffix
      have hne : v ≠ old := by
        intro heq
        rw [heq, hold] at hrest
        contradiction
      have hinsert := next?_insert ⟨rest⟩ (ne_of_resolve_ne hold hnew) v
      rw [if_neg hne, hrest, Renaming.insert, if_neg (ne_of_resolve_ne hold hnew)] at hinsert
      exact hinsert

/-- Where every chain ends, no value leads to itself. -/
theorem Acyclic.not_leads_self (h : aliases.Acyclic) (v : ValueId) : ¬aliases.Leads v v := by
  obtain ⟨n, w, hchain⟩ := h v
  induction hchain with
  | stop hnone =>
    intro hleads
    obtain ⟨u, hnext, -⟩ := Relation.TransGen.head'_iff.mp hleads
    rw [hnone] at hnext
    contradiction
  | step hsome _ ih =>
    -- a cycle through a value is one through its replacement
    intro hleads
    obtain ⟨u, hnext, hback⟩ := Relation.TransGen.head'_iff.mp hleads
    obtain rfl := Option.some.inj (hsome.symm.trans hnext)
    exact ih (Relation.TransGen.tail' hback hsome)

/-- Recording several replacements leaves the older entries. -/
theorem suffix_insertAll (aliases : Renaming) (olds news : List ValueId) :
    aliases.entries <:+ (aliases.insertAll olds news).entries := by
  induction olds generalizing aliases news with
  | nil => exact List.suffix_rfl
  | cons old olds ih =>
    cases news with
    | nil => exact List.suffix_rfl
    | cons new news =>
      refine List.IsSuffix.trans ?_ (ih (aliases.insert old new) news)
      unfold Renaming.insert
      split
      · exact List.suffix_rfl
      · exact List.suffix_cons _ _

end Renaming

namespace Conversion

open Renaming (Grown)

variable {types : TypeMap} {patterns : List Pattern} {program : Program}
  {state after : Progress}

/-! ### Signatures -/

/-- While signatures are converted, the values with an entry are arguments of no function any
more. -/
structure Retired (state : Progress) : Prop where
  valid : state.program.Valid
  grown : Grown state.aliases.entries
  lt : ∀ old new, state.aliases.next? old = some new →
    old.index < state.program.values.length
  notMem : ∀ old new, state.aliases.next? old = some new → ∀ (i : Nat) (func : Func),
    state.program.funcs[i]? = some func → old ∉ func.args

/-- Nothing is recorded at the start. -/
theorem Retired.start (hvalid : program.Valid) : Retired { program } where
  valid := hvalid
  grown := .nil
  lt old new hnext := by simp [Renaming.next?] at hnext
  notMem old new hnext := by simp [Renaming.next?] at hnext

/-- When an argument is replaced, the arguments are the fresh value and the others. -/
theorem mem_args_replaceArg (hvalid : program.Valid) {id : FuncId} {index : Nat} {ty : Ty}
    {func : Func} {old : ValueId} (hfunc : program.funcs[id.index]? = some func)
    (hold : func.args[index]? = some old) {i : Nat} {now : Func} {v : ValueId}
    (hnow : (program.replaceArg id index ty).funcs[i]? = some now) (hv : v ∈ now.args) :
    v = ⟨program.values.length⟩ ∨
      (v ≠ old ∧ ∃ before, program.funcs[i]? = some before ∧ v ∈ before.args) := by
  simp only [Program.replaceArg, List.getElem?_modify, Option.map_eq_map,
    Option.map_eq_some_iff] at hnow
  obtain ⟨before, hbefore, rfl⟩ := hnow
  obtain ⟨k, hk⟩ := List.mem_iff_getElem?.mp hv
  by_cases hi : id.index = i
  · subst hi
    obtain rfl := Option.some.inj (hfunc.symm.trans hbefore)
    rw [if_pos rfl, List.getElem?_set] at hk
    split at hk
    · split at hk
      · exact Or.inl (Option.some.inj hk).symm
      · contradiction
    · rename_i hne
      refine Or.inr ⟨fun heq => hne ?_, func, hfunc, List.mem_of_getElem? hk⟩
      exact (arg_position hvalid hfunc hold hfunc (heq ▸ hk)).2
  · rw [if_neg hi] at hk
    refine Or.inr ⟨fun heq => hi ?_, before, hbefore, List.mem_of_getElem? hk⟩
    exact (arg_position hvalid hfunc hold hbefore (heq ▸ hk)).1

/-- One more argument is converted. -/
theorem Retired.convertArg (h : Retired state) {id : FuncId} {index : Nat} {ty : Ty}
    (hrun : convertArg types id index ty state = .ok after) : Retired after := by
  rcases convertArg_eq_ok.mp hrun with ⟨-, rfl⟩ | ⟨-, func, old, hfunc, hold, rfl⟩
  · exact h
  · obtain ⟨ty', -, hvalue⟩ := h.valid.arg_value hfunc hold
    have hlt := (List.getElem?_eq_some_iff.mp hvalue).1
    have hne : old ≠ ⟨state.program.values.length⟩ := by
      intro heq
      rw [heq] at hlt
      exact Nat.lt_irrefl _ hlt
    have hnone : state.aliases.next? old = none := by
      cases hnext : state.aliases.next? old with
      | none => rfl
      | some new => exact absurd (List.mem_of_getElem? hold) (h.notMem old new hnext _ func hfunc)
    have hfresh : state.aliases.next? ⟨state.program.values.length⟩ = none := by
      cases hnext : state.aliases.next? ⟨state.program.values.length⟩ with
      | none => rfl
      | some new => exact absurd (h.lt _ new hnext) (Nat.lt_irrefl _)
    have hends : state.aliases.resolve ⟨state.program.values.length⟩ ≠ old := by
      rw [Renaming.resolve_of_next?_eq_none hfresh]
      exact hne.symm
    have hindex := (List.getElem?_eq_some_iff.mp hold).1
    refine ⟨h.valid.replaceArg hfunc hindex _, h.grown.insert hnone hends, ?_, ?_⟩
    · intro v new hnext
      simp only [Program.replaceArg, List.length_append, List.length_singleton]
      rw [Renaming.next?_insert _ hne] at hnext
      split at hnext
      · rename_i heq
        rw [heq]
        omega
      · have hbound := h.lt v new hnext
        omega
    · intro v new hnext i now hnow hv
      rw [Renaming.next?_insert _ hne] at hnext
      rcases mem_args_replaceArg h.valid hfunc hold hnow hv with rfl | ⟨hother, before, hbefore, hv⟩
      · rw [if_neg hne.symm, hfresh] at hnext
        contradiction
      · rw [if_neg hother] at hnext
        exact h.notMem v new hnext i before hbefore hv

/-- The remaining arguments of a function are converted. -/
theorem Retired.convertArgs (h : Retired state) {id : FuncId} {index : Nat} {tys : List Ty}
    (hrun : convertArgs types id index tys state = .ok after) : Retired after := by
  induction tys generalizing index state with
  | nil => exact Except.ok.inj hrun ▸ h
  | cons ty rest ih =>
    simp only [Conversion.convertArgs, bind_eq_ok] at hrun
    obtain ⟨middle, hmiddle, hrest⟩ := hrun
    exact ih (h.convertArg hmiddle) hrest

/-- What converting a signature does after the arguments. -/
theorem convertSignature_eq_ok {id : FuncId} (hrun : convertSignature types id state = .ok after) :
    ∃ func middle, state.program.funcs[id.index]? = some func ∧
      convertArgs types id 0 func.argTypes state = .ok middle ∧
      after.aliases = middle.aliases ∧
      after.program = middle.program.modifyFunc id fun func =>
        { func with resultTypes := func.resultTypes.map types.convert } := by
  simp only [convertSignature, bind_eq_ok, Program.func_eq_ok] at hrun
  obtain ⟨func, hfunc, middle, hargs, hrun⟩ := hrun
  refine ⟨func, middle, hfunc, hargs, ?_⟩
  split at hrun
  · obtain rfl := pure_eq_ok.mp hrun
    exact ⟨rfl, rfl⟩
  · obtain rfl := pure_eq_ok.mp hrun
    exact ⟨rfl, rfl⟩

/-- The signature of one more function is converted. -/
theorem Retired.convertSignature (h : Retired state) {id : FuncId}
    (hrun : convertSignature types id state = .ok after) : Retired after := by
  have hvalid := convertSignature_valid hrun h.valid
  obtain ⟨func, middle, -, hargs, haliases, hprogram⟩ := convertSignature_eq_ok hrun
  have hmiddle := h.convertArgs hargs
  refine ⟨hvalid, haliases ▸ hmiddle.grown, ?_, ?_⟩
  · rw [haliases, hprogram]
    exact hmiddle.lt
  · rw [haliases, hprogram]
    intro old new hnext i now hnow hold
    simp only [Program.modifyFunc, List.getElem?_modify, Option.map_eq_map,
      Option.map_eq_some_iff] at hnow
    obtain ⟨before, hbefore, rfl⟩ := hnow
    apply hmiddle.notMem old new hnext i before hbefore
    split at hold
    · exact hold
    · exact hold

/-- The signatures of all functions are converted. -/
theorem grown_of_signatures (hvalid : program.Valid) {ids : List FuncId}
    (hrun : forEach (convertSignature types) ids { program } = .ok state) :
    Grown state.aliases.entries := by
  have hretired := forEach_invariant Retired
    (fun id _ state after h hstep => h.convertSignature hstep) hrun (.start hvalid)
  exact hretired.grown

/-! ### Moments of a run -/

/-- A state that a conversion passes through: while it converts signatures, after some functions and
some arguments of the next one; while it walks, after some functions and some operations of the next
block; or at the end of the walk. -/
inductive Moment (patterns : List Pattern) (types : TypeMap) (program : Program) :
    Progress → Prop
  | signing {ids rest : List FuncId} {id : FuncId} {state moment : Progress} {func : Func}
      {tys more : List Ty} (hids : program.definedFuncs = ids ++ id :: rest)
      (hstate : forEach (convertSignature types) ids { program } = .ok state)
      (hfunc : state.program.func id = .ok func) (htys : func.argTypes = tys ++ more)
      (hmoment : convertArgs types id 0 tys state = .ok moment) :
      Moment patterns types program moment
  | walking {ids rest : List FuncId} {id : FuncId} {start state moment : Progress}
      {block more : List OpId} (hids : program.definedFuncs = ids ++ id :: rest)
      (hstart : forEach (convertSignature types) program.definedFuncs { program } = .ok start)
      (hstate : forEach (convertBody patterns) ids start = .ok state)
      (hblock : state.program.bodyOps id = .ok (block ++ more))
      (hmoment : convertOps patterns id block state = .ok moment) :
      Moment patterns types program moment
  | ended {state : Progress} (hstate : walk patterns types program = .ok state) :
      Moment patterns types program state

/-- A run over two lists is one over the second after one over the first. -/
theorem forEach_append {σ ε : Type} {step : FuncId → σ → Except ε σ} {ids rest : List FuncId}
    {state final : σ} : forEach step (ids ++ rest) state = .ok final ↔
      ∃ middle, forEach step ids state = .ok middle ∧ forEach step rest middle = .ok final := by
  induction ids generalizing state with
  | nil => simp [forEach]
  | cons id ids ih =>
    simp only [List.cons_append, forEach, bind_eq_ok, ih]
    constructor
    · intro h
      obtain ⟨next, hnext, middle, hmiddle, hfinal⟩ := h
      exact ⟨middle, ⟨next, hnext, hmiddle⟩, hfinal⟩
    · intro h
      obtain ⟨middle, ⟨next, hnext, hmiddle⟩, hfinal⟩ := h
      exact ⟨next, hnext, middle, hmiddle, hfinal⟩

section Older

variable {id : FuncId} {moment final : Progress}

/-- Converting arguments leaves the older entries. -/
theorem suffix_convertArgs {index : Nat} {tys : List Ty}
    (hrun : convertArgs types id index tys state = .ok after) :
    state.aliases.entries <:+ after.aliases.entries := by
  induction tys generalizing index state with
  | nil =>
    obtain rfl := Except.ok.inj hrun
    exact List.suffix_rfl
  | cons ty rest ih =>
    simp only [convertArgs, bind_eq_ok] at hrun
    obtain ⟨middle, hmiddle, hrest⟩ := hrun
    have hstep : state.aliases.entries <:+ middle.aliases.entries := by
      rcases convertArg_eq_ok.mp hmiddle with ⟨-, rfl⟩ | ⟨-, func, old, -, -, rfl⟩
      · exact List.suffix_rfl
      · exact Renaming.suffix_insertAll state.aliases [old] [⟨state.program.values.length⟩]
    exact hstep.trans (ih hrest)

/-- Converting further arguments leaves the older entries. -/
theorem suffix_convertArgs_append {index : Nat} {tys more : List Ty}
    (hmoment : convertArgs types id index tys state = .ok moment)
    (hfinal : convertArgs types id index (tys ++ more) state = .ok final) :
    moment.aliases.entries <:+ final.aliases.entries := by
  induction tys generalizing index state with
  | nil =>
    obtain rfl := Except.ok.inj hmoment
    exact suffix_convertArgs hfinal
  | cons ty rest ih =>
    simp only [List.cons_append, convertArgs, bind_eq_ok] at hmoment hfinal
    obtain ⟨middle, hmiddle, hmoment⟩ := hmoment
    obtain ⟨middle', hmiddle', hfinal⟩ := hfinal
    obtain rfl := Except.ok.inj (hmiddle.symm.trans hmiddle')
    exact ih hmoment hfinal

/-- Converting a signature leaves the older entries. -/
theorem suffix_convertSignature (hrun : convertSignature types id state = .ok after) :
    state.aliases.entries <:+ after.aliases.entries := by
  obtain ⟨func, middle, -, hargs, haliases, -⟩ := convertSignature_eq_ok hrun
  rw [haliases]
  exact suffix_convertArgs hargs

/-- Offering an operation leaves the older entries. -/
theorem suffix_offer {opId : OpId} {site : Site}
    (hrun : offer id opId site patterns state = .ok after) :
    state.aliases.entries <:+ after.aliases.entries := by
  induction patterns generalizing state with
  | nil =>
    obtain rfl := Except.ok.inj hrun
    exact List.suffix_rfl
  | cons pattern rest ih =>
    rcases offer_cons_eq_ok.mp hrun with ⟨attempt, program, aliases, -, hcommit, rfl⟩ |
      ⟨attempt, -, hrest⟩
    · obtain ⟨values, func, pre, post, -, -, -, -, -, rfl⟩ := commit_eq_ok.mp hcommit
      exact Renaming.suffix_insertAll state.aliases site.root.results values
    · have hlater := ih hrest
      exact hlater

/-- Converting operations leaves the older entries. -/
theorem suffix_convertOps {ids : List OpId} (hrun : convertOps patterns id ids state = .ok after) :
    state.aliases.entries <:+ after.aliases.entries := by
  induction ids generalizing state with
  | nil =>
    obtain rfl := Except.ok.inj hrun
    exact List.suffix_rfl
  | cons opId rest ih =>
    obtain ⟨middle, hmiddle, hrest⟩ := convertOps_cons_eq_ok.mp hrun
    have hstep : state.aliases.entries <:+ middle.aliases.entries := by
      obtain ⟨root, -, ⟨-, rfl⟩ | ⟨-, hoffer⟩⟩ := convertOp_eq_ok.mp hmiddle
      · exact List.suffix_rfl
      · exact suffix_offer hoffer
    exact hstep.trans (ih hrest)

/-- Converting further operations leaves the older entries. -/
theorem suffix_convertOps_append {ids more : List OpId}
    (hmoment : convertOps patterns id ids state = .ok moment)
    (hfinal : convertOps patterns id (ids ++ more) state = .ok final) :
    moment.aliases.entries <:+ final.aliases.entries := by
  induction ids generalizing state with
  | nil =>
    obtain rfl := Except.ok.inj hmoment
    exact suffix_convertOps hfinal
  | cons opId rest ih =>
    obtain ⟨middle, hmiddle, hmoment⟩ := convertOps_cons_eq_ok.mp hmoment
    obtain ⟨middle', hmiddle', hfinal⟩ := convertOps_cons_eq_ok.mp hfinal
    obtain rfl := Except.ok.inj (hmiddle.symm.trans hmiddle')
    exact ih hmoment hfinal

/-- Converting a block leaves the older entries. -/
theorem suffix_convertBody (hrun : convertBody patterns id state = .ok after) :
    state.aliases.entries <:+ after.aliases.entries := by
  simp only [convertBody, bind_eq_ok, Halt.guard_eq_ok] at hrun
  obtain ⟨body, -, hrun⟩ := hrun
  exact suffix_convertOps hrun

/-- A step that leaves the older entries does so for each function. -/
theorem suffix_forEach {ε : Type} {step : FuncId → Progress → Except ε Progress}
    (hstep : ∀ id state after, step id state = .ok after →
      state.aliases.entries <:+ after.aliases.entries)
    {ids : List FuncId} (hrun : forEach step ids state = .ok after) :
    state.aliases.entries <:+ after.aliases.entries := by
  refine forEach_invariant (fun later => state.aliases.entries <:+ later.aliases.entries)
    (fun id _ middle next hmiddle hnext => ?_) hrun List.suffix_rfl
  exact hmiddle.trans (hstep id middle next hnext)

/-- The entries of any moment are the older ones of those at the end. -/
theorem Moment.suffix (h : Moment patterns types program moment)
    (hwalk : walk patterns types program = .ok final) :
    moment.aliases.entries <:+ final.aliases.entries := by
  have hphases := hwalk
  simp only [walk, bind_eq_ok, Halt.guard_eq_ok] at hphases
  obtain ⟨start, hsigned, hbodies⟩ := hphases
  cases h with
  | signing hids hstate hfunc htys hmoment =>
    rw [hids, forEach_append] at hsigned
    obtain ⟨state', hstate', hrest⟩ := hsigned
    obtain rfl := Except.ok.inj (hstate.symm.trans hstate')
    simp only [forEach, bind_eq_ok] at hrest
    obtain ⟨next, hnext, hrest⟩ := hrest
    obtain ⟨func', middle, hfunc', hargs, haliases, -⟩ := convertSignature_eq_ok hnext
    obtain rfl := Option.some.inj ((Program.func_eq_ok.mp hfunc).symm.trans hfunc')
    rw [htys] at hargs
    have hsignature : moment.aliases.entries <:+ next.aliases.entries := by
      rw [haliases]
      exact suffix_convertArgs_append hmoment hargs
    have hothers := suffix_forEach (fun _ _ _ hstep => suffix_convertSignature hstep) hrest
    have hblocks := suffix_forEach (fun _ _ _ hstep => suffix_convertBody hstep) hbodies
    exact hsignature.trans (hothers.trans hblocks)
  | walking hids hstart hstate hblock hmoment =>
    obtain rfl := Except.ok.inj (hstart.symm.trans hsigned)
    rw [hids, forEach_append] at hbodies
    obtain ⟨state', hstate', hrest⟩ := hbodies
    obtain rfl := Except.ok.inj (hstate.symm.trans hstate')
    simp only [forEach, convertBody, bind_eq_ok, Halt.guard_eq_ok, hblock, Except.ok.injEq,
      exists_eq_left'] at hrest
    obtain ⟨next, hnext, hrest⟩ := hrest
    have hothers := suffix_forEach (fun _ _ _ hstep => suffix_convertBody hstep) hrest
    exact (suffix_convertOps_append hmoment hnext).trans hothers
  | ended hstate =>
    obtain rfl := Except.ok.inj (hstate.symm.trans hwalk)
    exact List.suffix_rfl

end Older

end Conversion

namespace Lowering

open Conversion
open Renaming (Grown)

variable {source : Program} {start state after : Progress} {done : List OpId}
  {expand : OpId → List OpId}

/-! ### Blocks -/

/-- The replacement of an operation is recorded for values without an entry, and does not lead back
to them. -/
theorem Walk.grown_insertAll (hresigned : Resigned handleTypes source start)
    (hsource : source.Valid) (h : Walk source start done expand state) {id : OpId}
    {op : Operation} (hid : id ∉ done)
    (hop : source.ops[id.index]? = some op) {values : List ValueId}
    (hcases : (op.results = [] ∧ values = []) ∨
      ∃ old value, op.results = [old] ∧ values = [value])
    (hvalues : ∀ v ∈ values, source.Settled done v) (hgrown : Grown state.aliases.entries) :
    Grown (state.aliases.insertAll op.results values).entries := by
  rcases hcases with ⟨hresults, rfl⟩ | ⟨old, value, hresults, rfl⟩
  · rw [hresults]
    exact hgrown
  · have hold : old ∈ op.results := by simp [hresults]
    have hnone := h.next?_of_pending hresigned hsource hid hop hold
    have hends : state.aliases.resolve value ≠ old :=
      (h.closed value (hvalues value (by simp))).ne_result hid hop hold
    rw [hresults]
    exact hgrown.insert hnone hends

/-- A walk under way whose renaming was recorded entry by entry. -/
def Growing (source : Program) (start : Progress) (pending : List OpId) (state : Progress) : Prop :=
  ∃ done expand, source.allOps = done ++ pending ∧ Walk source start done expand state ∧
    Grown state.aliases.entries

/-- A visit records at most one entry, for a result of the visited operation. -/
theorem keptByVisits_growing (hresigned : Resigned handleTypes source start)
    (hsource : source.Valid) (hstart : start.program.Valid) (hssa : source.DefBeforeUse) :
    KeptByVisits True rules start.program (Growing source start) := by
  intro funcId id rest state func hid hrest hscheduled hfunc hmem hgrowing
  obtain ⟨done, expand, hall, hwalk, hgrown⟩ := hgrowing
  refine ensures_of_forall fun after hrun => ?_
  have hnew : id ∉ done := by
    intro hdone
    have hnodup := hsource.nodup
    rw [hall] at hnodup
    exact (List.nodup_append.mp hnodup).2.2 id hdone id List.mem_cons_self rfl
  obtain ⟨op, hop, -⟩ := hsource.live id (by simp [hall])
  have hreads : ∀ v ∈ op.operands, source.Settled done v :=
    fun v hv => hssa.settled hsource hall hop hv
  -- the block that the operation stands in is the one it stood in when the walk began
  obtain ⟨original, horiginal, hblock⟩ := List.mem_flatMap.mp hid
  obtain ⟨i, hi⟩ := List.mem_iff_getElem?.mp horiginal
  have hstill : id ∈ (original.expandBody expand).bodyOps := by
    rw [Func.bodyOps_expandBody]
    exact List.mem_flatMap.mpr ⟨id, hblock, by simp [(hwalk.pending id hnew).1]⟩
  obtain rfl := hscheduled.valid.block_unique (hwalk.func hi) hstill hfunc hmem
  cases hbody : original.body with
  | none => simp [Func.bodyOps, hbody] at hblock
  | some body =>
    have hinside : id ∈ body := by simpa [Func.bodyOps, hbody] using hblock
    obtain ⟨expand', hafter⟩ := hwalk.convertOp hresigned hsource hstart hi hbody hinside hnew hop
      hreads hrun
    refine ⟨done ++ [id], expand', by simpa using hall, hafter, ?_⟩
    obtain ⟨root, hroot, -, hcase⟩ :=
      convertOp_cases hscheduled.valid (Program.mem_allOps hfunc hmem) hrun
    obtain rfl := Option.some.inj (hroot.symm.trans ((hwalk.pending id hnew).2 op hop))
    rcases hcase with hkeeps | ⟨grown, new, values, hreplaces⟩
    · rw [hkeeps.aliases]
      exact hgrown
    · have hsettled := hwalk.settled_of_rewrites hresigned hsource hreads hreplaces.rewrites
        hreplaces.valid
      rw [hreplaces.aliases]
      exact hwalk.grown_insertAll hresigned hsource hnew hop
        hreplaces.rewrites.expansion.results_cases hsettled hgrown

/-- The renaming of a whole run was recorded entry by entry. -/
theorem grown_of_walk (hsource : source.Valid) (hssa : source.DefBeforeUse)
    (hrun : walk rules handleTypes source = .ok state) : Grown state.aliases.entries := by
  simp only [walk, bind_eq_ok, Halt.guard_eq_ok] at hrun
  obtain ⟨start, hsigned, hbodies⟩ := hrun
  have hresigned := resigned_of_forEach hsource hsigned
  have hstart := convertSignatures_valid hsigned hsource
  have hbegin : Growing source start start.program.allOps start :=
    ⟨[], _, hresigned.allOps.symm, .begin hresigned hsource hstart,
      grown_of_signatures hsource hsigned⟩
  have hends := (keptByVisits_growing hresigned hsource hstart hssa).walk hresigned hstart hbegin
  obtain ⟨-, done, expand, -, -, hgrown⟩ := hends.of_ok hbodies
  exact hgrown

/-- The renaming of a run holds its own history, and its chains end at every moment. -/
structure ChainsEnd (program : Program) (state : Progress) : Prop where
  walked : Conversion.walk rules handleTypes program = .ok state
  /-- At every moment the renaming consists of the older ones of its final entries. -/
  moments : ∀ moment, Moment rules handleTypes program moment →
    moment.aliases.entries <:+ state.aliases.entries
  /-- No value has two entries. -/
  nodup : (state.aliases.entries.map Prod.fst).Nodup
  /-- An entry of any moment still counts at the end. -/
  kept : ∀ aliases : Renaming, aliases.entries <:+ state.aliases.entries →
    ∀ old new, aliases.next? old = some new → state.aliases.next? old = some new
  /-- At every moment no value leads to itself. -/
  acyclic : ∀ aliases : Renaming, aliases.entries <:+ state.aliases.entries →
    ∀ v, ¬aliases.Leads v v
  /-- At every moment looking up a value follows a chain of entries, not more than there are, to a
  value without an entry. -/
  ends : ∀ aliases : Renaming, aliases.entries <:+ state.aliases.entries →
    ∀ v, ∃ n, n ≤ aliases.entries.length ∧ aliases.Chain n v (aliases.resolve v) ∧
      aliases.next? (aliases.resolve v) = none

/-- Chains of renamed values always end, whether or not the lowering reports errors. -/
theorem lower_chains_end {program : Program} {outcome : Outcome} (hreach : program.Reachable)
    (hssa : program.DefBeforeUse) (hrun : lower program = .ok outcome) :
    ∃ state, ChainsEnd program state := by
  obtain ⟨state, -, -, hwalk, -⟩ := run_eq_ok.mp hrun
  have hgrown := grown_of_walk hreach.valid hssa hwalk
  refine ⟨state, hwalk, fun moment hmoment => hmoment.suffix hwalk, hgrown.nodup_keys,
    fun aliases hsuffix old new => hgrown.next?_of_suffix hsuffix,
    fun aliases hsuffix => (hgrown.of_suffix hsuffix).acyclic.not_leads_self,
    fun aliases hsuffix v => ?_⟩
  obtain ⟨n, w, hchain⟩ := (hgrown.of_suffix hsuffix).acyclic v
  obtain rfl := hchain.resolve_eq
  exact ⟨n, hchain.length_le, hchain, hchain.next?_eq_none⟩

/-- A vector is taken apart and put together twice, and the second tensor is folded into a value
that was renamed itself. -/
theorem lower_chains_end_rebuilt : rebuilt.Reachable ∧ rebuilt.DefBeforeUse ∧
    ∃ outcome, lower rebuilt = .ok outcome ∧ ∃ state, ChainsEnd rebuilt state := by
  have hssa : rebuilt.DefBeforeUse := by decide +kernel
  have hok : (lower rebuilt).isOk = true := by decide +kernel
  cases hrun : lower rebuilt with
  | error halt => simp [hrun, Except.isOk, Except.toBool] at hok
  | ok outcome =>
    exact ⟨Program.reachable_listed _, hssa, outcome, rfl,
      lower_chains_end (Program.reachable_listed _) hssa hrun⟩

end Lowering

end TensorLowering
