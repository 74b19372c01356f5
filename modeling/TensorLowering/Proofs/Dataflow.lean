import TensorLowering.Proofs.Listings
import TensorLowering.Proofs.Walk

/-!
# Dataflow is preserved

A conversion ends with one substitution of values, the renaming as it is after the walk. Everything
it did to the blocks can be said with this substitution alone: the arguments of a function are the
substituted old ones, an operation that stays has its operands substituted, and an operation that was
replaced has become an expansion over its substituted operands. The operands were read while the
renaming was still growing, and again at the end; both readings agree.
-/

namespace TensorLowering

namespace Conversion

/-! ### The renaming of operands -/

/-- The operands of some operations have been renamed. -/
structure Renamed (aliases : Renaming) (block : List OpId) (before after : Program) : Prop where
  values : after.values = before.values
  funcs : after.funcs = before.funcs
  symbols : after.symbols = before.symbols
  ops : ∀ o : Nat, after.ops[o]? = before.ops[o]?.map fun op =>
    if (⟨o⟩ : OpId) ∈ block then { op with operands := op.operands.map aliases.resolve } else op

variable {aliases : Renaming}

/-- Nothing to rename. -/
theorem Renamed.refl (program : Program) : Renamed aliases [] program program :=
  ⟨rfl, rfl, rfl, fun o => by simp⟩

/-- A renaming that names nothing changes nothing. -/
theorem Renamed.eq_of_fixed {block : List OpId} {before after : Program}
    (h : Renamed aliases block before after) (hfixed : ∀ v, aliases.resolve v = v) :
    after = before := by
  have hnames : aliases.resolve = id := funext hfixed
  have hops : after.ops = before.ops := List.ext_getElem? fun o => by simp [h.ops, hnames]
  obtain ⟨hvalues, hfuncs, hsymbols, -⟩ := h
  cases before
  cases after
  simp_all

/-- An operation that is erased stands in no block and is not renamed. -/
theorem Renamed.of_erased {ids : List FuncId} {before after : Program}
    (h : Renamed aliases (ids.flatMap before.blockOf) before after) (hvalid : before.Valid)
    {id : OpId} {op : Operation} (hop : before.ops[id.index]? = some op)
    (herased : op.erased = true) : after.ops[id.index]? = some op := by
  have hblock : id ∉ ids.flatMap before.blockOf := by
    intro hin
    obtain ⟨op', hop', hlive⟩ := hvalid.live id (Program.mem_allOps_of_blocks hin)
    obtain rfl := Option.some.inj (hop.symm.trans hop')
    simp [herased] at hlive
  rw [h.ops, hop, Option.map_some]
  exact congrArg some (if_neg hblock)

/-- Renaming one operation. -/
theorem Renamed.single (program : Program) (id : OpId) :
    Renamed aliases [id] program (renameOperands aliases program id) := by
  refine ⟨rfl, rfl, rfl, fun o => ?_⟩
  have hmem : (⟨o⟩ : OpId) ∈ [id] ↔ id.index = o := by
    cases id
    simp [eq_comm]
  simp only [renameOperands, Program.modifyOp, List.getElem?_modify, hmem, Option.map_eq_map]

/-- Renaming two lists of operations that have none in common. -/
theorem Renamed.trans {first second : List OpId} (hdisjoint : first.Disjoint second)
    {before middle after : Program} (h : Renamed aliases first before middle)
    (h' : Renamed aliases second middle after) : Renamed aliases (first ++ second) before after := by
  refine ⟨h'.values.trans h.values, h'.funcs.trans h.funcs, h'.symbols.trans h.symbols, fun o => ?_⟩
  rw [h'.ops, h.ops, Option.map_map]
  refine congrArg (fun f => Option.map f before.ops[o]?) (funext fun op => ?_)
  by_cases hfirst : (⟨o⟩ : OpId) ∈ first
  · have hsecond : (⟨o⟩ : OpId) ∉ second := fun hin => hdisjoint hfirst hin
    simp [hfirst, hsecond]
  · by_cases hsecond : (⟨o⟩ : OpId) ∈ second <;> simp [hfirst, hsecond]

/-- Renaming the operations of a block. -/
theorem renamed_foldl {ids : List OpId} (hnodup : ids.Nodup) (program : Program) :
    Renamed aliases ids program (ids.foldl (renameOperands aliases) program) := by
  induction ids generalizing program with
  | nil => exact .refl program
  | cons id rest ih =>
    obtain ⟨hid, hrest⟩ := List.nodup_cons.mp hnodup
    exact (Renamed.single program id).trans (by simpa using hid) (ih hrest _)

/-- Renaming operands leaves the functions alone. -/
theorem foldl_renameOperands_funcs (aliases : Renaming) (ids : List OpId) (program : Program) :
    (ids.foldl (renameOperands aliases) program).funcs = program.funcs := by
  induction ids generalizing program with
  | nil => rfl
  | cons id rest ih => exact ih _

/-- Renaming the operations of several blocks. -/
theorem renamed_of_forEach {ids : List FuncId} {program after : Program}
    (hnodup : (ids.flatMap program.blockOf).Nodup)
    (hrun : forEach (renameBody aliases) ids program = .ok after) :
    Renamed aliases (ids.flatMap program.blockOf) program after := by
  induction ids generalizing program with
  | nil =>
    simp only [forEach, Except.ok.injEq] at hrun
    exact hrun ▸ .refl program
  | cons id rest ih =>
    simp only [forEach, bind_eq_ok, renameBody, Program.bodyOps_eq_ok, pure_eq_ok] at hrun
    obtain ⟨_, ⟨_, ⟨func, hfunc, rfl⟩, rfl⟩, hrest⟩ := hrun
    have hsame : (func.bodyOps.foldl (renameOperands aliases) program).blockOf = program.blockOf := by
      funext other
      rw [Program.blockOf, Program.blockOf, foldl_renameOperands_funcs]
    have hblock : program.blockOf id = func.bodyOps := by simp [Program.blockOf, hfunc]
    rw [List.flatMap_cons, hblock] at hnodup ⊢
    obtain ⟨hhead, htail, hdisjoint⟩ := List.nodup_append.mp hnodup
    rw [← hsame] at htail hdisjoint ⊢
    exact (renamed_foldl hhead program).trans
      (fun op hop hop' => hdisjoint op hop op hop' rfl) (ih htail hrest)

end Conversion

namespace Lowering

open Conversion

variable {source : Program} {start state : Progress} {expand : OpId → List OpId}

/-! ### Handles stay handles -/

/-- A renamed result has become a value of its own type, by a query, or a handle. -/
theorem Expansion.value_type {program : Program} {root : Operation} {operands : List ValueId}
    {new : List Operation} {values : List ValueId} (h : Expansion program root operands new values)
    {old value : ValueId} (hold : old ∈ root.results) (hvalue : value ∈ values) :
    (∃ name ty, Query program operands ty root.kind name ∧ program.typeOf old = .ok ty ∧
      program.typeOf value = .ok ty) ∨
    (program.typeOf value = .ok .ptr ∧ (root.kind = .toTensor ∨
      ∃ ty, program.typeOf old = .ok ty ∧ ty.isSparse = true)) := by
  cases h with
  | ret => simp at hvalue
  | query hresults htype hquery hnew =>
    obtain rfl : old = _ := by simpa [hresults] using hold
    obtain rfl := List.mem_singleton.mp hvalue
    exact .inl ⟨_, _, hquery, htype, hnew⟩
  | construct _ hencodes _ hcreated =>
    obtain ⟨result, ty, sparsity, hresults, hty, hsparse, -⟩ := hencodes
    obtain rfl : old = result := by simpa [hresults] using hold
    obtain rfl := List.mem_singleton.mp hvalue
    exact .inr ⟨hcreated.2, .inr ⟨ty, hty, by simp [Ty.isSparse, hsparse]⟩⟩
  | convert _ hencodes _ _ _ _ _ _ _ _ _ hcreated =>
    obtain ⟨result, ty, sparsity, hresults, hty, hsparse, -⟩ := hencodes
    obtain rfl : old = result := by simpa [hresults] using hold
    obtain rfl := List.mem_singleton.mp hvalue
    exact .inr ⟨hcreated.2, .inr ⟨ty, hty, by simp [Ty.isSparse, hsparse]⟩⟩
  | fold hkind _ hhandle =>
    obtain rfl := List.mem_singleton.mp hvalue
    obtain ⟨x, -, hshows⟩ := (commonHandle_eq_some.mp hhandle).2
    obtain _ | _ | _ | ⟨-, -, -, -, hty⟩ := hshows
    exact .inr ⟨hty, .inl hkind⟩

/-- Sparse tensor types become the handle type, and the others are kept. -/
theorem handleTypes_convert (ty : Ty) :
    handleTypes.convert ty = if ty.isSparse then .ptr else ty := by
  cases hsparse : ty.isSparse <;>
    simp [handleTypes, TypeMap.convert, TypeMap.add, TypeMap.firstClaim, hsparse]

/-- Converted types are not converted further. -/
theorem convert_convert (ty : Ty) :
    handleTypes.convert (handleTypes.convert ty) = handleTypes.convert ty := by
  rw [handleTypes_convert ty]
  split
  · rfl
  · rename_i hdense
    rw [handleTypes_convert, if_neg hdense]

section Final

variable {done : List OpId} (hresigned : Resigned handleTypes source start) (hsource : source.Valid)
  (h : Walk source start done expand state)

include h in
/-- A value is renamed because it was an argument or because its operation was replaced. -/
theorem Walk.next?_cases {v u : ValueId} (hnext : state.aliases.next? v = some u) :
    start.aliases.next? v = some u ∨ ∃ id ∈ done, ∃ op new values,
      source.ops[id.index]? = some op ∧ v ∈ op.results ∧ u ∈ values ∧
      Expansion state.program op (op.operands.map state.aliases.resolve) new values := by
  rcases h.keys v u hnext with hstart | ⟨id, hid, op, hop, hv⟩
  · exact .inl hstart
  · obtain ⟨op', hop', hrecord⟩ := h.records id hid
    obtain rfl := Option.some.inj (hop.symm.trans hop')
    generalize expand id = ids at hrecord
    cases hrecord with
    | kept _ _ hresults => simp [hresults v hv] at hnext
    | replaced _ _ _ hexpansion hvalues =>
      obtain ⟨w, hw, hnext'⟩ := exists_of_forall₂ hvalues hv
      obtain rfl := Option.some.inj (hnext.symm.trans hnext')
      exact .inr ⟨id, hid, op, _, _, hop, hv, hw, hexpansion⟩

include hresigned hsource h

/-- A renamed argument was a sparse tensor and has become a handle. -/
theorem Walk.type_of_started {v u : ValueId} (hnext : start.aliases.next? v = some u) :
    (∃ ty, source.typeOf v = .ok ty ∧ ty.isSparse = true) ∧
      state.program.typeOf u = .ok .ptr := by
  obtain ⟨i, k, func, ty, hfunc, harg, hty, hchange, -, hvalue⟩ := hresigned.keys v u hnext
  have hsparse : ty.isSparse = true := by
    by_contra hdense
    simp [handleTypes_convert, hdense] at hchange
  have hsourceTy := hsource.args i k func v ty hfunc harg hty
  rw [handleTypes_convert, if_pos hsparse] at hvalue
  exact ⟨⟨ty, Program.typeOf_eq_ok.mpr ⟨_, hsourceTy⟩, hsparse⟩,
    Program.typeOf_eq_ok.mpr ⟨_, getElem?_mono h.values hvalue⟩⟩

/-- The direct replacement of a value has the same type or is a handle. -/
theorem Walk.type_of_next? {v u : ValueId} {ty : Ty} (hv : state.program.typeOf v = .ok ty)
    (hnext : state.aliases.next? v = some u) :
    state.program.typeOf u = .ok ty ∨ state.program.typeOf u = .ok .ptr := by
  rcases h.next?_cases hnext with hstart | ⟨id, -, op, new, values, -, hresult, hvalue, hexpansion⟩
  · exact .inr (h.type_of_started hresigned hsource hstart).2
  · rcases hexpansion.value_type hresult hvalue with ⟨name, ty', -, hold, hnew⟩ | ⟨hptr, -⟩
    · obtain rfl := Except.ok.inj (hv.symm.trans hold)
      exact .inl hnew
    · exact .inr hptr

/-- What a value stands for has the same type or is a handle. -/
theorem Walk.type_of_resolve {v : ValueId} {ty : Ty} (hv : state.program.typeOf v = .ok ty) :
    state.program.typeOf (state.aliases.resolve v) = .ok ty ∨
      state.program.typeOf (state.aliases.resolve v) = .ok .ptr := by
  obtain ⟨n, w, hchain⟩ := h.acyclic v
  rw [hchain.resolve_eq]
  induction hchain generalizing ty with
  | stop _ => exact .inl hv
  | step hnext _ ih =>
    rcases h.type_of_next? hresigned hsource hv hnext with hsame | hptr
    · exact ih hsame
    · exact .inr (or_self_iff.mp (ih hptr))

/-- Arguments stand for the arguments that replaced them in the first phase. -/
theorem Walk.resolve_arg {i : Nat} {func : Func} {v : ValueId}
    (hfunc : source.funcs[i]? = some func) (hv : v ∈ func.args) :
    state.aliases.resolve v = start.aliases.resolve v := by
  have hnone : ∀ w, start.aliases.next? w = none →
      (∀ (o : Nat) (op : Operation), source.ops[o]? = some op → w ∉ op.results) →
      state.aliases.next? w = none := by
    intro w hw hnot
    cases hnext : state.aliases.next? w with
    | none => rfl
    | some u =>
      rcases h.keys w u hnext with hstart | ⟨id, -, op, hop, hresult⟩
      · simp [hw] at hstart
      · exact absurd hresult (hnot id.index op hop)
  obtain ⟨n, w, hchain⟩ := hresigned.acyclic v
  rw [hchain.resolve_eq]
  refine (hchain.persist h.started (hnone w hchain.next?_eq_none ?_)).resolve_eq
  intro o op hop hresult
  cases hnext : start.aliases.next? v with
  | none =>
    obtain rfl := (hchain.unique (.stop hnext)).2
    exact hsource.arg_notMem_results hfunc hv hop hresult
  | some u =>
    obtain ⟨j, k, func', ty, -, -, -, -, hfresh, -⟩ := hresigned.keys v u hnext
    obtain rfl := (hchain.unique (.step hnext (.stop (hresigned.fresh u hfresh)))).2
    have := hsource.result_lt hop hresult
    omega

end Final

/-! ### The result of a conversion -/

/-- Converting signatures keeps the names. -/
theorem name_resign (aliases : Renaming) (func : Func) :
    (resign handleTypes aliases func).name = func.name := by
  unfold resign
  split <;> rfl

/-- The phases that lead from a program to its lowered form. -/
structure Lowered (source : Program) (start state : Progress) (expand : OpId → List OpId)
    (target : Program) : Prop where
  resigned : Resigned handleTypes source start
  walk : Walk source start source.allOps expand state
  renamed : Renamed state.aliases (source.definedFuncs.flatMap state.program.blockOf) state.program
    target

/-- Every lowering of a program in which definitions precede uses goes through these phases. -/
theorem exists_lowered (hsource : source.Valid) (hssa : source.DefBeforeUse) {outcome : Outcome}
    (hrun : lower source = .ok outcome) : ∃ start state expand,
      Conversion.walk rules handleTypes source = .ok state ∧
      Lowered source start state expand outcome.program := by
  obtain ⟨state, renamed, reports, hwalk, hrename, -, rfl⟩ := run_eq_ok.mp hrun
  obtain ⟨start, expand, hresigned, hwalked⟩ := exists_walk hsource hssa hwalk
  exact ⟨start, state, expand, hwalk, hresigned, hwalked,
    renamed_of_forEach (hwalked.valid.nodup_blocks (nodup_definedFuncs source)) hrename⟩

section Lowered

variable {target : Program} (hsource : source.Valid) (h : Lowered source start state expand target)

include h

/-- The block of a function is expanded operation by operation. -/
theorem Lowered.blockOf {id : FuncId} (hid : id ∈ source.definedFuncs) :
    state.program.blockOf id = (source.blockOf id).flatMap expand := by
  obtain ⟨func, body, hfunc, hbody⟩ := exists_of_mem_definedFuncs hid
  have hnow := h.walk.func (h.resigned.func hfunc)
  simp [Program.blockOf, hnow, hfunc, Func.bodyOps, Func.expandBody, resign, Func.isDeclaration,
    hbody]

/-- An operation that was kept has been renamed. -/
theorem Lowered.kept_op {id : OpId} {op : Operation} (hid : id ∈ source.allOps)
    (hexpand : expand id = [id]) (hop : state.program.ops[id.index]? = some op) :
    target.ops[id.index]? = some { op with operands := op.operands.map state.aliases.resolve } := by
  have hblock : id ∈ source.definedFuncs.flatMap state.program.blockOf := by
    rw [← source.flatMap_blockOf] at hid
    obtain ⟨func, hfunc, hin⟩ := List.mem_flatMap.mp hid
    refine List.mem_flatMap.mpr ⟨func, hfunc, ?_⟩
    rw [h.blockOf hfunc]
    exact List.mem_flatMap.mpr ⟨id, hin, by simp [hexpand]⟩
  rw [h.renamed.ops, hop, Option.map_some]
  exact congrArg some (if_pos hblock)

/-- An operation that is erased has not been renamed. -/
theorem Lowered.erased_op {id : OpId} {op : Operation} (herased : op.erased = true)
    (hop : state.program.ops[id.index]? = some op) : target.ops[id.index]? = some op :=
  h.renamed.of_erased h.walk.valid hop herased

/-- An operation that was created has its final operands already. -/
theorem Lowered.created_op {o : Nat} {op : Operation} (ho : source.ops.length ≤ o)
    (hop : state.program.ops[o]? = some op) : target.ops[o]? = some op := by
  have hoperands : op.operands.map state.aliases.resolve = op.operands := by
    conv_rhs => rw [← List.map_id op.operands]
    exact List.map_congr_left fun v hv =>
      Renaming.resolve_of_next?_eq_none (h.walk.inserted o op ho hop v hv).2
  rw [h.renamed.ops, hop, Option.map_some, hoperands]
  exact congrArg some (ite_self _)

/-- Types are the same before and after the renaming. -/
theorem Lowered.typeOf (v : ValueId) : target.typeOf v = state.program.typeOf v := by
  simp [Program.typeOf, Program.value, h.renamed.values]

include hsource

/-- Functions have their signatures converted and their blocks expanded. -/
theorem Lowered.func {i : Nat} {func : Func} (hfunc : source.funcs[i]? = some func) :
    target.funcs[i]? = some ((resign handleTypes state.aliases func).expandBody expand) := by
  have hsame : resign handleTypes start.aliases func = resign handleTypes state.aliases func := by
    have hargs : func.args.map start.aliases.resolve = func.args.map state.aliases.resolve :=
      List.map_congr_left fun v hv => (h.walk.resolve_arg h.resigned hsource hfunc hv).symm
    rw [resign, resign, hargs]
  rw [h.renamed.funcs, h.walk.func (h.resigned.func hfunc), hsame]

/-- A function with a block keeps its name, and its arguments are renamed. -/
theorem Lowered.exists_func {i : Nat} {func : Func} {body : List OpId}
    (hfunc : source.funcs[i]? = some func) (hbody : func.body = some body) :
    ∃ func', target.funcs[i]? = some func' ∧ func'.name = func.name ∧
      func'.args = func.args.map state.aliases.resolve ∧
      func'.body = some (body.flatMap expand) := by
  refine ⟨_, h.func hsource hfunc, ?_⟩
  simp [Func.expandBody, resign, Func.isDeclaration, hbody]

omit hsource in
/-- Silent operands stay silent. -/
theorem Lowered.shows_silent {x : ValueId} (hshows : Shows state.program x .silent) :
    Shows target x .silent := by
  cases hshows with
  | argument hvalue => exact .argument (h.renamed.values ▸ hvalue)
  | @other ty id k op hvalue hop hkind =>
    have hop' := h.renamed.ops id.index
    rw [hop, Option.map_some] at hop'
    refine .other (h.renamed.values ▸ hvalue) hop' ?_
    split <;> exact hkind

/-- An operand that shows a handle shows in the end what the handle stands for. -/
theorem Lowered.shows_handle {x handle : ValueId} (hx : source.Settled source.allOps x)
    (hname : state.aliases.next? x = none) (hshows : Shows state.program x (.handle handle)) :
    Shows target x (.handle (state.aliases.resolve handle)) := by
  obtain _ | _ | _ | @⟨ty, id, k, op, name, _, hvalue, hop, hkind, hfirst, hty⟩ := hshows
  obtain ⟨op', hop', hresult⟩ := h.walk.valid.origins _ _ _ _ hvalue
  obtain rfl := Option.some.inj (hop.symm.trans hop')
  have hvalue' := h.renamed.values ▸ hvalue
  have hty' : target.typeOf (state.aliases.resolve handle) = .ok .ptr := by
    rw [h.typeOf]
    exact or_self_iff.mp (h.walk.type_of_resolve h.resigned hsource hty)
  rcases h.walk.producer_cases hop (List.mem_of_getElem? hresult) hx hname with
    hge | ⟨hid, -, hexpand⟩
  · have hnone := (h.walk.inserted id.index op hge hop handle (List.mem_of_mem_head? hfirst)).2
    rw [Renaming.resolve_of_next?_eq_none hnone] at hty' ⊢
    exact .handle hvalue' (h.created_op hge hop) hkind hfirst hty'
  · exact .handle hvalue' (h.kept_op hid hexpand hop) hkind (by simp [hfirst]) hty'

end Lowered

/-! ### What an operation has become -/

/-- What an operation has become under a substitution of values: it stays with its operands
substituted, or an expansion over its substituted operands takes its place. -/
inductive Became (source target : Program) (names : ValueId → ValueId) (id : OpId)
    (op : Operation) : List OpId → Prop
  | kept (hop : target.ops[id.index]? = some { op with operands := op.operands.map names })
      (hresults : ∀ r ∈ op.results, names r = r) : Became source target names id op [id]
  | replaced {ids : List OpId} (hop : target.ops[id.index]? = some { op with erased := true })
      (hids : ∀ other ∈ ids, source.ops.length ≤ other.index)
      (hexpansion : Expansion target op (op.operands.map names) (target.operations ids)
        (op.results.map names)) : Became source target names id op ids

/-- Every operation of a block is kept or replaced, under the final substitution. -/
theorem Lowered.became {target : Program} (hsource : source.Valid)
    (h : Lowered source start state expand target) {id : OpId} (hid : id ∈ source.allOps)
    {op : Operation} (hop : source.ops[id.index]? = some op) :
    Became source target state.aliases.resolve id op (expand id) := by
  obtain ⟨op', hop', hrecord⟩ := h.walk.records id hid
  obtain rfl := Option.some.inj (hop.symm.trans hop')
  generalize hexpand : expand id = ids at hrecord ⊢
  cases hrecord with
  | kept hkept _ hresults =>
    exact .kept (h.kept_op hid hexpand hkept) fun r hr =>
      Renaming.resolve_of_next?_eq_none (hresults r hr)
  | replaced herased hids hnew hexpansion hvalues =>
    rename_i new values
    have hresults : op.results.map state.aliases.resolve =
        values.map state.aliases.resolve := by
      refine List.forall₂_eq_eq_eq ▸ List.forall₂_map_left_iff.mpr (List.forall₂_map_right_iff.mpr ?_)
      exact hvalues.imp fun r v hnext => h.walk.acyclic.resolve_eq_of_next? hnext
    have hcreated : List.Forall₂ (fun other op => target.ops[other.index]? = some op) ids new :=
      ((List.forall₂_and_left ids _).mpr ⟨hids, hnew⟩).imp fun other op' hother =>
        h.created_op hother.1 hother.2
    have hoperations : target.operations ids = new := by
      clear hexpand hids hnew hexpansion
      induction hcreated with
      | nil => rfl
      | cons hfirst _ ih => rw [Program.operations_cons hfirst, ih]
    refine .replaced (h.erased_op rfl herased) hids ?_
    rw [hoperations, hresults]
    refine hexpansion.transfer (h.renamed.values ▸ List.prefix_rfl) (fun op' hop' v hv => ?_)
      fun handle hhandle => ?_
    · obtain ⟨other, hother, hop''⟩ := exists_of_forall₂ hnew.flip hop'
      exact Renaming.resolve_of_next?_eq_none
        (h.walk.next?_of_created h.resigned hsource (hids other hother) hop'' hv)
    · obtain ⟨hall, x, hx, hshows⟩ := commonHandle_eq_some.mp hhandle
      have hsettled : ∀ y ∈ op.operands.map state.aliases.resolve,
          source.Settled source.allOps y ∧ state.aliases.next? y = none := by
        intro y hy
        obtain ⟨z, hz, rfl⟩ := List.mem_map.mp hy
        exact ⟨h.walk.closed z (h.walk.reads id hid op hop z hz), h.walk.acyclic.next?_resolve z⟩
      have htransfer : ∀ y ∈ op.operands.map state.aliases.resolve, ∀ handle,
          Shows state.program y (.handle handle) →
            Shows target y (.handle (state.aliases.resolve handle)) := fun y hy handle hshows =>
        h.shows_handle hsource (hsettled y hy).1 (hsettled y hy).2 hshows
      refine commonHandle_eq_some.mpr ⟨fun y hy => ?_, x, hx, htransfer x hx handle hshows⟩
      exact (hall y hy).imp h.shows_silent (htransfer y hy handle)

/-- An operation that stands in its own place was declined under the final names. -/
theorem Lowered.declined {target : Program} (h : Lowered source start state expand target)
    {id : OpId} (hid : id ∈ source.allOps) {op : Operation}
    (hop : source.ops[id.index]? = some op) (hexpand : expand id = [id]) :
    Declined state.program op (op.operands.map state.aliases.resolve) := by
  obtain ⟨op', hop', hrecord⟩ := h.walk.records id hid
  obtain rfl := Option.some.inj (hop.symm.trans hop')
  generalize hids : expand id = ids at hrecord
  cases hrecord with
  | kept _ hdeclined => exact hdeclined
  | replaced _ hnew =>
    have := hnew id (by rw [← hids, hexpand]; exact List.mem_singleton_self id)
    have := (List.getElem?_eq_some_iff.mp hop).1
    omega

/-- The dataflow of a program is found in another one, under one substitution of values for all
functions: the renaming at the end of the walk, followed to the end of its chains. -/
structure KeepsDataflow (source target : Program) (state : Progress)
    (expand : OpId → List OpId) : Prop where
  walked : Conversion.walk rules handleTypes source = .ok state
  ends : ∀ v, state.aliases.next? (state.aliases.resolve v) = none
  /-- The substitution sends the arguments of every function with a block to its current arguments,
  and the block is expanded operation by operation. -/
  block : ∀ (i : Nat) (func : Func) (body : List OpId), source.funcs[i]? = some func →
    func.body = some body → ∃ func', target.funcs[i]? = some func' ∧
      func'.args = func.args.map state.aliases.resolve ∧ func'.body = some (body.flatMap expand)
  /-- An operation that stays has its operands substituted, its results fixed, and was declined. One
  that does not stay is replaced by the expansion for its kind over its substituted operands, and
  its result by the substituted one. -/
  place : ∀ id ∈ source.allOps, ∃ op, source.ops[id.index]? = some op ∧
    Became source target state.aliases.resolve id op (expand id) ∧
    (expand id = [id] → Declined state.program op (op.operands.map state.aliases.resolve))

/-- Dataflow is preserved, whether or not the lowering reports errors. -/
theorem lower_dataflow {program : Program} {outcome : Outcome} (hreach : program.Reachable)
    (hssa : program.DefBeforeUse) (hrun : lower program = .ok outcome) :
    ∃ state expand, KeepsDataflow program outcome.program state expand := by
  have hvalid := hreach.valid
  obtain ⟨start, state, expand, hwalk, hlowered⟩ := exists_lowered hvalid hssa hrun
  refine ⟨state, expand, hwalk, hlowered.walk.acyclic.next?_resolve,
    fun i func body hfunc hbody => ?_, fun id hid => ?_⟩
  · obtain ⟨func', hfunc', -, hargs, hbody'⟩ := hlowered.exists_func hvalid hfunc hbody
    exact ⟨func', hfunc', hargs, hbody'⟩
  · obtain ⟨op, hop, -⟩ := hvalid.live id hid
    exact ⟨op, hop, hlowered.became hvalid hid hop, hlowered.declined hid hop⟩

/-- A vector of doubles that stores its nonzero entries. -/
def sparseVector : Ty := .tensor [.dynamic] .f64 (some { levels := [.compressed] })

/-- A vector is taken apart and put together twice: first into a handle, which is passed to an
unknown reader, and then into a vector from what the reader returns. -/
def rebuilt : Program := .listed
  [{ name := "rebuild"
     argTypes := [sparseVector]
     resultTypes := [sparseVector]
     lines := some [
      { kind := .constant (.index 0), operands := [], types := [.index] },
      { kind := .toPointers, operands := [0, 1], types := [.memref [.dynamic] .index] },
      { kind := .toTensor, operands := [2], types := [.ptr] },
      { kind := .call "read", operands := [3], types := [.memref [.dynamic] .f64] },
      { kind := .toTensor, operands := [4], types := [sparseVector] },
      { kind := .ret, operands := [5] }] }]

/-- Both tensors are folded, the second one through a chain of two renamings. -/
theorem lower_dataflow_rebuilt : rebuilt.Reachable ∧ rebuilt.DefBeforeUse ∧
    ∃ outcome, lower rebuilt = .ok outcome ∧
      ∃ state expand, KeepsDataflow rebuilt outcome.program state expand := by
  have hssa : rebuilt.DefBeforeUse := by decide +kernel
  have hok : (lower rebuilt).isOk = true := by decide +kernel
  cases hrun : lower rebuilt with
  | error halt => simp [hrun, Except.isOk, Except.toBool] at hok
  | ok outcome =>
    exact ⟨Program.reachable_listed _, hssa, outcome, rfl,
      lower_dataflow (Program.reachable_listed _) hssa hrun⟩

end Lowering

end TensorLowering
