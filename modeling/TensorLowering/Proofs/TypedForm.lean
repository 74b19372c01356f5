import TensorLowering.Proofs.Dataflow

/-!
# Definitions still precede uses, with the right types

After a lowering every operand stands for something that is visible where it is used: a current
argument of the function, or a result of an earlier operation of the same block. The proof goes
through the original block from the front. What is visible there, substituted, is visible in the
expanded part; for a folded tensor this holds because the handle is an operand of a call that stands
in the part already covered. An operand that was redirected has the converted type, provided that
queries and put-together tensors have results of the types that go with them.
-/

namespace TensorLowering

namespace Lowering

open Conversion

variable {source target : Program} {start state : Progress} {expand : OpId → List OpId}

/-- An operand that shows a handle is the result of an operation with the handle among its
operands. -/
theorem Shows.producer (hvalid : target.Valid) {x handle : ValueId}
    (hshows : Shows target x (.handle handle)) : ∃ (id : OpId) (op : Operation),
      target.ops[id.index]? = some op ∧ x ∈ op.results ∧ handle ∈ op.operands := by
  obtain _ | _ | _ | @⟨ty, id, k, op, name, _, hvalue, hop, hkind, hfirst, hty⟩ := hshows
  obtain ⟨op', hop', hresult⟩ := hvalid.origins _ _ _ _ hvalue
  obtain rfl := Option.some.inj (hop.symm.trans hop')
  exact ⟨id, op, hop, List.mem_of_getElem? hresult, List.mem_of_mem_head? hfirst⟩

/-- A visible value that shows a handle makes the handle visible. -/
theorem Scoped.mem_of_shows (hvalid : target.Valid) {i : Nat} {func : Func} {ids : List OpId}
    (hfunc : target.funcs[i]? = some func) (hscoped : Scoped func.args (target.operations ids))
    {x handle : ValueId}
    (hx : x ∈ func.args ++ (target.operations ids).flatMap Operation.results)
    (hshows : Shows target x (.handle handle)) :
    handle ∈ func.args ++ (target.operations ids).flatMap Operation.results := by
  obtain ⟨id, op, hop, hresult, hhandle⟩ := hshows.producer hvalid
  rcases List.mem_append.mp hx with harg | hearlier
  · exact absurd hresult (hvalid.arg_notMem_results hfunc harg hop)
  · obtain ⟨op', hop', hresult'⟩ := List.mem_flatMap.mp hearlier
    obtain ⟨id', hid', hget⟩ := List.mem_filterMap.mp hop'
    have hsame := hvalid.result_unique hop hresult hget hresult'
    rw [← hsame, hop] at hget
    obtain rfl := Option.some.inj hget
    rcases hscoped.mem hop' hhandle with harg | ⟨other, hother, hv⟩
    · exact List.mem_append_left _ harg
    · exact List.mem_append_right _ (List.mem_flatMap.mpr ⟨other, hother, hv⟩)

/-- What takes the place of an operation is scoped if its substituted operands are visible, and it
makes the substituted results visible. -/
theorem Became.scoped {names : ValueId → ValueId} {id : OpId} {op : Operation} {ids : List OpId}
    {seen : List ValueId} (h : Became source target names id op ids)
    (hoperands : ∀ x ∈ op.operands.map names, x ∈ seen)
    (hhandle : ∀ x ∈ seen, ∀ handle, Shows target x (.handle handle) → handle ∈ seen) :
    Scoped seen (target.operations ids) ∧ ∀ r ∈ op.results,
      names r ∈ seen ++ (target.operations ids).flatMap Operation.results := by
  cases h with
  | kept hop hresults =>
    rw [Program.operations_cons hop]
    refine ⟨⟨hoperands, trivial⟩, fun r hr => ?_⟩
    rw [hresults r hr]
    exact List.mem_append_right _ (List.mem_flatMap.mpr ⟨_, List.mem_cons_self, hr⟩)
  | replaced _ _ hexpansion =>
    refine ⟨hexpansion.scoped.mono hoperands, fun r hr => ?_⟩
    rcases hexpansion.value_cases (List.mem_map_of_mem hr) with ⟨new, hnew, hv⟩ | ⟨-, x, hx, hshows⟩
    · exact List.mem_append_right _ (List.mem_flatMap.mpr ⟨new, hnew, hv⟩)
    · exact List.mem_append_left _ (hhandle x (hoperands x hx) _ hshows)

/-- The front part of a block, expanded, is scoped over the current arguments, and it makes visible
what the original front part did. -/
theorem Lowered.scoped_front (hsource : source.Valid) (htarget : target.Valid)
    (h : Lowered source start state expand target) {i : Nat} {func func' : Func}
    {body front back : List OpId} (hfunc : source.funcs[i]? = some func)
    (hbody : func.body = some body) (hssa : Scoped func.args (source.operations body))
    (hfunc' : target.funcs[i]? = some func')
    (hargs : func'.args = func.args.map state.aliases.resolve) (hsplit : body = front ++ back) :
    Scoped func'.args (target.operations (front.flatMap expand)) ∧
      ∀ v ∈ func.args ++ (source.operations front).flatMap Operation.results,
        state.aliases.resolve v ∈
          func'.args ++ (target.operations (front.flatMap expand)).flatMap Operation.results := by
  induction front using List.reverseRecOn generalizing back with
  | nil =>
    refine ⟨trivial, fun v hv => ?_⟩
    simp only [Program.operations, List.filterMap_nil, List.flatMap_nil, List.append_nil] at hv ⊢
    rw [hargs]
    exact List.mem_map_of_mem hv
  | append_singleton front id ih =>
    rw [List.append_assoc, List.singleton_append] at hsplit
    obtain ⟨hscoped, hvisible⟩ := ih hsplit
    have hall : id ∈ source.allOps :=
      Program.mem_allOps hfunc (by simp [Func.bodyOps, hbody, hsplit])
    obtain ⟨op, hop, -⟩ := hsource.live id hall
    rw [hsplit, Program.operations_append, Program.operations_cons hop, scoped_append] at hssa
    have hoperands : ∀ x ∈ op.operands.map state.aliases.resolve,
        x ∈ func'.args ++ (target.operations (front.flatMap expand)).flatMap Operation.results := by
      intro x hx
      obtain ⟨v, hv, rfl⟩ := List.mem_map.mp hx
      exact hvisible v (hssa.2.1 v hv)
    obtain ⟨hstep, hresults⟩ := (h.became hsource hall hop).scoped hoperands
      fun x hx handle hshows => Scoped.mem_of_shows htarget hfunc' hscoped hx hshows
    have hexpanded : target.operations ((front ++ [id]).flatMap expand) =
        target.operations (front.flatMap expand) ++ target.operations (expand id) := by
      rw [List.flatMap_append, List.flatMap_singleton, Program.operations_append]
    rw [hexpanded, List.flatMap_append, ← List.append_assoc]
    refine ⟨scoped_append.mpr ⟨hscoped, hstep⟩, fun v hv => ?_⟩
    rw [Program.operations_append, List.flatMap_append, ← List.append_assoc,
      Program.operations_cons hop] at hv
    rcases List.mem_append.mp hv with hearlier | hresult
    · exact List.mem_append_left _ (hvisible v hearlier)
    · exact hresults v (by simpa [Program.operations] using hresult)

/-- Definitions still precede uses after a lowering. -/
theorem Lowered.defBeforeUse (hsource : source.Valid) (hssa : source.DefBeforeUse)
    (htarget : target.Valid) (h : Lowered source start state expand target) :
    target.DefBeforeUse := by
  intro func' hfunc'
  obtain ⟨i, hi⟩ := List.mem_iff_getElem?.mp hfunc'
  obtain ⟨decls, hfuncs, hdecls⟩ := h.walk.funcs
  cases hfunc : source.funcs[i]? with
  | none =>
    -- Only declarations have been added.
    have hge : (start.program.funcs.map (Func.expandBody expand)).length ≤ i := by
      rw [h.resigned.funcs, List.length_map, List.length_map]
      exact List.getElem?_eq_none_iff.mp hfunc
    rw [h.renamed.funcs, hfuncs, List.getElem?_append_right hge] at hi
    obtain ⟨hbody, -⟩ := hdecls func' (List.mem_of_getElem? hi)
    simp [Func.bodyOps, hbody, Program.operations, Scoped]
  | some func =>
    have hnow := h.func hsource hfunc
    obtain rfl := Option.some.inj (hi.symm.trans hnow)
    cases hbody : func.body with
    | none => simp [Func.bodyOps, Func.expandBody, resign, Func.isDeclaration, hbody,
        Program.operations, Scoped]
    | some body =>
      have hblock := hssa func (List.mem_of_getElem? hfunc)
      simp only [Func.bodyOps, hbody, Option.getD_some] at hblock
      have hscoped := (h.scoped_front hsource htarget hfunc hbody hblock hnow
        (by simp [Func.expandBody, resign, Func.isDeclaration, hbody])
        (List.append_nil body).symm).1
      simpa [Func.bodyOps, Func.expandBody, resign, Func.isDeclaration, hbody] using hscoped

/-! ### Types under the substitution -/

/-- The result types that go with a kind of operation: sparse tensors or handles for tensors that
are put together, buffers for arrays, and indices for extents. -/
def fits : OpKind → Ty → Bool
  | .toTensor, ty => ty.isSparse || ty.isPtr
  | .toPointers, ty | .toIndices, ty | .toValues, ty =>
    match ty with
    | .memref _ _ | .unranked _ => true
    | _ => false
  | .tensorDim, ty => ty == .index
  | _, _ => true

/-- The results of the operations in blocks have types that go with them. -/
def ResultsFit (program : Program) : Prop :=
  ∀ op ∈ program.operations program.allOps, ∀ r ∈ op.results,
    ∀ value ∈ program.values[r.index]?, fits op.kind value.ty = true

instance : DecidablePred ResultsFit := fun program =>
  inferInstanceAs (Decidable (∀ op ∈ program.operations program.allOps, ∀ r ∈ op.results,
    ∀ value ∈ program.values[r.index]?, fits op.kind value.ty = true))

/-- The answer to a query has a type that is not converted. -/
theorem Query.convert_of_fits {program : Program} {operands : List ValueId} {ty : Ty}
    {kind : OpKind} {name : String} (h : Query program operands ty kind name)
    (hfits : fits kind ty = true) : handleTypes.convert ty = ty := by
  rw [handleTypes_convert]
  cases h with
  | dim =>
    obtain rfl : ty = .index := by simpa [fits] using hfits
    rfl
  | read haccessor =>
    cases kind <;> simp [arrayAccessor?] at haccessor <;> cases ty <;> simp [fits] at hfits <;> rfl

/-- A tensor that is put together has a type that becomes the handle type. -/
theorem convert_of_fits_toTensor {ty : Ty} (hfits : fits .toTensor ty = true) :
    handleTypes.convert ty = .ptr := by
  rw [handleTypes_convert]
  cases ty <;> simp_all [fits, Ty.isPtr, Ty.isSparse, Ty.sparsity?]

section Types

variable (hsource : source.Valid) (hfit : ResultsFit source)
  (h : Lowered source start state expand target)

include hsource hfit h

/-- The direct replacement of a value has the converted type. -/
theorem Lowered.typeOf_next? {v u : ValueId} (hnext : state.aliases.next? v = some u) :
    ∃ ty, source.typeOf v = .ok ty ∧ state.program.typeOf u = .ok (handleTypes.convert ty) := by
  rcases h.walk.next?_cases hnext with
    hstart | ⟨id, hid, op, new, values, hop, hresult, hvalue, hexpansion⟩
  · obtain ⟨⟨ty, hty, hsparse⟩, hu⟩ := h.walk.type_of_started h.resigned hsource hstart
    exact ⟨ty, hty, by rw [handleTypes_convert, if_pos hsparse, hu]⟩
  · obtain ⟨k, hk⟩ := List.mem_iff_getElem?.mp hresult
    obtain ⟨ty, hty⟩ := hsource.results id.index k op v hop hk
    have hfits : fits op.kind ty = true :=
      hfit op (List.mem_filterMap.mpr ⟨id, hid, hop⟩) v hresult _ hty
    have htype : source.typeOf v = .ok ty := Program.typeOf_eq_ok.mpr ⟨_, hty⟩
    have hold := Program.typeOf_mono (h.resigned.values.trans h.walk.values) htype
    refine ⟨ty, htype, ?_⟩
    rcases hexpansion.value_type hresult hvalue with
      ⟨name, ty', hquery, hold', hnew⟩ | ⟨hptr, hkind | ⟨ty', hold', hsparse⟩⟩
    · obtain rfl := Except.ok.inj (hold.symm.trans hold')
      rw [hquery.convert_of_fits hfits, hnew]
    · rw [convert_of_fits_toTensor (hkind ▸ hfits), hptr]
    · obtain rfl := Except.ok.inj (hold.symm.trans hold')
      rw [handleTypes_convert, if_pos hsparse, hptr]

/-- A value that stands for another one has a type, and the other one the converted type. -/
theorem Lowered.typeOf_resolve {v : ValueId} (hne : state.aliases.resolve v ≠ v) :
    ∃ ty, source.typeOf v = .ok ty ∧
      state.program.typeOf (state.aliases.resolve v) = .ok (handleTypes.convert ty) := by
  obtain ⟨n, w, hchain⟩ := h.walk.acyclic v
  rw [hchain.resolve_eq] at hne ⊢
  induction hchain with
  | stop _ => exact absurd rfl hne
  | @step n v u w hnext hrest ih =>
    obtain ⟨ty, hv, hu⟩ := h.typeOf_next? hsource hfit hnext
    refine ⟨ty, hv, ?_⟩
    by_cases heq : w = u
    · rw [heq, hu]
    · obtain ⟨ty', hu', hw⟩ := ih heq
      have hnow := Program.typeOf_mono (h.resigned.values.trans h.walk.values) hu'
      obtain rfl := Except.ok.inj (hu.symm.trans hnow)
      rw [hw, convert_convert]

end Types

/-! ### Where a value may be used -/

/-- A value may be used in a function after the given operations: it is a current argument of the
function or a result of one of the operations, which is not erased. All other origins are excluded:
operations elsewhere, erased operations and arguments of other functions. -/
structure Visible (program : Program) (func : Func) (earlier : List OpId) (v : ValueId) : Prop where
  origin : v ∈ func.args ∨ ∃ id ∈ earlier, ∃ op, program.ops[id.index]? = some op ∧
    op.erased = false ∧ v ∈ op.results
  results : ∀ (id : OpId) (op : Operation), program.ops[id.index]? = some op → v ∈ op.results →
    id ∈ earlier ∧ op.erased = false
  args : ∀ other ∈ program.funcs, v ∈ other.args → other = func

/-- In a valid program whose definitions precede uses, operands are visible where they are used. -/
theorem visible_of_defBeforeUse {program : Program} (hvalid : program.Valid)
    (hssa : program.DefBeforeUse) {func : Func} (hfunc : func ∈ program.funcs)
    {earlier later : List OpId} {id : OpId} (hbody : func.bodyOps = earlier ++ id :: later)
    {op : Operation} (hop : program.ops[id.index]? = some op) {v : ValueId}
    (hv : v ∈ op.operands) : Visible program func earlier v := by
  obtain ⟨i, hi⟩ := List.mem_iff_getElem?.mp hfunc
  have hscoped := hssa func hfunc
  rw [hbody, Program.operations_append, Program.operations_cons hop, scoped_append] at hscoped
  rcases List.mem_append.mp (hscoped.2.1 v hv) with harg | hresult
  · refine ⟨.inl harg, fun id' op' hop' hv' => ?_, fun other hother hv' => ?_⟩
    · exact absurd hv' (hvalid.arg_notMem_results hi harg hop')
    · obtain ⟨j, hj⟩ := List.mem_iff_getElem?.mp hother
      obtain ⟨k, hk⟩ := List.mem_iff_getElem?.mp harg
      obtain ⟨k', hk'⟩ := List.mem_iff_getElem?.mp hv'
      obtain ⟨ty, -, hvalue⟩ := hvalid.arg_value hi hk
      obtain ⟨ty', -, hvalue'⟩ := hvalid.arg_value hj hk'
      obtain rfl : i = j := (by simpa using hvalue.symm.trans hvalue' : _ ∧ i = j ∧ _).2.1
      exact Option.some.inj (hj.symm.trans hi)
  · obtain ⟨built, hbuilt, hv'⟩ := List.mem_flatMap.mp hresult
    obtain ⟨id', hid', hget⟩ := List.mem_filterMap.mp hbuilt
    have hlive : built.erased = false := by
      obtain ⟨built', hget', hlive⟩ := hvalid.live id' (Program.mem_allOps hi (by simp [hbody, hid']))
      obtain rfl := Option.some.inj (hget.symm.trans hget')
      exact hlive
    refine ⟨.inr ⟨id', hid', built, hget, hlive, hv'⟩, fun other op' hop' hother => ?_, ?_⟩
    · obtain rfl : id' = other := by
        cases id'
        cases other
        exact congrArg OpId.mk (hvalid.result_unique hget hv' hop' hother)
      obtain rfl := Option.some.inj (hget.symm.trans hop')
      exact ⟨hid', hlive⟩
    · intro other hother harg
      obtain ⟨j, hj⟩ := List.mem_iff_getElem?.mp hother
      exact absurd hv' (hvalid.arg_notMem_results hj harg hget)

/-- An original argument is an argument still if it is visible anywhere. -/
theorem Lowered.arg_of_visible (hsource : source.Valid) (htarget : target.Valid)
    (h : Lowered source start state expand target) {old func : Func} {earlier : List OpId}
    {v : ValueId} (hold : old ∈ source.funcs) (hv : v ∈ old.args)
    (hvisible : Visible target func earlier v) : v ∈ func.args := by
  rcases hvisible.origin with harg | ⟨id, -, op, hop, -, hresult⟩
  · exact harg
  · obtain ⟨i, hi⟩ := List.mem_iff_getElem?.mp hold
    obtain ⟨k, hk⟩ := List.mem_iff_getElem?.mp hv
    obtain ⟨ty, -, hvalue⟩ := hsource.arg_value hi hk
    obtain ⟨k', hk'⟩ := List.mem_iff_getElem?.mp hresult
    obtain ⟨ty', hvalue'⟩ := htarget.results id.index k' op v hop hk'
    rw [h.renamed.values, getElem?_mono (h.resigned.values.trans h.walk.values) hvalue] at hvalue'
    simp at hvalue'

/-- One program is in typed definition-before-use form relative to another one that it comes from. -/
structure TypedForm (program after : Program) : Prop where
  /-- Wherever an operation stands it is not erased, and each operand is visible there and not an
  argument that has been superseded. -/
  operands : ∀ func ∈ after.funcs, ∀ earlier id later, func.bodyOps = earlier ++ id :: later →
    ∃ op, after.ops[id.index]? = some op ∧ op.erased = false ∧
      ∀ v ∈ op.operands, Visible after func earlier v ∧
        ∀ old ∈ program.funcs, v ∈ old.args → v ∈ func.args
  /-- An operation that survives keeps the number of its operands, and one that was redirected has
  the converted type of what stood there. -/
  redirected : ∀ id ∈ program.allOps, ∀ op op', program.ops[id.index]? = some op →
    after.ops[id.index]? = some op' → op'.erased = false →
    op'.operands.length = op.operands.length ∧
    ∀ (k : Nat) (v v' : ValueId), op.operands[k]? = some v → op'.operands[k]? = some v' → v' ≠ v →
      ∃ ty, program.typeOf v = .ok ty ∧ after.typeOf v' = .ok (handleTypes.convert ty)

/-- A lowering keeps typed definition-before-use form, whether or not it reports errors. -/
theorem lower_typed_form {program : Program} {outcome : Outcome} (hreach : program.Reachable)
    (hssa : program.DefBeforeUse) (hfit : ResultsFit program)
    (hrun : lower program = .ok outcome) : TypedForm program outcome.program := by
  have hvalid := hreach.valid
  have htarget : outcome.program.Valid := (Program.Reachable.convert hreach hrun).valid
  obtain ⟨start, state, expand, -, hlowered⟩ := exists_lowered hvalid hssa hrun
  have hordered := hlowered.defBeforeUse hvalid hssa htarget
  refine ⟨fun func hfunc earlier id later hbody => ?_, fun id hid op op' hop hop' hlive => ?_⟩
  · obtain ⟨i, hi⟩ := List.mem_iff_getElem?.mp hfunc
    obtain ⟨op, hop, hlive⟩ := htarget.live id (Program.mem_allOps hi (by simp [hbody]))
    refine ⟨op, hop, hlive, fun v hv => ?_⟩
    have hvisible := visible_of_defBeforeUse htarget hordered hfunc hbody hop hv
    exact ⟨hvisible, fun old hold harg => hlowered.arg_of_visible hvalid htarget hold harg hvisible⟩
  · have hbecame := hlowered.became hvalid hid hop
    generalize expand id = ids at hbecame
    cases hbecame with
    | replaced herased =>
      obtain rfl := Option.some.inj (hop'.symm.trans herased)
      simp at hlive
    | kept hkept =>
      obtain rfl := Option.some.inj (hop'.symm.trans hkept)
      refine ⟨by simp, fun k v v' hv hv' hne => ?_⟩
      obtain rfl : state.aliases.resolve v = v' := by simpa [hv] using hv'
      obtain ⟨ty, hty, hty'⟩ := hlowered.typeOf_resolve hvalid hfit hne
      exact ⟨ty, hty, by rw [hlowered.typeOf, hty']⟩

/-- A vector is taken apart and put together again; then its extent is asked, it is passed to an
unknown function, and it is converted to the format it has already, which is an error. -/
def reformatted : Program := .listed
  [{ name := "reformat"
     argTypes := [sparseVector]
     resultTypes := [sparseVector]
     lines := some [
      { kind := .constant (.index 0), operands := [], types := [.index] },
      { kind := .toPointers, operands := [0, 1], types := [.memref [.dynamic] .index] },
      { kind := .toTensor, operands := [2], types := [sparseVector] },
      { kind := .tensorDim, operands := [3, 1], types := [.index] },
      { kind := .call "keep", operands := [3, 4], types := [sparseVector] },
      { kind := .sparseConvert, operands := [3], types := [sparseVector] },
      { kind := .ret, operands := [6] }] }]

/-- The call and the conversion survive with the handle in the place of the vector. -/
theorem lower_typed_form_reformatted : reformatted.Reachable ∧ reformatted.DefBeforeUse ∧
    ResultsFit reformatted ∧ ∃ outcome, lower reformatted = .ok outcome ∧
      TypedForm reformatted outcome.program := by
  have hreach : reformatted.Reachable := Program.reachable_listed _
  have hssa : reformatted.DefBeforeUse := by decide +kernel
  have hfit : ResultsFit reformatted := by decide +kernel
  have hok : (lower reformatted).isOk = true := by decide +kernel
  cases hrun : lower reformatted with
  | error halt => simp [hrun, Except.isOk, Except.toBool] at hok
  | ok outcome => exact ⟨hreach, hssa, hfit, outcome, rfl, lower_typed_form hreach hssa hfit hrun⟩

end Lowering

end TensorLowering
