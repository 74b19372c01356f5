import TensorLowering.Proofs.Acceptance
import TensorLowering.Proofs.CallAgreement

/-!
# Sparse tensors vanish

The reports of a run look at returns, at extents and at the vocabulary of operations only. They are
nevertheless enough: if sparse tensors come from arguments and from the operations that make them,
a run that reports nothing leaves no sparse tensor behind, neither in a signature nor among the
operands and results of any operation. For the operands this is a statement about the types that
values are lowered to; for the results it is read off the expansions.
-/

namespace TensorLowering

/-- The value is a sparse tensor. -/
def Program.isSparse (program : Program) (v : ValueId) : Bool :=
  program.values[v.index]?.any fun value => value.ty.isSparse

/-- The value has a type, which is not that of a sparse tensor. -/
def Program.NotSparse (program : Program) (v : ValueId) : Prop :=
  ∃ ty, program.typeOf v = .ok ty ∧ ty.isSparse = false

namespace Lowering

open Conversion

/-- The operations that make no tensor have no sparse tensors as results. -/
def SparseResultsMade (program : Program) : Prop :=
  ∀ op ∈ program.operations program.allOps, makesTensor op.kind = false →
    ∀ v ∈ op.results, program.isSparse v = false

instance : DecidablePred SparseResultsMade := fun program =>
  inferInstanceAs (Decidable (∀ op ∈ program.operations program.allOps,
    makesTensor op.kind = false → ∀ v ∈ op.results, program.isSparse v = false))

/-- No signature of a function with a block mentions a sparse tensor, and no operation of a block is
one on sparse tensors or has one among its operands and results. -/
structure SparseFree (program : Program) : Prop where
  signatures : ∀ func ∈ program.funcs, func.isDeclaration = false →
    ∀ ty ∈ func.argTypes ++ func.resultTypes, ty.isSparse = false
  operations : ∀ op ∈ program.operations program.allOps, op.kind.dialect ≠ .sparseTensor
  values : ∀ op ∈ program.operations program.allOps, ∀ v ∈ op.operands ++ op.results,
    program.NotSparse v

/-- The operations that ask something of their first operand. -/
def asksTensor : OpKind → Bool
  | .tensorDim | .toPointers | .toIndices | .toValues => true
  | _ => false

/-- A single call of an entry point with the given operands, the first of which is a handle. -/
def HandleCall (program : Program) (operands : List ValueId) (ids : List OpId) : Prop :=
  ∃ id op name handle, ids = [id] ∧ program.ops[id.index]? = some op ∧ op.kind = .call name ∧
    name ∈ entryNames ∧ op.operands = operands ∧ operands[0]? = some handle ∧
    program.typeOf handle = .ok .ptr

variable {program : Program} {op : Operation} {v : ValueId} {ty : Ty}

/-- A value of a sparse type is a sparse tensor. -/
theorem isSparse_of_typeOf (hty : program.typeOf v = .ok ty) : program.isSparse v = ty.isSparse := by
  obtain ⟨origin, hvalue⟩ := Program.typeOf_eq_ok.mp hty
  simp [Program.isSparse, hvalue]

/-! ### Values of the source -/

section Source

variable (hvalid : program.Valid) (hmade : SparseResultsMade program) {id : OpId}
  (hid : id ∈ program.allOps) (hop : program.ops[id.index]? = some op)

include hvalid hmade hid hop

/-- Results in a block do not stay sparse. -/
theorem not_staysSparse_of_result (hv : v ∈ op.results) : ¬StaysSparse program v := by
  rintro ⟨ty, other, k, built, hvalue, hbuilt, hsparse, hmakes⟩
  obtain ⟨i, hi⟩ := List.mem_iff_getElem?.mp hv
  obtain ⟨ty', hvalue'⟩ := hvalid.results id.index i op v hop hi
  obtain ⟨rfl, rfl, -⟩ : ty = ty' ∧ other = id ∧ k = i := by simpa [hvalue] using hvalue'
  obtain rfl := Option.some.inj (hbuilt.symm.trans hop)
  have hdense := hmade built (List.mem_filterMap.mpr ⟨other, hid, hop⟩) hmakes v hv
  simp [Program.isSparse, hvalue, hsparse] at hdense

/-- Operands in a block do not stay sparse. -/
theorem not_staysSparse_of_operand (hssa : program.DefBeforeUse) (hv : v ∈ op.operands) :
    ¬StaysSparse program v := by
  obtain ⟨func, hfunc, hbody⟩ := List.mem_flatMap.mp hid
  obtain ⟨earlier, later, hsplit⟩ := List.append_of_mem hbody
  obtain ⟨i, hi⟩ := List.mem_iff_getElem?.mp hfunc
  rcases (visible_of_defBeforeUse hvalid hssa hfunc hsplit hop hv).origin with
    harg | ⟨other, hother, built, hbuilt, -, hresult⟩
  · obtain ⟨k, hk⟩ := List.mem_iff_getElem?.mp harg
    obtain ⟨ty, -, hvalue⟩ := hvalid.arg_value hi hk
    simp [StaysSparse, hvalue]
  · have hin : other ∈ program.allOps := Program.mem_allOps hi (by simp [hsplit, hother])
    exact not_staysSparse_of_result hvalid hmade hin hbuilt hresult

end Source

/-! ### Values of an expansion -/

/-- Emitted operations come from their items. -/
theorem mem_emitted {span : Span} {first : Nat} {items : List Item}
    (h : op ∈ emitted span first items) :
    ∃ i item, items[i]? = some item ∧ op.results = [⟨first + i⟩] := by
  induction items generalizing first with
  | nil => simp [emitted] at h
  | cons item rest ih =>
    rcases List.mem_cons.mp h with rfl | hrest
    · exact ⟨0, item, rfl, rfl⟩
    · obtain ⟨i, other, hother, hresults⟩ := ih hrest
      exact ⟨i + 1, other, hother, by rw [hresults, Nat.add_assoc, Nat.add_comm 1]⟩

/-- The results of emitted items have the types of the items. -/
theorem notSparse_of_emitted {span : Span} {first : Nat} {items : List Item}
    (hcarries : program.Carries first items) (hitems : ∀ item ∈ items, item.ty.isSparse = false)
    (hop : op ∈ emitted span first items) (hv : v ∈ op.results) : program.NotSparse v := by
  obtain ⟨i, item, hitem, hresults⟩ := mem_emitted hop
  obtain rfl : v = ⟨first + i⟩ := by simpa [hresults] using hv
  exact ⟨item.ty, hcarries i item hitem, hitems item (List.mem_of_getElem? hitem)⟩

/-- The results of the operations that make a tensor are not sparse. -/
theorem notSparse_of_creation {span : Span} {block : TensorBlock} {first : Nat}
    {source handle : ValueId} (hcreated : Created program block first handle)
    (hop : op ∈ creation span block first source handle) (hv : v ∈ op.results) :
    program.NotSparse v := by
  rcases List.mem_append.mp hop with hitem | hcall
  · refine notSparse_of_emitted hcreated.1 ?_ hitem hv
    simp [TensorBlock.items, EntryPoint.anyVector, Ty.dense, Ty.isSparse, Ty.sparsity?]
  · obtain rfl := List.mem_singleton.mp hcall
    obtain rfl := List.mem_singleton.mp hv
    exact ⟨.ptr, hcreated.2, rfl⟩

/-- The results of an expansion are not sparse, unless they answer a query for a sparse tensor. -/
theorem Expansion.notSparse_result {root : Operation} {operands values : List ValueId}
    {new : List Operation} (h : Expansion program root operands new values)
    (hroot : makesTensor root.kind = false → ∀ r ∈ root.results, program.isSparse r = false)
    (hop : op ∈ new) (hv : v ∈ op.results) : program.NotSparse v := by
  cases h with
  | ret =>
    obtain rfl := List.mem_singleton.mp hop
    simp at hv
  | query hresults hold hquery hnew =>
    obtain rfl := List.mem_singleton.mp hop
    obtain rfl := List.mem_singleton.mp hv
    have hdense := hroot hquery.makesTensor _ (by rw [hresults]; exact List.mem_singleton_self _)
    exact ⟨_, hnew, by rwa [isSparse_of_typeOf hold] at hdense⟩
  | construct _ _ _ hcreated => exact notSparse_of_creation hcreated hop hv
  | convert _ _ _ _ _ _ _ _ _ hview hpointer hcreated =>
    rcases List.mem_append.mp hop with hexposure | hcreation
    · rcases List.mem_append.mp hexposure with hitem | hcall
      · refine notSparse_of_emitted hview ?_ hitem hv
        simp [viewItems, Ty.isSparse, Ty.sparsity?]
      · obtain rfl := List.mem_singleton.mp hcall
        obtain rfl := List.mem_singleton.mp hv
        exact ⟨.ptr, hpointer, rfl⟩
    · exact notSparse_of_creation hcreated hcreation hv
  | fold => simp at hop

/-- What asks something expands into one call of an entry point. -/
theorem Expansion.of_asksTensor {root : Operation} {operands values : List ValueId}
    {new : List Operation} (h : Expansion program root operands new values)
    (hkind : asksTensor root.kind = true) :
    ∃ name result, name ∈ entryNames ∧ new = [callOp name operands result root.span] := by
  cases h with
  | ret hret => simp [hret, asksTensor] at hkind
  | query _ _ hquery =>
    refine ⟨_, _, ?_, rfl⟩
    generalize root.kind = kind at hquery
    cases hquery with
    | dim => decide +kernel
    | read harray hname =>
      obtain ⟨element, -, hname⟩ := Option.bind_eq_some_iff.mp hname
      exact mem_entryNames_of_array harray hname
  | construct hnew => simp [hnew, asksTensor] at hkind
  | convert hconvert => simp [hconvert, asksTensor] at hkind
  | fold hfold => simp [hfold, asksTensor] at hkind

/-! ### The lowered program -/

/-- Ids that stand for one operation are one id. -/
theorem exists_of_operations_eq_singleton {ids : List OpId}
    (hlive : ∀ id ∈ ids, ∃ op', program.ops[id.index]? = some op')
    (h : program.operations ids = [op]) : ∃ id, ids = [id] ∧ program.ops[id.index]? = some op := by
  cases ids with
  | nil => simp [Program.operations] at h
  | cons id rest =>
    obtain ⟨first, hfirst⟩ := hlive id List.mem_cons_self
    rw [Program.operations_cons hfirst, List.cons.injEq] at h
    obtain ⟨rfl, hrest⟩ := h
    cases rest with
    | nil => exact ⟨id, rfl, hfirst⟩
    | cons other rest =>
      obtain ⟨second, hsecond⟩ := hlive other (by simp)
      simp [Program.operations_cons hsecond] at hrest

/-- Functions with a block have converted signatures. -/
theorem Lowered.signature_notSparse {source target : Program} {start state : Progress}
    {expand : OpId → List OpId} (hsource : source.Valid)
    (h : Lowered source start state expand target) {func : Func} (hfunc : func ∈ target.funcs)
    (hdefined : func.isDeclaration = false) (hty : ty ∈ func.argTypes ++ func.resultTypes) :
    ty.isSparse = false := by
  obtain ⟨decls, hfuncs, hdecls⟩ := h.funcs hsource
  rw [hfuncs] at hfunc
  rcases List.mem_append.mp hfunc with hold | hnew
  · obtain ⟨original, -, rfl⟩ := List.mem_map.mp hold
    have hbody : original.isDeclaration = false := by
      cases hbody : original.body <;>
        simp_all [Func.isDeclaration, Func.expandBody, resign]
    simp only [Func.expandBody, resign, hbody, Bool.false_eq_true, ↓reduceIte,
      ← List.map_append] at hty
    obtain ⟨old, -, rfl⟩ := List.mem_map.mp hty
    exact isSparse_convert old
  · simp [Func.isDeclaration, (hdecls func hnew).1] at hdefined

section Lowered

variable {source target : Program} {start state : Progress} {expand : OpId → List OpId}
  (hsource : source.Valid) (hssa : source.DefBeforeUse) (htarget : target.Valid)
  (h : Lowered source start state expand target) (hclean : rejections target target.allOps = [])
  (hmade : SparseResultsMade source) {id : OpId} (hid : id ∈ source.allOps)
  (hop : source.ops[id.index]? = some op)

include hsource hssa htarget h hclean hmade hid hop

/-- What stands for an operand is not a sparse tensor. -/
theorem Lowered.notSparse_operand (hv : v ∈ op.operands) :
    target.NotSparse (state.aliases.resolve v) := by
  obtain ⟨ty, hlowered, hty⟩ :=
    h.typeOf_operand hsource (h.tensorsMade hsource hclean) hssa htarget hid hop hv
  have hnot := not_staysSparse_of_operand hsource hmade hid hop hssa hv
  rw [← isSparse_of_loweredType hlowered, Bool.not_eq_true] at hnot
  exact ⟨ty, hty, hnot⟩

/-- What stands for a sparse operand is a handle. -/
theorem Lowered.typeOf_sparse_operand (hv : v ∈ op.operands) (hsparse : source.isSparse v = true) :
    target.typeOf (state.aliases.resolve v) = .ok .ptr := by
  obtain ⟨ty, hty⟩ := exists_typeOf_operand hsource hssa hid hop hv
  rcases h.type_of_resolve hsource hty with hsame | hptr
  · obtain ⟨ty', hty', hdense⟩ := h.notSparse_operand hsource hssa htarget hclean hmade hid hop hv
    obtain rfl := Except.ok.inj (hsame.symm.trans hty')
    rw [isSparse_of_typeOf hty, hdense] at hsparse
    simp at hsparse
  · exact hptr

/-- Whatever stands in the place of an operation is no operation on sparse tensors and has none
among its operands and results. -/
theorem Lowered.notSparse_place {op' : Operation} (hop' : op' ∈ target.operations (expand id)) :
    op'.kind.dialect ≠ .sparseTensor ∧ ∀ v ∈ op'.operands ++ op'.results, target.NotSparse v := by
  have hoperand := fun v hv =>
    h.notSparse_operand hsource hssa htarget hclean hmade hid hop (v := v) hv
  have hbecame := h.became hsource hid hop
  generalize hexpand : expand id = ids at hbecame hop'
  cases hbecame with
  | kept hnow hresults =>
    rw [Program.operations_cons hnow] at hop'
    obtain rfl := List.mem_singleton.mp hop'
    refine ⟨h.kept_dialect hsource hclean hid hexpand hnow, fun v hv => ?_⟩
    rcases List.mem_append.mp hv with hv | hv
    · obtain ⟨x, hx, rfl⟩ := List.mem_map.mp hv
      exact hoperand x hx
    · obtain ⟨ty, hlowered, hty⟩ :=
        h.typeOf_result hsource (h.tensorsMade hsource hclean) hid hop hv
      have hnot := not_staysSparse_of_result hsource hmade hid hop hv
      rw [← isSparse_of_loweredType hlowered, Bool.not_eq_true] at hnot
      exact ⟨ty, by rwa [hresults v hv] at hty, hnot⟩
  | replaced _ _ hexpansion =>
    have hresult {other : Operation} {v : ValueId} (hother : other ∈ target.operations ids)
        (hv : v ∈ other.results) : target.NotSparse v := by
      refine hexpansion.notSparse_result (fun hmakes r hr => ?_) hother hv
      obtain ⟨k, hk⟩ := List.mem_iff_getElem?.mp hr
      obtain ⟨ty, hvalue⟩ := hsource.results id.index k op r hop hk
      have hdense := hmade op (List.mem_filterMap.mpr ⟨id, hid, hop⟩) hmakes r hr
      have hty : source.typeOf r = .ok ty := Program.typeOf_eq_ok.mpr ⟨_, hvalue⟩
      have hnow : target.typeOf r = .ok ty := by
        rw [h.typeOf]
        exact Program.typeOf_mono (h.resigned.values.trans h.walk.values) hty
      rwa [isSparse_of_typeOf hnow, ← isSparse_of_typeOf hty]
    refine ⟨fun hsparse => ?_, fun v hv => ?_⟩
    · rcases hexpansion.ret_or_plain with ⟨-, -, new, hnew, hkind, -⟩ | ⟨-, hplain⟩
      · rw [hnew, List.mem_singleton] at hop'
        simp [hop', hkind, OpKind.dialect] at hsparse
      · have hnone := hplain op' hop'
        cases hkind : op'.kind <;> simp_all [OpKind.dialect, ruleFor]
    · rcases List.mem_append.mp hv with hv | hv
      · rcases hexpansion.scoped.mem hop' hv with hseen | ⟨other, hother, hv⟩
        · obtain ⟨x, hx, rfl⟩ := List.mem_map.mp hseen
          exact hoperand x hx
        · exact hresult hother hv
      · exact hresult hop' hv

/-- What asks something of a sparse tensor has become a call on a handle. -/
theorem Lowered.handleCall (hkind : asksTensor op.kind = true) (hv : op.operands[0]? = some v)
    (hsparse : source.isSparse v = true) :
    HandleCall target (op.operands.map state.aliases.resolve) (expand id) := by
  have hptr := h.typeOf_sparse_operand hsource hssa htarget hclean hmade hid hop
    (List.mem_of_getElem? hv) hsparse
  have hbecame := h.became hsource hid hop
  have hkept := h.declined hid hop
  have hlive : ∀ other ∈ expand id, ∃ op', target.ops[other.index]? = some op' := by
    intro other hother
    have hin : other ∈ target.allOps := by
      rw [h.allOps hsource]
      exact List.mem_flatMap.mpr ⟨id, hid, hother⟩
    obtain ⟨op', hop', -⟩ := htarget.live other hin
    exact ⟨op', hop'⟩
  generalize hexpand : expand id = ids at hbecame hkept hlive ⊢
  cases hbecame with
  | kept hnow =>
    -- An operation on sparse tensors is rejected, and the extent of a handle is not declined.
    have hdialect := h.kept_dialect hsource hclean hid hexpand hnow
    have hdim : op.kind = .tensorDim := by
      cases hcase : op.kind <;> simp_all [asksTensor, OpKind.dialect]
    have hdeclined := hkept rfl
    simp only [Declined, hdim, List.getElem?_map, hv] at hdeclined
    obtain ⟨tensor, ty, htensor, hty, hnot⟩ := hdeclined
    obtain rfl := Option.some.inj htensor
    rw [← h.typeOf, hptr] at hty
    simp [← Except.ok.inj hty, Ty.isPtr] at hnot
  | replaced _ _ hexpansion =>
    obtain ⟨name, result, hname, hnew⟩ := hexpansion.of_asksTensor hkind
    obtain ⟨other, rfl, hother⟩ := exists_of_operations_eq_singleton hlive hnew
    exact ⟨other, _, name, state.aliases.resolve v, rfl, hother, rfl, hname, rfl, by simp [hv], hptr⟩

end Lowered

/-- What asked something of a sparse tensor asks it of a handle. -/
structure AsksHandles (source target : Program) (state : Progress)
    (expand : OpId → List OpId) : Prop where
  walked : walk rules handleTypes source = .ok state
  /-- The blocks are expanded operation by operation. -/
  block : ∀ (i : Nat) (func : Func) (body : List OpId), source.funcs[i]? = some func →
    func.body = some body → ∃ func', target.funcs[i]? = some func' ∧
      func'.body = some (body.flatMap expand)
  /-- In the place of such an operation is one call of an entry point over the substituted operands,
  the first of which is a handle. -/
  calls : ∀ id ∈ source.allOps, ∀ op, source.ops[id.index]? = some op →
    asksTensor op.kind = true → ∀ v, op.operands[0]? = some v → source.isSparse v = true →
      HandleCall target (op.operands.map state.aliases.resolve) (expand id)

/-- Sparse tensors vanish. If only the operations that make a tensor have sparse results, a run that
succeeds leaves no sparse tensor in the signatures of functions with a block, no operation on sparse
tensors, and no sparse tensor among the operands and results of an operation. What asked something
of a sparse tensor asks it of a handle. -/
theorem lower_sparse_free {program : Program} {outcome : Outcome} {stats : Stats}
    (hreach : program.Reachable) (hssa : program.DefBeforeUse) (hmade : SparseResultsMade program)
    (hrun : lower program = .ok outcome) (hresult : outcome.result = .ok stats) :
    SparseFree outcome.program ∧
      ∃ state expand, AsksHandles program outcome.program state expand := by
  have hvalid := hreach.valid
  have htarget := run_valid hrun hvalid
  have hclean := rejections_of_ok hvalid hssa hrun hresult
  obtain ⟨start, state, expand, hwalk, hlowered⟩ := exists_lowered hvalid hssa hrun
  have hplace : ∀ op' ∈ outcome.program.operations outcome.program.allOps,
      op'.kind.dialect ≠ .sparseTensor ∧
        ∀ v ∈ op'.operands ++ op'.results, outcome.program.NotSparse v := by
    intro op' hop'
    obtain ⟨other, hother, hget⟩ := List.mem_filterMap.mp hop'
    rw [hlowered.allOps hvalid] at hother
    obtain ⟨id, hid, hother⟩ := List.mem_flatMap.mp hother
    obtain ⟨op, hop, -⟩ := hvalid.live id hid
    exact hlowered.notSparse_place hvalid hssa htarget hclean hmade hid hop
      (List.mem_filterMap.mpr ⟨other, hother, hget⟩)
  refine ⟨⟨fun func hfunc hdefined ty hty => ?_, fun op' hop' => (hplace op' hop').1,
    fun op' hop' => (hplace op' hop').2⟩, state, expand, hwalk, fun i func body hfunc hbody => ?_,
    fun id hid op hop hkind v hv hsparse =>
      hlowered.handleCall hvalid hssa htarget hclean hmade hid hop hkind hv hsparse⟩
  · exact hlowered.signature_notSparse hvalid hfunc hdefined hty
  · obtain ⟨func', hfunc', -, -, hbody'⟩ := hlowered.exists_func hvalid hfunc hbody
    exact ⟨func', hfunc', hbody'⟩

/-- A dense vector is converted and measured, the pointers of a sparse one are put together again,
and both vectors are handed to an unknown function. -/
def surveyed : Program := .listed
  [{ name := "survey"
     argTypes := [sparseVector, .dense [.dynamic] .f64]
     resultTypes := [sparseVector, .index]
     lines := some [
      { kind := .constant (.index 0), operands := [], types := [.index] },
      { kind := .sparseConvert, operands := [1], types := [sparseVector] },
      { kind := .tensorDim, operands := [3, 2], types := [.index] },
      { kind := .toPointers, operands := [0, 2], types := [.memref [.dynamic] .index] },
      { kind := .toTensor, operands := [5], types := [sparseVector] },
      { kind := .toValues, operands := [6], types := [.memref [.dynamic] .f64] },
      { kind := .call "note", operands := [6, 3, 7], types := [] },
      { kind := .ret, operands := [6, 4] }] }]

/-- Both vectors have become handles, also for the unknown function. -/
theorem lower_sparse_free_surveyed : surveyed.Reachable ∧ surveyed.DefBeforeUse ∧
    SparseResultsMade surveyed ∧ ∃ outcome stats, lower surveyed = .ok outcome ∧
      outcome.result = .ok stats ∧ SparseFree outcome.program ∧
      ∃ state expand, AsksHandles surveyed outcome.program state expand := by
  have hreach : surveyed.Reachable := Program.reachable_listed _
  have hssa : surveyed.DefBeforeUse := by decide +kernel
  have hmade : SparseResultsMade surveyed := by decide +kernel
  obtain ⟨outcome, stats, hrun, hresult⟩ :=
    exists_of_accepts (by decide +kernel : accepts surveyed = true)
  exact ⟨hreach, hssa, hmade, outcome, stats, hrun, hresult,
    lower_sparse_free hreach hssa hmade hrun hresult⟩

end Lowering

end TensorLowering
