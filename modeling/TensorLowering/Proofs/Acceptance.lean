import TensorLowering.Proofs.LoweredTypes

/-!
# Which programs are accepted

A run that comes to its end succeeds if nothing illegal is left. What is left depends on the walk
in two ways: an operation on sparse tensors stays if it is declined, and a return or an extent
stays illegal if what it reads is still a sparse tensor. The second depends on the first, since a
tensor that was not made keeps its type. Seen from the source the dependence disappears: if one
tensor is not made, the program is refused anyway, and if all are, the types of all operands are
known.
-/

namespace TensorLowering

namespace Lowering

open Conversion

/-- The element types of tensors that the library stores. -/
def storedElements : List Ty := [.f64, .f32, .int 64, .int 32, .int 16, .int 8]

/-- The element types of the arrays of positions. -/
def positionElements : List Ty := [.index, .int 64, .int 32, .int 16, .int 8]

/-- The type of the first result of an operation. -/
def ResultType (program : Program) (op : Operation) (ty : Ty) : Prop :=
  ∃ result, op.results[0]? = some result ∧ program.typeOf result = .ok ty

/-- The first result is an array with one of the given element types. -/
def ResultOf (elements : List Ty) (program : Program) (op : Operation) : Prop :=
  ∃ ty element, ResultType program op ty ∧ ty.element? = some element ∧ element ∈ elements

/-- The value is a sparse tensor and comes from an operation that does not make one. -/
def StaysSparse (program : Program) (v : ValueId) : Prop :=
  ∃ ty id k op, program.values[v.index]? = some ⟨ty, .result id k⟩ ∧
    program.ops[id.index]? = some op ∧ ty.isSparse = true ∧ makesTensor op.kind = false

/-- What is asked of an operation. Whether a tensor can be folded is seen at the end of the walk;
everything else is a condition on the source. -/
def Acceptable (program : Program) (state : Progress) (op : Operation) : Prop :=
  match op.kind with
  | .sparseNew => ∃ ty, ResultType program op ty ∧ ty.isSparse = true
  | .sparseConvert => (∃ ty, ResultType program op ty ∧ ty.isSparse = true) ∧
      (∃ source ty, op.operands[0]? = some source ∧ program.typeOf source = .ok ty ∧
        ty.isSparse = false) ∧ ResultOf storedElements program op
  | .toPointers | .toIndices => ResultOf positionElements program op
  | .toValues => ResultOf storedElements program op
  | .toTensor => ∃ handle, FoldsInto state.program (op.operands.map state.aliases.resolve) handle
  | .ret => ∀ v ∈ op.operands, ¬StaysSparse program v
  | .tensorDim => ∀ v, op.operands[0]? = some v → ¬StaysSparse program v
  | _ => True

/-! ### Element types and accessors -/

variable {program : Program} {op : Operation} {ty element : Ty}

/-- The library stores the element types of the list. -/
theorem primary_of?_eq_none : Primary.of? element = none ↔ element ∉ storedElements := by
  unfold Primary.of?
  split <;> simp_all [storedElements]

/-- There are endings for the element types of the list. -/
theorem overheadSuffix?_eq_none :
    EntryPoint.overheadSuffix? element = none ↔ element ∉ positionElements := by
  unfold EntryPoint.overheadSuffix?
  split <;> simp_all [positionElements]

/-- The element types for which an array can be read. -/
def readableElements : OpKind → List Ty
  | .toValues => storedElements
  | _ => positionElements

/-- Arrays of these element types have an accessor, and no others. -/
theorem arrayAccessor?_eq_none {kind : OpKind} {accessor? : Ty → Option String}
    (harray : arrayAccessor? kind = some accessor?) :
    accessor? element = none ↔ element ∉ readableElements kind := by
  unfold arrayAccessor? at harray
  split at harray <;> simp only [Option.some.injEq, reduceCtorEq] at harray <;> subst harray
  · rw [EntryPoint.pointersAccessor?, Option.map_eq_none_iff, overheadSuffix?_eq_none]
    rfl
  · rw [EntryPoint.indicesAccessor?, Option.map_eq_none_iff, overheadSuffix?_eq_none]
    rfl
  · rw [EntryPoint.valuesAccessor?, Option.map_eq_none_iff, primary_of?_eq_none]
    rfl

/-- The buffer of a tensor is exposed exactly if its elements are stored. -/
theorem bufferAccess?_eq_none (hsparse : ty.isSparse = true) :
    ty.bufferAccess? = none ↔ ∀ element, ty.element? = some element → element ∉ storedElements := by
  cases ty with
  | tensor shape element sparsity =>
    cases hprimary : Primary.of? element <;> simp [Ty.bufferAccess?, Ty.element?, Ty.shape?,
      EntryPoint.bufferAccessor?, ← primary_of?_eq_none, hprimary]
  | _ => simp [Ty.isSparse, Ty.sparsity?] at hsparse

/-- A type has an annotation if it is sparse. -/
theorem sparsity?_eq_none : ty.sparsity? = none ↔ ty.isSparse = false := by
  simp [Ty.isSparse]

/-! ### Operations on sparse tensors -/

/-- A value that has a type already has the same one later. -/
theorem typeOf_of_later {before after : Program} (hvalues : before.values <+: after.values)
    {v : ValueId} (htyped : ∃ ty, before.typeOf v = .ok ty) (hty : after.typeOf v = .ok ty) :
    before.typeOf v = .ok ty := by
  obtain ⟨ty', hbefore⟩ := htyped
  rwa [Except.ok.inj (hty.symm.trans (Program.typeOf_mono hvalues hbefore))]

section Sparse

variable {source : Program} {state : Progress} (hvalues : source.values <+: state.program.values)

include hvalues

/-- An operation that was expanded is acceptable. -/
theorem Expansion.acceptable (hkind : op.kind.dialect = .sparseTensor)
    (hresults : ∀ v ∈ op.results, ∃ ty, source.typeOf v = .ok ty)
    (hoperands : ∀ v ∈ op.operands, ∃ ty, source.typeOf v = .ok ty) {new : List Operation}
    {values : List ValueId}
    (h : Expansion state.program op (op.operands.map state.aliases.resolve) new values) :
    Acceptable source state op := by
  have hresult {r : ValueId} {ty : Ty} (hr : op.results = [r])
      (hty : state.program.typeOf r = .ok ty) : ResultType source op ty :=
    ⟨r, by simp [hr], typeOf_of_later hvalues (hresults r (by simp [hr])) hty⟩
  cases h with
  | ret hret => simp [hret, OpKind.dialect] at hkind
  | @query name old new ty hold hty hquery =>
    generalize hquery' : op.kind = kind at hquery
    cases hquery with
    | dim => simp [hquery', OpKind.dialect] at hkind
    | read harray hname =>
      obtain ⟨element, helement, hname⟩ := Option.bind_eq_some_iff.mp hname
      have hmem : element ∈ readableElements kind := by
        by_contra hnot
        simp [(arrayAccessor?_eq_none harray).mpr hnot] at hname
      have harrayOf : ResultOf (readableElements kind) source op :=
        ⟨ty, element, hresult hold hty, helement, hmem⟩
      cases kind <;> simp only [arrayAccessor?, reduceCtorEq] at harray <;>
        simpa only [Acceptable, hquery', readableElements] using harrayOf
  | construct hnew hencodes =>
    obtain ⟨old, ty, sparsity, hold, hty, hsparse, -⟩ := hencodes
    simp only [Acceptable, hnew]
    exact ⟨ty, hresult hold hty, by simp [Ty.isSparse, hsparse]⟩
  | convert hconvert hencodes hbuilt hbuiltTy hdense _ hold hty haccess =>
    obtain ⟨old', ty', sparsity, hold', hty', hannotated, -⟩ := hencodes
    obtain rfl : _ = old' := by simpa [hold] using hold'
    obtain rfl := Except.ok.inj (hty'.symm.trans hty)
    have hsparse : ty'.isSparse = true := by simp [Ty.isSparse, hannotated]
    simp only [Acceptable, hconvert]
    refine ⟨⟨_, hresult hold hty, hsparse⟩, ⟨_, _, hbuilt, ?_, hdense⟩, ?_⟩
    · exact typeOf_of_later hvalues (hoperands _ (List.mem_of_getElem? hbuilt)) hbuiltTy
    · by_contra hnot
      have hnone := (bufferAccess?_eq_none hsparse).mpr fun element helement hmem =>
        hnot ⟨_, element, hresult hold hty, helement, hmem⟩
      simp [haccess] at hnone
  | fold hfold _ hhandle =>
    simp only [Acceptable, hfold]
    exact ⟨_, foldsInto_of_commonHandle hhandle⟩

/-- An operation that was declined is not acceptable. -/
theorem Declined.not_acceptable (hkind : op.kind.dialect = .sparseTensor)
    (h : Declined state.program op (op.operands.map state.aliases.resolve)) :
    ¬Acceptable source state op := by
  have hresult {r : ValueId} {ty ty' : Ty} (hr : op.results[0]? = some r)
      (hty : state.program.typeOf r = .ok ty) (hresult : ResultType source op ty') : ty' = ty := by
    obtain ⟨r', hr', hty'⟩ := hresult
    obtain rfl := Option.some.inj (hr.symm.trans hr')
    exact Except.ok.inj ((Program.typeOf_mono hvalues hty').symm.trans hty)
  have hread {elements : List Ty} {accessor? : Ty → Option String}
      (harray : arrayAccessor? op.kind = some accessor?)
      (helements : readableElements op.kind = elements) : ¬ResultOf elements source op := by
    rintro ⟨ty, element, hty, helement, hmem⟩
    obtain ⟨old, ty', hold, hty', hnone⟩ := h.read harray
    obtain rfl := hresult hold hty' hty
    rw [helement, Option.bind_some, arrayAccessor?_eq_none harray, helements] at hnone
    exact hnone hmem
  intro hacceptable
  cases hcase : op.kind with
  | sparseNew =>
    simp only [Declined, Acceptable, hcase] at h hacceptable
    obtain ⟨old, ty, hold, hty, hnone⟩ := h
    obtain ⟨ty', hty', hsparse⟩ := hacceptable
    obtain rfl := hresult hold hty hty'
    simp [sparsity?_eq_none.mp hnone] at hsparse
  | sparseConvert =>
    simp only [Declined, Acceptable, hcase] at h hacceptable
    obtain ⟨old, ty, hold, hty, hcases⟩ := h
    obtain ⟨⟨ty', hty', hsparse⟩, ⟨source', sourceTy, hsource', hsourceTy, hdense⟩, ty'', element,
      hty'', helement, hmem⟩ := hacceptable
    obtain rfl := hresult hold hty hty'
    obtain rfl := hresult hold hty hty''
    rcases hcases with hnone | ⟨built, builtTy, hbuilt, hbuiltTy, hcases⟩
    · simp [sparsity?_eq_none.mp hnone] at hsparse
    · obtain rfl := Option.some.inj (hsource'.symm.trans hbuilt)
      obtain rfl := Except.ok.inj ((Program.typeOf_mono hvalues hsourceTy).symm.trans hbuiltTy)
      rcases hcases with hsparse' | ⟨-, -, hnone⟩
      · simp [hdense] at hsparse'
      · exact (bufferAccess?_eq_none hsparse).mp hnone element helement hmem
  | toPointers =>
    simp only [Acceptable, hcase] at hacceptable
    exact hread (by rw [hcase]; rfl) (by rw [hcase]; rfl) hacceptable
  | toIndices =>
    simp only [Acceptable, hcase] at hacceptable
    exact hread (by rw [hcase]; rfl) (by rw [hcase]; rfl) hacceptable
  | toValues =>
    simp only [Acceptable, hcase] at hacceptable
    exact hread (by rw [hcase]; rfl) (by rw [hcase]; rfl) hacceptable
  | toTensor =>
    simp only [Declined, Acceptable, hcase] at h hacceptable
    obtain ⟨handle, hfolds⟩ := hacceptable
    exact not_foldsInto_of_commonHandle h handle hfolds
  | _ => simp [hcase, OpKind.dialect] at hkind

end Sparse

/-! ### Returns and extents -/

/-- Converted types are not sparse. -/
theorem isSparse_convert (ty : Ty) : (handleTypes.convert ty).isSparse = false := by
  rw [handleTypes_convert]
  cases hsparse : ty.isSparse
  · simpa using hsparse
  · rfl

/-- A value is lowered to a sparse tensor exactly if it stays one. -/
theorem isSparse_of_loweredType {v : ValueId} (h : loweredType program v = .ok ty) :
    ty.isSparse = true ↔ StaysSparse program v := by
  simp only [loweredType, bind_eq_ok, Program.value_eq_ok] at h
  obtain ⟨⟨old, origin⟩, hvalue, h⟩ := h
  cases origin with
  | argument func k =>
    obtain rfl := pure_eq_ok.mp h
    simp [StaysSparse, hvalue, isSparse_convert]
  | result id k =>
    simp only [bind_eq_ok, Program.op_eq_ok] at h
    obtain ⟨op, hop, h⟩ := h
    obtain rfl := pure_eq_ok.mp h
    cases hmakes : makesTensor op.kind
    · simp [StaysSparse, hvalue, hop, hmakes]
    · simp [StaysSparse, hvalue, hop, hmakes, Ty.isSparse, Ty.sparsity?]

section Lowered

variable {source target : Program} {start state : Progress} {expand : OpId → List OpId}
  (hsource : source.Valid) (hssa : source.DefBeforeUse)
  (h : Lowered source start state expand target) {id : OpId} (hid : id ∈ source.allOps)
  (hop : source.ops[id.index]? = some op)

include hsource hssa h hid hop

/-- An operation on sparse tensors leaves nothing to be reported exactly if it is acceptable; then
it has been replaced. -/
theorem Lowered.acceptable_of_sparse (hkind : op.kind.dialect = .sparseTensor) :
    (rejections target (expand id) = [] ↔ Acceptable source state op) ∧
      (Acceptable source state op → Expansion target op (op.operands.map state.aliases.resolve)
        (target.operations (expand id)) (op.results.map state.aliases.resolve)) := by
  have hvalues := h.resigned.values.trans h.walk.values
  obtain ⟨op', hop', hrecord⟩ := h.walk.records id hid
  obtain rfl := Option.some.inj (hop.symm.trans hop')
  have hbecame := h.became hsource hid hop
  generalize hexpand : expand id = ids at hrecord hbecame ⊢
  cases hrecord with
  | kept hkept hdeclined =>
    have hnow := h.kept_op hid hexpand hkept
    have hillegal : legality.isLegal target
        { op with operands := op.operands.map state.aliases.resolve } = .ok false :=
      isLegal_of_sparse hkind
    have hnot := hdeclined.not_acceptable hvalues hkind
    refine ⟨iff_of_false ?_ hnot, fun hacceptable => absurd hacceptable hnot⟩
    rw [rejections_eq (Program.operations_cons hnow [])]
    simp [rejected, hillegal]
  | replaced _ hids _ hexpansion =>
    have hacceptable := hexpansion.acceptable hvalues hkind
      (fun v hv => by
        obtain ⟨k, hk⟩ := List.mem_iff_getElem?.mp hv
        obtain ⟨ty, hvalue⟩ := hsource.results id.index k op v hop hk
        exact ⟨ty, Program.typeOf_eq_ok.mpr ⟨_, hvalue⟩⟩)
      fun v hv => exists_typeOf_operand hsource hssa hid hop hv
    cases hbecame with
    | kept =>
      have := hids id (List.mem_singleton_self id)
      have := (List.getElem?_eq_some_iff.mp hop).1
      omega
    | replaced _ _ hfinal =>
      refine ⟨iff_of_true ?_ hacceptable, fun _ => hfinal⟩
      rcases hfinal.ret_or_plain with ⟨hret, -⟩ | ⟨-, hplain⟩
      · simp [hret, OpKind.dialect] at hkind
      · exact rejections_eq_nil hplain

variable (htarget : target.Valid) (hmade : TensorsMade source target state expand)

include htarget hmade

/-- When all tensors have been made, a return leaves nothing to be reported exactly if it is
acceptable. -/
theorem Lowered.acceptable_of_ret (hkind : op.kind = .ret) :
    rejections target (expand id) = [] ↔ Acceptable source state op := by
  have hbecame := h.became hsource hid hop
  have hkept := h.declined hid hop
  generalize expand id = ids at hbecame hkept ⊢
  cases hbecame with
  | kept => simpa [Declined, hkind] using hkept rfl
  | replaced _ _ hexpansion =>
    obtain ⟨-, -, op', hnew, hkind', hoperands, -⟩ | ⟨hne, -⟩ := hexpansion.ret_or_plain
    · have htypes := fun v hv => h.typeOf_operand hsource hmade hssa htarget hid hop (v := v) hv
      have htyped : ∀ v ∈ op'.operands, ∃ ty, target.typeOf v = .ok ty := by
        rw [hoperands]
        intro v hv
        obtain ⟨x, hx, rfl⟩ := List.mem_map.mp hv
        obtain ⟨ty, -, hty⟩ := htypes x hx
        exact ⟨ty, hty⟩
      simp only [rejections_eq hnew, rejected, isLegal_of_ret hkind', Acceptable, hkind]
      rcases noneSparse_cases htyped with ⟨hnone, hdense⟩ | ⟨hsome, v, hv, ty, hty, hsparse⟩
      · rw [hnone]
        refine iff_of_true rfl fun v hv hstays => ?_
        obtain ⟨ty, hlowered, hty⟩ := htypes v hv
        have := hdense _ (hoperands ▸ List.mem_map_of_mem hv) ty hty
        simp [(isSparse_of_loweredType hlowered).mpr hstays] at this
      · rw [hsome]
        refine iff_of_false (by simp) fun hall => ?_
        rw [hoperands] at hv
        obtain ⟨x, hx, rfl⟩ := List.mem_map.mp hv
        obtain ⟨ty', hlowered, hty'⟩ := htypes x hx
        obtain rfl := Except.ok.inj (hty.symm.trans hty')
        exact hall x hx ((isSparse_of_loweredType hlowered).mp hsparse)
    · exact absurd hkind hne

/-- When all tensors have been made, an extent leaves nothing to be reported exactly if it is
acceptable. -/
theorem Lowered.acceptable_of_tensorDim (hkind : op.kind = .tensorDim) :
    rejections target (expand id) = [] ↔ Acceptable source state op := by
  have hbecame := h.became hsource hid hop
  have hkept := h.declined hid hop
  have hstays {v : ValueId} {ty : Ty} (hv : op.operands[0]? = some v)
      (hty : target.typeOf (state.aliases.resolve v) = .ok ty) :
      Acceptable source state op ↔ ty.isSparse = false := by
    obtain ⟨ty', hlowered, hty'⟩ :=
      h.typeOf_operand hsource hmade hssa htarget hid hop (List.mem_of_getElem? hv)
    obtain rfl := Except.ok.inj (hty.symm.trans hty')
    simp [Acceptable, hkind, hv, ← isSparse_of_loweredType hlowered]
  generalize expand id = ids at hbecame hkept ⊢
  cases hbecame with
  | kept hnow =>
    have hdeclined := hkept rfl
    simp only [Declined, hkind, List.getElem?_map, Option.map_eq_some_iff] at hdeclined
    obtain ⟨tensor, ty, ⟨v, hv, rfl⟩, hty, hptr⟩ := hdeclined
    rw [← h.typeOf] at hty
    rw [hstays hv hty, rejections_eq (Program.operations_cons hnow []),
      rejected_of_tensorDim (by exact hkind) (by simp [hv]) hty, hptr]
    cases ty.isSparse <;> simp
  | replaced _ _ hexpansion =>
    rcases hexpansion.ret_or_plain with ⟨hret, -⟩ | ⟨-, hplain⟩
    · simp [hkind] at hret
    refine iff_of_true (rejections_eq_nil hplain) ?_
    generalize target.operations ids = new at hexpansion
    generalize op.results.map state.aliases.resolve = values at hexpansion
    cases hexpansion with
    | ret hret => simp [hkind] at hret
    | query _ _ hquery =>
      rw [hkind] at hquery
      cases hquery with
      | dim htensor hptr =>
        simp only [List.getElem?_map, Option.map_eq_some_iff] at htensor
        obtain ⟨v, hv, rfl⟩ := htensor
        exact (hstays hv hptr).mpr rfl
      | read harray => simp [arrayAccessor?] at harray
    | construct hnew => simp [hkind] at hnew
    | convert hconvert => simp [hkind] at hconvert
    | fold hfold => simp [hkind] at hfold

/-- When all tensors have been made, an operation leaves nothing to be reported exactly if it is
acceptable. -/
theorem Lowered.acceptable_iff :
    rejections target (expand id) = [] ↔ Acceptable source state op := by
  rcases kind_cases op.kind with hkind | hkind | hkind | hkind
  · exact h.acceptable_of_ret hsource hssa hid hop htarget hmade hkind
  · exact h.acceptable_of_tensorDim hsource hssa hid hop htarget hmade hkind
  · exact (h.acceptable_of_sparse hsource hssa hid hop hkind).1
  · have hacceptable : Acceptable source state op := by
      unfold Acceptable
      cases hcase : op.kind <;> first | trivial | simp [hcase, ruleFor] at hkind
    refine iff_of_true ?_ hacceptable
    have hbecame := h.became hsource hid hop
    generalize expand id = ids at hbecame ⊢
    cases hbecame with
    | kept hnow =>
      refine rejections_eq_nil fun op' hop' => ?_
      rw [Program.operations_cons hnow []] at hop'
      exact List.mem_singleton.mp hop' ▸ hkind
    | replaced _ _ hexpansion =>
      exact absurd (declined_of_plain hkind) hexpansion.not_declined

end Lowered

/-- The run comes to its end and reports nothing. -/
def accepts (program : Program) : Bool :=
  match lower program with
  | .ok outcome => outcome.result.isOk
  | .error _ => false

/-- The outcome of a run that is accepted. -/
theorem exists_of_accepts (h : accepts program = true) :
    ∃ outcome stats, lower program = .ok outcome ∧ outcome.result = .ok stats := by
  unfold accepts at h
  cases hrun : lower program with
  | error halt => simp [hrun] at h
  | ok outcome =>
    cases hresult : outcome.result with
    | error reports => simp [hrun, hresult, Except.isOk, Except.toBool] at h
    | ok stats => exact ⟨outcome, stats, rfl, hresult⟩

/-- Exactly which programs are accepted. A run that comes to its end reports nothing if and only if
every operation of the blocks is acceptable: new and converted tensors have sparse results, a
converted one is dense before and of a stored element type, arrays are read at the element types
that have an accessor, tensors are put together from the arrays of one handle, and no return and no
extent reads a sparse tensor that comes from anything but an operation that makes one. -/
theorem lower_accepts_iff {program : Program} {outcome : Outcome} (hreach : program.Reachable)
    (hssa : program.DefBeforeUse) (hrun : lower program = .ok outcome) :
    ∃ state, walk rules handleTypes program = .ok state ∧
      ((∃ stats, outcome.result = .ok stats) ↔
        ∀ op ∈ program.operations program.allOps, Acceptable program state op) := by
  have hvalid := hreach.valid
  have htarget := run_valid hrun hvalid
  obtain ⟨start, state, expand, hwalk, hlowered⟩ := exists_lowered hvalid hssa hrun
  refine ⟨state, hwalk, fun ⟨stats, hresult⟩ op hop => ?_, fun hall => ?_⟩
  · have hclean := rejections_of_ok hvalid hssa hrun hresult
    have hmade := hlowered.tensorsMade hvalid hclean
    obtain ⟨id, hid, hop⟩ := List.mem_filterMap.mp hop
    rw [hlowered.allOps hvalid, rejections_flatMap, List.flatMap_eq_nil_iff] at hclean
    exact (hlowered.acceptable_iff hvalid hssa hid hop htarget hmade).mp (hclean id hid)
  · have hacceptable : ∀ id ∈ program.allOps, ∀ op, program.ops[id.index]? = some op →
        Acceptable program state op := fun id hid op hop =>
      hall op (List.mem_filterMap.mpr ⟨id, hid, hop⟩)
    -- Acceptable operations that make a tensor have been replaced, so the types are known.
    have hmade : TensorsMade program outcome.program state expand := fun id hid op hop hmakes =>
      (hlowered.acceptable_of_sparse hvalid hssa hid hop (dialect_of_makesTensor hmakes)).2
        (hacceptable id hid op hop)
    rcases lower_result hvalid hssa hrun with ⟨stats, hresult, -⟩ | ⟨reports, -, hne, hreports⟩
    · exact ⟨stats, hresult⟩
    · have hclean : rejections outcome.program outcome.program.allOps = [] := by
        rw [hlowered.allOps hvalid, rejections_flatMap, List.flatMap_eq_nil_iff]
        intro id hid
        obtain ⟨op, hop, -⟩ := hvalid.live id hid
        exact (hlowered.acceptable_iff hvalid hssa hid hop htarget hmade).mpr
          (hacceptable id hid op hop)
      rw [hclean, List.map_eq_nil_iff] at hreports
      exact absurd hreports hne

/-- The values of a vector are read and put together again, which is fine; but the vector also goes
through an unknown function, and the extent of what comes back is asked. -/
def relayed : Program := .listed
  [{ name := "relay"
     argTypes := [sparseVector]
     resultTypes := [sparseVector, .index]
     lines := some [
      { kind := .toValues, operands := [0], types := [.memref [.dynamic] .f64] },
      { kind := .toTensor, operands := [1], types := [sparseVector] },
      { kind := .call "pass", operands := [2], types := [sparseVector] },
      { kind := .constant (.index 0), operands := [], types := [.index] },
      { kind := .tensorDim, operands := [3, 4], types := [.index] },
      { kind := .ret, operands := [2, 5] }] }]

/-- The extent of a tensor that an unknown function returned is not accepted. -/
theorem lower_accepts_iff_relayed : relayed.Reachable ∧ relayed.DefBeforeUse ∧
    ∃ outcome, lower relayed = .ok outcome ∧ (¬∃ stats, outcome.result = .ok stats) ∧
      ∃ state, walk rules handleTypes relayed = .ok state ∧
        ((∃ stats, outcome.result = .ok stats) ↔
          ∀ op ∈ relayed.operations relayed.allOps, Acceptable relayed state op) := by
  have hssa : relayed.DefBeforeUse := by decide +kernel
  have hrefused : ((lower relayed).toOption.map fun outcome => outcome.result.isOk) =
      some false := by
    decide +kernel
  cases hrun : lower relayed with
  | error halt => simp [hrun, Except.toOption] at hrefused
  | ok outcome =>
    refine ⟨Program.reachable_listed _, hssa, outcome, rfl, ?_,
      lower_accepts_iff (Program.reachable_listed _) hssa hrun⟩
    rintro ⟨stats, hresult⟩
    simp [hrun, hresult, Except.toOption, Except.isOk, Except.toBool] at hrefused

end Lowering

end TensorLowering
