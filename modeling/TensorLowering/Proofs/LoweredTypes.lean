import TensorLowering.Proofs.Rejections

/-!
# The types that values are lowered to

After a run that reports nothing, no operation on sparse tensors is left; in particular every
operation that makes a tensor has been replaced. It is then known from the source alone which type
the operands have that stand in the blocks: sparse arguments have become handles, and so has
everything that was made by an operation that makes a tensor; all other values keep their types,
also where a query for them has become a call.
-/

namespace TensorLowering

namespace Lowering

open Conversion

/-- The operations that make a tensor. -/
def makesTensor : OpKind → Bool
  | .sparseNew | .sparseConvert | .toTensor => true
  | _ => false

/-- The type that a value of a program is lowered to. -/
def loweredType (program : Program) (v : ValueId) : Except Fault Ty := do
  let value ← program.value v
  match value.origin with
  | .argument _ _ => return handleTypes.convert value.ty
  | .result id _ =>
    let op ← program.op id
    return if makesTensor op.kind then .ptr else value.ty

variable {program : Program} {op : Operation} {v : ValueId} {ty : Ty}

/-- Arguments are lowered to the converted type. -/
theorem loweredType_of_argument {func : FuncId} {k : Nat}
    (hvalue : program.values[v.index]? = some ⟨ty, .argument func k⟩) :
    loweredType program v = .ok (handleTypes.convert ty) :=
  bind_eq_ok.mpr ⟨_, Program.value_eq_ok.mpr hvalue, rfl⟩

/-- Results are lowered to handles or keep their type. -/
theorem loweredType_of_result {id : OpId} {k : Nat}
    (hvalue : program.values[v.index]? = some ⟨ty, .result id k⟩)
    (hop : program.ops[id.index]? = some op) :
    loweredType program v = .ok (if makesTensor op.kind then .ptr else ty) :=
  bind_eq_ok.mpr ⟨_, Program.value_eq_ok.mpr hvalue,
    bind_eq_ok.mpr ⟨op, Program.op_eq_ok.mpr hop, rfl⟩⟩

/-- Queries make no tensor. -/
theorem Query.makesTensor {operands : List ValueId} {kind : OpKind} {name : String}
    (h : Query program operands ty kind name) : makesTensor kind = false := by
  cases h with
  | dim => rfl
  | read harray => cases kind <;> simp_all [arrayAccessor?, Lowering.makesTensor]

/-- The value that replaces a result has the type that the result is lowered to. -/
theorem Expansion.type_of_value {operands values : List ValueId} {new : List Operation}
    (h : Expansion program op operands new values) {value : ValueId} (hv : v ∈ op.results)
    (hty : program.typeOf v = .ok ty) (hvalue : value ∈ values) :
    program.typeOf value = .ok (if makesTensor op.kind then .ptr else ty) := by
  cases h with
  | ret => simp at hvalue
  | query hresults hold hquery hnew =>
    obtain rfl : v = _ := by simpa [hresults] using hv
    obtain rfl := List.mem_singleton.mp hvalue
    obtain rfl := Except.ok.inj (hty.symm.trans hold)
    simpa [hquery.makesTensor] using hnew
  | construct hkind _ _ hcreated =>
    obtain rfl := List.mem_singleton.mp hvalue
    simpa [hkind, makesTensor] using hcreated.2
  | convert hkind _ _ _ _ _ _ _ _ _ _ hcreated =>
    obtain rfl := List.mem_singleton.mp hvalue
    simpa [hkind, makesTensor] using hcreated.2
  | fold hkind _ hhandle =>
    obtain rfl := List.mem_singleton.mp hvalue
    obtain ⟨x, -, hshows⟩ := (commonHandle_eq_some.mp hhandle).2
    obtain _ | _ | _ | ⟨-, -, -, -, hptr⟩ := hshows
    simpa [hkind, makesTensor] using hptr

/-- Operations that make a tensor are operations on sparse tensors. -/
theorem dialect_of_makesTensor {kind : OpKind} (hkind : makesTensor kind = true) :
    kind.dialect = .sparseTensor := by
  cases kind <;> simp_all [makesTensor, OpKind.dialect]

section Lowered

variable {source target : Program} {start state : Progress} {expand : OpId → List OpId}
  (hsource : source.Valid) (h : Lowered source start state expand target)

/-- Every operation that makes a tensor has been replaced. -/
def TensorsMade (source target : Program) (state : Progress) (expand : OpId → List OpId) : Prop :=
  ∀ id ∈ source.allOps, ∀ op, source.ops[id.index]? = some op → makesTensor op.kind = true →
    Expansion target op (op.operands.map state.aliases.resolve) (target.operations (expand id))
      (op.results.map state.aliases.resolve)

include hsource h

section Clean

variable (hclean : rejections target target.allOps = [])

include hclean

/-- Operations that stay are not rejected. -/
theorem Lowered.kept_legal {id : OpId} (hid : id ∈ source.allOps)
    (hexpand : expand id = [id]) (hop : target.ops[id.index]? = some op) :
    rejected target op = false := by
  rw [h.allOps hsource, rejections_flatMap, List.flatMap_eq_nil_iff] at hclean
  have hhere := hclean id hid
  rw [hexpand, rejections_eq (Program.operations_cons hop [])] at hhere
  simpa using hhere

/-- Operations that stay are not on sparse tensors. -/
theorem Lowered.kept_dialect {id : OpId} (hid : id ∈ source.allOps)
    (hexpand : expand id = [id]) (hop : target.ops[id.index]? = some op) :
    op.kind.dialect ≠ .sparseTensor := by
  intro hkind
  have hlegal := h.kept_legal hsource hclean hid hexpand hop
  simp [rejected, isLegal_of_sparse hkind] at hlegal

/-- Operations on sparse tensors have been replaced. -/
theorem Lowered.expansion_of_sparse {id : OpId} (hid : id ∈ source.allOps)
    (hop : source.ops[id.index]? = some op) (hkind : op.kind.dialect = .sparseTensor) :
    Expansion target op (op.operands.map state.aliases.resolve) (target.operations (expand id))
      (op.results.map state.aliases.resolve) := by
  have hbecame := h.became hsource hid hop
  generalize hexpand : expand id = ids at hbecame
  cases hbecame with
  | replaced _ _ hexpansion => exact hexpansion
  | kept hop' => exact (h.kept_dialect hsource hclean hid hexpand hop' hkind).elim

/-- If nothing is rejected, every tensor has been made. -/
theorem Lowered.tensorsMade : TensorsMade source target state expand :=
  fun _ hid _ hop hmakes =>
    h.expansion_of_sparse hsource hclean hid hop (dialect_of_makesTensor hmakes)

end Clean

variable (hmade : TensorsMade source target state expand)

include hmade

/-- What stands for a result has the type that the result is lowered to. -/
theorem Lowered.typeOf_result {id : OpId} (hid : id ∈ source.allOps)
    (hop : source.ops[id.index]? = some op) (hv : v ∈ op.results) :
    ∃ ty, loweredType source v = .ok ty ∧
      target.typeOf (state.aliases.resolve v) = .ok ty := by
  obtain ⟨k, hk⟩ := List.mem_iff_getElem?.mp hv
  obtain ⟨ty, hvalue⟩ := hsource.results id.index k op v hop hk
  have hold : target.typeOf v = .ok ty := by
    rw [h.typeOf]
    exact Program.typeOf_eq_ok.mpr ⟨_, getElem?_mono (h.resigned.values.trans h.walk.values) hvalue⟩
  refine ⟨_, loweredType_of_result hvalue hop, ?_⟩
  cases hmakes : makesTensor op.kind with
  | true =>
    have hnew := (hmade id hid op hop hmakes).type_of_value hv hold (List.mem_map_of_mem hv)
    rwa [hmakes] at hnew
  | false =>
    have hbecame := h.became hsource hid hop
    generalize expand id = ids at hbecame
    cases hbecame with
    | kept _ hresults => rwa [hresults v hv]
    | replaced _ _ hexpansion =>
      have hnew := hexpansion.type_of_value hv hold (List.mem_map_of_mem hv)
      rwa [hmakes] at hnew

/-- What stands for an operand has the type that the operand is lowered to. -/
theorem Lowered.typeOf_operand (hssa : source.DefBeforeUse) (htarget : target.Valid) {id : OpId}
    (hid : id ∈ source.allOps) (hop : source.ops[id.index]? = some op) (hv : v ∈ op.operands) :
    ∃ ty, loweredType source v = .ok ty ∧
      target.typeOf (state.aliases.resolve v) = .ok ty := by
  obtain ⟨func, hfunc, hbody⟩ := List.mem_flatMap.mp hid
  obtain ⟨earlier, later, hsplit⟩ := List.append_of_mem hbody
  obtain ⟨i, hi⟩ := List.mem_iff_getElem?.mp hfunc
  rcases (visible_of_defBeforeUse hsource hssa hfunc hsplit hop hv).origin with
    harg | ⟨other, hother, built, hbuilt, -, hresult⟩
  · obtain ⟨k, hk⟩ := List.mem_iff_getElem?.mp harg
    obtain ⟨ty, hty, hvalue⟩ := hsource.arg_value hi hk
    have hdefined : func.isDeclaration = false := by
      cases hnone : func.body <;> simp_all [Func.isDeclaration, Func.bodyOps]
    have hnow := htarget.args i k _ (state.aliases.resolve v) (handleTypes.convert ty)
      (h.func hsource hi) (by simp [Func.expandBody, resign, hdefined, hk])
      (by simp [Func.expandBody, resign, hdefined, hty])
    exact ⟨_, loweredType_of_argument hvalue, Program.typeOf_eq_ok.mpr ⟨_, hnow⟩⟩
  · have hin : other ∈ source.allOps := Program.mem_allOps hi (by simp [hsplit, hother])
    exact h.typeOf_result hsource hmade hin hbuilt hresult

end Lowered

end Lowering

end TensorLowering
