import TensorLowering.Proofs.Listings
import TensorLowering.Proofs.LoweredCalls

/-!
# Calls that agree with the functions they name

A lowering converts the signatures of the functions that have a block, and no others. It leaves calls
alone, except that their operands are renamed, and it declares an entry point of the library with the
types of the first call that needs it. So a program whose calls agree with their functions may be
lowered to one whose calls do not: a result that is a sparse tensor stays one while the function
returns a handle, an operand may be a handle only on one side, and an entry point may be used at
several types. The calls of the lowered program agree exactly if none of this happens, which can be
read off the source.
-/

namespace TensorLowering

variable {program : Program} {op : Operation}

/-- Every call in a block that names a function of the program has the types of that function. -/
def Program.CallsAgree (program : Program) : Prop :=
  ∀ op ∈ program.operations program.allOps, ∀ name ∈ op.kind.callee?,
    ∀ id ∈ program.lookupFunc? name, ∀ func ∈ program.funcs[id.index]?,
      program.typesOf op.operands = .ok func.argTypes ∧
        program.typesOf op.results = .ok func.resultTypes

instance : DecidablePred Program.CallsAgree := fun program =>
  inferInstanceAs (Decidable (∀ op ∈ program.operations program.allOps, ∀ name ∈ op.kind.callee?,
    ∀ id ∈ program.lookupFunc? name, ∀ func ∈ program.funcs[id.index]?,
      program.typesOf op.operands = .ok func.argTypes ∧
        program.typesOf op.results = .ok func.resultTypes))

/-- In a valid program the functions that calls name are found by name. -/
theorem Program.Valid.callsAgree_iff (hvalid : program.Valid) : program.CallsAgree ↔
    ∀ op ∈ program.operations program.allOps, ∀ func ∈ program.funcs,
      op.kind = .call func.name → program.Calls op func.signature := by
  constructor
  · intro h op hop func hfunc hkind
    obtain ⟨i, hi⟩ := List.mem_iff_getElem?.mp hfunc
    have hname : func.name ∈ op.kind.callee? := by simp [hkind, OpKind.callee?]
    have hlookup := (hvalid.symbols func.name ⟨i⟩).mpr ⟨func, hi, rfl⟩
    exact ⟨hkind, h op hop func.name hname ⟨i⟩ hlookup func hi⟩
  · intro h op hop name hname id hid func hfunc
    obtain ⟨func', hfunc', rfl⟩ := (hvalid.symbols name id).mp hid
    obtain rfl := Option.some.inj (hfunc.symm.trans hfunc')
    rcases Lowering.callee?_cases op.kind with hnone | ⟨other, hkind⟩
    · simp [hnone] at hname
    · obtain rfl : other = func.name := by simpa [hkind, OpKind.callee?] using hname
      exact (h op hop func (List.mem_of_getElem? hfunc) hkind).2

namespace Lowering

open Conversion

/-- The type of a parameter or a result of a function after a lowering. -/
def lowerType (func : Func) (ty : Ty) : Ty :=
  if func.isDeclaration then ty else handleTypes.convert ty

/-- The signature of a function after a lowering. -/
def loweredSignature (func : Func) : Signature :=
  ⟨func.name, func.argTypes.map (lowerType func), func.resultTypes.map (lowerType func)⟩

/-- All calls that the operations of a program are lowered to. -/
def finalCalls (program : Program) : List Signature :=
  (program.operations program.allOps).flatMap (loweredCalls program)

/-- The calls that stand in the place of operations other than calls. -/
def insertedCalls (program : Program) : List Signature :=
  ((program.operations program.allOps).filter fun op => op.kind.callee?.isNone).flatMap
    (loweredCalls program)

/-- Inserted calls are calls of the lowered program. -/
theorem mem_finalCalls {call : Signature} (hcall : call ∈ insertedCalls program) :
    call ∈ finalCalls program := by
  obtain ⟨op, hop, hcall⟩ := List.mem_flatMap.mp hcall
  exact List.mem_flatMap.mpr ⟨op, (List.mem_filter.mp hop).1, hcall⟩

/-- Types are converted in functions with a block and kept in declarations. -/
theorem lowerType_eq (func : Func) :
    lowerType func = if func.isDeclaration then id else handleTypes.convert := by
  funext ty
  cases hdeclared : func.isDeclaration <;> simp [lowerType, hdeclared]

/-- The signature of a function in its new form. -/
theorem signature_resign (aliases : Renaming) (expand : OpId → List OpId) (func : Func) :
    ((resign handleTypes aliases func).expandBody expand).signature = loweredSignature func := by
  cases hdeclared : func.isDeclaration <;>
    simp [Func.signature, Func.expandBody, resign, loweredSignature, lowerType_eq, hdeclared]

/-- The signature of a declaration stays. -/
theorem loweredSignature_of_declaration {func : Func} (hdeclared : func.isDeclaration = true) :
    loweredSignature func = func.signature := by
  simp [loweredSignature, lowerType_eq, hdeclared, Func.signature]

section Clean

variable {source target : Program} {start state : Progress} {expand : OpId → List OpId}
  (hsource : source.Valid) (hssa : source.DefBeforeUse) (htarget : target.Valid)
  (h : Lowered source start state expand target) (hclean : rejections target target.allOps = [])

include hsource hssa htarget h hclean

/-- The calls of the lowered program have the signatures that the operations of the source are
lowered to. -/
theorem Lowered.callsAgree_iff_signatures : target.CallsAgree ↔
    ∀ call ∈ finalCalls source, ∀ func ∈ target.funcs, func.name = call.name →
      call = func.signature := by
  rw [htarget.callsAgree_iff]
  constructor
  · intro hagree call hcall func hfunc hname
    obtain ⟨op, hop, hcall⟩ := List.mem_flatMap.mp hcall
    obtain ⟨id, hid, hop⟩ := List.mem_filterMap.mp hop
    obtain ⟨other, hother, op', hop', hcalls⟩ :=
      (h.mem_loweredCalls hsource hssa htarget hclean hid hop).mp hcall
    have hin : op' ∈ target.operations target.allOps := by
      rw [h.allOps hsource]
      exact List.mem_filterMap.mpr ⟨other, List.mem_flatMap.mpr ⟨id, hid, hother⟩, hop'⟩
    exact hcalls.unique (hagree op' hin func hfunc (hname ▸ hcalls.1))
  · intro hall op' hop' func hfunc hkind
    rw [h.allOps hsource] at hop'
    obtain ⟨other, hother, hop'⟩ := List.mem_filterMap.mp hop'
    obtain ⟨id, hid, hother⟩ := List.mem_flatMap.mp hother
    obtain ⟨op, hop, -⟩ := hsource.live id hid
    obtain ⟨call, hcall, hcalls⟩ := h.exists_loweredCall hsource hssa htarget hclean hid hop hother
      hop' hkind
    have hname : func.name = call.name := OpKind.call.inj (hkind.symm.trans hcalls.1)
    have hsame := hall call
      (List.mem_flatMap.mpr ⟨op, List.mem_filterMap.mpr ⟨id, hid, hop⟩, hcall⟩) func hfunc hname
    exact hsame ▸ hcalls

omit hssa htarget hclean in
/-- Calls are never replaced, so what is new stands in the place of something else. -/
theorem Lowered.callee?_of_created {id other : OpId} (hid : id ∈ source.allOps)
    (hop : source.ops[id.index]? = some op) (hother : other ∈ expand id)
    (hge : source.ops.length ≤ other.index) : op.kind.callee? = none := by
  rcases callee?_cases op.kind with hnone | ⟨name, hkind⟩
  · exact hnone
  · have hbecame := h.became hsource hid hop
    generalize expand id = ids at hbecame hother
    cases hbecame with
    | kept =>
      obtain rfl := List.mem_singleton.mp hother
      have := (List.getElem?_eq_some_iff.mp hop).1
      omega
    | replaced _ _ hexpansion =>
      exact absurd (declined_of_plain (by simp [hkind, ruleFor])) hexpansion.not_declined

omit hssa htarget hclean in
/-- The functions of the source are there, with their new signatures. -/
theorem Lowered.exists_func_of_source {func : Func} (hfunc : func ∈ source.funcs) :
    ∃ func' ∈ target.funcs, func'.signature = loweredSignature func := by
  obtain ⟨i, hi⟩ := List.mem_iff_getElem?.mp hfunc
  exact ⟨_, List.mem_of_getElem? (h.func hsource hi), signature_resign _ _ _⟩

/-- Inserted calls name functions of the lowered program. -/
theorem Lowered.exists_func_of_inserted {call : Signature} (hcall : call ∈ insertedCalls source) :
    ∃ func ∈ target.funcs, func.name = call.name := by
  obtain ⟨op, hop, hcall⟩ := List.mem_flatMap.mp hcall
  obtain ⟨hop, hnone⟩ := List.mem_filter.mp hop
  obtain ⟨id, hid, hop⟩ := List.mem_filterMap.mp hop
  obtain ⟨other, hother, op', hop', hkind, -⟩ :=
    (h.mem_loweredCalls hsource hssa htarget hclean hid hop).mp hcall
  have hge : source.ops.length ≤ other.index := by
    have hbecame := h.became hsource hid hop
    generalize expand id = ids at hbecame hother
    cases hbecame with
    | kept hkept =>
      obtain rfl := List.mem_singleton.mp hother
      obtain rfl := Option.some.inj (hop'.symm.trans hkept)
      simp [show op.kind = .call call.name from hkind, OpKind.callee?] at hnone
    | replaced _ hids => exact hids other hother
  have hbefore := hop'
  rw [h.renamed.ops, Option.map_eq_some_iff] at hbefore
  obtain ⟨built, hbuilt, -⟩ := hbefore
  obtain rfl := Option.some.inj (hop'.symm.trans (h.created_op hge hbuilt))
  rw [h.renamed.funcs]
  exact h.walk.known other.index op' call.name hge hbuilt hkind

/-- Every function of the lowered program comes from the source or was declared for an inserted call
with its signature. -/
theorem Lowered.signature_cases {func : Func} (hfunc : func ∈ target.funcs) :
    (∃ old ∈ source.funcs, func.signature = loweredSignature old) ∨
      (func.signature ∈ insertedCalls source ∧ ∀ old ∈ source.funcs, old.name ≠ func.name) := by
  obtain ⟨decls, hfuncs, hdecls⟩ := h.funcs hsource
  rw [hfuncs] at hfunc
  rcases List.mem_append.mp hfunc with hkept | hdecl
  · obtain ⟨old, hold, rfl⟩ := List.mem_map.mp hkept
    exact .inl ⟨old, hold, signature_resign _ _ _⟩
  · refine .inr ⟨?_, fun old hold hname => ?_⟩
    · obtain ⟨-, -, id, hid, other, hother, hge, op', hop', hkind, hargs, hresults⟩ :=
        hdecls func hdecl
      obtain ⟨op, hop, -⟩ := hsource.live id hid
      have hvalues : state.program.values <+: target.values := h.renamed.values ▸ List.prefix_rfl
      have hcalls : target.Calls op' func.signature :=
        ⟨hkind, Program.typesOf_mono hvalues hargs, Program.typesOf_mono hvalues hresults⟩
      have hcall := (h.mem_loweredCalls hsource hssa htarget hclean hid hop).mpr
        ⟨other, hother, op', h.created_op hge hop', hcalls⟩
      have hnone := h.callee?_of_created hsource hid hop hother hge
      exact List.mem_flatMap.mpr ⟨op, List.mem_filter.mpr
        ⟨List.mem_filterMap.mpr ⟨id, hid, hop⟩, by simp [hnone]⟩, hcall⟩
    · obtain ⟨i, hi⟩ := List.mem_iff_getElem?.mp hold
      obtain ⟨j, hj⟩ := List.mem_iff_getElem?.mp hdecl
      have hlt := (List.getElem?_eq_some_iff.mp hi).1
      have hnow : target.funcs[source.funcs.length + j]? = some func := by
        rw [hfuncs, List.getElem?_append_right (by simp)]
        simpa using hj
      have hsame : old.name = (loweredSignature old).name := rfl
      rw [← signature_resign state.aliases expand old] at hsame
      have := htarget.func_unique (h.func hsource hi) hnow (hsame.symm.trans hname)
      omega

/-- Calls agree after a lowering exactly if those of the source's functions have their new signatures,
and those of a function that is declared on the way have one signature. -/
theorem Lowered.callsAgree_iff : target.CallsAgree ↔
    (∀ call ∈ finalCalls source, ∀ func ∈ source.funcs, func.name = call.name →
      call = loweredSignature func) ∧
    ∀ call ∈ insertedCalls source, (∀ func ∈ source.funcs, func.name ≠ call.name) →
      ∀ other ∈ finalCalls source, other.name = call.name → other = call := by
  rw [h.callsAgree_iff_signatures hsource hssa htarget hclean]
  constructor
  · intro hall
    refine ⟨fun call hcall func hfunc hname => ?_, fun call hcall hfresh other hother hname => ?_⟩
    · obtain ⟨func', hfunc', hsignature⟩ := h.exists_func_of_source hsource hfunc
      have hname' : func'.name = func.name := congrArg Signature.name hsignature
      rw [← hsignature]
      exact hall call hcall func' hfunc' (hname'.trans hname)
    · obtain ⟨func, hfunc, hfound⟩ :=
        h.exists_func_of_inserted hsource hssa htarget hclean hcall
      rw [hall other hother func hfunc (hfound.trans hname.symm),
        hall call (mem_finalCalls hcall) func hfunc hfound]
  · rintro ⟨hlisted, hfresh⟩ call hcall func hfunc hname
    rcases h.signature_cases hsource hssa htarget hclean hfunc with
      ⟨old, hold, hsignature⟩ | ⟨hinserted, hnew⟩
    · have hname' : func.name = old.name := congrArg Signature.name hsignature
      rw [hsignature]
      exact hlisted call hcall old hold (hname'.symm.trans hname)
    · exact hfresh func.signature hinserted hnew call hcall hname.symm

end Clean

/-! ### What the source has to satisfy -/

/-- The calls of a program still agree after a lowering, by what can be read off the program. -/
structure CallsFit (program : Program) : Prop where
  /-- An operand of a call becomes a handle exactly where the function comes to take one. -/
  operands : ∀ op ∈ program.operations program.allOps, ∀ func ∈ program.funcs,
    op.kind = .call func.name → ∀ v ∈ op.operands,
      loweredType program v = (program.typeOf v).map (lowerType func)
  /-- A function with a block that is called returns no sparse tensor. -/
  results : ∀ op ∈ program.operations program.allOps, ∀ func ∈ program.funcs,
    op.kind = .call func.name → func.isDeclaration = false →
      ∀ ty ∈ func.resultTypes, ty.isSparse = false
  /-- An entry point that is declared already is used as it is declared. -/
  declared : ∀ call ∈ insertedCalls program, ∀ func ∈ program.funcs, func.name = call.name →
    call = func.signature
  /-- An entry point that is not declared yet is used in one way only. -/
  uniform : ∀ call ∈ insertedCalls program, (∀ func ∈ program.funcs, func.name ≠ call.name) →
    ∀ other ∈ finalCalls program, other.name = call.name → other = call

instance : DecidablePred CallsFit := fun _ =>
  decidable_of_iff (_ ∧ _ ∧ _ ∧ _)
    ⟨fun h => ⟨h.1, h.2.1, h.2.2.1, h.2.2.2⟩, fun h => ⟨h.1, h.2, h.3, h.4⟩⟩

/-- Types are obtained from others by a map exactly if each of them is. -/
theorem eq_map_iff_of_mapM {find : ValueId → Except Fault Ty} {change : Ty → Ty}
    {ids : List ValueId} {types found : List Ty} (htypes : program.typesOf ids = .ok types)
    (hfound : ids.mapM find = .ok found) :
    found = types.map change ↔ ∀ v ∈ ids, find v = (program.typeOf v).map change := by
  induction ids generalizing types found with
  | nil =>
    obtain rfl := Except.ok.inj htypes
    obtain rfl := Except.ok.inj hfound
    simp
  | cons v rest ih =>
    rw [List.mapM_cons] at hfound
    simp only [Program.typesOf, bind_eq_ok, pure_eq_ok] at htypes hfound
    obtain ⟨ty, hty, types, htypes, rfl⟩ := htypes
    obtain ⟨ty', hty', found, hfound, rfl⟩ := hfound
    simp [hty, hty', Except.map, ih htypes hfound]

/-- A function with a block changes exactly the sparse tensors in its signature. -/
theorem lowerType_eq_iff {func : Func} {ty : Ty} :
    lowerType func ty = ty ↔ (func.isDeclaration = false → ty.isSparse = false) := by
  cases hdeclared : func.isDeclaration with
  | true => simp [lowerType, hdeclared]
  | false =>
    cases hsparse : ty.isSparse with
    | false => simp [lowerType, hdeclared, handleTypes_convert, hsparse]
    | true =>
      have hne : Ty.ptr ≠ ty := by
        rintro rfl
        simp [Ty.isSparse, Ty.sparsity?] at hsparse
      simp [lowerType, hdeclared, handleTypes_convert, hsparse, hne]

/-- The results of a function keep their types exactly if it has no block or none is sparse. -/
theorem eq_map_lowerType_iff {func : Func} :
    func.resultTypes = func.resultTypes.map (lowerType func) ↔
      (func.isDeclaration = false → ∀ ty ∈ func.resultTypes, ty.isSparse = false) := by
  have heach : func.resultTypes.map id = func.resultTypes.map (lowerType func) ↔
      ∀ ty ∈ func.resultTypes, ty = lowerType func ty := List.map_inj_left
  rw [List.map_id] at heach
  rw [heach]
  constructor
  · intro h hblock ty hty
    exact lowerType_eq_iff.mp (h ty hty).symm hblock
  · intro h ty hty
    exact (lowerType_eq_iff.mpr fun hblock => h hblock ty hty).symm

/-- A call that agrees with a function agrees with its new form exactly if its operands become
handles where the parameters do, and the function has no results that become handles. -/
theorem Lowered.loweredCalls_eq_iff {source target : Program} {start state : Progress}
    {expand : OpId → List OpId} (hsource : source.Valid) (hssa : source.DefBeforeUse)
    (htarget : target.Valid) (h : Lowered source start state expand target)
    (hclean : rejections target target.allOps = []) (hop : op ∈ source.operations source.allOps)
    {func : Func} (hcalls : source.Calls op func.signature) :
    (∀ call ∈ loweredCalls source op, call = loweredSignature func) ↔
      (∀ v ∈ op.operands, loweredType source v = (source.typeOf v).map (lowerType func)) ∧
      (func.isDeclaration = false → ∀ ty ∈ func.resultTypes, ty.isSparse = false) := by
  obtain ⟨id, hid, hop⟩ := List.mem_filterMap.mp hop
  obtain ⟨lowered, hlowered, -⟩ := exists_mapM_loweredType fun v hv =>
    h.typeOf_operand hsource (h.tensorsMade hsource hclean) hssa htarget hid hop hv
  obtain ⟨hkind, hargs, hresults⟩ := hcalls
  rw [loweredCalls, hlowered, hresults, hkind, ← eq_map_iff_of_mapM hargs hlowered,
    ← eq_map_lowerType_iff]
  simp [callsFor, loweredSignature, Func.signature]

/-- The names of the entry points. -/
def entryNames : List String := EntryPoint.all.map EntryPoint.name

/-- There is an accessor of values and of buffers for every supported element type. -/
theorem mem_entryNames_of_primary (primary : Primary) :
    "sparseValues" ++ primary.suffix ∈ entryNames ∧ "getPtr" ++ primary.suffix ∈ entryNames := by
  cases primary <;> decide +kernel

/-- There is an accessor of pointers and of indices for every overhead type. -/
theorem mem_entryNames_of_suffix {element : Ty} {suffix : String}
    (hsuffix : EntryPoint.overheadSuffix? element = some suffix) :
    "sparsePointers" ++ suffix ∈ entryNames ∧ "sparseIndices" ++ suffix ∈ entryNames := by
  unfold EntryPoint.overheadSuffix? at hsuffix
  split at hsuffix <;> simp only [Option.some.injEq, reduceCtorEq] at hsuffix <;> subst hsuffix <;>
    decide +kernel

/-- Arrays are read through entry points. -/
theorem mem_entryNames_of_array {kind : OpKind} {accessor? : Ty → Option String} {element : Ty}
    {name : String} (harray : arrayAccessor? kind = some accessor?)
    (hname : accessor? element = some name) : name ∈ entryNames := by
  unfold arrayAccessor? at harray
  split at harray <;> simp only [Option.some.injEq, reduceCtorEq] at harray <;> subst harray
  · obtain ⟨suffix, hsuffix, rfl⟩ := Option.map_eq_some_iff.mp hname
    exact (mem_entryNames_of_suffix hsuffix).1
  · obtain ⟨suffix, hsuffix, rfl⟩ := Option.map_eq_some_iff.mp hname
    exact (mem_entryNames_of_suffix hsuffix).2
  · obtain ⟨primary, -, rfl⟩ := Option.map_eq_some_iff.mp hname
    exact (mem_entryNames_of_primary primary).1

/-- What an operation other than a call is lowered to are calls of entry points. -/
theorem mem_entryNames_of_callsFor {kind : OpKind} {operands results : List Ty} {call : Signature}
    (hkind : kind.callee? = none) (hcall : call ∈ callsFor kind operands results) :
    call.name ∈ entryNames := by
  have hnew : EntryPoint.newTensor ∈ entryNames := by decide +kernel
  have hdim : EntryPoint.dimSize ∈ entryNames := by decide +kernel
  unfold callsFor at hcall
  split at hcall
  · simp [OpKind.callee?] at hkind
  · split at hcall
    · exact List.mem_singleton.mp hcall ▸ hdim
    · simp at hcall
  · obtain ⟨ty, -, rfl⟩ := List.mem_map.mp hcall
    exact hnew
  · split at hcall
    · rename_i accessor shape element haccess
      obtain ⟨ty, -, haccess⟩ := Option.bind_eq_some_iff.mp haccess
      simp only [Ty.bufferAccess?, Option.bind_eq_some_iff, Option.map_eq_some_iff] at haccess
      obtain ⟨element', -, accessor', haccessor, shape', -, hsame⟩ := haccess
      obtain ⟨rfl, -⟩ := Prod.mk.inj hsame
      obtain ⟨primary, -, rfl⟩ := Option.map_eq_some_iff.mp haccessor
      rcases List.mem_cons.mp hcall with rfl | hcreation
      · exact (mem_entryNames_of_primary primary).2
      · exact List.mem_singleton.mp hcreation ▸ hnew
    · simp at hcall
  · split at hcall
    · rename_i accessor? harray
      obtain ⟨name, hname, rfl⟩ := List.mem_map.mp hcall
      obtain ⟨element, -, hname⟩ := Option.bind_eq_some_iff.mp (Option.mem_toList.mp hname)
      exact mem_entryNames_of_array harray hname
    · simp at hcall

/-- Inserted calls are calls of entry points. -/
theorem mem_entryNames_of_inserted {call : Signature} (hcall : call ∈ insertedCalls program) :
    call.name ∈ entryNames := by
  obtain ⟨op, hop, hcall⟩ := List.mem_flatMap.mp hcall
  have hnone : op.kind.callee? = none := by simpa using (List.mem_filter.mp hop).2
  unfold loweredCalls at hcall
  split at hcall
  · exact mem_entryNames_of_callsFor hnone hcall
  · simp at hcall

/-- A call is lowered to a call of the same function. -/
theorem name_of_loweredCalls {name : String} {call : Signature} (hkind : op.kind = .call name)
    (hcall : call ∈ loweredCalls program op) : call.name = name := by
  rw [loweredCalls, hkind] at hcall
  split at hcall
  · exact List.mem_singleton.mp hcall ▸ rfl
  · simp at hcall

/-- Suppose that all calls agree with the functions they name, and that no function with a block is
named like an entry point. If a lowering reports nothing, then all calls of the lowered program agree
with the functions they name, the declared entry points among them, exactly if the calls fit. -/
theorem lower_calls_agree {program : Program} {outcome : Outcome} {stats : Stats}
    (hreach : program.Reachable) (hssa : program.DefBeforeUse)
    (hnames : ∀ func ∈ program.funcs, func.name ∈ entryNames → func.isDeclaration = true)
    (hagree : program.CallsAgree) (hrun : lower program = .ok outcome)
    (hresult : outcome.result = .ok stats) :
    outcome.program.CallsAgree ↔ CallsFit program := by
  have hvalid := hreach.valid
  have htarget : outcome.program.Valid := (Program.Reachable.convert hreach hrun).valid
  obtain ⟨start, state, expand, -, hlowered⟩ := exists_lowered hvalid hssa hrun
  have hclean := rejections_of_ok hvalid hssa hrun hresult
  rw [hvalid.callsAgree_iff] at hagree
  -- For one call of a known function, agreement afterwards is a matter of its types.
  have hone {op func} (hop : op ∈ program.operations program.allOps) (hfunc : func ∈ program.funcs)
      (hkind : op.kind = .call func.name) :=
    hlowered.loweredCalls_eq_iff hvalid hssa htarget hclean hop (hagree op hop func hfunc hkind)
  rw [hlowered.callsAgree_iff hvalid hssa htarget hclean]
  constructor
  · rintro ⟨hlisted, huniform⟩
    have hfits : ∀ op ∈ program.operations program.allOps, ∀ func ∈ program.funcs,
        op.kind = .call func.name → ∀ call ∈ loweredCalls program op,
          call = loweredSignature func := by
      intro op hop func hfunc hkind call hcall
      have hname := name_of_loweredCalls hkind hcall
      exact hlisted call (List.mem_flatMap.mpr ⟨op, hop, hcall⟩) func hfunc hname.symm
    refine ⟨fun op hop func hfunc hkind => ?_, fun op hop func hfunc hkind => ?_,
      fun call hcall func hfunc hname => ?_, huniform⟩
    · exact ((hone hop hfunc hkind).mp (hfits op hop func hfunc hkind)).1
    · exact ((hone hop hfunc hkind).mp (hfits op hop func hfunc hkind)).2
    · have hdeclared := hnames func hfunc (hname ▸ mem_entryNames_of_inserted hcall)
      rw [← loweredSignature_of_declaration hdeclared]
      exact hlisted call (mem_finalCalls hcall) func hfunc hname
  · intro hfit
    refine ⟨fun call hcall func hfunc hname => ?_, hfit.uniform⟩
    obtain ⟨op, hop, hcall⟩ := List.mem_flatMap.mp hcall
    rcases callee?_cases op.kind with hnone | ⟨name, hkind⟩
    · have hinserted : call ∈ insertedCalls program :=
        List.mem_flatMap.mpr ⟨op, List.mem_filter.mpr ⟨hop, by simp [hnone]⟩, hcall⟩
      have hdeclared := hnames func hfunc (hname ▸ mem_entryNames_of_inserted hinserted)
      rw [loweredSignature_of_declaration hdeclared]
      exact hfit.declared call hinserted func hfunc hname
    · obtain rfl := name_of_loweredCalls hkind hcall
      rw [← hname] at hkind
      exact (hone hop hfunc hkind).mpr ⟨hfit.operands op hop func hfunc hkind,
        hfit.results op hop func hfunc hkind⟩ call hcall

/-- Whether calls agree after a lowering, if it reports nothing. -/
def agreesAfter (program : Program) : Option Bool :=
  match lower program with
  | .error _ => none
  | .ok outcome =>
    match outcome.result with
    | .error _ => none
    | .ok _ => some (decide outcome.program.CallsAgree)

/-- The run that the answer is about. -/
theorem exists_of_agreesAfter {answer : Bool} (h : agreesAfter program = some answer) :
    ∃ outcome stats, lower program = .ok outcome ∧ outcome.result = .ok stats ∧
      decide outcome.program.CallsAgree = answer := by
  unfold agreesAfter at h
  split at h
  · simp at h
  · rename_i outcome hrun
    split at h
    · simp at h
    · rename_i stats hresult
      exact ⟨outcome, stats, hrun, hresult, Option.some.inj h⟩

/-- A function measures a sparse vector, and another one calls it and measures the vector again. -/
def remeasured : Program := .listed
  [{ name := "measure"
     argTypes := [sparseVector, .index]
     resultTypes := [.index]
     lines := some [
      { kind := .tensorDim, operands := [0, 1], types := [.index] },
      { kind := .ret, operands := [2] }] },
    { name := "twice"
      argTypes := [sparseVector, .index]
      lines := some [
       { kind := .call "measure", operands := [3, 4], types := [.index] },
       { kind := .tensorDim, operands := [3, 5], types := [.index] },
       { kind := .ret, operands := [] }] }]

/-- The call passes a handle to a function that takes one, and both extents are asked alike. -/
theorem lower_calls_agree_remeasured : remeasured.Reachable ∧ remeasured.DefBeforeUse ∧
    (∀ func ∈ remeasured.funcs, func.name ∈ entryNames → func.isDeclaration = true) ∧
    remeasured.CallsAgree ∧ CallsFit remeasured ∧
    ∃ outcome stats, lower remeasured = .ok outcome ∧ outcome.result = .ok stats ∧
      outcome.program.CallsAgree := by
  have hreach : remeasured.Reachable := Program.reachable_listed _
  have hssa : remeasured.DefBeforeUse := by decide +kernel
  have hnames : ∀ func ∈ remeasured.funcs, func.name ∈ entryNames → func.isDeclaration = true := by
    decide +kernel
  have hagree : remeasured.CallsAgree := by decide +kernel
  have hfit : CallsFit remeasured := by decide +kernel
  have hanswer : agreesAfter remeasured = some true := by decide +kernel
  obtain ⟨outcome, stats, hrun, hresult, -⟩ := exists_of_agreesAfter hanswer
  exact ⟨hreach, hssa, hnames, hagree, hfit, outcome, stats, hrun, hresult,
    (lower_calls_agree hreach hssa hnames hagree hrun hresult).mpr hfit⟩

/-- A function returns the sparse vector that it is given, and another one calls it. -/
def forwarded : Program := .listed
  [{ name := "id"
     argTypes := [sparseVector]
     resultTypes := [sparseVector]
     lines := some [{ kind := .ret, operands := [0] }] },
    { name := "use"
      argTypes := [sparseVector]
      lines := some [
       { kind := .call "id", operands := [1], types := [sparseVector] },
       { kind := .ret, operands := [] }] }]

/-- The result of the call is a sparse tensor still, but the function returns a handle. -/
theorem forwarded_disagrees : forwarded.Reachable ∧ forwarded.DefBeforeUse ∧
    (∀ func ∈ forwarded.funcs, func.name ∉ entryNames) ∧ forwarded.CallsAgree ∧
    ∃ outcome stats, lower forwarded = .ok outcome ∧ outcome.result = .ok stats ∧
      ¬outcome.program.CallsAgree := by
  have hanswer : agreesAfter forwarded = some false := by decide +kernel
  obtain ⟨outcome, stats, hrun, hresult, hdecide⟩ := exists_of_agreesAfter hanswer
  exact ⟨Program.reachable_listed _, by decide +kernel, by decide +kernel, by decide +kernel,
    outcome, stats, hrun, hresult, of_decide_eq_false hdecide⟩

end Lowering

end TensorLowering
