import TensorLowering.Proofs.LoweredTypes

/-!
# The calls of a lowered program

After a run that reports nothing, it is known from the source alone which calls stand in the place of
each operation and with which types. A call stays one, with the types that its operands are lowered
to. Queries become calls on the handles, and an operation that makes a tensor becomes a call of the
constructor; where the tensor is converted, another call exposes the buffer first.
-/

namespace TensorLowering

/-- The name and the types of a call or a function. -/
structure Signature where
  name : String
  argTypes : List Ty
  resultTypes : List Ty
deriving DecidableEq

/-- The signature of a function. -/
def Func.signature (func : Func) : Signature := ⟨func.name, func.argTypes, func.resultTypes⟩

/-- The operation is a call with the given signature. -/
def Program.Calls (program : Program) (op : Operation) (signature : Signature) : Prop :=
  op.kind = .call signature.name ∧ program.typesOf op.operands = .ok signature.argTypes ∧
    program.typesOf op.results = .ok signature.resultTypes

/-- A call has one signature. -/
theorem Program.Calls.unique {program : Program} {op : Operation} {first second : Signature}
    (h : program.Calls op first) (h' : program.Calls op second) : first = second := by
  obtain ⟨name, argTypes, resultTypes⟩ := first
  obtain ⟨name', argTypes', resultTypes'⟩ := second
  obtain ⟨hkind, hargs, hresults⟩ := h
  obtain ⟨hkind', hargs', hresults'⟩ := h'
  obtain rfl := OpKind.call.inj (hkind.symm.trans hkind')
  obtain rfl := Except.ok.inj (hargs.symm.trans hargs')
  obtain rfl := Except.ok.inj (hresults.symm.trans hresults')
  rfl

namespace Lowering

open Conversion

/-- How the constructor is called when the last argument has the given type. -/
def creationSignature (source : Ty) : Signature where
  name := EntryPoint.newTensor
  argTypes := [EntryPoint.anyVector (.int 8), EntryPoint.anyVector (.int 64),
    EntryPoint.anyVector (.int 64), .int 64, .int 64, .int 64, .int 32, source]
  resultTypes := [.ptr]

/-- The calls that an operation is lowered to, by the types that its operands are lowered to and the
types of its results. -/
def callsFor (kind : OpKind) (operands results : List Ty) : List Signature :=
  match kind with
  | .call name => [⟨name, operands, results⟩]
  | .tensorDim =>
    if operands.head? = some .ptr then [⟨EntryPoint.dimSize, operands, results⟩] else []
  | .sparseNew => operands.head?.toList.map creationSignature
  | .sparseConvert =>
    match results.head?.bind Ty.bufferAccess? with
    | some (accessor, _, element) =>
      [⟨accessor, [.unranked element], [.ptr]⟩, creationSignature .ptr]
    | none => []
  | kind =>
    match arrayAccessor? kind with
    | some accessor? =>
      ((results.head?.bind Ty.element?).bind accessor?).toList.map (⟨·, operands, results⟩)
    | none => []

/-- The calls that an operation of a program is lowered to. -/
def loweredCalls (program : Program) (op : Operation) : List Signature :=
  match op.operands.mapM (loweredType program), program.typesOf op.results with
  | .ok operands, .ok results => callsFor op.kind operands results
  | _, _ => []

variable {program : Program} {op : Operation}

/-- The operations of a list that are calls. -/
def callsIn (ops : List Operation) : List Operation :=
  ops.filter fun op => op.kind.callee?.isSome

/-- Of the operations that make a tensor, only the last one is a call. -/
theorem callsIn_creation (span : Span) (block : TensorBlock) (first : Nat)
    (source handle : ValueId) : callsIn (creation span block first source handle) =
      [callOp EntryPoint.newTensor (TensorBlock.arguments first source) handle span] := by
  simp [callsIn, creation, emitted, TensorBlock.items, callOp, OpKind.callee?]

/-- Of the operations that expose a buffer, only the last one is a call. -/
theorem callsIn_exposure (span : Span) (accessor : String) (shape : List Dim) (element : Ty)
    (first : Nat) (source pointer : ValueId) :
    callsIn (exposure span accessor shape element first source pointer) =
      [callOp accessor [⟨first + 1⟩] pointer span] := by
  simp [callsIn, exposure, emitted, viewItems, callOp, OpKind.callee?]

/-- The constructor is called with its block and its source. -/
theorem Created.calls {block : TensorBlock} {first : Nat} {source handle : ValueId} {ty : Ty}
    (h : Created program block first handle) (hsource : program.typeOf source = .ok ty)
    (span : Span) : program.Calls
      (callOp EntryPoint.newTensor (TensorBlock.arguments first source) handle span)
      (creationSignature ty) := by
  obtain ⟨hblock, hhandle⟩ := h
  refine ⟨rfl, Program.typesOf_eq_ok.mpr ?_, Program.typesOf_eq_ok.mpr (.cons hhandle .nil)⟩
  exact .cons (hblock 1 _ rfl) (.cons (hblock 3 _ rfl) (.cons (hblock 5 _ rfl)
    (.cons (hblock 6 _ rfl) (.cons (hblock 7 _ rfl) (.cons (hblock 8 _ rfl)
      (.cons (hblock 9 _ rfl) (.cons hsource .nil)))))))

/-- The first of several types is that of the first value. -/
theorem head?_of_typesOf {ids : List ValueId} {types : List Ty} {v : ValueId} {ty : Ty}
    (htypes : program.typesOf ids = .ok types) (hv : ids[0]? = some v)
    (hty : program.typeOf v = .ok ty) : types.head? = some ty := by
  obtain _ | ⟨hfirst, -⟩ := Program.typesOf_eq_ok.mp htypes
  · simp at hv
  · obtain rfl := Option.some.inj hv
    exact congrArg some (Except.ok.inj (hfirst.symm.trans hty))

/-- The call that answers a query. -/
theorem Query.callsFor {operands : List ValueId} {operandTypes : List Ty} {kind : OpKind}
    {name : String} {ty : Ty} (h : Query program operands ty kind name)
    (hoperands : program.typesOf operands = .ok operandTypes) :
    callsFor kind operandTypes [ty] = [⟨name, operandTypes, [ty]⟩] := by
  cases h with
  | dim htensor hptr => simp [Lowering.callsFor, head?_of_typesOf hoperands htensor hptr]
  | read harray hname =>
    cases kind <;> simp_all [Lowering.callsFor, arrayAccessor?]

/-- The calls among the operations that another one is expanded into. -/
theorem Expansion.calls {operands values : List ValueId} {new : List Operation}
    {operandTypes resultTypes : List Ty} (h : Expansion program op operands new values)
    (hoperands : program.typesOf operands = .ok operandTypes)
    (hresults : program.typesOf op.results = .ok resultTypes) :
    List.Forall₂ program.Calls (callsIn new) (callsFor op.kind operandTypes resultTypes) := by
  cases h with
  | ret hkind =>
    rw [hkind]
    exact .nil
  | @query name old new ty hold hty hquery hnew =>
    have htypes : program.typesOf op.results = .ok [ty] :=
      Program.typesOf_eq_ok.mpr (hold ▸ .cons hty .nil)
    obtain rfl := Except.ok.inj (hresults.symm.trans htypes)
    rw [hquery.callsFor hoperands]
    exact .cons ⟨rfl, hoperands, Program.typesOf_eq_ok.mpr (.cons hnew .nil)⟩ .nil
  | construct hkind _ hsource hcreated =>
    obtain ⟨ty, -, hty⟩ := exists_of_forall₂ (Program.typesOf_eq_ok.mp hoperands)
      (List.mem_of_getElem? hsource)
    rw [callsIn_creation, hkind, callsFor, head?_of_typesOf hoperands hsource hty]
    exact .cons (hcreated.calls hty _) .nil
  | convert hkind _ _ _ _ _ hold hty haccess hview hpointer hcreated =>
    have hfirst := head?_of_typesOf hresults (by rw [hold]; rfl) hty
    rw [callsIn, List.filter_append, ← callsIn, ← callsIn, callsIn_exposure, callsIn_creation, hkind]
    simp only [callsFor, hfirst, Option.bind_some, haccess]
    refine .cons ⟨rfl, ?_, ?_⟩ (.cons (hcreated.calls hpointer _) .nil)
    · exact Program.typesOf_eq_ok.mpr (.cons (hview 1 _ rfl) .nil)
    · exact Program.typesOf_eq_ok.mpr (.cons hpointer .nil)
  | fold hkind => exact hkind ▸ .nil

section Clean

variable {source target : Program} {start state : Progress} {expand : OpId → List OpId}
  (hsource : source.Valid) (hssa : source.DefBeforeUse) (htarget : target.Valid)
  (h : Lowered source start state expand target) (hclean : rejections target target.allOps = [])
  {id : OpId} (hid : id ∈ source.allOps) (hop : source.ops[id.index]? = some op)

/-- Types that values are lowered to one by one are lists of types. -/
theorem exists_mapM_loweredType {names : ValueId → ValueId} {ids : List ValueId}
    (htypes : ∀ v ∈ ids, ∃ ty, loweredType source v = .ok ty ∧ target.typeOf (names v) = .ok ty) :
    ∃ types, ids.mapM (loweredType source) = .ok types ∧
      target.typesOf (ids.map names) = .ok types := by
  induction ids with
  | nil => exact ⟨[], rfl, rfl⟩
  | cons v rest ih =>
    obtain ⟨ty, hlowered, hty⟩ := htypes v List.mem_cons_self
    obtain ⟨types, hlowereds, htypes⟩ := ih fun w hw => htypes w (List.mem_cons_of_mem v hw)
    refine ⟨ty :: types, ?_, ?_⟩
    · rw [List.mapM_cons]
      exact bind_eq_ok.mpr ⟨ty, hlowered, bind_eq_ok.mpr ⟨types, hlowereds, rfl⟩⟩
    · exact bind_eq_ok.mpr ⟨ty, hty, bind_eq_ok.mpr ⟨types, htypes, rfl⟩⟩

include hsource h hclean hid hop

/-- An operation that stays stands for no call but itself. -/
theorem Lowered.calls_of_kept (hexpand : expand id = [id])
    (hop' : target.ops[id.index]? = some { op with operands := op.operands.map state.aliases.resolve })
    {operands results : List Ty}
    (hoperands : target.typesOf (op.operands.map state.aliases.resolve) = .ok operands)
    (hresults : target.typesOf op.results = .ok results) :
    List.Forall₂ target.Calls
      (callsIn [{ op with operands := op.operands.map state.aliases.resolve }])
      (callsFor op.kind operands results) := by
  have hdeclined := h.declined hid hop hexpand
  have hlegal := h.kept_legal hsource hclean hid hexpand hop'
  rcases kind_cases op.kind with hkind | hkind | hkind | hkind
  · simp only [Declined, hkind] at hdeclined
  · simp only [Declined, hkind] at hdeclined
    obtain ⟨tensor, ty, htensor, hty, hptr⟩ := hdeclined
    have hne : ty ≠ .ptr := by
      rintro rfl
      simp [Ty.isPtr] at hptr
    have hhead := head?_of_typesOf hoperands htensor (h.typeOf tensor ▸ hty)
    simp [hkind, callsIn, callsFor, OpKind.callee?, hhead, hne]
  · have hillegal : legality.isLegal target
        { op with operands := op.operands.map state.aliases.resolve } = .ok false :=
      isLegal_of_sparse hkind
    simp [rejected, hillegal] at hlegal
  · rcases callee?_cases op.kind with hnone | ⟨name, hcall⟩
    · have hempty : callsFor op.kind operands results = [] := by
        cases hkind' : op.kind <;> simp_all [callsFor, arrayAccessor?, ruleFor, OpKind.callee?]
      simp [callsIn, hnone, hempty]
    · rw [hcall]
      exact .cons ⟨rfl, hoperands, hresults⟩ .nil

include hssa htarget

/-- The calls in the place of an operation are those that it is lowered to. -/
theorem Lowered.calls : List.Forall₂ target.Calls (callsIn (target.operations (expand id)))
    (loweredCalls source op) := by
  obtain ⟨operands, hlowered, hoperands⟩ := exists_mapM_loweredType fun v hv =>
    h.typeOf_operand hsource (h.tensorsMade hsource hclean) hssa htarget hid hop hv
  obtain ⟨results, hold⟩ := exists_typesOf_results hsource hop
  have hresults : target.typesOf op.results = .ok results :=
    Program.typesOf_mono (h.renamed.values ▸ h.resigned.values.trans h.walk.values) hold
  rw [loweredCalls, hlowered, hold]
  have hbecame := h.became hsource hid hop
  generalize hexpand : expand id = ids at hbecame
  cases hbecame with
  | kept hop' =>
    rw [Program.operations_cons hop' []]
    exact h.calls_of_kept hsource hclean hid hop hexpand hop' hoperands hresults
  | replaced _ _ hexpansion => exact hexpansion.calls hoperands hresults

/-- A call in the place of an operation is one that the operation is lowered to. -/
theorem Lowered.exists_loweredCall {other : OpId} {op' : Operation} {name : String}
    (hother : other ∈ expand id) (hop' : target.ops[other.index]? = some op')
    (hkind : op'.kind = .call name) : ∃ call ∈ loweredCalls source op, target.Calls op' call := by
  refine exists_of_forall₂ (h.calls hsource hssa htarget hclean hid hop) ?_
  exact List.mem_filter.mpr
    ⟨List.mem_filterMap.mpr ⟨other, hother, hop'⟩, by simp [hkind, OpKind.callee?]⟩

/-- What an operation is lowered to are the calls in its place. -/
theorem Lowered.mem_loweredCalls {call : Signature} : call ∈ loweredCalls source op ↔
    ∃ other ∈ expand id, ∃ op', target.ops[other.index]? = some op' ∧ target.Calls op' call := by
  constructor
  · intro hcall
    have hcalls := h.calls hsource hssa htarget hclean hid hop
    obtain ⟨op', hop', hcalls⟩ := exists_of_forall₂ hcalls.flip hcall
    obtain ⟨other, hother, hget⟩ := List.mem_filterMap.mp (List.mem_filter.mp hop').1
    exact ⟨other, hother, op', hget, hcalls⟩
  · rintro ⟨other, hother, op', hop', hcalls⟩
    obtain ⟨call', hcall', hcalls'⟩ := h.exists_loweredCall hsource hssa htarget hclean hid hop
      hother hop' hcalls.1
    exact hcalls.unique hcalls' ▸ hcall'

end Clean

end Lowering

end TensorLowering
