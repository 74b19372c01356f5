import TensorLowering.Lowering.Sparse
import TensorLowering.Proofs.Emission
import TensorLowering.Proofs.Reachability

/-!
# What the lowering rules do to one operation

For each kind of operation there is at most one rule. An offer ends in one of two ways that are
described here without the scripts: the operation is declined, which leaves no trace, or it is
expanded into new operations over its renamed operands. `Declined` and `Expansion` say when and into
what; a tensor that is put together from the arrays of one handle expands into no operation at all.
-/

namespace TensorLowering

namespace Lowering

/-- The accessors for the arrays that an operation reads, by element type. -/
def arrayAccessor? : OpKind → Option (Ty → Option String)
  | .toPointers => some EntryPoint.pointersAccessor?
  | .toIndices => some EntryPoint.indicesAccessor?
  | .toValues => some EntryPoint.valuesAccessor?
  | _ => none

/-- The entry point that answers a query with a result of the given type. -/
inductive Query (program : Program) (operands : List ValueId) (ty : Ty) : OpKind → String → Prop
  | dim {tensor : ValueId} : operands[0]? = some tensor → program.typeOf tensor = .ok .ptr →
      Query program operands ty .tensorDim EntryPoint.dimSize
  | read {kind : OpKind} {accessor? : Ty → Option String} {name : String} :
      arrayAccessor? kind = some accessor? → ty.element?.bind accessor? = some name →
      Query program operands ty kind name

/-- The root has one result, of a sparse type that this block encodes. -/
def Encodes (program : Program) (root : Operation) (action : Action) (block : TensorBlock) : Prop :=
  ∃ old ty sparsity, root.results = [old] ∧ program.typeOf old = .ok ty ∧
    ty.sparsity? = some sparsity ∧ TensorBlock.encode sparsity ty action = .ok block

/-- The constants of a block and the call that makes a tensor from them and a source. -/
def creation (span : Span) (block : TensorBlock) (first : Nat) (source handle : ValueId) :
    List Operation :=
  emitted span first (block.items first) ++
    [callOp EntryPoint.newTensor (TensorBlock.arguments first source) handle span]

/-- The constants of a block and the handle have their types. -/
def Created (program : Program) (block : TensorBlock) (first : Nat) (handle : ValueId) : Prop :=
  program.Carries first (block.items first) ∧ program.typeOf handle = .ok .ptr

/-- A value viewed as a buffer, and the call that exposes the buffer. -/
def exposure (span : Span) (accessor : String) (shape : List Dim) (element : Ty) (first : Nat)
    (source pointer : ValueId) : List Operation :=
  emitted span first (viewItems source shape element first) ++
    [callOp accessor [⟨first + 1⟩] pointer span]

/-- What an operation over renamed operands is expanded into, and the values that replace its
results. The types are those of the program that the expansion is part of. -/
inductive Expansion (program : Program) (root : Operation) (operands : List ValueId) :
    List Operation → List ValueId → Prop
  | ret (hkind : root.kind = .ret) (hresults : root.results = []) :
      Expansion program root operands
        [{ kind := .ret, operands, results := [], span := root.span }] []
  | query {name : String} {old new : ValueId} {ty : Ty} (hresults : root.results = [old])
      (hold : program.typeOf old = .ok ty) (hquery : Query program operands ty root.kind name)
      (hnew : program.typeOf new = .ok ty) :
      Expansion program root operands [callOp name operands new root.span] [new]
  | construct {block : TensorBlock} {first : Nat} {source handle : ValueId}
      (hkind : root.kind = .sparseNew) (hencodes : Encodes program root .fromMetadata block)
      (hsource : operands[0]? = some source) (hcreated : Created program block first handle) :
      Expansion program root operands (creation root.span block first source handle) [handle]
  | convert {block : TensorBlock} {view first : Nat} {source built pointer handle old : ValueId}
      {sourceTy ty element : Ty} {shape : List Dim} {accessor : String}
      (hkind : root.kind = .sparseConvert) (hencodes : Encodes program root .fromData block)
      (hbuilt : root.operands[0]? = some built) (hbuiltTy : program.typeOf built = .ok sourceTy)
      (hdense : sourceTy.isSparse = false) (hsource : operands[0]? = some source)
      (hresults : root.results = [old]) (hold : program.typeOf old = .ok ty)
      (haccess : ty.bufferAccess? = some (accessor, shape, element))
      (hview : program.Carries view (viewItems source shape element view))
      (hpointer : program.typeOf pointer = .ok .ptr)
      (hcreated : Created program block first handle) :
      Expansion program root operands
        (exposure root.span accessor shape element view source pointer ++
          creation root.span block first pointer handle) [handle]
  | fold {old handle : ValueId} (hkind : root.kind = .toTensor) (hresults : root.results = [old])
      (hhandle : commonHandle program none operands = .ok (some handle)) :
      Expansion program root operands [] [handle]

/-- An offer of this operation over renamed operands is declined. -/
def Declined (program : Program) (root : Operation) (operands : List ValueId) : Prop :=
  match root.kind with
  | .ret => False
  | .tensorDim => ∃ tensor ty, operands[0]? = some tensor ∧ program.typeOf tensor = .ok ty ∧
      ty.isPtr = false
  | .sparseNew => ∃ old ty, root.results[0]? = some old ∧ program.typeOf old = .ok ty ∧
      ty.sparsity? = none
  | .sparseConvert => ∃ old ty, root.results[0]? = some old ∧ program.typeOf old = .ok ty ∧
      (ty.sparsity? = none ∨ ∃ built sourceTy, root.operands[0]? = some built ∧
        program.typeOf built = .ok sourceTy ∧ (sourceTy.isSparse = true ∨
          sourceTy.isSparse = false ∧ (∃ source, operands[0]? = some source) ∧
            ty.bufferAccess? = none))
  | .toTensor => commonHandle program none operands = .ok none
  | kind => ∀ accessor?, arrayAccessor? kind = some accessor? → ∃ old ty,
      root.results[0]? = some old ∧ program.typeOf old = .ok ty ∧ ty.element?.bind accessor? = none

/-- The rule for one kind of operation. -/
def ruleFor : OpKind → Option Pattern
  | .ret => some returnRule
  | .tensorDim => some dimSizeRule
  | .sparseNew => some newRule
  | .sparseConvert => some convertRule
  | .toPointers => some pointersRule
  | .toIndices => some indicesRule
  | .toValues => some valuesRule
  | .toTensor => some tensorRule
  | _ => none

/-- An operation is offered to the rule for its kind and to no other. -/
theorem rootedAt_rules (kind : OpKind) :
    Pattern.rootedAt rules kind.name = (ruleFor kind).toList := by
  cases kind <;> rfl

/-- An operation without a rule is left alone. -/
theorem declined_of_plain {program : Program} {root : Operation} {operands : List ValueId}
    (hrule : ruleFor root.kind = none) : Declined program root operands := by
  unfold Declined
  cases hkind : root.kind <;> simp_all [ruleFor, arrayAccessor?]

/-- A successful attempt at an operation: what it adds and what replaces the results. -/
structure Rewrites (before after : Program) (root : Operation) (operands : List ValueId)
    (new : List Operation) (values : List ValueId) : Prop where
  grows : before.Grows after new
  declares : before.Declares after new
  expansion : Expansion after root operands new values

/-! ### Declining -/

section Declining

open Script

variable {site : Site} {attempt after : Attempt}

/-- A return is never declined. -/
theorem returnRule_ne_none :
    ¬(returnRule.attempt site).run site.root attempt = .ok (none, after) := by
  simp only [returnRule, run_replaceWithNew, reduceCtorEq, and_false, false_and,
    not_false_eq_true]

/-- The extent of anything but a handle is not asked of the library. -/
theorem dimSizeRule_eq_none :
    (dimSizeRule.attempt site).run site.root attempt = .ok (none, after) ↔
      after = attempt ∧ ∃ tensor ty, site.operands[0]? = some tensor ∧
        attempt.program.typeOf tensor = .ok ty ∧ ty.isPtr = false := by
  simp only [dimSizeRule, run_operand_bind, run_typeOf_bind]
  constructor
  · rintro ⟨tensor, htensor, ty, hty, hrun⟩
    cases hptr : ty.isPtr with
    | false =>
      simp only [hptr, Bool.false_eq_true, ↓reduceIte, run_decline, Except.ok.injEq,
        Prod.mk.injEq, true_and] at hrun
      exact ⟨hrun.symm, tensor, ty, htensor, hty, hptr⟩
    | true =>
      simp only [hptr, ↓reduceIte, run_resultType_bind, run_replaceWithCall, reduceCtorEq,
        false_and, and_false, exists_false] at hrun
  · rintro ⟨rfl, tensor, ty, htensor, hty, hptr⟩
    exact ⟨tensor, htensor, ty, hty, by simp [hptr, run_decline]⟩

/-- Once a block is to be emitted the attempt is not declined any more. -/
theorem replaceWithNewTensor_ne_none {sparsity : Sparsity} {action : Action} {source : ValueId} :
    ¬(site.replaceWithNewTensor sparsity action source).run site.root attempt =
      .ok (none, after) := by
  simp only [run_replaceWithNewTensor, run_replaceWithCall, reduceCtorEq, false_and, and_false,
    exists_false, not_false_eq_true]

/-- A new tensor is declined if it is not sparse. -/
theorem newRule_eq_none :
    (newRule.attempt site).run site.root attempt = .ok (none, after) ↔
      after = attempt ∧ ∃ old ty, site.root.results[0]? = some old ∧
        attempt.program.typeOf old = .ok ty ∧ ty.sparsity? = none := by
  simp only [newRule, run_resultType_bind, run_ofOption_bind, run_operand_bind,
    replaceWithNewTensor_ne_none, and_false, exists_false, or_false, true_and]
  constructor
  · rintro ⟨old, ty, hold, hty, hnone, rfl⟩
    exact ⟨rfl, old, ty, hold, hty, hnone⟩
  · rintro ⟨rfl, old, ty, hold, hty, hnone⟩
    exact ⟨old, ty, hold, hty, hnone, rfl⟩

/-- A conversion is declined if it is not to a sparse format, if it is from one, or if no accessor
exposes the buffer. -/
theorem convertRule_eq_none :
    (convertRule.attempt site).run site.root attempt = .ok (none, after) ↔
      after = attempt ∧ ∃ old ty, site.root.results[0]? = some old ∧
        attempt.program.typeOf old = .ok ty ∧
        (ty.sparsity? = none ∨ ∃ built sourceTy, site.root.operands[0]? = some built ∧
          attempt.program.typeOf built = .ok sourceTy ∧ (sourceTy.isSparse = true ∨
            sourceTy.isSparse = false ∧ (∃ source, site.operands[0]? = some source) ∧
              ty.bufferAccess? = none)) := by
  simp only [convertRule, run_resultType_bind, run_ofOption_bind, run_source_bind,
    run_typeOf_bind, true_and]
  constructor
  · rintro ⟨old, ty, hold, hty,
      ⟨hnone, rfl⟩ | ⟨sparsity, hsparsity, built, hbuilt, sourceTy, hsourceTy, hrun⟩⟩
    · exact ⟨rfl, old, ty, hold, hty, .inl hnone⟩
    cases hsparse : sourceTy.isSparse with
    | true =>
      simp only [hsparse, ↓reduceIte, run_decline, Except.ok.injEq, Prod.mk.injEq,
        true_and] at hrun
      exact ⟨hrun.symm, old, ty, hold, hty,
        .inr ⟨built, sourceTy, hbuilt, hsourceTy, .inl hsparse⟩⟩
    | false =>
      simp only [hsparse, Bool.false_eq_true, ↓reduceIte, run_operand_bind, run_exposeBuffer_bind,
        replaceWithNewTensor_ne_none, and_false, exists_false, or_false, true_and] at hrun
      obtain ⟨source, hsource, old', ty', hold', hty', hnone, rfl⟩ := hrun
      obtain rfl := Option.some.inj (hold.symm.trans hold')
      obtain rfl := Except.ok.inj (hty.symm.trans hty')
      exact ⟨rfl, old, ty, hold, hty,
        .inr ⟨built, sourceTy, hbuilt, hsourceTy, .inr ⟨hsparse, ⟨source, hsource⟩, hnone⟩⟩⟩
  · rintro ⟨rfl, old, ty, hold, hty, hcase⟩
    refine ⟨old, ty, hold, hty, ?_⟩
    cases hsparsity : ty.sparsity? with
    | none => exact .inl ⟨rfl, rfl⟩
    | some sparsity =>
      obtain ⟨built, sourceTy, hbuilt, hsourceTy, hcase⟩ := hcase.resolve_left (by simp [hsparsity])
      refine .inr ⟨sparsity, rfl, built, hbuilt, sourceTy, hsourceTy, ?_⟩
      rcases hcase with hsparse | ⟨hdense, ⟨source, hsource⟩, hnone⟩
      · simp [hsparse, run_decline]
      · simp only [hdense, Bool.false_eq_true, ↓reduceIte, run_operand_bind,
          run_exposeBuffer_bind]
        exact ⟨source, hsource, old, ty, hold, hty, .inl ⟨hnone, trivial, trivial⟩⟩

/-- An array is not read if no accessor serves its element type. -/
theorem readArray_eq_none {accessor? : Ty → Option String} :
    (readArray accessor? site).run site.root attempt = .ok (none, after) ↔
      after = attempt ∧ ∃ old ty, site.root.results[0]? = some old ∧
        attempt.program.typeOf old = .ok ty ∧ ty.element?.bind accessor? = none := by
  simp only [readArray, run_resultType_bind, run_ofOption_bind, run_replaceWithCall, reduceCtorEq,
    false_and, and_false, exists_false, or_false, true_and]
  constructor
  · rintro ⟨old, ty, hold, hty, hnone, rfl⟩
    exact ⟨rfl, old, ty, hold, hty, hnone⟩
  · rintro ⟨rfl, old, ty, hold, hty, hnone⟩
    exact ⟨old, ty, hold, hty, hnone, rfl⟩

/-- A tensor is folded into the handle that its operands have in common, if there is one. -/
theorem tensorRule_eq_ok {result : Option Unit} :
    (tensorRule.attempt site).run site.root attempt = .ok (result, after) ↔
      ∃ found, commonHandle attempt.program none site.operands = .ok found ∧
        ((found = none ∧ result = none ∧ after = attempt) ∨
          ∃ handle, found = some handle ∧ attempt.replacement = none ∧
            1 = site.root.results.length ∧ some () = result ∧
            { attempt with replacement := some [handle] } = after) := by
  change (ofExcept (commonHandle attempt.program none site.operands) >>= fun found =>
    (ofOption found >>= fun handle => Script.replace [handle] (.done ()))).run site.root attempt =
      _ ↔ _
  simp only [run_ofExcept_bind, run_ofOption_bind, run_replace, run_done, Except.ok.injEq,
    Prod.mk.injEq, List.length_singleton]

/-- The rule for an operation declines exactly in the cases listed, and then changes nothing. -/
theorem run_eq_none_iff {pattern : Pattern} (hrule : ruleFor site.root.kind = some pattern) :
    (pattern.attempt site).run site.root attempt = .ok (none, after) ↔
      after = attempt ∧ Declined attempt.program site.root site.operands := by
  have hread {kind : OpKind} {accessor? : Ty → Option String}
      (harray : arrayAccessor? kind = some accessor?) :
      (∀ other, arrayAccessor? kind = some other → ∃ old ty, site.root.results[0]? = some old ∧
          attempt.program.typeOf old = .ok ty ∧ ty.element?.bind other = none) ↔
        ∃ old ty, site.root.results[0]? = some old ∧ attempt.program.typeOf old = .ok ty ∧
          ty.element?.bind accessor? = none := by
    simp [harray]
  unfold Declined
  cases hkind : site.root.kind with
  | ret =>
    obtain rfl := Option.some.inj (hkind ▸ hrule)
    simp only [and_false, iff_false]
    exact returnRule_ne_none
  | tensorDim =>
    obtain rfl := Option.some.inj (hkind ▸ hrule)
    exact dimSizeRule_eq_none
  | sparseNew =>
    obtain rfl := Option.some.inj (hkind ▸ hrule)
    exact newRule_eq_none
  | sparseConvert =>
    obtain rfl := Option.some.inj (hkind ▸ hrule)
    exact convertRule_eq_none
  | toPointers =>
    obtain rfl := Option.some.inj (hkind ▸ hrule)
    exact readArray_eq_none.trans (and_congr_right fun _ => (hread rfl).symm)
  | toIndices =>
    obtain rfl := Option.some.inj (hkind ▸ hrule)
    exact readArray_eq_none.trans (and_congr_right fun _ => (hread rfl).symm)
  | toValues =>
    obtain rfl := Option.some.inj (hkind ▸ hrule)
    exact readArray_eq_none.trans (and_congr_right fun _ => (hread rfl).symm)
  | toTensor =>
    obtain rfl := Option.some.inj (hkind ▸ hrule)
    rw [tensorRule_eq_ok]
    simp only [reduceCtorEq, true_and, false_and, and_false, exists_false, or_false]
    exact ⟨fun ⟨found, hfound, hnone, hafter⟩ => ⟨hafter, hnone ▸ hfound⟩,
      fun ⟨hafter, hfound⟩ => ⟨none, hfound, rfl, hafter⟩⟩
  | _ => simp [hkind, ruleFor] at hrule

end Declining

/-! ### Succeeding -/

section Succeeding

open Script Program

variable {site : Site} {program : Program} {log : List Event} {attempt after : Attempt}

/-- A list of one element is determined by its first entry. -/
theorem eq_singleton_of_getElem? {α : Type} {items : List α} {a : α} (hlength : items.length = 1)
    (ha : items[0]? = some a) : items = [a] := by
  obtain ⟨b, rfl⟩ := List.length_eq_one_iff.mp hlength
  simpa using ha

/-- Replacing the root by a call adds the call, with a declaration if need be. -/
theorem replaceWithCall_adds (hvalid : program.Valid) {name : String} {operands : List ValueId}
    {ty : Ty} (hrun : (do let _ ← replaceWithCall name operands [ty] : Script Unit).run site.root
      { program, log } = .ok (some (), after)) :
    ∃ new, program.Grows after.program [callOp name operands new site.root.span] ∧
      program.Declares after.program [callOp name operands new site.root.span] ∧
      after.program.typeOf new = .ok ty ∧ after.replacement = some [new] ∧
      site.root.results.length = 1 := by
  obtain ⟨argTypes, hargs, -, hlength, -, rfl⟩ := run_replaceWithCall.mp hrun
  exact ⟨program.callResult name argTypes [ty], call_grows program name argTypes operands ty _,
    call_declares hvalid hargs ty _, typeOf_call program name argTypes operands ty _, rfl,
    hlength.symm⟩

/-- Replacing the root by a new tensor adds the constants of its block and the call. -/
theorem replaceWithNewTensor_adds (hvalid : attempt.program.Valid) {sparsity : Sparsity}
    {action : Action} {source : ValueId}
    (hrun : (site.replaceWithNewTensor sparsity action source).run site.root attempt =
      .ok (some (), after)) :
    ∃ old ty block handle, site.root.results = [old] ∧ attempt.program.typeOf old = .ok ty ∧
      TensorBlock.encode sparsity ty action = .ok block ∧
      attempt.program.Grows after.program
        (creation site.root.span block attempt.program.values.length source handle) ∧
      attempt.program.Declares after.program
        (creation site.root.span block attempt.program.values.length source handle) ∧
      Created after.program block attempt.program.values.length handle ∧
      after.replacement = some [handle] := by
  obtain ⟨old, ty, hold, hty, block, hblock, hrun⟩ := run_replaceWithNewTensor.mp hrun
  obtain ⟨argTypes, hargs, -, hlength, -, rfl⟩ := run_replaceWithCall.mp hrun
  rw [Attempt.emit_program] at hargs
  let first := attempt.program.values.length
  let constants := attempt.program.emit site.root.span (block.items first)
  have hcall := call_grows constants EntryPoint.newTensor argTypes
    (TensorBlock.arguments first source) .ptr site.root.span
  refine ⟨old, ty, block, constants.callResult EntryPoint.newTensor argTypes [.ptr],
    eq_singleton_of_getElem? hlength.symm hold, hty, hblock, ?_⟩
  simp only [Attempt.call_program, Attempt.emit_program]
  refine ⟨(emit_grows _ _ _).trans hcall, ?_, ⟨(emit_carries _ _ _).mono hcall.values, ?_⟩, rfl⟩
  · refine (emit_declares attempt.program site.root.span fun item hitem => ?_).trans
      (call_declares (emit_valid hvalid _ _) hargs .ptr site.root.span) hcall.values
    simp only [TensorBlock.items, List.mem_cons, List.not_mem_nil, or_false] at hitem
    rcases hitem with rfl | rfl | rfl | rfl | rfl | rfl | rfl | rfl | rfl | rfl <;> rfl
  · exact typeOf_call _ _ _ _ _ _

/-- A return is built again. -/
theorem returnRule_rewrites (hkind : site.root.kind = .ret)
    (hrun : (returnRule.attempt site).run site.root { program, log } = .ok (some (), after)) :
    ∃ new values, Rewrites program after.program site.root site.operands new values ∧
      after.replacement = some values := by
  obtain ⟨-, hlength, -, rfl⟩ := run_replaceWithNew.mp hrun
  have hgrows := Grows.addOp program .ret site.operands [] site.root.span
  refine ⟨_, [], ⟨hgrows, .of_plain (by simp [Attempt.create, addOp]) (by simp [OpKind.callee?]), ?_⟩,
    rfl⟩
  exact .ret hkind (List.eq_nil_of_length_eq_zero hlength.symm)

/-- The extent of a handle becomes a call. -/
theorem dimSizeRule_rewrites (hvalid : program.Valid) (hkind : site.root.kind = .tensorDim)
    (hrun : (dimSizeRule.attempt site).run site.root { program, log } = .ok (some (), after)) :
    ∃ new values, Rewrites program after.program site.root site.operands new values ∧
      after.replacement = some values := by
  simp only [dimSizeRule, run_operand_bind, run_typeOf_bind] at hrun
  obtain ⟨tensor, htensor, tensorTy, htensorTy, hrun⟩ := hrun
  cases hptr : tensorTy.isPtr with
  | false => simp [hptr, run_decline] at hrun
  | true =>
    have hhandle : tensorTy = .ptr := by
      cases tensorTy <;> simp_all [Ty.isPtr]
    simp only [hptr, ↓reduceIte, run_resultType_bind] at hrun
    obtain ⟨old, ty, hold, hty, hrun⟩ := hrun
    obtain ⟨new, hgrows, hdeclares, hnew, hreplacement, hlength⟩ := replaceWithCall_adds hvalid hrun
    refine ⟨_, _, ⟨hgrows, hdeclares, ?_⟩, hreplacement⟩
    refine .query (eq_singleton_of_getElem? hlength hold) (typeOf_mono hgrows.values hty) ?_ hnew
    rw [hkind]
    exact .dim htensor (typeOf_mono hgrows.values (hhandle ▸ htensorTy))

/-- An array of a handle is read by a call. -/
theorem readArray_rewrites (hvalid : program.Valid) {accessor? : Ty → Option String}
    (hkind : arrayAccessor? site.root.kind = some accessor?)
    (hrun : (readArray accessor? site).run site.root { program, log } = .ok (some (), after)) :
    ∃ new values, Rewrites program after.program site.root site.operands new values ∧
      after.replacement = some values := by
  simp only [readArray, run_resultType_bind, run_ofOption_bind, reduceCtorEq, false_and, and_false,
    false_or] at hrun
  obtain ⟨old, ty, hold, hty, name, hname, hrun⟩ := hrun
  obtain ⟨new, hgrows, hdeclares, hnew, hreplacement, hlength⟩ := replaceWithCall_adds hvalid hrun
  exact ⟨_, _, ⟨hgrows, hdeclares, .query (eq_singleton_of_getElem? hlength hold)
    (typeOf_mono hgrows.values hty) (.read hkind hname) hnew⟩, hreplacement⟩

/-- A new sparse tensor is made from its source. -/
theorem newRule_rewrites (hvalid : program.Valid) (hkind : site.root.kind = .sparseNew)
    (hrun : (newRule.attempt site).run site.root { program, log } = .ok (some (), after)) :
    ∃ new values, Rewrites program after.program site.root site.operands new values ∧
      after.replacement = some values := by
  simp only [newRule, run_resultType_bind, run_ofOption_bind, run_operand_bind, reduceCtorEq,
    false_and, and_false, false_or] at hrun
  obtain ⟨old, ty, hold, hty, sparsity, hsparsity, source, hsource, hrun⟩ := hrun
  obtain ⟨old', ty', block, handle, hresults, hty', hblock, hgrows, hdeclares, hcreated,
    hreplacement⟩ := replaceWithNewTensor_adds hvalid hrun
  obtain rfl : old = old' := by simpa [hresults, eq_comm] using hold
  obtain rfl := Except.ok.inj (hty.symm.trans hty')
  exact ⟨_, _, ⟨hgrows, hdeclares, .construct hkind
    ⟨old, ty, sparsity, hresults, typeOf_mono hgrows.values hty, hsparsity, hblock⟩ hsource
    hcreated⟩, hreplacement⟩

/-- A dense source is exposed, and a sparse tensor is made from its buffer. -/
theorem convertRule_rewrites (hvalid : program.Valid) (hkind : site.root.kind = .sparseConvert)
    (hrun : (convertRule.attempt site).run site.root { program, log } = .ok (some (), after)) :
    ∃ new values, Rewrites program after.program site.root site.operands new values ∧
      after.replacement = some values := by
  simp only [convertRule, run_resultType_bind, run_ofOption_bind, run_source_bind,
    run_typeOf_bind, reduceCtorEq, false_and, and_false, false_or] at hrun
  obtain ⟨old, ty, hold, hty, sparsity, hsparsity, built, hbuilt, builtTy, hbuiltTy, hrun⟩ := hrun
  cases hsparse : builtTy.isSparse with
  | true => simp [hsparse, run_decline] at hrun
  | false =>
    simp only [hsparse, Bool.false_eq_true, ↓reduceIte, run_operand_bind, run_exposeBuffer_bind,
      reduceCtorEq, false_and, and_false, false_or, Attempt.emit_program] at hrun
    obtain ⟨source, hsource, old', ty', hold', hty', accessor, shape, element, haccess, argTypes,
      hargs, hrun⟩ := hrun
    obtain rfl := Option.some.inj (hold.symm.trans hold')
    obtain rfl := Except.ok.inj (hty.symm.trans hty')
    let view := program.emit site.root.span
      (viewItems source shape element program.values.length)
    have hview : view.Valid := emit_valid hvalid _ _
    have hcall := call_grows view accessor argTypes [⟨program.values.length + 1⟩] .ptr
      site.root.span
    have hexposed : ∃ attempt : Attempt, attempt.program =
        view.call accessor argTypes [⟨program.values.length + 1⟩] [.ptr] site.root.span ∧
        (site.replaceWithNewTensor sparsity .fromData
          (view.callResult accessor argTypes [.ptr])).run site.root attempt =
            .ok (some (), after) :=
      ⟨_, by rw [Attempt.call_program, Attempt.emit_program], hrun⟩
    obtain ⟨exposed, hprogram, hrun⟩ := hexposed
    obtain ⟨old', ty', block, handle, hresults, hty', hblock, hgrows, hdeclares, hcreated,
      hreplacement⟩ := replaceWithNewTensor_adds (hprogram ▸ call_valid hview _ _ _ _ _) hrun
    rw [hprogram] at hgrows hdeclares hty' hcreated
    obtain rfl : old = old' := by simpa [hresults, eq_comm] using hold
    have hbefore := (emit_grows program site.root.span
      (viewItems source shape element program.values.length)).trans hcall
    obtain rfl := Except.ok.inj ((typeOf_mono hbefore.values hty).symm.trans hty')
    have hafter := hbefore.trans hgrows
    have hold := typeOf_mono hafter.values hty
    refine ⟨_, _, ⟨hafter, ?_, .convert hkind
      ⟨old, ty, sparsity, hresults, hold, hsparsity, hblock⟩ hbuilt
      (typeOf_mono hafter.values hbuiltTy) hsparse hsource hresults hold haccess
      ((emit_carries program site.root.span _).mono (hcall.values.trans hgrows.values))
      (typeOf_mono hgrows.values (typeOf_call view accessor argTypes _ .ptr site.root.span))
      hcreated⟩, hreplacement⟩
    refine Declares.trans (.trans (emit_declares program site.root.span fun item hitem => ?_)
      (call_declares hview hargs .ptr site.root.span) hcall.values) hdeclares hgrows.values
    simp only [viewItems, List.mem_cons, List.not_mem_nil, or_false] at hitem
    rcases hitem with rfl | rfl <;> rfl

/-- A tensor put together from the arrays of one handle is that handle. -/
theorem tensorRule_rewrites (hkind : site.root.kind = .toTensor)
    (hrun : (tensorRule.attempt site).run site.root { program, log } = .ok (some (), after)) :
    ∃ new values, Rewrites program after.program site.root site.operands new values ∧
      after.replacement = some values := by
  obtain ⟨found, hfound, ⟨-, hnone, -⟩ | ⟨handle, rfl, -, hlength, -, rfl⟩⟩ :=
    tensorRule_eq_ok.mp hrun
  · simp at hnone
  · obtain ⟨old, hresults⟩ := List.length_eq_one_iff.mp hlength.symm
    exact ⟨[], [handle], ⟨.refl program, .of_plain rfl (by simp), .fold hkind hresults hfound⟩, rfl⟩

/-- The rule for an operation, when it succeeds, expands it. -/
theorem run_eq_some {pattern : Pattern} (hrule : ruleFor site.root.kind = some pattern)
    (hvalid : program.Valid)
    (hrun : (pattern.attempt site).run site.root { program, log } = .ok (some (), after)) :
    ∃ new values, Rewrites program after.program site.root site.operands new values ∧
      after.replacement = some values := by
  cases hkind : site.root.kind with
  | ret => exact returnRule_rewrites hkind (Option.some.inj (hkind ▸ hrule) ▸ hrun)
  | tensorDim => exact dimSizeRule_rewrites hvalid hkind (Option.some.inj (hkind ▸ hrule) ▸ hrun)
  | sparseNew => exact newRule_rewrites hvalid hkind (Option.some.inj (hkind ▸ hrule) ▸ hrun)
  | sparseConvert => exact convertRule_rewrites hvalid hkind (Option.some.inj (hkind ▸ hrule) ▸ hrun)
  | toTensor => exact tensorRule_rewrites hkind (Option.some.inj (hkind ▸ hrule) ▸ hrun)
  | toPointers =>
    obtain rfl := Option.some.inj (hkind ▸ hrule)
    exact readArray_rewrites hvalid (by rw [hkind]; rfl) hrun
  | toIndices =>
    obtain rfl := Option.some.inj (hkind ▸ hrule)
    exact readArray_rewrites hvalid (by rw [hkind]; rfl) hrun
  | toValues =>
    obtain rfl := Option.some.inj (hkind ▸ hrule)
    exact readArray_rewrites hvalid (by rw [hkind]; rfl) hrun
  | _ => simp [hkind, ruleFor] at hrule

end Succeeding

/-! ### One step of the walk -/

section Step

open Conversion

variable {funcId : FuncId} {opId : OpId} {state after : Progress}

/-- Taking back an attempt that did nothing changes nothing. -/
theorem rollBack_self (program : Program) (log : List Event) :
    rollBack program.funcs.length { program, log } = program := by
  simp [rollBack, Program.truncateFuncs]

/-- The operation was left as it is. -/
structure Keeps (state after : Progress) (root : Operation) : Prop where
  program : after.program = state.program
  aliases : after.aliases = state.aliases
  declined : Declined state.program root (root.operands.map state.aliases.resolve)

/-- The operation was replaced by an expansion over its renamed operands. -/
structure Replaces (funcId : FuncId) (opId : OpId) (state after : Progress) (root : Operation)
    (grown : Program) (new : List Operation) (values : List ValueId) : Prop where
  rewrites : Rewrites state.program grown root (root.operands.map state.aliases.resolve) new values
  valid : grown.Valid
  program : ∃ func pre post, grown.funcs[funcId.index]? = some func ∧
    func.body = some (pre ++ opId :: post) ∧ opId ∉ pre ∧
    after.program = (grown.modifyFunc funcId fun func =>
      { func with body := some (pre ++ state.program.nextOps new.length ++ post) }).eraseOp opId
  aliases : after.aliases = state.aliases.insertAll root.results values

/-- An operation that stands in a block is either kept or replaced. -/
theorem convertOp_cases (hvalid : state.program.Valid) (hstands : opId ∈ state.program.allOps)
    (hrun : convertOp rules funcId opId state = .ok after) :
    ∃ root, state.program.ops[opId.index]? = some root ∧ root.erased = false ∧
      (Keeps state after root ∨
        ∃ grown new values, Replaces funcId opId state after root grown new values) := by
  obtain ⟨root, hroot, hcase⟩ := convertOp_eq_ok.mp hrun
  obtain ⟨root', hroot', hlive⟩ := hvalid.live opId hstands
  obtain rfl := Option.some.inj (hroot.symm.trans hroot')
  obtain ⟨-, hoffer⟩ := hcase.resolve_left (by simp [hlive])
  refine ⟨root, hroot, hlive, ?_⟩
  rw [Operation.name, rootedAt_rules] at hoffer
  cases hrule : ruleFor root.kind with
  | none =>
    simp only [hrule, Option.toList_none, offer, Except.ok.injEq] at hoffer
    subst hoffer
    exact .inl ⟨rfl, rfl, declined_of_plain hrule⟩
  | some pattern =>
    simp only [hrule, Option.toList_some] at hoffer
    rcases offer_cons_eq_ok.mp hoffer with
      ⟨attempt, program, aliases, hattempt, hcommit, rfl⟩ | ⟨attempt, hattempt, hrest⟩
    · obtain ⟨new, values, hrewrites, hvalues⟩ := run_eq_some hrule hvalid hattempt
      obtain ⟨new', hgrows, hinserted⟩ := Script.run_grows _ _ hattempt
      obtain rfl : new = new' :=
        List.append_cancel_left (hrewrites.grows.ops.symm.trans hgrows.ops)
      obtain ⟨values', func, pre, post, hvalues', hfunc, hbody, hpre, rfl, rfl⟩ :=
        commit_eq_ok.mp hcommit
      obtain rfl := Option.some.inj (hvalues.symm.trans hvalues')
      rw [List.nil_append] at hinserted
      exact .inr ⟨attempt.program, new, values, hrewrites, Script.run_valid _ _ hattempt hvalid,
        ⟨func, pre, post, hfunc, hbody, hpre, by rw [hinserted]⟩, rfl⟩
    · obtain ⟨rfl, hdeclined⟩ := (run_eq_none_iff hrule).mp hattempt
      simp only [offer, rollBack_self, Except.ok.injEq] at hrest
      subst hrest
      exact .inl ⟨rfl, rfl, hdeclined⟩

end Step

end Lowering

end TensorLowering
