import TensorLowering.Proofs.Acceptance
import TensorLowering.Proofs.Encodings
import TensorLowering.Proofs.Ranges
import TensorLowering.Proofs.Resubmission

/-!
# Exactly when a run stops at a fault

Operations of regular arity have the operands and results that their rules ask for, and in a
program whose definitions precede uses every value that is read is there. The only fault that
remains is met while the arguments of a new tensor are computed: the annotation does not fit the
rank, or the element type has no code. A conversion never meets the latter, since it asks for the
accessor of the buffer first, and the two tables of element types agree.
-/

namespace TensorLowering

namespace Lowering

open Conversion

/-- The numbers of operands and results that the rules ask for. -/
structure RegularOp (op : Operation) : Prop where
  ret : op.kind = .ret → op.results = []
  operands : op.kind ∈ [.tensorDim, .sparseNew, .sparseConvert] → op.operands ≠ []
  results : op.kind = .tensorDim ∨ op.kind.dialect = .sparseTensor → op.results.length = 1

instance (op : Operation) : Decidable (RegularOp op) :=
  decidable_of_iff ((op.kind = .ret → op.results = []) ∧
      (op.kind ∈ [.tensorDim, .sparseNew, .sparseConvert] → op.operands ≠ []) ∧
      (op.kind = .tensorDim ∨ op.kind.dialect = .sparseTensor → op.results.length = 1))
    ⟨fun h => ⟨h.1, h.2.1, h.2.2⟩, fun h => ⟨h.ret, h.operands, h.results⟩⟩

/-- The operations of all blocks have regular arities. -/
def Regular (program : Program) : Prop :=
  ∀ op ∈ program.operations program.allOps, RegularOp op

instance (program : Program) : Decidable (Regular program) := by
  unfold Regular
  infer_instance

/-- The arguments of the tensor that the operation would make cannot be computed. -/
def Unfit (program : Program) (op : Operation) : Prop :=
  match op.kind with
  | .sparseNew => ∃ shape element sparsity,
      ResultType program op (.tensor shape element (some sparsity)) ∧
      (¬sparsity.FitsRank shape.length ∨ Primary.codeOf element = 0)
  | .sparseConvert => ∃ shape element sparsity source sourceTy,
      ResultType program op (.tensor shape element (some sparsity)) ∧
      op.operands[0]? = some source ∧ program.typeOf source = .ok sourceTy ∧
      sourceTy.isSparse = false ∧ (EntryPoint.bufferAccessor? element).isSome ∧
      ¬sparsity.FitsRank shape.length
  | _ => False

/-- The type of the tensor that the operation would make passes the check of types, and the library
supports its elements if they are not read from a buffer. -/
def Checked (program : Program) (op : Operation) : Prop :=
  ∀ shape element sparsity, ResultType program op (.tensor shape element (some sparsity)) →
    (op.kind = .sparseNew ∨ op.kind = .sparseConvert → sparsity.defect? shape.length = none) ∧
    (op.kind = .sparseNew → Primary.codeOf element ≠ 0)

variable {program : Program} {op : Operation}

/-- What is checked is fit. -/
theorem Checked.not_unfit (h : Checked program op) : ¬Unfit program op := by
  intro hunfit
  unfold Unfit at hunfit
  split at hunfit
  · rename_i hkind
    obtain ⟨shape, element, sparsity, hty, hcase⟩ := hunfit
    obtain ⟨hdefect, hcode⟩ := h shape element sparsity hty
    rcases hcase with hnot | hzero
    · exact hnot (Sparsity.fitsRank_of_defect? (hdefect (.inl hkind)))
    · exact hcode hkind hzero
  · rename_i hkind
    obtain ⟨shape, element, sparsity, _, _, hty, -, -, -, -, hnot⟩ := hunfit
    exact hnot (Sparsity.fitsRank_of_defect? ((h shape element sparsity hty).1 (.inr hkind)))
  · exact hunfit

/-- Sparse tensors are tensors with an annotation. -/
theorem exists_of_sparsity? {ty : Ty} {sparsity : Sparsity} (h : ty.sparsity? = some sparsity) :
    ∃ shape element, ty = .tensor shape element (some sparsity) := by
  cases ty with
  | tensor shape element given =>
    obtain rfl : given = some sparsity := h
    exact ⟨shape, element, rfl⟩
  | _ => simp [Ty.sparsity?] at h

/-- The buffers of a tensor can be exposed if its elements have an accessor. -/
theorem bufferAccess?_tensor {shape : List Dim} {element : Ty} {format : Option Sparsity} :
    (Ty.tensor shape element format).bufferAccess? =
      (EntryPoint.bufferAccessor? element).map fun accessor => (accessor, shape, element) := by
  simp only [Ty.bufferAccess?, Ty.element?, Ty.shape?, Option.bind_some, Option.map_some]
  cases EntryPoint.bufferAccessor? element <;> rfl

/-- An element type with an accessor of buffers has a code. -/
theorem codeOf_ne_zero_of_bufferAccessor? {element : Ty}
    (h : (EntryPoint.bufferAccessor? element).isSome) : Primary.codeOf element ≠ 0 := by
  rw [ne_eq, Primary.codeOf_eq_zero]
  intro hnone
  simp [EntryPoint.bufferAccessor?, hnone] at h

/-! ### What is unfit stops the run -/

/-- An operation that was declined is not unfit. -/
theorem Declined.not_unfit {operands : List ValueId} (h : Declined program op operands) :
    ¬Unfit program op := by
  intro hunfit
  unfold Unfit at hunfit
  split at hunfit
  · rename_i hkind
    simp only [Declined, hkind] at h
    obtain ⟨old, ty, hold, hty, hnone⟩ := h
    obtain ⟨shape, element, sparsity, ⟨old', hold', hty'⟩, -⟩ := hunfit
    obtain rfl := Option.some.inj (hold.symm.trans hold')
    obtain rfl := Except.ok.inj (hty.symm.trans hty')
    simp [Ty.sparsity?] at hnone
  · rename_i hkind
    simp only [Declined, hkind] at h
    obtain ⟨old, ty, hold, hty, hcase⟩ := h
    obtain ⟨shape, element, sparsity, source, sourceTy, ⟨old', hold', hty'⟩, hsource, hsourceTy,
      hdense, haccessor, -⟩ := hunfit
    obtain rfl := Option.some.inj (hold.symm.trans hold')
    obtain rfl := Except.ok.inj (hty.symm.trans hty')
    rcases hcase with hnone | ⟨built, builtTy, hbuilt, hbuiltTy, hsparse | ⟨-, -, hnone⟩⟩
    · simp [Ty.sparsity?] at hnone
    · obtain rfl := Option.some.inj (hsource.symm.trans hbuilt)
      obtain rfl := Except.ok.inj (hsourceTy.symm.trans hbuiltTy)
      simp [hdense] at hsparse
    · rw [bufferAccess?_tensor, Option.map_eq_none_iff] at hnone
      simp [hnone] at haccessor
  · exact hunfit

/-- The result type of an operation that a block was computed for. -/
theorem Encodes.fitsRank {action : Action} {block : TensorBlock} {shape : List Dim} {element : Ty}
    {sparsity : Sparsity} (h : Encodes program op action block)
    (hty : ResultType program op (.tensor shape element (some sparsity))) :
    sparsity.FitsRank shape.length ∧ Primary.codeOf element ≠ 0 := by
  obtain ⟨old, ty, sparsity', hresults, holdTy, hsparsity, hblock⟩ := h
  obtain ⟨old', hold', hty'⟩ := hty
  obtain rfl : old = old' := by simpa [hresults] using hold'
  obtain rfl := Except.ok.inj (holdTy.symm.trans hty')
  obtain rfl : sparsity = sparsity' := by simpa [Ty.sparsity?] using hsparsity
  exact (TensorBlock.exists_encode _ _).mp ⟨block, hblock⟩

/-- An operation that was expanded is not unfit. -/
theorem Expansion.not_unfit {operands : List ValueId} {new : List Operation}
    {values : List ValueId} (h : Expansion program op operands new values) : ¬Unfit program op := by
  intro hunfit
  unfold Unfit at hunfit
  split at hunfit
  · rename_i hkind
    obtain ⟨shape, element, sparsity, hty, hcase⟩ := hunfit
    cases h with
    | construct _ hencodes =>
      obtain ⟨hfits, hcode⟩ := hencodes.fitsRank hty
      exact hcase.elim (fun hnot => hnot hfits) hcode
    | query _ _ hquery =>
      rw [hkind] at hquery
      cases hquery with
      | read harray => simp [arrayAccessor?] at harray
    | ret hother => simp [hkind] at hother
    | convert hother => simp [hkind] at hother
    | fold hother => simp [hkind] at hother
  · rename_i hkind
    obtain ⟨shape, element, sparsity, _, _, hty, -, -, -, -, hnot⟩ := hunfit
    cases h with
    | convert _ hencodes => exact hnot (hencodes.fitsRank hty).1
    | query _ _ hquery =>
      rw [hkind] at hquery
      cases hquery with
      | read harray => simp [arrayAccessor?] at harray
    | ret hother => simp [hkind] at hother
    | construct hother => simp [hkind] at hother
    | fold hother => simp [hkind] at hother
  · exact hunfit

/-- What is unfit stays so while values are added. -/
theorem Unfit.mono {before after : Program} (hvalues : before.values <+: after.values)
    (h : Unfit before op) : Unfit after op := by
  have htype {v : ValueId} {ty : Ty} (hty : before.typeOf v = .ok ty) : after.typeOf v = .ok ty :=
    Program.typeOf_mono hvalues hty
  unfold Unfit at h ⊢
  split at h
  · obtain ⟨shape, element, sparsity, ⟨old, hold, hty⟩, hcase⟩ := h
    exact ⟨shape, element, sparsity, ⟨old, hold, htype hty⟩, hcase⟩
  · obtain ⟨shape, element, sparsity, source, sourceTy, ⟨old, hold, hty⟩, hsource, hsourceTy,
      hrest⟩ := h
    exact ⟨shape, element, sparsity, source, sourceTy, ⟨old, hold, htype hty⟩, hsource,
      htype hsourceTy, hrest⟩
  · exact h

/-- What is unfit was so before, if what it reads and makes was there. -/
theorem Unfit.of_later {before after : Program} (hvalues : before.values <+: after.values)
    (hresults : ∀ v ∈ op.results, before.Has v) (hoperands : ∀ v ∈ op.operands, before.Has v)
    (h : Unfit after op) : Unfit before op := by
  have htype {v : ValueId} {ty : Ty} (hv : before.Has v) (hty : after.typeOf v = .ok ty) :
      before.typeOf v = .ok ty := typeOf_of_later hvalues (Program.has_iff_typeOf.mp hv) hty
  unfold Unfit at h ⊢
  split at h
  · obtain ⟨shape, element, sparsity, ⟨old, hold, hty⟩, hcase⟩ := h
    exact ⟨shape, element, sparsity,
      ⟨old, hold, htype (hresults old (List.mem_of_getElem? hold)) hty⟩, hcase⟩
  · obtain ⟨shape, element, sparsity, source, sourceTy, ⟨old, hold, hty⟩, hsource, hsourceTy,
      hrest⟩ := h
    exact ⟨shape, element, sparsity, source, sourceTy,
      ⟨old, hold, htype (hresults old (List.mem_of_getElem? hold)) hty⟩, hsource,
      htype (hoperands source (List.mem_of_getElem? hsource)) hsourceTy, hrest⟩
  · exact h

/-- A run that comes to its end has met nothing unfit. -/
theorem Lowered.not_unfit {source target : Program} {start state : Progress}
    {expand : OpId → List OpId} (h : Lowered source start state expand target) {id : OpId}
    (hid : id ∈ source.allOps) (hop : source.ops[id.index]? = some op) : ¬Unfit source op := by
  intro hunfit
  have hnow := hunfit.mono (h.resigned.values.trans h.walk.values)
  obtain ⟨op', hop', hrecord⟩ := h.walk.records id hid
  obtain rfl := Option.some.inj (hop.symm.trans hop')
  generalize expand id = ids at hrecord
  cases hrecord with
  | kept _ hdeclined => exact hdeclined.not_unfit hnow
  | replaced _ _ _ hexpansion => exact hexpansion.not_unfit hnow

/-! ### What is fit gets an answer -/

section Answers

open Script

variable {site : Site} {log : List Event}

/-- Creating operations does not replace the root. -/
theorem emit_replacement (attempt : Attempt) (span : Span) (items : List Item) :
    (attempt.emit span items).replacement = attempt.replacement := by
  unfold Attempt.emit
  induction items generalizing attempt with
  | nil => rfl
  | cons item rest ih => exact ih _

/-- The results of emitted items are in the arena. -/
theorem has_emitted (program : Program) (span : Span) {items : List Item} {i : Nat}
    (hi : i < items.length) : (program.emit span items).Has ⟨program.values.length + i⟩ :=
  Program.has_iff_typeOf.mpr
    ⟨_, program.emit_carries span items i _ (List.getElem?_eq_getElem hi)⟩

/-- A root with one result can be replaced by a call on values of the arena. -/
theorem exists_replaceWithCall (attempt : Attempt) (name : String) (ty : Ty)
    {operands : List ValueId} (hoperands : ∀ v ∈ operands, attempt.program.Has v)
    (hfree : attempt.replacement = none) (hresults : op.results.length = 1) :
    ∃ result after, (do let _ ← replaceWithCall name operands [ty] : Script Unit).run op attempt =
      .ok (result, after) := by
  obtain ⟨argTypes, hargs⟩ :=
    exists_typesOf fun v hv => Program.has_iff_typeOf.mp (hoperands v hv)
  exact ⟨_, _, run_replaceWithCall.mpr ⟨argTypes, hargs, hfree, hresults.symm, rfl, rfl⟩⟩

/-- A root can be replaced by a new tensor if the arguments can be computed. -/
theorem exists_replaceWithNewTensor (attempt : Attempt) {sparsity : Sparsity} {action : Action}
    {pointer old : ValueId} {ty : Ty} {block : TensorBlock} (hold : site.root.results = [old])
    (hty : attempt.program.typeOf old = .ok ty)
    (hblock : TensorBlock.encode sparsity ty action = .ok block)
    (hpointer : attempt.program.Has pointer) (hfree : attempt.replacement = none) :
    ∃ result after, (site.replaceWithNewTensor sparsity action pointer).run site.root attempt =
      .ok (result, after) := by
  let first := attempt.program.values.length
  let emitted := attempt.emit site.root.span (block.items first)
  have hconstant : ∀ i < 10, emitted.program.Has ⟨first + i⟩ := fun i hi => by
    rw [Attempt.emit_program]
    exact has_emitted _ _ (by simpa [TensorBlock.items] using hi)
  have hlast : emitted.program.Has pointer := by
    rw [Attempt.emit_program]
    exact hpointer.mono (Program.emit_grows _ _ _).values
  have harguments : ∀ v ∈ TensorBlock.arguments first pointer, emitted.program.Has v := by
    simp only [TensorBlock.arguments, List.forall_mem_cons, List.not_mem_nil, false_implies,
      implies_true, and_true]
    exact ⟨hconstant 1 (by decide), hconstant 3 (by decide), hconstant 5 (by decide),
      hconstant 6 (by decide), hconstant 7 (by decide), hconstant 8 (by decide),
      hconstant 9 (by decide), hlast⟩
  have hresults : site.root.results.length = 1 := by simp [hold]
  obtain ⟨result, after, hrun⟩ := exists_replaceWithCall emitted EntryPoint.newTensor .ptr harguments
    ((emit_replacement _ _ _).trans hfree) hresults
  exact ⟨result, after, run_replaceWithNewTensor.mpr
    ⟨old, ty, by simp [hold], hty, block, hblock, hrun⟩⟩

/-- A buffer for which there is an accessor can be exposed, if the rest of the script can go on with
the pointer. -/
theorem exists_exposeBuffer_bind (log : List Event) (value : ValueId) {old : ValueId} {ty : Ty}
    {accessor : String} {shape : List Dim} {element : Ty} {next : ValueId → Script Unit}
    (hold : site.root.results[0]? = some old) (hty : program.typeOf old = .ok ty)
    (haccess : ty.bufferAccess? = some (accessor, shape, element))
    (hnext : ∀ (exposed : Attempt) (pointer : ValueId), program.values <+: exposed.program.values →
      exposed.replacement = none → exposed.program.Has pointer →
        ∃ result after, (next pointer).run site.root exposed = .ok (result, after)) :
    ∃ result after, (site.exposeBuffer value >>= next).run site.root { program, log } =
      .ok (result, after) := by
  let first := program.values.length
  let view := program.emit site.root.span (viewItems value shape element first)
  obtain ⟨argTypes, hargs⟩ : ∃ argTypes, view.typesOf [⟨first + 1⟩] = .ok argTypes := by
    refine exists_typesOf fun v hv => Program.has_iff_typeOf.mp ?_
    rw [List.mem_singleton.mp hv]
    exact has_emitted _ _ (by simp [viewItems])
  let exposed := (Attempt.emit { program, log } site.root.span
    (viewItems value shape element first)).call accessor argTypes [⟨first + 1⟩] [.ptr] site.root.span
  have hprogram : exposed.program =
      view.call accessor argTypes [⟨first + 1⟩] [.ptr] site.root.span := by
    rw [Attempt.call_program, Attempt.emit_program]
  have hgrows : program.values <+: exposed.program.values := by
    rw [hprogram]
    exact (Program.emit_grows _ _ _).values.trans (Program.call_grows _ _ _ _ _ _).values
  have hpointer : exposed.program.Has (view.callResult accessor argTypes [.ptr]) := by
    rw [hprogram]
    exact Program.has_iff_typeOf.mpr ⟨_, Program.typeOf_call _ _ _ _ _ _⟩
  obtain ⟨result, after, hrun⟩ :=
    hnext exposed _ hgrows (emit_replacement { program, log } _ _) hpointer
  refine ⟨result, after, run_exposeBuffer_bind.mpr ⟨old, ty, hold, hty,
    .inr ⟨accessor, shape, element, haccess, argTypes, ?_, ?_⟩⟩⟩
  · rw [Attempt.emit_program]
    exact hargs
  · rw [Attempt.emit_program]
    exact hrun

/-- All that the rules ask for is there. -/
structure Ready (program : Program) (site : Site) : Prop where
  regular : RegularOp site.root
  fit : ¬Unfit program site.root
  built : ∀ v ∈ site.root.operands, program.Has v
  results : ∀ v ∈ site.root.results, program.Has v
  renamed : site.operands.length = site.root.operands.length
  shown : ∀ v ∈ site.operands, ∃ seen, Shows program v seen

/-- What shows something is in the arena. -/
theorem Shows.has {v : ValueId} {seen : Evidence} (h : Shows program v seen) : program.Has v := by
  cases h with
  | argument hvalue => exact (List.getElem?_eq_some_iff.mp hvalue).1
  | other hvalue => exact (List.getElem?_eq_some_iff.mp hvalue).1
  | bare hvalue => exact (List.getElem?_eq_some_iff.mp hvalue).1
  | handle hvalue => exact (List.getElem?_eq_some_iff.mp hvalue).1
  | foreign hvalue => exact (List.getElem?_eq_some_iff.mp hvalue).1

/-- The renamed operands are in the arena. -/
theorem Ready.operands (h : Ready program site) {v : ValueId} (hv : v ∈ site.operands) :
    program.Has v := by
  obtain ⟨seen, hseen⟩ := h.shown v hv
  exact hseen.has

/-- The one result and its type. -/
theorem Ready.result (h : Ready program site)
    (hkind : site.root.kind = .tensorDim ∨ site.root.kind.dialect = .sparseTensor) :
    ∃ old ty, site.root.results = [old] ∧ program.typeOf old = .ok ty := by
  obtain ⟨old, hold⟩ := List.length_eq_one_iff.mp (h.regular.results hkind)
  obtain ⟨ty, hty⟩ := Program.has_iff_typeOf.mp (h.results old (by simp [hold]))
  exact ⟨old, ty, hold, hty⟩

/-- The first operand, as it was built and as it is now. -/
theorem Ready.first (h : Ready program site)
    (hkind : site.root.kind ∈ [.tensorDim, .sparseNew, .sparseConvert]) :
    ∃ built now, site.root.operands[0]? = some built ∧ site.operands[0]? = some now := by
  have hlength := List.length_pos_iff.mpr (h.regular.operands hkind)
  exact ⟨_, _, List.getElem?_eq_getElem hlength,
    List.getElem?_eq_getElem (h.renamed ▸ hlength : 0 < site.operands.length)⟩

/-- A return is answered. -/
theorem Ready.answers_ret (h : Ready program site) (hkind : site.root.kind = .ret) :
    ∃ result after, (returnRule.attempt site).run site.root { program, log } =
      .ok (result, after) :=
  ⟨_, _, run_replaceWithNew.mpr ⟨rfl, by simp [h.regular.ret hkind], rfl, rfl⟩⟩

/-- A question for an extent is answered. -/
theorem Ready.answers_tensorDim (h : Ready program site) (hkind : site.root.kind = .tensorDim) :
    ∃ result after, (dimSizeRule.attempt site).run site.root { program, log } =
      .ok (result, after) := by
  obtain ⟨old, ty, hold, hty⟩ := h.result (.inl hkind)
  obtain ⟨-, tensor, -, htensor⟩ := h.first (by simp [hkind])
  obtain ⟨tensorTy, htensorTy⟩ :=
    Program.has_iff_typeOf.mp (h.operands (List.mem_of_getElem? htensor))
  cases hptr : tensorTy.isPtr with
  | false =>
    exact ⟨none, _, dimSizeRule_eq_none.mpr ⟨rfl, tensor, tensorTy, htensor, htensorTy, hptr⟩⟩
  | true =>
    obtain ⟨result, after, hrun⟩ := exists_replaceWithCall { program, log } EntryPoint.dimSize ty
      (fun v => h.operands) rfl (h.regular.results (.inl hkind))
    refine ⟨result, after, run_operand_bind.mpr ⟨tensor, htensor, run_typeOf_bind.mpr
      ⟨tensorTy, htensorTy, ?_⟩⟩⟩
    rw [if_pos hptr]
    exact run_resultType_bind.mpr ⟨old, ty, by simp [hold], hty, hrun⟩

/-- A new tensor that is fit is answered. -/
theorem Ready.answers_new (h : Ready program site) (hkind : site.root.kind = .sparseNew) :
    ∃ result after, (newRule.attempt site).run site.root { program, log } =
      .ok (result, after) := by
  obtain ⟨old, ty, hold, hty⟩ := h.result (.inr (by rw [hkind]; rfl))
  obtain ⟨-, source, -, hsource⟩ := h.first (by simp [hkind])
  have hfirst : site.root.results[0]? = some old := by simp [hold]
  cases hsparsity : ty.sparsity? with
  | none => exact ⟨none, _, newRule_eq_none.mpr ⟨rfl, old, ty, hfirst, hty, hsparsity⟩⟩
  | some sparsity =>
    obtain ⟨shape, element, rfl⟩ := exists_of_sparsity? hsparsity
    have hfit := h.fit
    simp only [Unfit, hkind, not_exists, not_and, not_or, not_not] at hfit
    obtain ⟨block, hblock⟩ := (TensorBlock.exists_encode (some sparsity) .fromMetadata).mpr
      (hfit shape element sparsity ⟨old, hfirst, hty⟩)
    obtain ⟨result, after, hrun⟩ := exists_replaceWithNewTensor { program, log } hold hty hblock
      (h.operands (List.mem_of_getElem? hsource)) rfl
    exact ⟨result, after, run_resultType_bind.mpr ⟨old, _, hfirst, hty, run_ofOption_bind.mpr
      (.inr ⟨sparsity, hsparsity, run_operand_bind.mpr ⟨source, hsource, hrun⟩⟩)⟩⟩

/-- A conversion that is fit is answered. -/
theorem Ready.answers_convert (h : Ready program site) (hkind : site.root.kind = .sparseConvert) :
    ∃ result after, (convertRule.attempt site).run site.root { program, log } =
      .ok (result, after) := by
  obtain ⟨old, ty, hold, hty⟩ := h.result (.inr (by rw [hkind]; rfl))
  obtain ⟨built, source, hbuilt, hsource⟩ := h.first (by simp [hkind])
  obtain ⟨builtTy, hbuiltTy⟩ :=
    Program.has_iff_typeOf.mp (h.built built (List.mem_of_getElem? hbuilt))
  have hfirst : site.root.results[0]? = some old := by simp [hold]
  cases hsparsity : ty.sparsity? with
  | none =>
    exact ⟨none, _, convertRule_eq_none.mpr ⟨rfl, old, ty, hfirst, hty, .inl hsparsity⟩⟩
  | some sparsity =>
    cases hsparse : builtTy.isSparse with
    | true =>
      exact ⟨none, _, convertRule_eq_none.mpr
        ⟨rfl, old, ty, hfirst, hty, .inr ⟨built, builtTy, hbuilt, hbuiltTy, .inl hsparse⟩⟩⟩
    | false =>
      obtain ⟨shape, element, rfl⟩ := exists_of_sparsity? hsparsity
      cases haccessor : EntryPoint.bufferAccessor? element with
      | none =>
        have hnone : (Ty.tensor shape element (some sparsity)).bufferAccess? = none := by
          rw [bufferAccess?_tensor, haccessor, Option.map_none]
        exact ⟨none, _, convertRule_eq_none.mpr ⟨rfl, old, _, hfirst, hty, .inr
          ⟨built, builtTy, hbuilt, hbuiltTy, .inr ⟨hsparse, ⟨source, hsource⟩, hnone⟩⟩⟩⟩
      | some accessor =>
        have haccess : (Ty.tensor shape element (some sparsity)).bufferAccess? =
            some (accessor, shape, element) := by
          rw [bufferAccess?_tensor, haccessor, Option.map_some]
        have hfits : sparsity.FitsRank shape.length := by
          by_contra hnot
          apply h.fit
          simp only [Unfit, hkind]
          exact ⟨shape, element, sparsity, built, builtTy, ⟨old, hfirst, hty⟩, hbuilt, hbuiltTy,
            hsparse, by simp [haccessor], hnot⟩
        have hcode : Primary.codeOf element ≠ 0 :=
          codeOf_ne_zero_of_bufferAccessor? (by simp [haccessor])
        obtain ⟨block, hblock⟩ :=
          (TensorBlock.exists_encode (some sparsity) .fromData).mpr ⟨hfits, hcode⟩
        obtain ⟨result, after, hrun⟩ := exists_exposeBuffer_bind log source hfirst hty haccess
          fun exposed pointer hgrows hfree hpointer => exists_replaceWithNewTensor exposed hold
            (Program.typeOf_mono hgrows hty) hblock hpointer hfree
        refine ⟨result, after, run_resultType_bind.mpr ⟨old, _, hfirst, hty, run_ofOption_bind.mpr
          (.inr ⟨sparsity, hsparsity, run_source_bind.mpr ⟨built, hbuilt, run_typeOf_bind.mpr
            ⟨builtTy, hbuiltTy, ?_⟩⟩⟩)⟩⟩
        rw [if_neg (by simp [hsparse])]
        exact run_operand_bind.mpr ⟨source, hsource, hrun⟩

/-- Reading an array is answered. -/
theorem Ready.answers_read (h : Ready program site) {accessor? : Ty → Option String}
    (hkind : arrayAccessor? site.root.kind = some accessor?) :
    ∃ result after, (readArray accessor? site).run site.root { program, log } =
      .ok (result, after) := by
  have hdialect : site.root.kind.dialect = .sparseTensor := by
    generalize site.root.kind = kind at hkind
    cases kind <;> simp_all [arrayAccessor?, OpKind.dialect]
  obtain ⟨old, ty, hold, hty⟩ := h.result (.inr hdialect)
  have hfirst : site.root.results[0]? = some old := by simp [hold]
  cases hname : ty.element?.bind accessor? with
  | none => exact ⟨none, _, readArray_eq_none.mpr ⟨rfl, old, ty, hfirst, hty, hname⟩⟩
  | some name =>
    obtain ⟨result, after, hrun⟩ := exists_replaceWithCall { program, log } name ty
      (fun v => h.operands) rfl (h.regular.results (.inr hdialect))
    exact ⟨result, after, run_resultType_bind.mpr ⟨old, ty, hfirst, hty, run_ofOption_bind.mpr
      (.inr ⟨name, hname, hrun⟩)⟩⟩

/-- Putting a tensor together is answered. -/
theorem Ready.answers_tensor (h : Ready program site) (hkind : site.root.kind = .toTensor) :
    ∃ result after, (tensorRule.attempt site).run site.root { program, log } =
      .ok (result, after) := by
  obtain ⟨found, hfound⟩ := exists_commonHandle none h.shown
  have hresults := h.regular.results (.inr (by rw [hkind]; rfl))
  cases found with
  | none => exact ⟨none, _, tensorRule_eq_ok.mpr ⟨none, hfound, .inl ⟨rfl, rfl, rfl⟩⟩⟩
  | some handle =>
    exact ⟨_, _, tensorRule_eq_ok.mpr
      ⟨some handle, hfound, .inr ⟨handle, rfl, rfl, hresults.symm, rfl, rfl⟩⟩⟩

/-- The rule for an operation answers if all that it asks for is there. -/
theorem Ready.answers (h : Ready program site) {pattern : Pattern}
    (hrule : ruleFor site.root.kind = some pattern) :
    ∃ result after, (pattern.attempt site).run site.root { program, log } =
      .ok (result, after) := by
  cases hkind : site.root.kind with
  | ret => exact Option.some.inj (hkind ▸ hrule) ▸ h.answers_ret hkind
  | tensorDim => exact Option.some.inj (hkind ▸ hrule) ▸ h.answers_tensorDim hkind
  | sparseNew => exact Option.some.inj (hkind ▸ hrule) ▸ h.answers_new hkind
  | sparseConvert => exact Option.some.inj (hkind ▸ hrule) ▸ h.answers_convert hkind
  | toTensor => exact Option.some.inj (hkind ▸ hrule) ▸ h.answers_tensor hkind
  | toPointers =>
    obtain rfl := Option.some.inj (hkind ▸ hrule)
    exact h.answers_read (by rw [hkind]; rfl)
  | toIndices =>
    obtain rfl := Option.some.inj (hkind ▸ hrule)
    exact h.answers_read (by rw [hkind]; rfl)
  | toValues =>
    obtain rfl := Option.some.inj (hkind ▸ hrule)
    exact h.answers_read (by rw [hkind]; rfl)
  | _ => simp [hkind, ruleFor] at hrule

end Answers

/-! ### Every visit comes to its end -/

/-- An operation that stands in a block is visited without a fault if all that is asked for is
there. -/
theorem exists_convertOp_of_ready {state : Progress} {funcId : FuncId} {id : OpId} {func : Func}
    {body : List OpId} (hvalid : state.program.Valid)
    (hop : state.program.ops[id.index]? = some op) (hlive : op.erased = false)
    (hfunc : state.program.funcs[funcId.index]? = some func) (hbody : func.body = some body)
    (hmem : id ∈ body)
    (hready : Ready state.program ⟨id, op, op.operands.map state.aliases.resolve⟩) :
    ∃ after, convertOp rules funcId id state = .ok after := by
  let site : Site := ⟨id, op, op.operands.map state.aliases.resolve⟩
  obtain ⟨after, hoffer⟩ : ∃ after, offer funcId id site (ruleFor op.kind).toList state =
      .ok after := by
    cases hrule : ruleFor op.kind with
    | none => exact ⟨state, rfl⟩
    | some pattern =>
      have hrule' : ruleFor site.root.kind = some pattern := hrule
      obtain ⟨_ | ⟨⟩, attempt, hrun⟩ : ∃ result attempt, (pattern.attempt site).run site.root
          { program := state.program, log := state.log } = .ok (result, attempt) :=
        hready.answers hrule'
      · exact ⟨_, offer_cons_eq_ok.mpr (.inr ⟨attempt, hrun, rfl⟩)⟩
      · obtain ⟨new, values, hrewrites, hvalues⟩ := run_eq_some hrule' hvalid hrun
        obtain ⟨program, hcommit⟩ := exists_commit pattern op state.aliases hvalues
          (hrewrites.grows.func hfunc) hbody hmem
        exact ⟨_, offer_cons_eq_ok.mpr (.inl ⟨attempt, program, _, hrun, hcommit, rfl⟩)⟩
  exact ⟨after, convertOp_eq_ok_of_offer hop hlive hoffer⟩

variable {source : Program} {start state : Progress} {done : List OpId} {expand : OpId → List OpId}

/-- A settled value of the arena with its final name shows something. -/
theorem Walk.exists_shows (h : Walk source start done expand state)
    (hdone : ∀ id ∈ done, id ∈ source.allOps) (hrange : InRange source state) {x : ValueId}
    (hx : source.Settled done x) (hname : state.aliases.next? x = none)
    (hhas : state.program.Has x) : ∃ seen, Shows state.program x seen := by
  obtain ⟨⟨ty, origin⟩, hvalue⟩ : ∃ value, state.program.values[x.index]? = some value :=
    ⟨_, List.getElem?_eq_getElem hhas⟩
  cases origin with
  | argument func k => exact ⟨_, .argument hvalue⟩
  | result id k =>
    obtain ⟨op, hop, hresult⟩ := h.valid.origins _ _ _ _ hvalue
    refine exists_shows_of_result hvalue hop fun first hfirst => Program.has_iff_typeOf.mp ?_
    refine hrange.operands id op ?_ hop first (List.mem_of_mem_head? hfirst)
    rcases h.producer_cases hop (List.mem_of_getElem? hresult) hx hname with hnew | ⟨hid, -⟩
    · exact .inr hnew
    · exact .inl (hdone id hid)

/-- If nothing is unfit, all that a visit asks for is there. -/
theorem Walk.ready (hsource : source.Valid) (hssa : source.DefBeforeUse)
    (hresigned : Resigned handleTypes source start) (h : Walk source start done expand state)
    (hrange : InRange source state) {id : OpId} {post : List OpId}
    (hall : source.allOps = done ++ id :: post) (hop : source.ops[id.index]? = some op)
    (hregular : RegularOp op) (hfit : ¬Unfit source op) :
    Ready state.program ⟨id, op, op.operands.map state.aliases.resolve⟩ := by
  have hid : id ∈ source.allOps := by simp [hall]
  have hvalues := hresigned.values.trans h.values
  have hresults : ∀ v ∈ op.results, source.Has v := fun v hv => hsource.result_lt hop hv
  have hoperands : ∀ v ∈ op.operands, source.Has v := fun v hv =>
    Program.has_iff_typeOf.mpr (exists_typeOf_operand hsource hssa hid hop hv)
  refine ⟨hregular, fun hunfit => hfit ?_, fun v hv => (hoperands v hv).mono hvalues,
    fun v hv => (hresults v hv).mono hvalues, by simp, fun v hv => ?_⟩
  · exact hunfit.of_later hvalues hresults hoperands
  · obtain ⟨x, hx, rfl⟩ := List.mem_map.mp hv
    exact h.exists_shows (fun other hother => by simp [hall, hother]) hrange
      (h.closed x (hssa.settled hsource hall hop hx)) (h.acyclic.next?_resolve x)
      (hrange.resolve ((hoperands x hx).mono hvalues))

/-- If the operations are regular and fit, every visit comes to its end. -/
theorem eachVisit_of_fit (hsource : source.Valid) (hssa : source.DefBeforeUse)
    (hresigned : Resigned handleTypes source start) (hregular : Regular source)
    (hfit : ∀ op ∈ source.operations source.allOps, ¬Unfit source op) :
    EachVisit source start (InRange source) := by
  intro done post expand state id op funcId func body hall hwalk hrange hop hfunc hbody hmem
  have hid : id ∈ source.allOps := by simp [hall]
  have hlisted : op ∈ source.operations source.allOps := List.mem_filterMap.mpr ⟨id, hid, hop⟩
  obtain ⟨hnow, hlive, hblock, hstands⟩ := hwalk.stands hsource hall hop hbody hmem
  have hready := hwalk.ready hsource hssa hresigned hrange hall hop (hregular op hlisted)
    (hfit op hlisted)
  obtain ⟨after, hafter⟩ := exists_convertOp_of_ready hwalk.valid hnow hlive
    (hwalk.func hfunc) hblock hstands hready
  refine ⟨after, hafter, hrange.convertOp hwalk.valid hid ?_ hafter⟩
  exact Program.mem_allOps (hwalk.func hfunc) (by simpa [Func.bodyOps, hblock] using hstands)

/-- Exactly when a run stops at a fault. If definitions precede uses and arities are regular, it
does so if and only if some operation of a block is unfit: a new sparse tensor whose annotation
does not fit its rank or whose element type has no code, or a conversion from something dense to a
sparse tensor with an accessor for its elements and an annotation that does not fit. So it never
does when the types of the tensors that are made pass the check of types and those of new ones have
a code. -/
theorem lower_stops_iff (hreach : program.Reachable) (hssa : program.DefBeforeUse)
    (hregular : Regular program) :
    ((∃ halt, lower program = .error halt) ↔
      ∃ op ∈ program.operations program.allOps, Unfit program op) ∧
    ((∀ op ∈ program.operations program.allOps, Checked program op) →
      ∃ outcome, lower program = .ok outcome) := by
  have hvalid := hreach.valid
  have hends : (∀ op ∈ program.operations program.allOps, ¬Unfit program op) →
      ∃ outcome, lower program = .ok outcome := by
    intro hfit
    have hrange : program.OperandsInRange := by
      intro op hop v hv
      obtain ⟨id, hid, hop⟩ := List.mem_filterMap.mp hop
      exact Program.has_iff_typeOf.mpr (exists_typeOf_operand hvalid hssa hid hop hv)
    obtain ⟨state, hwalk, -⟩ := exists_walk_of_eachVisit hvalid hssa fun start hresigned =>
      ⟨.begin hresigned hrange, eachVisit_of_fit hvalid hssa hresigned hregular hfit⟩
    exact exists_lower_of_walk hvalid hssa hwalk
  refine ⟨⟨fun ⟨halt, hrun⟩ => ?_, fun ⟨op, hop, hunfit⟩ => ?_⟩, fun hchecked => ?_⟩
  · by_contra hnone
    obtain ⟨outcome, hrun'⟩ := hends fun op hop hunfit => hnone ⟨op, hop, hunfit⟩
    simp [hrun] at hrun'
  · obtain ⟨id, hid, hop⟩ := List.mem_filterMap.mp hop
    cases hrun : lower program with
    | error halt => exact ⟨halt, rfl⟩
    | ok outcome =>
      obtain ⟨start, state, expand, -, hlowered⟩ := exists_lowered hvalid hssa hrun
      exact absurd hunfit (hlowered.not_unfit hid hop)
  · exact hends fun op hop => (hchecked op hop).not_unfit

/-- A dense matrix is converted to a sparse format whose order stores one dimension twice. -/
def skewed : Program := .listed
  [{ name := "skew"
     argTypes := [.dense [.static 4, .static 4] .f64]
     lines := some [
      { kind := .sparseConvert
        operands := [0]
        types := [.tensor [.static 4, .static 4] .f64
          (some { levels := [.dense, .compressed], order := some ⟨[0, 0]⟩ })] },
      { kind := .ret, operands := [] }] }]

/-- The order is not a permutation, so the run stops. -/
theorem lower_stops_iff_skewed : skewed.Reachable ∧ skewed.DefBeforeUse ∧ Regular skewed ∧
    (∃ op ∈ skewed.operations skewed.allOps, Unfit skewed op) ∧
    ∃ halt, lower skewed = .error halt := by
  have hreach : skewed.Reachable := Program.reachable_listed _
  have hssa : skewed.DefBeforeUse := by decide +kernel
  have hregular : Regular skewed := by decide +kernel
  have hunfit : ∃ op ∈ skewed.operations skewed.allOps, Unfit skewed op := by
    refine ⟨{ kind := .sparseConvert, operands := [⟨0⟩], results := [⟨1⟩], span := .nowhere },
      by decide +kernel, ?_⟩
    refine ⟨[.static 4, .static 4], .f64, { levels := [.dense, .compressed], order := some ⟨[0, 0]⟩ },
      ⟨0⟩, .dense [.static 4, .static 4] .f64, ⟨⟨1⟩, rfl, by decide +kernel⟩, rfl,
      by decide +kernel, rfl, rfl, fun hfits => ?_⟩
    exact absurd (hfits.2 ⟨[0, 0]⟩ rfl) (by decide)
  exact ⟨hreach, hssa, hregular, hunfit, (lower_stops_iff hreach hssa hregular).1.mpr hunfit⟩

end Lowering

end TensorLowering
