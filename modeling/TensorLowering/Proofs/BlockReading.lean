import TensorLowering.Proofs.Dataflow
import TensorLowering.Proofs.Encodings

/-!
# Reading the arguments of a new tensor back

The library takes the description of a new tensor by position: three arrays, four numbers and a
pointer. Several of them have the same type, and nothing checks their order. A reader that knows the
positions and widths only follows each argument to the constant behind it; it looks at nothing but
operations that stand in front of the call and were put there together with it. What it finds is the
block of the annotation that the call was made for, whatever the rank and the order of the levels.
-/

namespace TensorLowering

/-- The action of a code. -/
def Action.ofCode? : Nat → Option Action
  | 0 => some .fromMetadata
  | 1 => some .fromData
  | _ => none

/-- Codes of actions are read back. -/
theorem Action.ofCode?_code (action : Action) : ofCode? action.code = some action := by
  cases action <;> rfl

/-- What the library is to do with the pointer, for the operations that make a tensor. -/
def OpKind.action? : OpKind → Option Action
  | .sparseNew => some .fromMetadata
  | .sparseConvert => some .fromData
  | _ => none

/-- The arrays of a block have one entry for each level. -/
def TensorBlock.HasRank (block : TensorBlock) (rank : Nat) : Prop :=
  block.levels.length = rank ∧ block.sizes.length = rank ∧ block.permutation.length = rank

/-- The arrays that are computed from an annotation have its rank. -/
theorem TensorBlock.hasRank_of_encode {sparsity : Sparsity} {ty : Ty} {action : Action}
    {block : TensorBlock} (h : encode sparsity ty action = .ok block) :
    block.HasRank sparsity.rank := by
  simp only [encode, bind_eq_ok, pure_eq_ok] at h
  obtain ⟨shape, hshape, permutation, hpermutation, primary, -, rfl⟩ := h
  refine ⟨by simp [Sparsity.rank], ?_, ?_⟩
  · unfold shapeOf at hshape
    cases hextents : ty.shape? with
    | none => simp [hextents] at hshape
    | some extents =>
      simp only [hextents] at hshape
      split at hshape
      · obtain rfl := Except.ok.inj hshape
        simpa
      · simp at hshape
  · cases horder : sparsity.order with
    | none =>
      rw [horder, permutationOf, Except.ok.injEq] at hpermutation
      simp [← hpermutation]
    | some order =>
      rw [horder, permutationOf] at hpermutation
      split at hpermutation
      · obtain rfl := Except.ok.inj hpermutation
        simp_all [LevelOrder.inverse]
      · simp at hpermutation

/-! ### The reader -/

namespace Program

/-- The operation among the given ones that defines a value. -/
def producer? (program : Program) (ids : List OpId) (v : ValueId) : Option Operation := do
  let value ← program.values[v.index]?
  let id ← value.origin.op?
  if id ∈ ids then program.ops[id.index]? else none

/-- The value has this type. -/
def hasType (program : Program) (v : ValueId) (ty : Ty) : Bool :=
  program.values[v.index]?.any fun value => value.ty = ty

/-- The only operand of the operation of this kind that defines a value. -/
def operandOf? (program : Program) (ids : List OpId) (kind : OpKind) (v : ValueId) :
    Option ValueId := do
  let op ← program.producer? ids v
  match op.operands with
  | [operand] => if op.kind = kind then some operand else none
  | _ => none

/-- The entries of a constant array of this width, typed by its length, that is read through a cast
to an array of any length. -/
def readArray? (program : Program) (ids : List OpId) (width : Nat) (v : ValueId) :
    Option (List Nat) := do
  let array ← program.operandOf? ids .tensorCast v
  let op ← program.producer? ids array
  match op.kind with
  | .constant (.dense bits entries) =>
    if bits = width ∧ program.hasType v (EntryPoint.anyVector (.int width)) ∧
        program.hasType array (.dense [.static entries.length] (.int width)) then
      some entries
    else none
  | _ => none

/-- A constant number of this width. -/
def readNumber? (program : Program) (ids : List OpId) (width : Nat) (v : ValueId) :
    Option Nat := do
  let op ← program.producer? ids v
  match op.kind with
  | .constant (.int number bits) =>
    if bits = width ∧ program.hasType v (.int width) then number.toNat? else none
  | _ => none

/-- The block and the pointer behind the arguments of a new tensor. -/
def readBlock? (program : Program) (ids : List OpId) :
    List ValueId → Option (TensorBlock × ValueId)
  | [levels, sizes, permutation, pointerOverhead, indexOverhead, primary, action, pointer] => do
    let levels ← program.readArray? ids 8 levels
    let sizes ← program.readArray? ids 64 sizes
    let permutation ← program.readArray? ids 64 permutation
    let pointerOverhead ← program.readNumber? ids 64 pointerOverhead
    let indexOverhead ← program.readNumber? ids 64 indexOverhead
    let primary ← program.readNumber? ids 64 primary
    let action ← Action.ofCode? (← program.readNumber? ids 32 action)
    some ({ levels, sizes, permutation, pointerOverhead, indexOverhead, primary, action }, pointer)
  | _ => none

/-- The value that a pointer was taken from: the pointer itself where the library is to read a
source; where it is to take over data, the value whose buffer the accessor for the element type
exposes, by way of a view of unknown rank. -/
def readSource? (program : Program) (ids : List OpId) (ty : Ty) (pointer : ValueId) :
    Action → Option ValueId
  | .fromMetadata => some pointer
  | .fromData => do
    let element ← ty.element?
    let accessor ← EntryPoint.bufferAccessor? element
    let view ← program.operandOf? ids (.call accessor) pointer
    let buffer ← program.operandOf? ids .memrefCast view
    let value ← program.operandOf? ids .bufferCast buffer
    if program.hasType view (.unranked element) then some value else none

variable {program : Program} {ids : List OpId} {op : Operation} {v : ValueId}

/-- Types are found. -/
theorem hasType_of_typeOf {ty : Ty} (h : program.typeOf v = .ok ty) :
    program.hasType v ty = true := by
  obtain ⟨origin, hvalue⟩ := typeOf_eq_ok.mp h
  simp [hasType, hvalue]

/-- A result leads back to its operation. -/
theorem producer?_of_mem (hvalid : program.Valid) (hop : op ∈ program.operations ids)
    (hv : v ∈ op.results) : program.producer? ids v = some op := by
  obtain ⟨id, hid, hget⟩ := List.mem_filterMap.mp hop
  obtain ⟨k, hk⟩ := List.mem_iff_getElem?.mp hv
  obtain ⟨ty, hvalue⟩ := hvalid.results id.index k op v hget hk
  have hproducer : program.producer? ids v = if id ∈ ids then program.ops[id.index]? else none := by
    simp [producer?, hvalue, Origin.op?]
  rw [hproducer, if_pos hid, hget]

/-- A result of an operation with one operand leads to the operand. -/
theorem operandOf?_of_mem (hvalid : program.Valid) (hop : op ∈ program.operations ids)
    (hv : v ∈ op.results) {operand : ValueId} (hoperands : op.operands = [operand]) :
    program.operandOf? ids op.kind v = some operand := by
  simp [operandOf?, producer?_of_mem hvalid hop hv, hoperands]

section Emitted

variable {span : Span} {first : Nat} {items : List Item} (hvalid : program.Valid)
  (hcarries : program.Carries first items)
  (hemitted : ∀ op ∈ emitted span first items, op ∈ program.operations ids)

/-- The operation of an item is emitted with the value of its position. -/
theorem mem_emitted_of_getElem? {span : Span} {first i : Nat} {items : List Item} {item : Item}
    (hitem : items[i]? = some item) :
    { kind := item.kind, operands := item.operands, results := [⟨first + i⟩], span } ∈
      emitted span first items := by
  induction items generalizing first i with
  | nil => simp at hitem
  | cons head rest ih =>
    cases i with
    | zero =>
      obtain rfl := Option.some.inj hitem
      exact List.mem_cons_self
    | succ i =>
      have hrest := @ih (first + 1) i hitem
      rw [Nat.add_assoc, Nat.add_comm 1 i] at hrest
      exact List.mem_cons_of_mem _ hrest

include hvalid hcarries hemitted

/-- An emitted array is read back. -/
theorem readArray?_emitted {i width : Nat} {entries : List Nat}
    (hconstant : items[i]? = some ⟨.constant (.dense width entries), [],
      .dense [.static entries.length] (.int width)⟩)
    (hcast : items[i + 1]? = some ⟨.tensorCast, [⟨first + i⟩], EntryPoint.anyVector (.int width)⟩) :
    program.readArray? ids width ⟨first + (i + 1)⟩ = some entries := by
  have hoperand := operandOf?_of_mem hvalid (hemitted _ (mem_emitted_of_getElem? hcast))
    (List.mem_singleton_self _) rfl
  have hproducer := producer?_of_mem hvalid (hemitted _ (mem_emitted_of_getElem? hconstant))
    (List.mem_singleton_self _)
  simp [readArray?, hoperand, hproducer, hasType_of_typeOf (hcarries _ _ hcast),
    hasType_of_typeOf (hcarries _ _ hconstant)]

/-- An emitted number is read back. -/
theorem readNumber?_emitted {i width number : Nat}
    (hconstant : items[i]? = some ⟨.constant (.int number width), [], .int width⟩) :
    program.readNumber? ids width ⟨first + i⟩ = some number := by
  have hproducer := producer?_of_mem hvalid (hemitted _ (mem_emitted_of_getElem? hconstant))
    (List.mem_singleton_self _)
  simp [readNumber?, hproducer, hasType_of_typeOf (hcarries _ _ hconstant), Int.toNat?]

end Emitted

/-- The constants of a block are read back as the block. -/
theorem readBlock?_arguments {span : Span} {first : Nat} {block : TensorBlock} {pointer : ValueId}
    (hvalid : program.Valid) (hcarries : program.Carries first (block.items first))
    (hemitted : ∀ op ∈ emitted span first (block.items first), op ∈ program.operations ids) :
    program.readBlock? ids (TensorBlock.arguments first pointer) = some (block, pointer) := by
  have hlevels := readArray?_emitted (i := 0) hvalid hcarries hemitted rfl rfl
  have hsizes := readArray?_emitted (i := 2) hvalid hcarries hemitted rfl rfl
  have hpermutation := readArray?_emitted (i := 4) hvalid hcarries hemitted rfl rfl
  have hpointer := readNumber?_emitted (i := 6) hvalid hcarries hemitted rfl
  have hindex := readNumber?_emitted (i := 7) hvalid hcarries hemitted rfl
  have hprimary := readNumber?_emitted (i := 8) hvalid hcarries hemitted rfl
  have haction := readNumber?_emitted (i := 9) hvalid hcarries hemitted rfl
  simp only [Nat.reduceAdd] at hlevels hsizes hpermutation
  simp [readBlock?, TensorBlock.arguments, hlevels, hsizes, hpermutation, hpointer, hindex,
    hprimary, haction, Action.ofCode?_code]

end Program

/-! ### The call that takes the place of an operation -/

namespace Lowering

open Conversion

/-- The call makes the tensor of an operation. Its result is what the result of the operation stands
for. In front of it are operations with the span of the original one, from which the block of the
annotation is read back, and the source of the original under its final name. -/
structure NewTensorCall (source target : Program) (names : ValueId → ValueId) (op : Operation)
    (action : Action) (ids : List OpId) (call : Operation) : Prop where
  callee : call.kind = .call EntryPoint.newTensor
  arity : call.operands.length = 8
  results : call.results = op.results.map names
  handle : ∃ handle, call.results = [handle] ∧ target.typeOf handle = .ok .ptr
  spans : call.span = op.span ∧ ∀ other ∈ target.operations ids, other.span = op.span
  reads : ∃ old ty sparsity block pointer built, op.results = [old] ∧ source.typeOf old = .ok ty ∧
    ty.sparsity? = some sparsity ∧ TensorBlock.encode sparsity ty action = .ok block ∧
    block.HasRank sparsity.rank ∧ target.readBlock? ids call.operands = some (block, pointer) ∧
    op.operands[0]? = some built ∧ target.readSource? ids ty pointer action = some (names built)

variable {source target : Program} {op call : Operation} {ids : List OpId}

/-- Operations that end in a given one have it at an id. -/
theorem exists_last_of_operations {new : List Operation}
    (h : target.operations ids = new ++ [call]) : ∃ front last back, ids = front ++ last :: back ∧
      target.operations front = new ∧ target.ops[last.index]? = some call := by
  obtain ⟨front, rest, rfl, hfront, hrest⟩ := List.filterMap_eq_append_iff.mp h
  obtain ⟨missing, last, back, rfl, hmissing, hlast, -⟩ := List.filterMap_eq_cons_iff.mp hrest
  refine ⟨front ++ missing, last, back, by simp, ?_, hlast⟩
  rw [Program.operations_append, Program.operations, Program.operations, hfront,
    List.filterMap_eq_nil_iff.mpr hmissing, List.append_nil]

/-- All emitted operations have the given span. -/
theorem span_of_emitted {span : Span} {first : Nat} {items : List Item}
    (h : op ∈ emitted span first items) : op.span = span := by
  induction items generalizing first with
  | nil => simp [emitted] at h
  | cons item rest ih =>
    rcases List.mem_cons.mp h with rfl | hrest
    · rfl
    · exact ih hrest

/-- A pointer to an exposed buffer is read back as the value behind the buffer. -/
theorem readSource?_exposure (hvalid : target.Valid) {span : Span} {accessor : String}
    {shape : List Dim} {element ty : Ty} {view : Nat} {value pointer : ValueId}
    (haccess : ty.bufferAccess? = some (accessor, shape, element))
    (hview : target.Carries view (viewItems value shape element view))
    (hexposure : ∀ op ∈ exposure span accessor shape element view value pointer,
      op ∈ target.operations ids) :
    target.readSource? ids ty pointer .fromData = some value := by
  simp only [Ty.bufferAccess?, Option.bind_eq_some_iff, Option.map_eq_some_iff] at haccess
  obtain ⟨element', helement, accessor', haccessor, shape', -, heq⟩ := haccess
  obtain ⟨rfl, rfl, rfl⟩ : accessor' = accessor ∧ shape' = shape ∧ element' = element := by
    simpa using heq
  have hcall := Program.operandOf?_of_mem (v := pointer) hvalid
    (hexposure _ (List.mem_append_right _ (List.mem_singleton_self _)))
    (List.mem_singleton_self _) rfl
  have hcast := Program.operandOf?_of_mem hvalid
    (hexposure _ (List.mem_append_left _ (Program.mem_emitted_of_getElem? (i := 1) rfl)))
    (List.mem_singleton_self _) rfl
  have hbuffer := Program.operandOf?_of_mem hvalid
    (hexposure _ (List.mem_append_left _ (Program.mem_emitted_of_getElem? (i := 0) rfl)))
    (List.mem_singleton_self _) rfl
  simp only [callOp, Nat.add_zero] at hcall hcast hbuffer
  simp [Program.readSource?, helement, haccessor, hcall, hcast, hbuffer,
    Program.hasType_of_typeOf (hview 1 _ rfl)]

/-- Queries make no tensor. -/
theorem Query.action?_eq_none {operands : List ValueId} {ty : Ty} {kind : OpKind} {name : String}
    (h : Query target operands ty kind name) : kind.action? = none := by
  cases h with
  | dim => rfl
  | read harray => cases kind <;> first | rfl | simp [arrayAccessor?] at harray

/-- What an operation that makes a tensor expands into ends in a call that makes the tensor. -/
theorem Expansion.newTensorCall (hvalues : source.values <+: target.values)
    (hresults : ∀ r ∈ op.results, ∃ ty, source.typeOf r = .ok ty) (hvalid : target.Valid)
    {names : ValueId → ValueId} {action : Action} (haction : op.kind.action? = some action)
    (h : Expansion target op (op.operands.map names) (target.operations ids)
      (op.results.map names)) :
    ∃ front last back call, ids = front ++ last :: back ∧ target.ops[last.index]? = some call ∧
      NewTensorCall source target names op action front call := by
  have hold {r : ValueId} {ty : Ty} (hr : op.results = [r]) (hty : target.typeOf r = .ok ty) :
      source.typeOf r = .ok ty := by
    obtain ⟨ty', hty'⟩ := hresults r (by simp [hr])
    obtain rfl := Except.ok.inj (hty.symm.trans (Program.typeOf_mono hvalues hty'))
    exact hty'
  generalize hnew : target.operations ids = new at h
  generalize hnames : op.results.map names = values at h
  cases h with
  | ret hkind => simp [hkind, OpKind.action?] at haction
  | query _ _ hquery => simp [hquery.action?_eq_none] at haction
  | construct hkind hencodes hsource hcreated =>
    obtain rfl : .fromMetadata = action := by simpa [hkind, OpKind.action?] using haction
    obtain ⟨front, last, back, hids, hfront, hlast⟩ := exists_last_of_operations hnew
    obtain ⟨old, ty, sparsity, hold', hty, hsparsity, hencode⟩ := hencodes
    rw [List.getElem?_map, Option.map_eq_some_iff] at hsource
    obtain ⟨built, hbuilt, rfl⟩ := hsource
    refine ⟨front, last, back, _, hids, hlast, rfl, rfl, hnames.symm, ⟨_, rfl, hcreated.2⟩,
      ⟨rfl, fun other hother => span_of_emitted (hfront ▸ hother)⟩, old, ty, sparsity, _, _, built,
      hold', hold hold' hty, hsparsity, hencode, TensorBlock.hasRank_of_encode hencode, ?_, hbuilt,
      rfl⟩
    exact Program.readBlock?_arguments hvalid hcreated.1 fun other hother => hfront ▸ hother
  | @convert block view first value _ pointer handle old _ ty element shape accessor hkind hencodes _
      _ _ hsource hresult hresultTy haccess hview _ hcreated =>
    obtain rfl : .fromData = action := by simpa [hkind, OpKind.action?] using haction
    rw [creation, ← List.append_assoc] at hnew
    obtain ⟨front, last, back, hids, hfront, hlast⟩ := exists_last_of_operations hnew
    obtain ⟨old', ty', sparsity, hold', hty, hsparsity, hencode⟩ := hencodes
    obtain rfl : old = old' := by simpa [hresult] using hold'
    obtain rfl := Except.ok.inj (hty.symm.trans hresultTy)
    rw [List.getElem?_map, Option.map_eq_some_iff] at hsource
    obtain ⟨built, hbuilt, rfl⟩ := hsource
    refine ⟨front, last, back, _, hids, hlast, rfl, rfl, hnames.symm, ⟨_, rfl, hcreated.2⟩,
      ⟨rfl, fun other hother => ?_⟩, old, _, sparsity, block, pointer, built, hresult,
      hold hresult hty, hsparsity, hencode, TensorBlock.hasRank_of_encode hencode, ?_, hbuilt, ?_⟩
    · rw [hfront, List.mem_append, exposure, List.mem_append, List.mem_singleton] at hother
      obtain (hview | rfl) | hblock := hother
      · exact span_of_emitted hview
      · rfl
      · exact span_of_emitted hblock
    · exact Program.readBlock?_arguments hvalid hcreated.1 fun other hother =>
        hfront ▸ List.mem_append_right _ hother
    · exact readSource?_exposure hvalid haccess hview fun other hother =>
        hfront ▸ List.mem_append_left _ hother
  | fold hkind => simp [hkind, OpKind.action?] at haction

/-- In the block of a function stands a new call that makes the tensor of an operation, right behind
the new operations that its arguments are read from. -/
def MakesTensorIn (source target : Program) (names : ValueId → ValueId) (i : Nat) (op : Operation)
    (action : Action) : Prop :=
  ∃ func front ids callId back call, target.funcs[i]? = some func ∧
    func.body = some (front ++ ids ++ callId :: back) ∧
    (∀ other ∈ callId :: ids, source.ops.length ≤ other.index) ∧
    target.ops[callId.index]? = some call ∧ NewTensorCall source target names op action ids call

/-- The argument block of a new tensor decodes back. Where an operation that makes a tensor from a
source or from dense data is replaced, a call of eight arguments and one handle stands in the same
block. From operations that stand right in front of it and have the span of the original, the eight
arguments are read back as the block of the annotation for the type of the original result, with the
action that goes with the kind of operation, and as the source of the original under its final
name. -/
theorem lower_blocks_read_back {program : Program} {outcome : Outcome} (hreach : program.Reachable)
    (hssa : program.DefBeforeUse) (hrun : lower program = .ok outcome) {i : Nat} {func : Func}
    {body : List OpId} (hfunc : program.funcs[i]? = some func) (hbody : func.body = some body)
    {id : OpId} {op : Operation} {action : Action} (hid : id ∈ body)
    (hop : program.ops[id.index]? = some op) (haction : op.kind.action? = some action)
    (hreplaced : id ∉ outcome.program.allOps) :
    ∃ state, Conversion.walk rules handleTypes program = .ok state ∧
      MakesTensorIn program outcome.program state.aliases.resolve i op action := by
  have hvalid := hreach.valid
  obtain ⟨start, state, expand, hwalk, hlowered⟩ := exists_lowered hvalid hssa hrun
  obtain ⟨func', hfunc', -, -, hbody'⟩ := hlowered.exists_func hvalid hfunc hbody
  have hall : id ∈ program.allOps := Program.mem_allOps hfunc (by simpa [Func.bodyOps, hbody])
  have hbecame := hlowered.became hvalid hall hop
  obtain ⟨earlier, later, rfl⟩ := List.append_of_mem hid
  rw [List.flatMap_append, List.flatMap_cons] at hbody'
  refine ⟨state, hwalk, ?_⟩
  generalize expand id = ids at hbecame hbody'
  cases hbecame with
  | kept =>
    refine absurd (Program.mem_allOps hfunc' ?_) hreplaced
    simp [Func.bodyOps, hbody']
  | replaced _ hids hexpansion =>
    have hvalues : program.values <+: outcome.program.values := by
      rw [hlowered.renamed.values]
      exact hlowered.resigned.values.trans hlowered.walk.values
    have hresults : ∀ r ∈ op.results, ∃ ty, program.typeOf r = .ok ty := by
      intro r hr
      obtain ⟨k, hk⟩ := List.mem_iff_getElem?.mp hr
      obtain ⟨ty, hvalue⟩ := hvalid.results id.index k op r hop hk
      exact ⟨ty, Program.typeOf_eq_ok.mpr ⟨_, hvalue⟩⟩
    obtain ⟨front, callId, back, call, rfl, hcall, hmakes⟩ :=
      hexpansion.newTensorCall hvalues hresults (run_valid hrun hvalid) haction
    refine ⟨_, earlier.flatMap expand, front, callId, back ++ later.flatMap expand, call, hfunc',
      by simpa using hbody', fun other hother => hids other ?_, hcall, hmakes⟩
    rcases List.mem_cons.mp hother with rfl | hfront
    · simp
    · exact List.mem_append_left _ hfront

/-- A matrix is read from a source, and a tensor of three dimensions, stored from the last one on, is
made from dense data. -/
def assembled : Program := .listed
  [{ name := "assemble"
     argTypes := [.ptr, .dense [.static 2, .static 3, .dynamic] .f64]
     lines := some [
      { kind := .sparseNew, operands := [0]
        types := [.tensor [.static 4, .dynamic] (.int 32)
          (some { levels := [.dense, .compressed] })] },
      { kind := .sparseConvert, operands := [1]
        types := [.tensor [.static 2, .static 3, .dynamic] .f64
          (some { levels := [.compressed, .dense, .singleton], order := some ⟨[2, 0, 1]⟩
                  pointerWidth := 32, indexWidth := 16 })] },
      { kind := .ret, operands := [] }] }]

/-- The tensor of three dimensions is read back. -/
theorem lower_blocks_read_back_assembled : assembled.Reachable ∧ assembled.DefBeforeUse ∧
    ∃ outcome func body op, lower assembled = .ok outcome ∧
      assembled.funcs[0]? = some func ∧ func.body = some body ∧ ⟨1⟩ ∈ body ∧
      assembled.ops[1]? = some op ∧ op.kind.action? = some .fromData ∧
      ⟨1⟩ ∉ outcome.program.allOps ∧
      ∃ state, Conversion.walk rules handleTypes assembled = .ok state ∧
        MakesTensorIn assembled outcome.program state.aliases.resolve 0 op .fromData := by
  have hssa : assembled.DefBeforeUse := by decide +kernel
  have hreplaced : (lower assembled).toOption.any
      (fun outcome => decide (⟨1⟩ ∉ outcome.program.allOps)) = true := by decide +kernel
  cases hrun : lower assembled with
  | error halt => simp [hrun, Except.toOption] at hreplaced
  | ok outcome =>
    have hgone : ⟨1⟩ ∉ outcome.program.allOps := by simpa [hrun, Except.toOption] using hreplaced
    exact ⟨Program.reachable_listed _, hssa, outcome, _, _, _, rfl, rfl, rfl, by decide +kernel, rfl,
      rfl, hgone, lower_blocks_read_back (Program.reachable_listed _) hssa hrun rfl rfl
        (by decide +kernel) rfl rfl hgone⟩

end Lowering

end TensorLowering
