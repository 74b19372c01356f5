import TensorLowering.Proofs.Completion
import TensorLowering.Proofs.Ranges
import TensorLowering.Proofs.Schedule

/-!
# Programs that read the same

The text of a program shows its values by their numbers, but its operations only by their contents.
So building an operation without results again, at the same place and with the same contents, is
not seen in the text. A valid program in which all operands are in the arena has a text.
-/

namespace TensorLowering

/-- A function without the operations of its block. -/
def Func.header (func : Func) : Func :=
  { func with body := func.body.map fun _ => [] }

/-- The header shows the whole signature. -/
theorem Func.renderSignature_header (func : Func) :
    func.header.renderSignature = func.renderSignature := by
  obtain ⟨name, args, argTypes, resultTypes, body, isPublic⟩ := func
  cases body with
  | none => rfl
  | some body => rfl

namespace Program

variable {program before middle after : Program}

/-- What is read of a function: its header and the operations of its block. -/
def reading (program : Program) (func : Func) : Func × List Operation :=
  (func.header, program.operations func.bodyOps)

/-- The two programs differ at most in the ids of the operations in their blocks and in what stands
in no block. -/
structure ReadsAs (before after : Program) : Prop where
  values : after.values = before.values
  symbols : after.symbols = before.symbols
  funcs : after.funcs.map after.reading = before.funcs.map before.reading

namespace ReadsAs

/-- A program reads as itself. -/
theorem refl (program : Program) : program.ReadsAs program := ⟨rfl, rfl, rfl⟩

/-- Reading the same is passed on. -/
theorem trans (h : before.ReadsAs middle) (h' : middle.ReadsAs after) : before.ReadsAs after :=
  ⟨h'.values.trans h.values, h'.symbols.trans h.symbols, h'.funcs.trans h.funcs⟩

/-- Values have the same types. -/
theorem typeOf_eq (h : before.ReadsAs after) (v : ValueId) : after.typeOf v = before.typeOf v := by
  rw [typeOf, typeOf, value, value, h.values]

/-- There are as many functions. -/
theorem length_funcs (h : before.ReadsAs after) : after.funcs.length = before.funcs.length := by
  simpa using congrArg List.length h.funcs

end ReadsAs

/-! ### Operations in blocks -/

/-- The operations of several lists are those of each one after the other. -/
theorem operations_flatMap {α : Type} (program : Program) (items : List α) (ids : α → List OpId) :
    program.operations (items.flatMap ids) =
      items.flatMap fun item => program.operations (ids item) := by
  induction items with
  | nil => rfl
  | cons item rest ih => rw [List.flatMap_cons, List.flatMap_cons, operations_append, ih]

/-- The operations of all blocks are what is read of them. -/
theorem operations_allOps (program : Program) :
    program.operations program.allOps = (program.funcs.map program.reading).flatMap Prod.snd := by
  rw [allOps, operations_flatMap, List.flatMap_map]
  rfl

/-- Programs that read the same have the same operations in their blocks. -/
theorem ReadsAs.operations_allOps (h : before.ReadsAs after) :
    after.operations after.allOps = before.operations before.allOps := by
  rw [Program.operations_allOps, Program.operations_allOps, h.funcs]

/-- An expansion that puts the same contents in each place is not seen. -/
theorem operations_expand {ids : List OpId} {expand : OpId → List OpId}
    (h : ∀ id ∈ ids, after.operations (expand id) = before.operations [id]) :
    after.operations (ids.flatMap expand) = before.operations ids := by
  calc after.operations (ids.flatMap expand)
      = ids.flatMap fun id => after.operations (expand id) := operations_flatMap ..
    _ = ids.flatMap fun id => before.operations [id] := List.flatMap_congr h
    _ = before.operations (ids.flatMap fun id => [id]) := (operations_flatMap ..).symm
    _ = before.operations ids := by rw [List.flatMap_singleton']

/-- Blocks that are expanded by the same contents in each place read the same. -/
theorem readsAs_of_expand {expand : OpId → List OpId} (hvalues : after.values = before.values)
    (hsymbols : after.symbols = before.symbols)
    (hfuncs : after.funcs = before.funcs.map (Func.expandBody expand))
    (hplace : ∀ id ∈ before.allOps, after.operations (expand id) = before.operations [id]) :
    before.ReadsAs after where
  values := hvalues
  symbols := hsymbols
  funcs := by
    rw [hfuncs, List.map_map]
    refine List.map_congr_left fun func hfunc => ?_
    have hheader : (func.expandBody expand).header = func.header := by
      cases hbody : func.body <;> simp [Func.header, Func.expandBody, hbody]
    have hops : after.operations (func.bodyOps.flatMap expand) = before.operations func.bodyOps :=
      operations_expand fun id hid => hplace id (List.mem_flatMap.mpr ⟨func, hfunc, hid⟩)
    rw [Function.comp_apply, reading, reading, hheader, func.bodyOps_expandBody, hops]

/-- Building again adds the operation to the arena and erases what stood at its place. -/
theorem rebuild_getElem? (funcId : FuncId) (id : OpId) {op : Operation} (pre post : List OpId)
    (hlive : op.erased = false) (hresults : op.results = []) (o : Nat) :
    (program.rebuild funcId id op pre post).ops[o]? = (program.ops ++ [op])[o]?.map fun op =>
      if id.index = o then { op with erased := true } else op := by
  have hadded : (program.addOp op.kind op.operands [] op.span).ops = program.ops ++ [op] := by
    cases op
    simp_all [addOp, nextValues]
  rw [← hadded]
  exact List.getElem?_modify ..

/-- Nothing is seen of an operation without results that is built again. -/
theorem readsAs_rebuild (hvalid : program.Valid) {funcId : FuncId} {func : Func} {id : OpId}
    {op : Operation} {pre post : List OpId} (hop : program.ops[id.index]? = some op)
    (hlive : op.erased = false) (hresults : op.results = [])
    (hfunc : program.funcs[funcId.index]? = some func)
    (hbody : func.body = some (pre ++ id :: post)) :
    program.ReadsAs (program.rebuild funcId id op pre post) := by
  have hops := program.rebuild_getElem? funcId id pre post hlive hresults
  refine readsAs_of_expand (by simp [rebuild, eraseOp, modifyOp, modifyFunc, addOp]) rfl
    (Conversion.modify_eq_map_replacing hvalid hfunc hbody [program.nextOp]) fun other hother => ?_
  by_cases hid : other = id
  · have hlt : id.index < program.ops.length := (List.getElem?_eq_some_iff.mp hop).1
    have hnew : (program.rebuild funcId id op pre post).ops[program.nextOp.index]? = some op := by
      rw [hops, nextOp, List.getElem?_concat_length, Option.map_some, if_neg (Nat.ne_of_lt hlt)]
    rw [hid, Conversion.replacing_self, operations_cons hnew, operations_cons hop]
    rfl
  · have hindex : id.index ≠ other.index := fun heq => hid (OpId.eq_of_index heq.symm)
    obtain ⟨built, hbuilt, -⟩ := hvalid.live other hother
    have hsame : (program.rebuild funcId id op pre post).ops[other.index]? = some built := by
      rw [hops, List.getElem?_append_left (hvalid.lt_length hother), hbuilt, Option.map_some,
        if_neg hindex]
    rw [Conversion.replacing_of_ne hid, operations_cons hsame, operations_cons hbuilt]
    rfl

/-! ### The same text -/

/-- Types are read off the values. -/
theorem typesOf_congr (hvalues : after.values = before.values) (ids : List ValueId) :
    after.typesOf ids = before.typesOf ids := by
  induction ids with
  | nil => rfl
  | cons v rest ih => simp only [typesOf, typeOf, value, hvalues, ih]

/-- The text of an operation is that of its contents. -/
theorem renderOp_congr (hvalues : after.values = before.values) {id id' : OpId} {op : Operation}
    (hop : before.ops[id.index]? = some op) (hop' : after.ops[id'.index]? = some op) :
    after.renderOp id' = before.renderOp id := by
  simp only [renderOp, op_eq_ok.mpr hop, op_eq_ok.mpr hop', typesOf_congr hvalues]

/-- The text of a block is that of its operations, if none of its ids points past the arena. -/
theorem renderBlock_congr (hvalues : after.values = before.values) {ids ids' : List OpId}
    (hids : ∀ id ∈ ids, ∃ op, before.ops[id.index]? = some op)
    (hids' : ∀ id ∈ ids', ∃ op, after.ops[id.index]? = some op)
    (h : after.operations ids' = before.operations ids) :
    after.renderBlock ids' = before.renderBlock ids := by
  -- Every id contributes one operation, so the two lists have the same length.
  induction ids generalizing ids' with
  | nil =>
    cases ids' with
    | nil => rfl
    | cons id' rest' =>
      obtain ⟨op', hop'⟩ := hids' id' List.mem_cons_self
      rw [operations_cons hop'] at h
      exact absurd h (List.cons_ne_nil _ _)
  | cons id rest ih =>
    obtain ⟨op, hop⟩ := hids id List.mem_cons_self
    cases ids' with
    | nil =>
      rw [operations_cons hop] at h
      exact absurd h.symm (List.cons_ne_nil _ _)
    | cons id' rest' =>
      obtain ⟨op', hop'⟩ := hids' id' List.mem_cons_self
      rw [operations_cons hop, operations_cons hop', List.cons.injEq] at h
      obtain ⟨rfl, hrest⟩ := h
      rw [renderBlock, renderBlock, renderOp_congr hvalues hop hop',
        ih (fun x hx => hids x (List.mem_cons_of_mem _ hx))
          (fun x hx => hids' x (List.mem_cons_of_mem _ hx)) hrest]

/-- The text of a function is that of what is read of it. -/
theorem renderFunc_congr (hvalues : after.values = before.values) {func func' : Func}
    (hids : ∀ id ∈ func.bodyOps, ∃ op, before.ops[id.index]? = some op)
    (hids' : ∀ id ∈ func'.bodyOps, ∃ op, after.ops[id.index]? = some op)
    (h : after.reading func' = before.reading func) :
    after.renderFunc func' = before.renderFunc func := by
  obtain ⟨hheader, hops⟩ := Prod.mk.inj h
  have hsignature : func'.renderSignature = func.renderSignature := by
    rw [← func'.renderSignature_header, hheader, func.renderSignature_header]
  have hbodies : (func'.body.map fun _ => ([] : List OpId)) = func.body.map fun _ => [] :=
    congrArg Func.body hheader
  unfold renderFunc
  cases hbody : func.body with
  | none =>
    cases hbody' : func'.body with
    | none => rw [hsignature]
    | some body' => simp [hbody, hbody'] at hbodies
  | some body =>
    cases hbody' : func'.body with
    | none => simp [hbody, hbody'] at hbodies
    | some body' =>
      simp only [Func.bodyOps, hbody, hbody', Option.getD_some] at hids hids' hops
      simp only [hsignature, renderBlock_congr hvalues hids hids' hops]

/-- The text of several functions is that of what is read of them. -/
theorem renderFuncs_congr (hvalues : after.values = before.values) (hbefore : before.Valid)
    (hafter : after.Valid) {funcs funcs' : List Func} (hfuncs : ∀ func ∈ funcs, func ∈ before.funcs)
    (hfuncs' : ∀ func ∈ funcs', func ∈ after.funcs)
    (h : funcs'.map after.reading = funcs.map before.reading) :
    after.renderFuncs funcs' = before.renderFuncs funcs := by
  induction funcs generalizing funcs' with
  | nil =>
    rw [List.map_eq_nil_iff.mp h]
    rfl
  | cons func rest ih =>
    cases funcs' with
    | nil => simp at h
    | cons func' rest' =>
      rw [List.map_cons, List.map_cons, List.cons.injEq] at h
      have hids : ∀ id ∈ func.bodyOps, ∃ op, before.ops[id.index]? = some op := fun id hid => by
        obtain ⟨op, hop, -⟩ := hbefore.live id
          (List.mem_flatMap.mpr ⟨func, hfuncs func List.mem_cons_self, hid⟩)
        exact ⟨op, hop⟩
      have hids' : ∀ id ∈ func'.bodyOps, ∃ op, after.ops[id.index]? = some op := fun id hid => by
        obtain ⟨op, hop, -⟩ := hafter.live id
          (List.mem_flatMap.mpr ⟨func', hfuncs' func' List.mem_cons_self, hid⟩)
        exact ⟨op, hop⟩
      rw [renderFuncs, renderFuncs, renderFunc_congr hvalues hids hids' h.1,
        ih (fun x hx => hfuncs x (List.mem_cons_of_mem _ hx))
          (fun x hx => hfuncs' x (List.mem_cons_of_mem _ hx)) h.2]

/-- Programs that read the same have the same text. -/
theorem ReadsAs.render_eq (h : before.ReadsAs after) (hbefore : before.Valid)
    (hafter : after.Valid) : after.render = before.render := by
  rw [render, render, renderFuncs_congr h.values hbefore hafter (fun _ hfunc => hfunc)
    (fun _ hfunc => hfunc) h.funcs]

/-! ### Programs that have a text -/

/-- In a valid program whose operands are in the arena, every operation of a block has a text. -/
theorem exists_renderOp (hvalid : program.Valid) (hrange : program.OperandsInRange) {id : OpId}
    (hid : id ∈ program.allOps) : ∃ text, program.renderOp id = .ok text := by
  obtain ⟨op, hop, -⟩ := hvalid.live id hid
  obtain ⟨operandTypes, hoperands⟩ := Lowering.exists_typesOf fun v hv =>
    has_iff_typeOf.mp (hrange.has hid hop hv)
  obtain ⟨resultTypes, hresults⟩ := Lowering.exists_typesOf_results hvalid hop
  exact ⟨_, bind_eq_ok.mpr ⟨op, op_eq_ok.mpr hop, bind_eq_ok.mpr ⟨_, hoperands,
    bind_eq_ok.mpr ⟨_, hresults, rfl⟩⟩⟩⟩

/-- The block of a function has a text if its operations have. -/
theorem exists_renderBlock {ids : List OpId}
    (h : ∀ id ∈ ids, ∃ text, program.renderOp id = .ok text) :
    ∃ lines, program.renderBlock ids = .ok lines := by
  induction ids with
  | nil => exact ⟨[], rfl⟩
  | cons id rest ih =>
    obtain ⟨text, htext⟩ := h id List.mem_cons_self
    obtain ⟨lines, hlines⟩ := ih fun other hother => h other (List.mem_cons_of_mem _ hother)
    exact ⟨_, bind_eq_ok.mpr ⟨text, htext, bind_eq_ok.mpr ⟨lines, hlines, rfl⟩⟩⟩

/-- Functions have a text if the operations of their blocks have. -/
theorem exists_renderFuncs {funcs : List Func}
    (h : ∀ func ∈ funcs, ∀ id ∈ func.bodyOps, ∃ text, program.renderOp id = .ok text) :
    ∃ texts, program.renderFuncs funcs = .ok texts := by
  induction funcs with
  | nil => exact ⟨[], rfl⟩
  | cons func rest ih =>
    obtain ⟨texts, htexts⟩ := ih fun other hother => h other (List.mem_cons_of_mem _ hother)
    have hfunc : ∃ text, program.renderFunc func = .ok text := by
      obtain ⟨lines, hlines⟩ := exists_renderBlock (h func List.mem_cons_self)
      unfold renderFunc
      cases hbody : func.body with
      | none => exact ⟨_, rfl⟩
      | some body =>
        rw [Func.bodyOps, hbody] at hlines
        exact ⟨_, bind_eq_ok.mpr ⟨lines, hlines, rfl⟩⟩
    obtain ⟨text, htext⟩ := hfunc
    exact ⟨_, bind_eq_ok.mpr ⟨text, htext, bind_eq_ok.mpr ⟨texts, htexts, rfl⟩⟩⟩

/-- A valid program whose operands are in the arena has a text. -/
theorem exists_render (hvalid : program.Valid) (hrange : program.OperandsInRange) :
    ∃ text, program.render = .ok text := by
  obtain ⟨texts, htexts⟩ := exists_renderFuncs fun func hfunc id hid =>
    exists_renderOp hvalid hrange (List.mem_flatMap.mpr ⟨func, hfunc, hid⟩)
  exact ⟨_, bind_eq_ok.mpr ⟨texts, htexts, rfl⟩⟩

end Program

end TensorLowering
