import TensorLowering.Proofs.TypedForm

/-!
# What a lowering reports

The reports of a run are determined by the operations that stand in the blocks afterwards: each one
that may not remain is reported, in order. Operations on sparse tensors never may, a return depends on
the types of its operands, and the extent of a tensor on the type of its source. Since values are
only ever redirected to values of the same type or to handles, a run does not make anything illegal
that was legal before: what is reported afterwards would also have been reported of the program as it
came, with the same texts and spans and in the same order.
-/

namespace TensorLowering

/-- What a report says first, and where. -/
def Diagnostic.headline (diagnostic : Diagnostic) : String × Span :=
  (diagnostic.message, diagnostic.span)

/-- An operation in its place, with the name of the function whose block it stands in. -/
structure Located where
  func : String
  id : OpId
  op : Operation

namespace Program

/-- The listed operations of a function, in their places. -/
def locatedAt (program : Program) (func : String) (ids : List OpId) : List Located :=
  ids.filterMap fun id => program.ops[id.index]?.map fun op => { func, id, op }

/-- What stands in the block of a function. -/
def locatedIn (program : Program) (func : Func) : List Located :=
  program.locatedAt func.name func.bodyOps

/-- An operation that is found stands in the first place of the list that its id begins. -/
theorem locatedAt_cons {program : Program} {id : OpId} {op : Operation}
    (hop : program.ops[id.index]? = some op) (func : String) (rest : List OpId) :
    program.locatedAt func (id :: rest) =
      { func, id, op } :: program.locatedAt func rest := by
  simp [locatedAt, hop]

/-- What stands in some places is what is read there. -/
theorem map_op_locatedAt (program : Program) (func : String) (ids : List OpId) :
    (program.locatedAt func ids).map Located.op = program.operations ids := by
  simp [locatedAt, operations, List.map_filterMap, Option.map_map, Function.comp_def]

/-- The places of a list are those of its ids that can be read. -/
theorem mem_locatedAt {program : Program} {func : String} {ids : List OpId} {place : Located} :
    place ∈ program.locatedAt func ids ↔
      place.func = func ∧ place.id ∈ ids ∧ program.ops[place.id.index]? = some place.op := by
  simp only [locatedAt, List.mem_filterMap, Option.map_eq_some_iff]
  constructor
  · rintro ⟨id, hid, op, hop, rfl⟩
    exact ⟨rfl, hid, hop⟩
  · rintro ⟨rfl, hid, hop⟩
    exact ⟨place.id, hid, place.op, hop, rfl⟩

end Program

namespace Lowering

open Conversion

variable {program : Program} {op : Operation}

/-! ### The verdict about one operation -/

/-- Operations on sparse tensors may not remain. -/
theorem isLegal_of_sparse (hkind : op.kind.dialect = .sparseTensor) :
    legality.isLegal program op = .ok false := by
  rw [Legality.isLegal, hkind]
  rfl

/-- Operations without a rule may remain. -/
theorem isLegal_of_plain (hrule : ruleFor op.kind = none) :
    legality.isLegal program op = .ok true := by
  unfold Legality.isLegal Operation.name
  cases hkind : op.kind <;> first | rfl | simp [hkind, ruleFor] at hrule

/-- A return may remain if it carries no sparse tensor. -/
theorem isLegal_of_ret (hkind : op.kind = .ret) :
    legality.isLegal program op = Legality.noneSparse program op.operands := by
  rw [Legality.isLegal, Operation.name, hkind]
  rfl

/-- The extent of a tensor may be asked if the tensor is dense. -/
theorem isLegal_of_tensorDim (hkind : op.kind = .tensorDim) :
    legality.isLegal program op = denseSource program op := by
  rw [Legality.isLegal, Operation.name, hkind]
  rfl

/-- Whether there is a sparse tensor among values with types is decided. -/
theorem noneSparse_cases {ids : List ValueId} (htyped : ∀ v ∈ ids, ∃ ty, program.typeOf v = .ok ty) :
    (Legality.noneSparse program ids = .ok true ∧
      ∀ v ∈ ids, ∀ ty, program.typeOf v = .ok ty → ty.isSparse = false) ∨
    (Legality.noneSparse program ids = .ok false ∧
      ∃ v ∈ ids, ∃ ty, program.typeOf v = .ok ty ∧ ty.isSparse = true) := by
  induction ids with
  | nil => exact .inl ⟨rfl, by simp⟩
  | cons v rest ih =>
    obtain ⟨ty, hty⟩ := htyped v List.mem_cons_self
    have hstep : Legality.noneSparse program (v :: rest) =
        if ty.isSparse then .ok false else Legality.noneSparse program rest := by
      rw [Legality.noneSparse, hty]
      rfl
    rw [hstep]
    cases hsparse : ty.isSparse with
    | true => exact .inr ⟨rfl, v, List.mem_cons_self, ty, hty, hsparse⟩
    | false =>
      rcases ih fun w hw => htyped w (List.mem_cons_of_mem _ hw) with
        ⟨hnone, hall⟩ | ⟨hsome, w, hw, hrest⟩
      · refine .inl ⟨hnone, fun w hw ty' hty' => ?_⟩
        rcases List.mem_cons.mp hw with rfl | hw
        · obtain rfl := Except.ok.inj (hty.symm.trans hty')
          exact hsparse
        · exact hall w hw ty' hty'
      · exact .inr ⟨hsome, w, List.mem_cons_of_mem _ hw, hrest⟩

/-- The operation may not remain. -/
def rejected (program : Program) (op : Operation) : Bool :=
  match legality.isLegal program op with
  | .ok legal => !legal
  | .error _ => false

/-- The headline of the report about an operation. -/
def complaint (op : Operation) : String × Span :=
  ("failed to legalize operation '" ++ op.name ++ "'", op.span)

/-- The headline depends on the kind of operation and on its span. -/
theorem complaint_congr {op op' : Operation} (hkind : op'.kind = op.kind) (hspan : op'.span = op.span) :
    complaint op' = complaint op := by
  unfold complaint Operation.name
  rw [hkind, hspan]

/-- The headlines of the reports about operations of a program, in order. -/
def rejections (program : Program) (ids : List OpId) : List (String × Span) :=
  ((program.operations ids).filter (rejected program)).map complaint

/-- The reports about two lists, one after the other. -/
theorem rejections_append (program : Program) (first second : List OpId) :
    rejections program (first ++ second) = rejections program first ++ rejections program second := by
  simp [rejections, Program.operations_append]

/-- The reports about a list are those about its members. -/
theorem rejections_flatMap (program : Program) (ids : List OpId) (expand : OpId → List OpId) :
    rejections program (ids.flatMap expand) = ids.flatMap fun id => rejections program (expand id) := by
  induction ids with
  | nil => rfl
  | cons id rest ih => rw [List.flatMap_cons, rejections_append, ih, List.flatMap_cons]

/-- The report about one operation, if it is rejected. -/
theorem rejections_eq {ids : List OpId} (hop : program.operations ids = [op]) :
    rejections program ids = if rejected program op then [complaint op] else [] := by
  rw [rejections, hop]
  cases hrejected : rejected program op <;> simp [hrejected]

/-! ### The reports of a run -/

/-- Of some operations in their places, those that may not remain. -/
def rejectedOf (program : Program) (places : List Located) : List Located :=
  places.filter fun place => rejected program place.op

/-- The diagnostic is the report about an operation in its place. -/
def Reports (program : Program) (diagnostic : Diagnostic) (place : Located) : Prop :=
  ∃ text, program.renderOp place.id = .ok text ∧ diagnostic = illegalOp place.op place.func text

/-- The reports about a block are about its rejected operations, in order. -/
theorem reports_of_illegalOps {func : String} {ids : List OpId} {reports : List Diagnostic}
    (hrun : illegalOps legality program func ids = .ok reports) :
    List.Forall₂ (Reports program) reports (rejectedOf program (program.locatedAt func ids)) := by
  induction ids generalizing reports with
  | nil =>
    simp only [illegalOps, Except.ok.injEq] at hrun
    exact hrun ▸ .nil
  | cons id rest ih =>
    simp only [illegalOps, bind_eq_ok, Program.op_eq_ok] at hrun
    obtain ⟨op, hop, legal, hlegal, hrun⟩ := hrun
    rw [Program.locatedAt_cons hop, rejectedOf, List.filter_cons]
    cases legal with
    | true =>
      rw [if_neg (by simp [rejected, hlegal])]
      exact ih hrun
    | false =>
      simp only [Bool.false_eq_true, ↓reduceIte, bind_eq_ok, pure_eq_ok] at hrun
      obtain ⟨text, htext, others, hothers, rfl⟩ := hrun
      rw [if_pos (by simp [rejected, hlegal])]
      exact .cons ⟨text, htext, rfl⟩ (ih hothers)

/-- The reports about several functions are about the rejected operations of their blocks. -/
theorem reports_of_illegalIn {ids : List FuncId} {reports : List Diagnostic}
    (hrun : illegalIn legality program ids = .ok reports) :
    List.Forall₂ (Reports program) reports (rejectedOf program
      (ids.flatMap fun id => (program.funcs[id.index]?.map program.locatedIn).getD [])) := by
  induction ids generalizing reports with
  | nil =>
    simp only [illegalIn, Except.ok.injEq] at hrun
    exact hrun ▸ .nil
  | cons id rest ih =>
    simp only [illegalIn, bind_eq_ok, Program.func_eq_ok, pure_eq_ok] at hrun
    obtain ⟨func, hfunc, here, hhere, there, hthere, rfl⟩ := hrun
    rw [List.flatMap_cons, hfunc, rejectedOf, List.filter_append]
    exact List.rel_append (reports_of_illegalOps hhere) (ih hthere)

/-- A report has the headline of its operation. -/
theorem headlines_of_reports {reports : List Diagnostic} {places : List Located}
    (h : List.Forall₂ (Reports program) reports (rejectedOf program places)) :
    reports.map Diagnostic.headline =
      ((places.map Located.op).filter (rejected program)).map complaint := by
  rw [List.filter_map, List.map_map]
  refine List.forall₂_eq_eq_eq ▸ List.forall₂_map_left_iff.mpr (List.forall₂_map_right_iff.mpr ?_)
  refine h.imp ?_
  rintro diagnostic place ⟨text, -, rfl⟩
  rfl

/-- The headlines of the reports about several functions. -/
theorem headlines_of_illegalIn {ids : List FuncId} {reports : List Diagnostic}
    (hrun : illegalIn legality program ids = .ok reports) :
    reports.map Diagnostic.headline = rejections program (ids.flatMap program.blockOf) := by
  rw [headlines_of_reports (reports_of_illegalIn hrun), rejections, List.map_flatMap,
    Program.operations, List.filterMap_flatMap]
  congr 2
  refine List.flatMap_congr fun id _ => ?_
  unfold Program.blockOf
  cases program.funcs[id.index]? with
  | none => rfl
  | some func => exact program.map_op_locatedAt func.name func.bodyOps

section Lowered

variable {source target : Program} {start state : Progress} {expand : OpId → List OpId}

/-- The functions after a lowering: the old ones in their new form, and declarations. -/
theorem Lowered.funcs (hsource : source.Valid) (h : Lowered source start state expand target) :
    ∃ decls, target.funcs = source.funcs.map
        (fun func => (resign handleTypes state.aliases func).expandBody expand) ++ decls ∧
      ∀ func ∈ decls, CalledAs source state.program source.allOps expand func := by
  obtain ⟨decls, hfuncs, hdecls⟩ := h.walk.funcs
  refine ⟨decls, ?_, hdecls⟩
  rw [h.renamed.funcs, hfuncs, h.resigned.funcs, List.map_map]
  refine congrArg (· ++ decls) (List.ext_getElem? fun i => ?_)
  simp only [List.getElem?_map]
  cases hfunc : source.funcs[i]? with
  | none => rfl
  | some func =>
    have hnow := h.func hsource hfunc
    have hlt := (List.getElem?_eq_some_iff.mp hfunc).1
    rw [h.renamed.funcs, hfuncs, h.resigned.funcs, List.getElem?_append_left (by simpa using hlt),
      List.getElem?_map, List.getElem?_map, hfunc] at hnow
    exact hnow

/-- The blocks after a lowering are the expanded ones. -/
theorem Lowered.allOps (hsource : source.Valid) (h : Lowered source start state expand target) :
    target.allOps = source.allOps.flatMap expand := by
  obtain ⟨decls, hfuncs, hdecls⟩ := h.funcs hsource
  have hempty : decls.flatMap Func.bodyOps = [] :=
    List.flatMap_eq_nil_iff.mpr fun func hfunc => by simp [Func.bodyOps, (hdecls func hfunc).1]
  rw [Program.allOps, hfuncs, List.flatMap_append, hempty, List.append_nil, List.flatMap_map,
    Program.allOps, List.flatMap_assoc]
  refine List.flatMap_congr fun func _ => ?_
  cases hbody : func.body <;> simp [Func.bodyOps, Func.expandBody, resign, Func.isDeclaration, hbody]

/-- The blocks of the functions that had one are all blocks. -/
theorem Lowered.flatMap_blockOf (hsource : source.Valid)
    (h : Lowered source start state expand target) :
    source.definedFuncs.flatMap target.blockOf = target.allOps := by
  rw [h.allOps hsource, ← source.flatMap_blockOf, List.flatMap_assoc]
  refine List.flatMap_congr fun id hid => ?_
  rw [← h.blockOf hid, Program.blockOf, Program.blockOf, h.renamed.funcs]

end Lowered

/-- A run succeeds if nothing is rejected in the end, and reports what is otherwise. -/
theorem lower_result {outcome : Outcome} (hvalid : program.Valid) (hssa : program.DefBeforeUse)
    (hrun : lower program = .ok outcome) :
    (∃ stats, outcome.result = .ok stats ∧
      rejections outcome.program outcome.program.allOps = []) ∨
    ∃ diagnostics, outcome.result = .error diagnostics ∧ diagnostics ≠ [] ∧
      diagnostics.map Diagnostic.headline = rejections outcome.program outcome.program.allOps := by
  obtain ⟨start, state, expand, -, hlowered⟩ := exists_lowered hvalid hssa hrun
  obtain ⟨state', renamed, reports, -, -, hreports, rfl⟩ := run_eq_ok.mp hrun
  have hheadlines := headlines_of_illegalIn hreports
  rw [hlowered.flatMap_blockOf hvalid] at hheadlines
  cases reports with
  | nil => exact .inl ⟨state'.stats, rfl, hheadlines.symm⟩
  | cons first rest => exact .inr ⟨first :: rest, rfl, by simp, hheadlines⟩

/-- After a run that succeeds nothing is rejected. -/
theorem rejections_of_ok {outcome : Outcome} {stats : Stats} (hvalid : program.Valid)
    (hssa : program.DefBeforeUse) (hrun : lower program = .ok outcome)
    (hresult : outcome.result = .ok stats) :
    rejections outcome.program outcome.program.allOps = [] := by
  rcases lower_result hvalid hssa hrun with ⟨-, -, hclean⟩ | ⟨diagnostics, herror, -⟩
  · exact hclean
  · simp [hresult] at herror

/-- A run that fails reports what is rejected, and there is something. -/
theorem headlines_of_error {outcome : Outcome} {diagnostics : List Diagnostic}
    (hvalid : program.Valid) (hssa : program.DefBeforeUse) (hrun : lower program = .ok outcome)
    (hresult : outcome.result = .error diagnostics) : diagnostics ≠ [] ∧
      diagnostics.map Diagnostic.headline = rejections outcome.program outcome.program.allOps := by
  rcases lower_result hvalid hssa hrun with ⟨stats, hok, -⟩ | ⟨reports, herror, hreports⟩
  · simp [hresult] at hok
  · obtain rfl : diagnostics = reports := by simpa [hresult] using herror
    exact hreports

/-! ### Nothing becomes illegal -/

/-- In a valid program whose definitions precede uses, operands have types. -/
theorem exists_typeOf_operand (hvalid : program.Valid) (hssa : program.DefBeforeUse) {id : OpId}
    (hid : id ∈ program.allOps) (hop : program.ops[id.index]? = some op) {v : ValueId}
    (hv : v ∈ op.operands) : ∃ ty, program.typeOf v = .ok ty := by
  obtain ⟨func, hfunc, hbody⟩ := List.mem_flatMap.mp hid
  obtain ⟨earlier, later, hsplit⟩ := List.append_of_mem hbody
  rcases (visible_of_defBeforeUse hvalid hssa hfunc hsplit hop hv).origin with
    harg | ⟨other, -, built, hbuilt, -, hresult⟩
  · obtain ⟨i, hi⟩ := List.mem_iff_getElem?.mp hfunc
    obtain ⟨k, hk⟩ := List.mem_iff_getElem?.mp harg
    obtain ⟨ty, -, hvalue⟩ := hvalid.arg_value hi hk
    exact ⟨ty, Program.typeOf_eq_ok.mpr ⟨_, hvalue⟩⟩
  · obtain ⟨k, hk⟩ := List.mem_iff_getElem?.mp hresult
    obtain ⟨ty, hvalue⟩ := hvalid.results other.index k built v hbuilt hk
    exact ⟨ty, Program.typeOf_eq_ok.mpr ⟨_, hvalue⟩⟩

/-- Values with types have a list of types. -/
theorem exists_typesOf {ids : List ValueId} (h : ∀ v ∈ ids, ∃ ty, program.typeOf v = .ok ty) :
    ∃ types, program.typesOf ids = .ok types := by
  induction ids with
  | nil => exact ⟨[], rfl⟩
  | cons v rest ih =>
    obtain ⟨ty, hty⟩ := h v List.mem_cons_self
    obtain ⟨types, htypes⟩ := ih fun w hw => h w (List.mem_cons_of_mem _ hw)
    exact ⟨ty :: types, bind_eq_ok.mpr ⟨ty, hty, bind_eq_ok.mpr ⟨types, htypes, rfl⟩⟩⟩

/-- In a valid program results have types. -/
theorem exists_typesOf_results (hvalid : program.Valid) {id : OpId}
    (hop : program.ops[id.index]? = some op) : ∃ types, program.typesOf op.results = .ok types := by
  refine exists_typesOf fun v hv => ?_
  obtain ⟨k, hk⟩ := List.mem_iff_getElem?.mp hv
  obtain ⟨ty, hvalue⟩ := hvalid.results id.index k op v hop hk
  exact ⟨ty, Program.typeOf_eq_ok.mpr ⟨_, hvalue⟩⟩

/-- The operations that make a tensor have no rules. -/
theorem creation_plain (span : Span) (block : TensorBlock) (first : Nat) (source handle : ValueId) :
    ∀ op ∈ creation span block first source handle, ruleFor op.kind = none := by
  simp [creation, emitted, TensorBlock.items, callOp, ruleFor]

/-- The operations that expose a buffer have no rules. -/
theorem exposure_plain (span : Span) (accessor : String) (shape : List Dim) (element : Ty)
    (first : Nat) (source pointer : ValueId) :
    ∀ op ∈ exposure span accessor shape element first source pointer, ruleFor op.kind = none := by
  simp [exposure, viewItems, emitted, callOp, ruleFor]

/-- A return expands into a return, and everything else into operations without rules. -/
theorem Expansion.ret_or_plain {root : Operation} {operands : List ValueId} {new : List Operation}
    {values : List ValueId} (h : Expansion program root operands new values) :
    (root.kind = .ret ∧ root.results = [] ∧ ∃ op, new = [op] ∧ op.kind = .ret ∧
      op.operands = operands ∧ op.results = [] ∧ op.span = root.span) ∨
    (root.kind ≠ .ret ∧ ∀ op ∈ new, ruleFor op.kind = none) := by
  cases h with
  | ret hkind hresults => exact .inl ⟨hkind, hresults, _, rfl, rfl, rfl, rfl, rfl⟩
  | query _ _ hquery =>
    refine .inr ⟨fun hkind => ?_, by simp [callOp, ruleFor]⟩
    rw [hkind] at hquery
    cases hquery with
    | read harray => simp [arrayAccessor?] at harray
  | construct hkind => exact .inr ⟨by simp [hkind], creation_plain _ _ _ _ _⟩
  | convert hkind =>
    refine .inr ⟨by simp [hkind], fun op hop => ?_⟩
    rcases List.mem_append.mp hop with hexposure | hcreation
    · exact exposure_plain _ _ _ _ _ _ _ op hexposure
    · exact creation_plain _ _ _ _ _ op hcreation
  | fold hkind => exact .inr ⟨by simp [hkind], by simp⟩

/-- An operation in the place of another one with the same report adds nothing to be reported, if
it is rejected only when the other one is. -/
theorem rejections_sublist_of {source target : Program} {ids ids' : List OpId} {op op' : Operation}
    (hold : source.operations ids = [op]) (hnew : target.operations ids' = [op'])
    (hsame : complaint op' = complaint op)
    (hrejected : rejected target op' = true → rejected source op = true) :
    (rejections target ids').Sublist (rejections source ids) := by
  rw [rejections_eq hold, rejections_eq hnew, hsame]
  cases hnow : rejected target op' with
  | true => rw [if_pos rfl, if_pos (hrejected hnow)]
  | false => exact List.nil_sublist _

/-- The verdict depends on the kind of operation in one of four ways. -/
theorem kind_cases (kind : OpKind) : kind = .ret ∨ kind = .tensorDim ∨
    kind.dialect = .sparseTensor ∨ ruleFor kind = none := by
  cases kind <;> simp [OpKind.dialect, ruleFor]

/-- The verdict about the extent of a value. -/
theorem rejected_of_tensorDim (hkind : op.kind = .tensorDim) {v : ValueId} {ty : Ty}
    (hv : op.operands[0]? = some v) (hty : program.typeOf v = .ok ty) :
    rejected program op = (ty.isSparse || ty.isPtr) := by
  have hverdict : denseSource program op = .ok (!ty.isSparse && !ty.isPtr) := by
    simp [denseSource, Fault.fetch, hv, hty, bind, Except.bind, pure, Except.pure]
  simp [rejected, isLegal_of_tensorDim hkind, hverdict]

/-- Operations without a rule are not reported. -/
theorem rejections_eq_nil {ids : List OpId}
    (h : ∀ op ∈ program.operations ids, ruleFor op.kind = none) : rejections program ids = [] := by
  have hnone : (program.operations ids).filter (rejected program) = [] :=
    List.filter_eq_nil_iff.mpr fun op hop => by simp [rejected, isLegal_of_plain (h op hop)]
  rw [rejections, hnone, List.map_nil]

section Sublist

variable {source target : Program} {start state : Progress} {expand : OpId → List OpId}
  (hsource : source.Valid) (hssa : source.DefBeforeUse)
  (h : Lowered source start state expand target) {id : OpId} (hid : id ∈ source.allOps)
  (hop : source.ops[id.index]? = some op)

include hsource h

/-- What a value of a type stands for has the same type or is a handle, in the lowered program. -/
theorem Lowered.type_of_resolve {v : ValueId} {ty : Ty} (hty : source.typeOf v = .ok ty) :
    target.typeOf (state.aliases.resolve v) = .ok ty ∨
      target.typeOf (state.aliases.resolve v) = .ok .ptr := by
  rw [h.typeOf]
  exact h.walk.type_of_resolve h.resigned hsource
    (Program.typeOf_mono (h.resigned.values.trans h.walk.values) hty)

include hssa hid hop

/-- A substituted return is rejected only if the original one is. -/
theorem Lowered.rejected_of_ret (hkind : op.kind = .ret) {op' : Operation} (hkind' : op'.kind = .ret)
    (hoperands : op'.operands = op.operands.map state.aliases.resolve)
    (hrejected : rejected target op' = true) : rejected source op = true := by
  have htyped : ∀ v ∈ op.operands, ∃ ty, source.typeOf v = .ok ty := fun v hv =>
    exists_typeOf_operand hsource hssa hid hop hv
  rcases noneSparse_cases htyped with ⟨-, hdense⟩ | ⟨hsparse, -⟩
  · -- Without a sparse tensor before the substitution there is none after it.
    exfalso
    have htyped' : ∀ v ∈ op'.operands, ∃ ty, target.typeOf v = .ok ty ∧ ty.isSparse = false := by
      intro v hv
      rw [hoperands] at hv
      obtain ⟨x, hx, rfl⟩ := List.mem_map.mp hv
      obtain ⟨ty, hty⟩ := htyped x hx
      rcases h.type_of_resolve hsource hty with hsame | hptr
      · exact ⟨ty, hsame, hdense x hx ty hty⟩
      · exact ⟨.ptr, hptr, rfl⟩
    rcases noneSparse_cases fun v hv => (htyped' v hv).imp fun _ hty => hty.1 with
      ⟨hlegal, -⟩ | ⟨-, v, hv, ty, hty, hsparse⟩
    · simp [rejected, isLegal_of_ret hkind', hlegal] at hrejected
    · obtain ⟨ty', hty', hdense'⟩ := htyped' v hv
      obtain rfl := Except.ok.inj (hty.symm.trans hty')
      simp [hsparse] at hdense'
  · simp [rejected, isLegal_of_ret hkind, hsparse]

/-- An operation that stays is rejected only if it was. -/
theorem Lowered.rejected_of_kept
    (hdeclined : Declined state.program op (op.operands.map state.aliases.resolve))
    (hrejected :
      rejected target { op with operands := op.operands.map state.aliases.resolve } = true) :
    rejected source op = true := by
  rcases kind_cases op.kind with hkind | hkind | hkind | hkind
  · exact h.rejected_of_ret hsource hssa hid hop hkind (by exact hkind) rfl hrejected
  · simp only [Declined, hkind] at hdeclined
    obtain ⟨tensor, ty, htensor, hty, hptr⟩ := hdeclined
    rw [← h.typeOf] at hty
    rw [rejected_of_tensorDim (by exact hkind) htensor hty, hptr, Bool.or_false] at hrejected
    rw [List.getElem?_map, Option.map_eq_some_iff] at htensor
    obtain ⟨v, hv, rfl⟩ := htensor
    obtain ⟨ty', hty'⟩ := exists_typeOf_operand hsource hssa hid hop (List.mem_of_getElem? hv)
    rcases h.type_of_resolve hsource hty' with hsame | hhandle
    · obtain rfl := Except.ok.inj (hty.symm.trans hsame)
      rw [rejected_of_tensorDim hkind hv hty', hrejected, Bool.true_or]
    · obtain rfl := Except.ok.inj (hty.symm.trans hhandle)
      simp [Ty.isPtr] at hptr
  · simp [rejected, isLegal_of_sparse hkind]
  · have hlegal : legality.isLegal target
        { op with operands := op.operands.map state.aliases.resolve } = .ok true :=
      isLegal_of_plain hkind
    simp [rejected, hlegal] at hrejected

/-- What is reported about the place of an operation was to be reported about the operation. -/
theorem Lowered.rejections_sublist :
    (rejections target (expand id)).Sublist (rejections source [id]) := by
  have hbecame := h.became hsource hid hop
  have hkept := h.declined hid hop
  have hold : source.operations [id] = [op] := Program.operations_cons hop []
  generalize expand id = ids at hbecame hkept ⊢
  cases hbecame with
  | kept hop' =>
    exact rejections_sublist_of hold (Program.operations_cons hop' []) rfl
      (h.rejected_of_kept hsource hssa hid hop (hkept rfl))
  | replaced _ _ hexpansion =>
    rcases hexpansion.ret_or_plain with
      ⟨hkind, -, op', hnew, hkind', hoperands, -, hspan⟩ | ⟨-, hplain⟩
    · have hsame := complaint_congr (hkind'.trans hkind.symm) hspan
      have himp := h.rejected_of_ret hsource hssa hid hop hkind hkind' hoperands
      exact rejections_sublist_of hold hnew hsame himp
    · rw [rejections_eq_nil hplain]
      exact List.nil_sublist _

end Sublist

end Lowering

end TensorLowering
