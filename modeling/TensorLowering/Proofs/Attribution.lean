import Mathlib.Data.List.Flatten
import TensorLowering.Proofs.Finished

/-!
# What reports are about

A user looks for the operation of a report by its name, its span and the name of its function. When
the reports are made, the operations that the program came with are mixed with new ones, and returns
have all been built again. Still every report is about an operation of the source. New operations
have no legality rules, except for a return, which stands in the place of a return and has its span.
So at most one operation is rejected in each place, and it is found there in the source.
-/

namespace TensorLowering

/-- What identifies an operation to the user: its name, its span and the name of its function. -/
structure Mention where
  op : String
  span : Span
  func : String
deriving DecidableEq

/-- How an operation in its place is identified. -/
def Located.mention (place : Located) : Mention := ⟨place.op.name, place.op.span, place.func⟩

/-- The diagnostic carries the name of the operation in its message, the span as its own, and the
name of the function in its first note. -/
def Diagnostic.Mentions (diagnostic : Diagnostic) (mention : Mention) : Prop :=
  diagnostic.message = "failed to legalize operation '" ++ mention.op ++ "'" ∧
    diagnostic.span = mention.span ∧
    diagnostic.notes.head? = some ("in function @" ++ mention.func)

/-! ### Everything in its place -/

namespace Program

variable {program : Program}

/-- What stands in the blocks, function by function and in the order of each block. -/
def located (program : Program) : List Located := program.funcs.flatMap program.locatedIn

/-- What stands in a block is an operation of some block. -/
theorem mem_located {place : Located} (h : place ∈ program.located) :
    place.id ∈ program.allOps ∧ program.ops[place.id.index]? = some place.op := by
  obtain ⟨func, hfunc, hplace⟩ := List.mem_flatMap.mp h
  obtain ⟨-, hid, hop⟩ := mem_locatedAt.mp hplace
  exact ⟨List.mem_flatMap.mpr ⟨func, hfunc, hid⟩, hop⟩

/-- Nothing stands in a function without a block. -/
theorem locatedIn_eq_nil {func : Func} (hbody : func.body = none) :
    program.locatedIn func = [] := by
  simp [locatedIn, locatedAt, Func.bodyOps, hbody]

/-- Operations in the places of a list, place by place. -/
theorem locatedAt_flatMap (program : Program) (func : String) (ids : List OpId)
    (expand : OpId → List OpId) : program.locatedAt func (ids.flatMap expand) =
      ids.flatMap fun id => program.locatedAt func (expand id) :=
  List.filterMap_flatMap

/-- What is collected from operations that exist does not depend on reading them. -/
theorem flatMap_locatedAt {β : Type} {ids : List OpId}
    (hids : ∀ id ∈ ids, ∃ op, program.ops[id.index]? = some op) (func : String)
    (items : String → OpId → List β) :
    (program.locatedAt func ids).flatMap (fun place => items place.func place.id) =
      ids.flatMap (items func) := by
  induction ids with
  | nil => rfl
  | cons id rest ih =>
    obtain ⟨op, hop⟩ := hids id List.mem_cons_self
    rw [locatedAt_cons hop, List.flatMap_cons, List.flatMap_cons,
      ih fun other hother => hids other (List.mem_cons_of_mem _ hother)]

/-- What is listed in a block exists. -/
theorem Valid.exists_op (h : program.Valid) {func : Func} (hfunc : func ∈ program.funcs) :
    ∀ id ∈ func.bodyOps, ∃ op, program.ops[id.index]? = some op := fun id hid =>
  (h.live id (List.mem_flatMap.mpr ⟨func, hfunc, hid⟩)).imp fun _ hop => hop.1

/-- Everything that is listed in a block stands in one place. -/
theorem Valid.map_id_located (h : program.Valid) :
    program.located.map Located.id = program.allOps := by
  rw [located, List.map_flatMap, allOps]
  refine List.flatMap_congr fun func hfunc => ?_
  rw [locatedIn, List.map_eq_flatMap]
  exact (flatMap_locatedAt (h.exists_op hfunc) func.name fun _ id => [id]).trans
    (List.flatMap_singleton' _)

end Program

namespace Lowering

open Conversion

/-! ### What is rejected in one place -/

section Place

variable {program : Program} {func : String} {ids : List OpId}

/-- Where one operation stands, it is rejected or nothing is. -/
theorem rejectedOf_single {op : Operation} (hops : program.operations ids = [op]) :
    rejectedOf program (program.locatedAt func ids) = [] ∨
      ∃ place, rejectedOf program (program.locatedAt func ids) = [place] ∧
        place.func = func ∧ place.op = op := by
  rw [← program.map_op_locatedAt func ids, List.map_eq_singleton_iff] at hops
  obtain ⟨place, hplaces, hop⟩ := hops
  have hfunc : place.func = func :=
    (Program.mem_locatedAt.mp (hplaces ▸ List.mem_singleton_self place)).1
  rw [hplaces, rejectedOf, List.filter_singleton]
  cases rejected program place.op with
  | true => exact .inr ⟨place, rfl, hfunc, hop⟩
  | false => exact .inl rfl

/-- Where operations without rules stand, nothing is rejected. -/
theorem rejectedOf_plain (h : ∀ op ∈ program.operations ids, ruleFor op.kind = none) :
    rejectedOf program (program.locatedAt func ids) = [] := by
  refine List.filter_eq_nil_iff.mpr fun place hplace => ?_
  have hop : place.op ∈ program.operations ids := by
    rw [← program.map_op_locatedAt func ids]
    exact List.mem_map_of_mem hplace
  simp [rejected, isLegal_of_plain (h _ hop)]

end Place

section Lowered

variable {source target : Program} {start state : Progress} {expand : OpId → List OpId}
  (hsource : source.Valid) (h : Lowered source start state expand target)

include hsource h

/-- In the place of an operation nothing is rejected, or one operation of its kind and span. -/
theorem Lowered.rejectedOf_place {place : Located} (hplace : place ∈ source.located) :
    rejectedOf target (target.locatedAt place.func (expand place.id)) = [] ∨
      ∃ now, rejectedOf target (target.locatedAt place.func (expand place.id)) = [now] ∧
        now.func = place.func ∧ now.op.kind = place.op.kind ∧ now.op.span = place.op.span := by
  obtain ⟨hid, hop⟩ := Program.mem_located hplace
  have hbecame := h.became hsource hid hop
  generalize expand place.id = ids at hbecame ⊢
  cases hbecame with
  | kept hop' =>
    refine (rejectedOf_single (Program.operations_cons hop' [])).imp_right ?_
    rintro ⟨now, hnow, hfunc, hsame⟩
    exact ⟨now, hnow, hfunc, by rw [hsame], by rw [hsame]⟩
  | replaced _ _ hexpansion =>
    rcases hexpansion.ret_or_plain with
      ⟨hkind, -, op', hnew, hkind', -, -, hspan⟩ | ⟨-, hplain⟩
    · refine (rejectedOf_single hnew).imp_right ?_
      rintro ⟨now, hnow, hfunc, rfl⟩
      exact ⟨now, hnow, hfunc, hkind'.trans hkind.symm, hspan⟩
    · exact .inl (rejectedOf_plain hplain)

/-! ### What is rejected in the end -/

/-- The functions that were declared on the way have no blocks. -/
theorem Lowered.located_eq_funcs : target.located =
    source.funcs.flatMap fun func =>
      target.locatedIn (.expandBody expand (resign handleTypes state.aliases func)) := by
  obtain ⟨decls, hfuncs, hdecls⟩ := h.funcs hsource
  have hempty : decls.flatMap target.locatedIn = [] :=
    List.flatMap_eq_nil_iff.mpr fun func hfunc => Program.locatedIn_eq_nil (hdecls func hfunc).1
  rw [Program.located, hfuncs, List.flatMap_append, hempty, List.append_nil, List.flatMap_map]

/-- What stands in the blocks after a lowering stands in the places of the operations before. -/
theorem Lowered.located_eq : target.located =
    source.located.flatMap fun place => target.locatedAt place.func (expand place.id) := by
  rw [h.located_eq_funcs hsource, Program.located, List.flatMap_assoc]
  refine List.flatMap_congr fun func hfunc => ?_
  rw [Program.locatedIn, Program.locatedIn, Func.bodyOps_expandBody, bodyOps_resign,
    Program.locatedAt_flatMap,
    Program.flatMap_locatedAt (hsource.exists_op hfunc) func.name fun name id =>
      target.locatedAt name (expand id)]
  exact List.flatMap_congr fun id _ => congrArg (target.locatedAt · (expand id))
    (name_resign state.aliases func)

/-- What identifies the rejected operations is a subsequence of what identifies the operations that
stood in the blocks before. -/
theorem Lowered.mentions_sublist :
    ((rejectedOf target target.located).map Located.mention).Sublist
      (source.located.map Located.mention) := by
  rw [h.located_eq hsource, rejectedOf, List.filter_flatMap, List.map_flatMap, List.map_eq_flatMap]
  refine List.Sublist.flatMap_right _ fun place hplace => ?_
  change ((rejectedOf target _).map Located.mention).Sublist _
  rcases h.rejectedOf_place hsource hplace with hnone | ⟨now, hone, hfunc, hkind, hspan⟩
  · rw [hnone]
    exact List.nil_sublist _
  · have hsame : now.mention = place.mention := by
      simp only [Located.mention, Operation.name, hfunc, hkind, hspan]
    rw [hone, List.map_singleton, hsame]

/-- The functions that had a block before hold everything that stands in one afterwards. -/
theorem Lowered.flatMap_locatedIn :
    (source.definedFuncs.flatMap fun id =>
      (target.funcs[id.index]?.map target.locatedIn).getD []) = target.located := by
  rw [h.located_eq_funcs hsource,
    ← source.flatMap_definedFuncs fun func hbody => Program.locatedIn_eq_nil (by
      simp [Func.expandBody, resign, Func.isDeclaration, hbody])]
  refine List.flatMap_congr fun id hid => ?_
  obtain ⟨func, body, hfunc, -⟩ := exists_of_mem_definedFuncs hid
  rw [h.func hsource hfunc, hfunc]
  rfl

end Lowered

/-- The reports of a run that fails are about everything that is rejected in the end. -/
theorem reports_of_error {program : Program} {outcome : Outcome} {diagnostics : List Diagnostic}
    (hvalid : program.Valid) (hssa : program.DefBeforeUse) (hrun : lower program = .ok outcome)
    (hresult : outcome.result = .error diagnostics) :
    List.Forall₂ (Reports outcome.program) diagnostics
      (rejectedOf outcome.program outcome.program.located) := by
  obtain ⟨start, state, expand, -, hlowered⟩ := exists_lowered hvalid hssa hrun
  rw [← hlowered.flatMap_locatedIn hvalid]
  obtain ⟨state', renamed, reports, -, -, hreports, rfl⟩ := run_eq_ok.mp hrun
  have hsame : reports = diagnostics := by
    cases reports with
    | nil => simp at hresult
    | cons first rest => simpa using hresult
  exact hsame ▸ reports_of_illegalIn hreports

/-! ### Reports and the source -/

/-- The blocks of a program have become those of another one: in the place of each operation stands
the operation itself, or new ones. -/
structure Unfolds (source target : Program) (expand : OpId → List OpId) : Prop where
  block : ∀ (i : Nat) (func : Func) (body : List OpId), source.funcs[i]? = some func →
    func.body = some body → ∃ func', target.funcs[i]? = some func' ∧ func'.name = func.name ∧
      func'.body = some (body.flatMap expand)
  place : ∀ id ∈ source.allOps,
    expand id = [id] ∨ ∀ other ∈ expand id, source.ops.length ≤ other.index

/-- A lowering unfolds the blocks. -/
theorem Lowered.unfolds {source target : Program} {start state : Progress}
    {expand : OpId → List OpId} (hsource : source.Valid)
    (h : Lowered source start state expand target) : Unfolds source target expand where
  block i func body hfunc hbody := by
    obtain ⟨func', hfunc', hname, -, hbody'⟩ := h.exists_func hsource hfunc hbody
    exact ⟨func', hfunc', hname, hbody'⟩
  place id hid := by
    obtain ⟨op, hop, -⟩ := hsource.live id hid
    have hbecame := h.became hsource hid hop
    generalize expand id = ids at hbecame ⊢
    cases hbecame with
    | kept => exact .inl rfl
    | replaced _ hids => exact .inr hids

/-- Reports name operations of the source, in the order of the source. -/
structure ReportsSource (source target : Program) (diagnostics : List Diagnostic) : Prop where
  /-- There is one report for each operation that is rejected in the end, function by function and
  in the order of each block. -/
  complete : List.Forall₂ (Reports target) diagnostics (rejectedOf target target.located)
  once : (target.located.map Located.id).Nodup
  /-- What the reports carry is a subsequence of what identifies the operations that stood in the
  blocks before. -/
  mentions : ∃ mentions, List.Forall₂ Diagnostic.Mentions diagnostics mentions ∧
    mentions.Sublist (source.located.map Located.mention)
  /-- In the place of an operation nothing of another kind or span is rejected, whatever the run put
  there. -/
  places : ∃ expand, Unfolds source target expand ∧ ∀ place ∈ source.located,
    ∀ now ∈ rejectedOf target (target.locatedAt place.func (expand place.id)),
      now.op.kind = place.op.kind ∧ now.op.span = place.op.span

/-- The reports of a lowering that fails are about the source. -/
theorem lower_reports_source {program : Program} {outcome : Outcome}
    {diagnostics : List Diagnostic} (hreach : program.Reachable) (hssa : program.DefBeforeUse)
    (hrun : lower program = .ok outcome) (hresult : outcome.result = .error diagnostics) :
    ReportsSource program outcome.program diagnostics := by
  have hvalid := hreach.valid
  have htarget : outcome.program.Valid := (Program.Reachable.convert hreach hrun).valid
  obtain ⟨start, state, expand, -, hlowered⟩ := exists_lowered hvalid hssa hrun
  have hreports := reports_of_error hvalid hssa hrun hresult
  have hmentions : List.Forall₂ Diagnostic.Mentions diagnostics
      ((rejectedOf outcome.program outcome.program.located).map Located.mention) := by
    refine List.forall₂_map_right_iff.mpr (hreports.imp ?_)
    rintro diagnostic place ⟨text, -, rfl⟩
    exact ⟨rfl, rfl, rfl⟩
  refine ⟨hreports, htarget.map_id_located ▸ htarget.nodup,
    ⟨_, hmentions, hlowered.mentions_sublist hvalid⟩, expand, hlowered.unfolds hvalid,
    fun place hplace now hnow => ?_⟩
  rcases hlowered.rejectedOf_place hvalid hplace with hnone | ⟨only, hone, -, hsame⟩
  · simp [hnone] at hnow
  · obtain rfl : now = only := by simpa [hone] using hnow
    exact hsame

/-- The reports of a run that fails. -/
def reportsOf (program : Program) : List Diagnostic :=
  match lower program with
  | .error _ => []
  | .ok outcome =>
    match outcome.result with
    | .error diagnostics => diagnostics
    | .ok _ => []

/-- If there are reports, they are those of a run that fails. -/
theorem exists_of_reportsOf {program : Program} (h : reportsOf program ≠ []) :
    ∃ outcome, lower program = .ok outcome ∧ outcome.result = .error (reportsOf program) := by
  unfold reportsOf at h ⊢
  cases hrun : lower program with
  | error halt => simp [hrun] at h
  | ok outcome =>
    cases hresult : outcome.result with
    | error diagnostics => exact ⟨outcome, rfl, by simp [hresult]⟩
    | ok stats => simp [hrun, hresult] at h

/-- The values of a vector are read, and it is converted to the format it has already, which is an
error. The extent of the result is asked, and it is returned. Another function makes a dense
vector. -/
def stranded : Program := .listed
  [{ name := "inspect"
     argTypes := [sparseVector]
     resultTypes := [sparseVector]
     lines := some [
      { kind := .constant (.index 0), operands := [], types := [.index], span := ⟨0, 10, 18⟩ },
      { kind := .toValues
        operands := [0]
        types := [.memref [.dynamic] .f64]
        span := ⟨0, 20, 31⟩ },
      { kind := .sparseConvert, operands := [0], types := [sparseVector], span := ⟨0, 33, 47⟩ },
      { kind := .tensorDim, operands := [3, 1], types := [.index], span := ⟨0, 50, 59⟩ },
      { kind := .ret, operands := [3], span := ⟨0, 61, 69⟩ }] },
   { name := "densify"
     argTypes := [sparseVector]
     lines := some [
      { kind := .sparseConvert
        operands := [5]
        types := [.dense [.dynamic] .f64]
        span := ⟨1, 4, 22⟩ },
      { kind := .ret, operands := [], span := ⟨1, 24, 30⟩ }] }]

/-- The call that reads the values is not reported. Of the two returns, which are both new, the one
that carries the vector is. -/
theorem lower_reports_source_stranded : stranded.Reachable ∧ stranded.DefBeforeUse ∧
    ∃ outcome diagnostics, lower stranded = .ok outcome ∧ outcome.result = .error diagnostics ∧
      diagnostics.map Diagnostic.headline =
        [("failed to legalize operation 'sparse_tensor.convert'", ⟨0, 33, 47⟩),
          ("failed to legalize operation 'tensor.dim'", ⟨0, 50, 59⟩),
          ("failed to legalize operation 'func.return'", ⟨0, 61, 69⟩),
          ("failed to legalize operation 'sparse_tensor.convert'", ⟨1, 4, 22⟩)] ∧
      ReportsSource stranded outcome.program diagnostics := by
  have hreach : stranded.Reachable := Program.reachable_listed _
  have hssa : stranded.DefBeforeUse := by decide +kernel
  obtain ⟨outcome, hrun, hresult⟩ := exists_of_reportsOf
    (by decide +kernel : reportsOf stranded ≠ [])
  exact ⟨hreach, hssa, outcome, reportsOf stranded, hrun, hresult, by decide +kernel,
    lower_reports_source hreach hssa hrun hresult⟩

end Lowering

end TensorLowering
