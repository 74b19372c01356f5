import Mathlib.Data.List.Pairwise
import TensorLowering.Proofs.Congruence
import TensorLowering.Proofs.Representation

/-!
# Where the values of a lowering come from

Everything that a lowering leaves behind has a place that does not depend on the order of the walk.
A value was there before, or it replaced an argument, or it is a result of an operation that was
created for an operation of the source, at some position. Places tell values apart, so two lowerings
can be compared place by place, although they handed out their ids at different moments.
-/

namespace TensorLowering

namespace Lowering

open Conversion

/-- The names of the functions that are declared on the way from one program to another. -/
def declaredNames (before after : Program) : List String :=
  (after.funcs.drop before.funcs.length).map Func.name

/-- A lowering that went through, with what is on record about it. -/
structure Course where
  source : Program
  start : Progress
  state : Progress
  expand : OpId → List OpId
  target : Program
  valid : source.Valid
  ssa : source.DefBeforeUse
  walked : walk rules handleTypes source = .ok state
  renames : forEach (renameBody state.aliases) source.definedFuncs state.program = .ok target
  lowered : Lowered source start state expand target

/-- Every lowering has a course. In the end there are counts if nothing is reported. -/
theorem exists_course {program : Program} (hvalid : program.Valid) (hssa : program.DefBeforeUse)
    {outcome : Outcome} (hrun : lower program = .ok outcome) : ∃ (c : Course) (reports : _),
      c.source = program ∧ c.target = outcome.program ∧
      illegalIn legality outcome.program program.definedFuncs = .ok reports ∧
      outcome.result = if reports.isEmpty then .ok c.state.stats else .error reports := by
  obtain ⟨start, state, expand, hwalk, hlowered⟩ := exists_lowered hvalid hssa hrun
  obtain ⟨state', renamed, reports, hwalk', hrename, hreports, rfl⟩ := run_eq_ok.mp hrun
  obtain rfl := Except.ok.inj (hwalk.symm.trans hwalk')
  exact ⟨⟨program, start, state, expand, renamed, hvalid, hssa, hwalk, hrename, hlowered⟩, reports,
    rfl, rfl, hreports, rfl⟩

/-- The place of an operation. -/
inductive OpPlace where
  | old (id : OpId)
  /-- Created for an operation of the source, at a position. -/
  | made (id : OpId) (position : Nat)

/-- The place of a value. -/
inductive Place where
  | old (v : ValueId)
  /-- What an argument was replaced by. -/
  | fresh (v : ValueId)
  /-- A result of an operation that was created for an operation of the source. -/
  | made (id : OpId) (position result : Nat)

namespace Course

variable (c : Course)

/-- An operation was created for another one, at a position. -/
structure Makes (id : OpId) (position : Nat) (other : OpId) : Prop where
  mem : id ∈ c.source.allOps
  stands : (c.expand id)[position]? = some other
  new : c.source.ops.length ≤ other.index

/-- An operation has a place. -/
inductive Stands : OpPlace → OpId → Prop
  | old {id : OpId} (h : id.index < c.source.ops.length) : Stands (.old id) id
  | made {id other : OpId} {position : Nat} (h : c.Makes id position other) :
      Stands (.made id position) other

/-- A value has a place. -/
inductive Holds : Place → ValueId → Prop
  | old {v : ValueId} (h : v.index < c.source.values.length) : Holds (.old v) v
  | fresh {v u : ValueId} (h : c.start.aliases.next? v = some u) : Holds (.fresh v) u
  | made {id other : OpId} {position result : Nat} {op : Operation} {v : ValueId}
      (h : c.Makes id position other) (hop : c.state.program.ops[other.index]? = some op)
      (hv : op.results[result]? = some v) : Holds (.made id position result) v

variable {c}

/-- The values of the source are still there. -/
theorem values_kept : c.source.values <+: c.state.program.values :=
  c.lowered.resigned.values.trans c.lowered.walk.values

/-- The blocks are the expanded ones. -/
theorem allOps_eq : c.state.program.allOps = c.source.allOps.flatMap c.expand := by
  rw [← c.lowered.allOps c.valid, Program.allOps, Program.allOps, c.lowered.renamed.funcs]

/-- What was expanded has no operation twice. -/
theorem nodup_expand : (c.source.allOps.flatMap c.expand).Nodup :=
  c.allOps_eq ▸ c.lowered.walk.valid.nodup

/-- An operation was created for one operation, at one position. -/
theorem Makes.unique {id id' other : OpId} {j j' : Nat} (h : c.Makes id j other)
    (h' : c.Makes id' j' other) : id = id' ∧ j = j' := by
  obtain ⟨hblocks, hdisjoint⟩ := List.nodup_flatMap.mp c.nodup_expand
  have hsame : id = id' := by
    by_contra hne
    have : Std.Symm (Function.onFun List.Disjoint c.expand) :=
      ⟨fun _ _ hapart _ hleft hright => hapart hright hleft⟩
    exact hdisjoint.forall h.mem h'.mem hne (List.mem_of_getElem? h.stands)
      (List.mem_of_getElem? h'.stands)
  subst hsame
  have hlt := (List.getElem?_eq_some_iff.mp h.stands).1
  exact ⟨rfl, (List.getElem?_inj hlt (hblocks id h.mem)).mp (h.stands.trans h'.stands.symm)⟩

/-- An operation that was created is there. -/
theorem Makes.exists_op {id other : OpId} {j : Nat} (h : c.Makes id j other) :
    ∃ op, c.state.program.ops[other.index]? = some op := by
  have hmem : other ∈ c.state.program.allOps := by
    rw [c.allOps_eq]
    exact List.mem_flatMap.mpr ⟨id, h.mem, List.mem_of_getElem? h.stands⟩
  obtain ⟨op, hop, -⟩ := c.lowered.walk.valid.live other hmem
  exact ⟨op, hop⟩

/-- A result knows its operation and its position. -/
theorem result_origin {id : OpId} {k : Nat} {op : Operation} {v : ValueId}
    (hop : c.state.program.ops[id.index]? = some op) (hv : op.results[k]? = some v) :
    ∃ ty, c.state.program.values[v.index]? = some ⟨ty, .result id k⟩ :=
  c.lowered.walk.valid.results id.index k op v hop hv

/-- What replaces an argument is an argument beyond the source. -/
theorem fresh_cases {v u : ValueId} (h : c.start.aliases.next? v = some u) :
    ∃ i k func ty, c.source.funcs[i]? = some func ∧ func.args[k]? = some v ∧
      func.argTypes[k]? = some ty ∧ handleTypes.convert ty ≠ ty ∧
      c.source.values.length ≤ u.index ∧
      c.state.program.values[u.index]? = some ⟨handleTypes.convert ty, .argument ⟨i⟩ k⟩ := by
  obtain ⟨i, k, func, ty, hfunc, harg, hty, hchange, hge, hvalue⟩ := c.lowered.resigned.keys v u h
  exact ⟨i, k, func, ty, hfunc, harg, hty, hchange, hge,
    getElem?_mono c.lowered.walk.values hvalue⟩

/-- Results of created operations are beyond the source. -/
theorem Makes.result_ge {id other : OpId} {j k : Nat} {op : Operation} {v : ValueId}
    (h : c.Makes id j other) (hop : c.state.program.ops[other.index]? = some op)
    (hv : op.results[k]? = some v) : c.source.values.length ≤ v.index := by
  by_contra hlt
  obtain ⟨ty, hvalue⟩ := c.result_origin hop hv
  have hold := List.getElem?_eq_getElem (Nat.lt_of_not_le hlt)
  rw [getElem?_mono c.values_kept hold, Option.some.injEq] at hvalue
  rw [hvalue] at hold
  obtain ⟨built, hbuilt, -⟩ := c.valid.origins _ _ _ _ hold
  have := (List.getElem?_eq_some_iff.mp hbuilt).1
  have := h.new
  omega

/-- A value has one place. -/
theorem Holds.place_unique {p q : Place} {v : ValueId} (h : c.Holds p v) (h' : c.Holds q v) :
    p = q := by
  -- Values of the source have small ids, and the others know in their origin where they come from.
  cases h with
  | old hlt =>
    cases h' with
    | old => rfl
    | fresh hnext =>
      obtain ⟨-, -, -, -, -, -, -, -, hge, -⟩ := c.fresh_cases hnext
      omega
    | made hmakes hop hv =>
      have := hmakes.result_ge hop hv
      omega
  | fresh hnext =>
    obtain ⟨i, k, func, ty, hfunc, harg, -, -, hge, hvalue⟩ := c.fresh_cases hnext
    cases h' with
    | old hlt => omega
    | fresh hnext' =>
      obtain ⟨i', k', func', ty', hfunc', harg', -, -, -, hvalue'⟩ := c.fresh_cases hnext'
      rw [hvalue, Option.some.injEq, Value.mk.injEq, Origin.argument.injEq, FuncId.mk.injEq]
        at hvalue'
      obtain ⟨-, rfl, rfl⟩ := hvalue'
      obtain rfl := Option.some.inj (hfunc.symm.trans hfunc')
      rw [Option.some.inj (harg.symm.trans harg')]
    | made hmakes hop hv =>
      obtain ⟨ty', hvalue'⟩ := c.result_origin hop hv
      simp [hvalue] at hvalue'
  | made hmakes hop hv =>
    obtain ⟨ty, hvalue⟩ := c.result_origin hop hv
    cases h' with
    | old hlt =>
      have := hmakes.result_ge hop hv
      omega
    | fresh hnext =>
      obtain ⟨i, k, func, ty', -, -, -, -, -, hvalue'⟩ := c.fresh_cases hnext
      simp [hvalue] at hvalue'
    | made hmakes' hop' hv' =>
      obtain ⟨ty', hvalue'⟩ := c.result_origin hop' hv'
      rw [hvalue, Option.some.injEq, Value.mk.injEq, Origin.result.injEq] at hvalue'
      obtain ⟨-, rfl, rfl⟩ := hvalue'
      obtain ⟨rfl, rfl⟩ := hmakes.unique hmakes'
      rfl

/-- A place has one value. -/
theorem Holds.value_unique {p : Place} {v w : ValueId} (h : c.Holds p v) (h' : c.Holds p w) :
    v = w := by
  cases h with
  | old => cases h' with | old => rfl
  | fresh hnext =>
    cases h' with
    | fresh hnext' => exact Option.some.inj (hnext.symm.trans hnext')
  | made hmakes hop hv =>
    cases h' with
    | made hmakes' hop' hv' =>
      obtain rfl := Option.some.inj (hmakes.stands.symm.trans hmakes'.stands)
      obtain rfl := Option.some.inj (hop.symm.trans hop')
      exact Option.some.inj (hv.symm.trans hv')

/-- An operation has one place. -/
theorem Stands.place_unique {p q : OpPlace} {id : OpId} (h : c.Stands p id) (h' : c.Stands q id) :
    p = q := by
  cases h with
  | old hlt =>
    cases h' with
    | old => rfl
    | made hmakes =>
      have := hmakes.new
      omega
  | made hmakes =>
    cases h' with
    | old hlt =>
      have := hmakes.new
      omega
    | made hmakes' =>
      obtain ⟨rfl, rfl⟩ := hmakes.unique hmakes'
      rfl

/-- A place has one operation. -/
theorem Stands.op_unique {p : OpPlace} {id other : OpId} (h : c.Stands p id)
    (h' : c.Stands p other) : id = other := by
  cases h with
  | old => cases h' with | old => rfl
  | made hmakes =>
    cases h' with
    | made hmakes' => exact Option.some.inj (hmakes.stands.symm.trans hmakes'.stands)

/-- Values and their places belong together one to one. -/
theorem holds_unique (c : Course) : Relator.BiUnique c.Holds :=
  ⟨fun _ _ _ hp hq => hp.place_unique hq, fun _ _ _ hv hw => hv.value_unique hw⟩

/-- Operations and their places belong together one to one. -/
theorem stands_unique (c : Course) : Relator.BiUnique c.Stands :=
  ⟨fun _ _ _ hp hq => hp.place_unique hq, fun _ _ _ hid hother => hid.op_unique hother⟩

/-! ### Final names -/

/-- What replaced an argument keeps its name. -/
theorem resolve_fresh {v u : ValueId} (h : c.start.aliases.next? v = some u) :
    c.state.aliases.resolve u = u := by
  obtain ⟨-, -, -, -, -, -, -, -, hge, -⟩ := c.fresh_cases h
  refine Renaming.resolve_of_next?_eq_none ?_
  cases hnext : c.state.aliases.next? u with
  | none => rfl
  | some w =>
    rcases c.lowered.walk.keys u w hnext with hstart | ⟨id, -, op, hop, hresult⟩
    · simp [c.lowered.resigned.fresh u hge] at hstart
    · have := c.valid.result_lt hop hresult
      omega

/-- A result of a created operation keeps its name. -/
theorem Makes.resolve_result {id other : OpId} {j k : Nat} {op : Operation} {v : ValueId}
    (h : c.Makes id j other) (hop : c.state.program.ops[other.index]? = some op)
    (hv : op.results[k]? = some v) : c.state.aliases.resolve v = v :=
  Renaming.resolve_of_next?_eq_none (c.lowered.walk.next?_of_created c.lowered.resigned c.valid
    h.new hop (List.mem_of_getElem? hv))

/-- A value that no operation produces is renamed in the first phase only. -/
theorem resolve_of_settled {v : ValueId} (hv : c.source.Settled [] v) :
    (c.start.aliases.next? v = none ∧ c.state.aliases.resolve v = v) ∨
      ∃ u, c.start.aliases.next? v = some u ∧ c.state.aliases.resolve v = u := by
  cases hstart : c.start.aliases.next? v with
  | some u =>
    have hnext := c.lowered.walk.started v u hstart
    refine .inr ⟨u, rfl, ?_⟩
    rw [c.lowered.walk.acyclic.resolve_eq_of_next? hnext, c.resolve_fresh hstart]
  | none =>
    refine .inl ⟨rfl, Renaming.resolve_of_next?_eq_none ?_⟩
    cases hnext : c.state.aliases.next? v with
    | none => rfl
    | some w =>
      rcases c.lowered.walk.keys v w hnext with hbefore | ⟨id, -, op, hop, hresult⟩
      · simp [hstart] at hbefore
      · simpa using hv id op hop hresult

/-- An argument of a function with a block is replaced if its type changes. -/
theorem exists_fresh {i k : Nat} {func : Func} {v : ValueId} {ty : Ty}
    (hfunc : c.source.funcs[i]? = some func) (hdefined : func.isDeclaration = false)
    (hv : func.args[k]? = some v) (hty : func.argTypes[k]? = some ty)
    (hchange : handleTypes.convert ty ≠ ty) : ∃ u, c.start.aliases.next? v = some u := by
  cases hnext : c.start.aliases.next? v with
  | some u => exact ⟨u, rfl⟩
  | none =>
    -- Then the same value would have its old type and the new one.
    have hnow := c.lowered.walk.func (c.lowered.resigned.func hfunc)
    have hvalue := c.lowered.walk.valid.args i k _ v (handleTypes.convert ty) hnow
      (by simp [Func.expandBody, resign, hdefined, hv, Renaming.resolve_of_next?_eq_none hnext])
      (by simp [Func.expandBody, resign, hdefined, hty])
    have hold := getElem?_mono c.values_kept (c.valid.args i k func v ty hfunc hv hty)
    rw [hvalue, Option.some.injEq, Value.mk.injEq] at hold
    exact absurd hold.1 hchange

/-- An operation of the source is as it was, or erased. -/
theorem exists_erased {id : OpId} {op : Operation} (hop : c.source.ops[id.index]? = some op) :
    ∃ erased, c.state.program.ops[id.index]? = some { op with erased } := by
  by_cases hid : id ∈ c.source.allOps
  · obtain ⟨op', hop', hrecord⟩ := c.lowered.walk.records id hid
    obtain rfl := Option.some.inj (hop.symm.trans hop')
    generalize c.expand id = ids at hrecord
    cases hrecord with
    | kept hkept => exact ⟨op.erased, hkept⟩
    | replaced herased => exact ⟨true, herased⟩
  · exact ⟨op.erased, (c.lowered.walk.pending id hid).2 op hop⟩

/-- An operation of the source stands where it stood, with its final names, or it is erased. -/
theorem target_cases {id : OpId} (hid : id ∈ c.source.allOps) {op : Operation}
    (hop : c.state.program.ops[id.index]? = some op) :
    (c.expand id = [id] ∧ c.target.ops[id.index]? =
        some { op with operands := op.operands.map c.state.aliases.resolve }) ∨
      (c.expand id ≠ [id] ∧ c.target.ops[id.index]? = some op) := by
  by_cases hexpand : c.expand id = [id]
  · exact .inl ⟨hexpand, c.lowered.kept_op hid hexpand hop⟩
  · refine .inr ⟨hexpand, ?_⟩
    obtain ⟨old, -, hrecord⟩ := c.lowered.walk.records id hid
    generalize c.expand id = ids at hrecord hexpand
    cases hrecord with
    | kept => exact absurd rfl hexpand
    | replaced herased =>
      obtain rfl := Option.some.inj (hop.symm.trans herased)
      exact c.lowered.erased_op rfl hop

/-- An operation of the source is erased exactly if it does not stand in its own place. -/
theorem erased_iff {id : OpId} (hid : id ∈ c.source.allOps) :
    c.target.ops[id.index]?.any Operation.erased = true ↔ c.expand id ≠ [id] := by
  obtain ⟨live, hget, hlive⟩ := c.valid.live id hid
  obtain ⟨op, hop, hrecord⟩ := c.lowered.walk.records id hid
  obtain rfl := Option.some.inj (hget.symm.trans hop)
  generalize hexpand : c.expand id = ids at hrecord
  cases hrecord with
  | kept hkept => simp [c.lowered.kept_op hid hexpand hkept, hlive]
  | replaced herased hids =>
    simp only [c.lowered.erased_op rfl herased, Option.any_some, true_iff]
    rintro rfl
    have := hids id (List.mem_singleton_self id)
    have := (List.getElem?_eq_some_iff.mp hop).1
    omega

/-- The names that are declared are those of the created calls that no function had. -/
theorem mem_declaredNames {name : String} : name ∈ declaredNames c.source c.target ↔
    name ∉ c.source.funcs.map Func.name ∧ ∃ id j other op, c.Makes id j other ∧
      c.state.program.ops[other.index]? = some op ∧ op.kind = .call name := by
  obtain ⟨decls, hfuncs, hdecls⟩ := c.lowered.funcs c.valid
  have hdeclared : declaredNames c.source c.target = decls.map Func.name := by
    rw [declaredNames, hfuncs, List.drop_left' (by simp)]
  have hnames : c.state.program.funcs.map Func.name =
      c.source.funcs.map Func.name ++ decls.map Func.name := by
    rw [← c.lowered.renamed.funcs, hfuncs, List.map_append, List.map_map]
    exact congrArg (· ++ _) (List.map_congr_left fun func _ => name_resign _ func)
  have hnodup := c.lowered.walk.valid.nodup_names
  rw [hnames] at hnodup
  rw [hdeclared]
  constructor
  · intro hname
    obtain ⟨func, hfunc, rfl⟩ := List.mem_map.mp hname
    obtain ⟨-, -, id, hid, other, hother, hge, op, hop, hcall, -⟩ := hdecls func hfunc
    obtain ⟨j, hj⟩ := List.mem_iff_getElem?.mp hother
    exact ⟨fun hold => List.disjoint_of_nodup_append hnodup hold hname,
      id, j, other, op, ⟨hid, hj, hge⟩, hop, hcall⟩
  · rintro ⟨hnew, id, j, other, op, hmakes, hop, hcall⟩
    obtain ⟨func, hfunc, rfl⟩ := c.lowered.walk.known other.index op name hmakes.new hop hcall
    have hname : func.name ∈ c.state.program.funcs.map Func.name := List.mem_map_of_mem hfunc
    rw [hnames] at hname
    exact (List.mem_append.mp hname).resolve_left hnew

/-- The operands of the first operations are settled by them. -/
theorem settled_operands {done rest : List OpId} (hall : c.source.allOps = done ++ rest) {id : OpId}
    (hid : id ∈ done) {op : Operation} (hop : c.source.ops[id.index]? = some op) {v : ValueId}
    (hv : v ∈ op.operands) : c.source.Settled done v := by
  obtain ⟨pre, post, rfl⟩ := List.append_of_mem hid
  rw [List.append_assoc, List.cons_append] at hall
  exact (c.ssa.settled c.valid hall hop hv).mono fun other hother =>
    List.mem_append_left _ hother

end Course

end Lowering

end TensorLowering
