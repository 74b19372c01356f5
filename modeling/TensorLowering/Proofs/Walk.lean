import Mathlib.Data.List.Induction
import TensorLowering.Proofs.Evidence
import TensorLowering.Proofs.Signatures

/-!
# The walk over the blocks

The second phase visits the operations of a program in the order of its blocks. After each visit the
operation is on record: it was kept as it is, or it was replaced by an expansion over its renamed
operands. The renaming keeps growing while the walk goes on, and so do the arenas. What makes a
record last is that it only speaks of settled values, those that no operation still to come produces:
their names do not change any more. A tensor that is folded into a handle is the delicate case, since
the handle is an operand of an earlier call that is read before its own renaming; it is settled too,
so recording it closes no cycle.
-/

namespace TensorLowering

/-- A function whose block has the given lists in place of its operations. -/
def Func.expandBody (expand : OpId → List OpId) (func : Func) : Func :=
  { func with body := func.body.map fun body => body.flatMap expand }

/-- Expanding every operation to itself. -/
theorem map_expandBody_single (funcs : List Func) :
    funcs.map (Func.expandBody fun id => [id]) = funcs := by
  have hsingle : ∀ func : Func, func.expandBody (fun id => [id]) = func := by
    intro func
    cases func
    simp [Func.expandBody]
  rw [List.map_congr_left fun func _ => hsingle func, List.map_id']

namespace Program

/-- The block of a function, empty if there is none. -/
def blockOf (program : Program) (id : FuncId) : List OpId :=
  (program.funcs[id.index]?.map Func.bodyOps).getD []

/-- What stands in the block of a function. -/
theorem mem_blockOf {program : Program} {id : FuncId} {op : OpId} :
    op ∈ program.blockOf id ↔ ∃ func, program.funcs[id.index]? = some func ∧ op ∈ func.bodyOps := by
  unfold blockOf
  cases program.funcs[id.index]? <;> simp

/-- What stands in the blocks of some functions stands in a block. -/
theorem mem_allOps_of_blocks {program : Program} {ids : List FuncId} {op : OpId}
    (hop : op ∈ ids.flatMap program.blockOf) : op ∈ program.allOps := by
  obtain ⟨id, -, hblock⟩ := List.mem_flatMap.mp hop
  obtain ⟨func, hfunc, hmem⟩ := mem_blockOf.mp hblock
  exact mem_allOps hfunc hmem

/-- What only functions with a block have is collected from these functions. -/
theorem flatMap_definedFuncs {β : Type} (program : Program) {items : Func → List β}
    (hitems : ∀ func : Func, func.body = none → items func = []) :
    (program.definedFuncs.flatMap fun id => (program.funcs[id.index]?.map items).getD []) =
      program.funcs.flatMap items := by
  have hall : (program.funcIds.flatMap fun id => (program.funcs[id.index]?.map items).getD []) =
      program.funcs.flatMap items := by
    obtain ⟨values, ops, funcs, symbols⟩ := program
    simp only [funcIds, List.flatMap_map]
    induction funcs using List.reverseRecOn with
    | nil => rfl
    | append_singleton funcs func ih =>
      rw [List.length_append, List.length_singleton, List.range_succ, List.flatMap_append,
        List.flatMap_append, ← ih]
      refine congrArg₂ _ (List.flatMap_congr fun i hi => ?_) ?_
      · rw [List.getElem?_append_left (List.mem_range.mp hi)]
      · simp
  rw [← hall, definedFuncs]
  generalize program.funcIds = ids
  induction ids with
  | nil => rfl
  | cons id rest ih =>
    rw [List.filter_cons]
    split
    · rw [List.flatMap_cons, List.flatMap_cons, ih]
    · rename_i hundefined
      have hempty : (program.funcs[id.index]?.map items).getD [] = [] := by
        cases hfunc : program.funcs[id.index]? with
        | none => rfl
        | some func =>
          refine hitems func ?_
          cases hbody : func.body <;> simp_all [Func.isDeclaration]
      rw [List.flatMap_cons, hempty, List.nil_append, ih]

/-- The blocks of the functions that have one are all blocks. -/
theorem flatMap_blockOf (program : Program) :
    program.definedFuncs.flatMap program.blockOf = program.allOps :=
  program.flatMap_definedFuncs fun func hbody => by simp [Func.bodyOps, hbody]

/-- The blocks of different functions have no operation in common. -/
theorem Valid.nodup_blocks {program : Program} (h : program.Valid) {ids : List FuncId}
    (hids : ids.Nodup) : (ids.flatMap program.blockOf).Nodup := by
  refine List.nodup_flatMap.mpr ⟨fun id _ => ?_, hids.imp fun {id other} hne => ?_⟩
  · unfold blockOf
    cases hfunc : program.funcs[id.index]? with
    | none => simp
    | some func => simpa using h.block_nodup hfunc
  · intro op hop hop'
    obtain ⟨func, hfunc, hop⟩ := mem_blockOf.mp hop
    obtain ⟨func', hfunc', hop'⟩ := mem_blockOf.mp hop'
    have hsame := h.block_unique hfunc hop hfunc' hop'
    cases id
    cases other
    exact hne (congrArg FuncId.mk hsame)

end Program

namespace Lowering

open Conversion

/-- What became of an operation: the operations that stand in its place. -/
inductive Record (source program : Program) (aliases : Renaming) (id : OpId) (op : Operation) :
    List OpId → Prop
  | kept (hop : program.ops[id.index]? = some op)
      (hdeclined : Declined program op (op.operands.map aliases.resolve))
      (hresults : ∀ r ∈ op.results, aliases.next? r = none) :
      Record source program aliases id op [id]
  | replaced {ids : List OpId} {new : List Operation} {values : List ValueId}
      (hop : program.ops[id.index]? = some { op with erased := true })
      (hids : ∀ other ∈ ids, source.ops.length ≤ other.index)
      (hnew : List.Forall₂ (fun other op => program.ops[other.index]? = some op) ids new)
      (hexpansion : Expansion program op (op.operands.map aliases.resolve) new values)
      (hvalues : List.Forall₂ (fun r v => aliases.next? r = some v) op.results values) :
      Record source program aliases id op ids

/-- A declaration has the types of a new call that stands in the place of a visited operation. -/
def CalledAs (source program : Program) (done : List OpId) (expand : OpId → List OpId)
    (func : Func) : Prop :=
  func.body = none ∧ func.isPublic = false ∧ ∃ id ∈ done, ∃ other ∈ expand id,
    source.ops.length ≤ other.index ∧ ∃ op, program.ops[other.index]? = some op ∧
      op.kind = .call func.name ∧ program.typesOf op.operands = .ok func.argTypes ∧
      program.typesOf op.results = .ok func.resultTypes

/-- The state of a walk that began with the given one and has visited some operations. -/
structure Walk (source : Program) (start : Progress) (done : List OpId)
    (expand : OpId → List OpId) (state : Progress) : Prop where
  valid : state.program.Valid
  values : start.program.values <+: state.program.values
  size : source.ops.length ≤ state.program.ops.length
  funcs : ∃ decls, state.program.funcs = start.program.funcs.map (Func.expandBody expand) ++ decls ∧
    ∀ func ∈ decls, CalledAs source state.program done expand func
  /-- Operations still to come are as they were. -/
  pending : ∀ id ∉ done, expand id = [id] ∧ ∀ op, source.ops[id.index]? = some op →
    state.program.ops[id.index]? = some op
  acyclic : state.aliases.Acyclic
  keys : ∀ v u, state.aliases.next? v = some u → start.aliases.next? v = some u ∨
    ∃ id ∈ done, ∃ op, source.ops[id.index]? = some op ∧ v ∈ op.results
  started : ∀ v u, start.aliases.next? v = some u → state.aliases.next? v = some u
  closed : ∀ v, source.Settled done v → source.Settled done (state.aliases.resolve v)
  /-- The operands of visited operations are settled. -/
  reads : ∀ id ∈ done, ∀ op, source.ops[id.index]? = some op →
    ∀ v ∈ op.operands, source.Settled done v
  /-- The operands of new operations are settled and have their final names. -/
  inserted : ∀ (o : Nat) (op : Operation), source.ops.length ≤ o →
    state.program.ops[o]? = some op →
      ∀ v ∈ op.operands, source.Settled done v ∧ state.aliases.next? v = none
  /-- New calls name functions of the program. -/
  known : ∀ (o : Nat) (op : Operation) (name : String), source.ops.length ≤ o →
    state.program.ops[o]? = some op → op.kind = .call name →
      ∃ func ∈ state.program.funcs, func.name = name
  records : ∀ id ∈ done, ∃ op, source.ops[id.index]? = some op ∧
    Record source state.program state.aliases id op (expand id)

variable {source : Program} {start state after : Progress} {done : List OpId}
  {expand : OpId → List OpId}

/-- A member of the first of two matching lists has a partner in the second. -/
theorem exists_of_forall₂ {α β : Type} {related : α → β → Prop} {left : List α} {right : List β}
    (h : List.Forall₂ related left right) {a : α} (ha : a ∈ left) :
    ∃ b ∈ right, related a b := by
  induction h with
  | nil => simp at ha
  | cons hfirst _ ih =>
    rcases List.mem_cons.mp ha with rfl | htail
    · exact ⟨_, List.mem_cons_self, hfirst⟩
    · obtain ⟨b, hb, hrelated⟩ := ih htail
      exact ⟨b, List.mem_cons_of_mem _ hb, hrelated⟩

/-! ### Nothing that was settled changes -/

/-- A later state agrees with an earlier one about everything that was settled. -/
structure Later (source : Program) (done : List OpId) (state after : Progress) : Prop where
  extension : state.program.Extends after.program
  same : ∀ (id : OpId) (op : Operation), id ∈ done ∨ source.ops.length ≤ id.index →
    state.program.ops[id.index]? = some op → after.program.ops[id.index]? = some op
  persist : ∀ v u, state.aliases.next? v = some u → after.aliases.next? v = some u
  fixed : ∀ v, source.Settled done v → state.aliases.next? v = none → after.aliases.next? v = none

/-- A name that is settled stays. -/
theorem Later.resolve_eq (h : Later source done state after) (hacyclic : state.aliases.Acyclic)
    {v : ValueId} (hv : source.Settled done (state.aliases.resolve v)) :
    after.aliases.resolve v = state.aliases.resolve v := by
  obtain ⟨n, w, hchain⟩ := hacyclic v
  obtain rfl := hchain.resolve_eq
  exact (hchain.persist h.persist (h.fixed _ hv hchain.next?_eq_none)).resolve_eq

/-- A record about settled values lasts. -/
theorem Record.later (h : Later source done state after) (hacyclic : state.aliases.Acyclic)
    {id : OpId} {op : Operation} {ids : List OpId} (hid : id ∈ done)
    (hoperands : ∀ v ∈ op.operands, source.Settled done (state.aliases.resolve v))
    (hresults : ∀ r ∈ op.results, source.Settled done r)
    (hrecord : Record source state.program state.aliases id op ids) :
    Record source after.program after.aliases id op ids := by
  have hnames : op.operands.map after.aliases.resolve = op.operands.map state.aliases.resolve :=
    List.map_congr_left fun v hv => h.resolve_eq hacyclic (hoperands v hv)
  cases hrecord with
  | kept hop hdeclined hkeys =>
    refine .kept (h.same id op (.inl hid) hop) ?_ fun r hr => h.fixed r (hresults r hr) (hkeys r hr)
    rw [hnames]
    exact hdeclined.mono h.extension
  | replaced hop hids hnew hexpansion hvalues =>
    refine .replaced (h.same id _ (.inl hid) hop) hids ?_ (hnames ▸ hexpansion.mono h.extension)
      (hvalues.imp fun r v hnext => h.persist r v hnext)
    refine ((List.forall₂_and_left ids _).mpr ⟨hids, hnew⟩).imp fun other op' hother => ?_
    exact h.same other op' (.inr hother.1) hother.2

/-! ### What a walk knows -/

/-- The functions of the beginning have their blocks expanded. -/
theorem Walk.func (h : Walk source start done expand state) {i : Nat} {func : Func}
    (hfunc : start.program.funcs[i]? = some func) :
    state.program.funcs[i]? = some (func.expandBody expand) := by
  obtain ⟨decls, hfuncs, -⟩ := h.funcs
  have hlt : i < (start.program.funcs.map (Func.expandBody expand)).length := by
    rw [List.length_map]
    exact (List.getElem?_eq_some_iff.mp hfunc).1
  rw [hfuncs, List.getElem?_append_left hlt, List.getElem?_map, hfunc, Option.map_some]

/-- A block of which nothing was visited is still the original one. -/
theorem Walk.bodyOps_of_unvisited (h : Walk source start done expand state) {func : Func}
    {body : List OpId} (hbody : func.body = some body) (hnew : ∀ id ∈ body, id ∉ done) :
    (func.expandBody expand).bodyOps = body := by
  simp only [Func.expandBody, Func.bodyOps, hbody, Option.map_some, Option.getD_some]
  rw [List.flatMap_congr fun id hid => (h.pending id (hnew id hid)).1, List.flatMap_singleton']

section Facts

variable (hresigned : Resigned handleTypes source start) (hsource : source.Valid)
  (h : Walk source start done expand state)

include hresigned hsource h

/-- Values beyond the arena are not renamed. -/
theorem Walk.next?_of_fresh {v : ValueId} (hv : state.program.values.length ≤ v.index) :
    state.aliases.next? v = none := by
  have hle : source.values.length ≤ state.program.values.length :=
    Nat.le_trans hresigned.values.length_le h.values.length_le
  cases hnext : state.aliases.next? v with
  | none => rfl
  | some u =>
    rcases h.keys v u hnext with hstart | ⟨id, -, op, hop, hresult⟩
    · simp [hresigned.fresh v (Nat.le_trans hle hv)] at hstart
    · have := hsource.result_lt hop hresult
      omega

/-- The results of operations still to come are not renamed. -/
theorem Walk.next?_of_pending {id : OpId} {op : Operation} {r : ValueId} (hid : id ∉ done)
    (hop : source.ops[id.index]? = some op) (hr : r ∈ op.results) :
    state.aliases.next? r = none := by
  cases hnext : state.aliases.next? r with
  | none => rfl
  | some u =>
    rcases h.keys r u hnext with hstart | ⟨other, hother, op', hop', hr'⟩
    · obtain ⟨i, k, func, ty, hfunc, harg, -⟩ := hresigned.keys r u hstart
      exact absurd hr (hsource.arg_notMem_results hfunc (List.mem_of_getElem? harg) hop)
    · obtain rfl : id = other := by
        cases id
        cases other
        exact congrArg OpId.mk (hsource.result_unique hop hr hop' hr')
      exact absurd hother hid

/-- The results of new operations are not renamed. -/
theorem Walk.next?_of_created {o : Nat} {op : Operation} {v : ValueId}
    (ho : source.ops.length ≤ o) (hop : state.program.ops[o]? = some op) (hv : v ∈ op.results) :
    state.aliases.next? v = none := by
  cases hnext : state.aliases.next? v with
  | none => rfl
  | some u =>
    rcases h.keys v u hnext with hstart | ⟨id, hid, built, hbuilt, hresult⟩
    · obtain ⟨i, k, func, ty, hfunc, harg, -⟩ := hresigned.keys v u hstart
      obtain ⟨ty', -, hvalue⟩ := hsource.arg_value hfunc harg
      obtain ⟨k', hk'⟩ := List.mem_iff_getElem?.mp hv
      obtain ⟨ty'', hvalue'⟩ := h.valid.results o k' op v hop hk'
      simp [getElem?_mono (hresigned.values.trans h.values) hvalue] at hvalue'
    · obtain ⟨built', hbuilt', hrecord⟩ := h.records id hid
      obtain rfl := Option.some.inj (hbuilt.symm.trans hbuilt')
      have hnow : ∃ now, state.program.ops[id.index]? = some now ∧ v ∈ now.results := by
        generalize expand id = ids at hrecord
        cases hrecord with
        | kept hkept => exact ⟨_, hkept, hresult⟩
        | replaced herased => exact ⟨_, herased, hresult⟩
      obtain ⟨now, hnow, hv'⟩ := hnow
      have hsame := h.valid.result_unique hop hv hnow hv'
      have hlt := (List.getElem?_eq_some_iff.mp hbuilt).1
      omega

omit hresigned h in
/-- Values beyond the arena of the source are settled. -/
theorem settled_of_fresh {v : ValueId} (hv : source.values.length ≤ v.index) :
    source.Settled done v :=
  .of_notMem fun o op hop hr => by
    have := hsource.result_lt hop hr
    omega

omit hresigned hsource in
/-- A settled value with its final name comes from a new operation or from one that was kept. -/
theorem Walk.producer_cases {x : ValueId} {id : OpId} {op : Operation}
    (hop : state.program.ops[id.index]? = some op) (hresult : x ∈ op.results)
    (hx : source.Settled done x) (hname : state.aliases.next? x = none) :
    source.ops.length ≤ id.index ∨
      (id ∈ done ∧ source.ops[id.index]? = some op ∧ expand id = [id]) := by
  rcases Nat.lt_or_ge id.index source.ops.length with hlt | hge
  · have hbuilt := List.getElem?_eq_getElem hlt
    by_cases hid : id ∈ done
    · obtain ⟨built, hbuilt', hrecord⟩ := h.records id hid
      generalize expand id = ids at hrecord
      cases hrecord with
      | kept hkept _ _ =>
        obtain rfl := Option.some.inj (hop.symm.trans hkept)
        exact .inr ⟨hid, hbuilt', rfl⟩
      | replaced herased _ _ _ hvalues =>
        -- The results of a replaced operation are renamed, and this one is not.
        obtain rfl := Option.some.inj (hop.symm.trans herased)
        obtain ⟨u, -, hnext⟩ := exists_of_forall₂ hvalues hresult
        simp [hname] at hnext
    · have := (h.pending id hid).2 _ hbuilt
      obtain rfl := Option.some.inj (hop.symm.trans this)
      exact absurd (hx id _ hbuilt hresult) hid
  · exact .inl hge

omit hresigned hsource in
/-- A handle that a settled operand with its final name shows is settled. -/
theorem Walk.settled_of_shows {program : Program} (hvalid : program.Valid)
    (hops : program.ops = state.program.ops) {x handle : ValueId} (hx : source.Settled done x)
    (hname : state.aliases.next? x = none) (hshows : Shows program x (.handle handle)) :
    source.Settled done handle := by
  obtain _ | _ | _ | @⟨ty, id, k, op, name, _, hvalue, hop, hkind, hfirst, hty⟩ := hshows
  obtain ⟨op', hop', hresult⟩ := hvalid.origins _ _ _ _ hvalue
  obtain rfl := Option.some.inj (hop.symm.trans hop')
  have hmem : handle ∈ op.operands := List.mem_of_mem_head? hfirst
  rw [hops] at hop
  rcases h.producer_cases hop (List.mem_of_getElem? hresult) hx hname with hge | ⟨hid, hbuilt, -⟩
  · exact (h.inserted id.index op hge hop handle hmem).1
  · exact h.reads id hid op hbuilt handle hmem

end Facts

/-! ### One visit -/

/-- What a visit to an operation does, when the given ones take its place. -/
structure Visit (source : Program) (start : Progress) (done : List OpId)
    (expand : OpId → List OpId) (state : Progress) (id : OpId) (op : Operation) (ids : List OpId)
    (after : Progress) : Prop where
  later : Later source done state after
  valid : after.program.Valid
  size : state.program.ops.length ≤ after.program.ops.length
  funcs : ∃ decls, after.program.funcs =
      start.program.funcs.map (Func.expandBody (Function.update expand id ids)) ++ decls ∧
    ∀ func ∈ decls, CalledAs source after.program (done ++ [id]) (Function.update expand id ids) func
  names : ∀ func ∈ state.program.funcs, ∃ func' ∈ after.program.funcs, func'.name = func.name
  pending : ∀ other ≠ id, ∀ op', state.program.ops[other.index]? = some op' →
    after.program.ops[other.index]? = some op'
  acyclic : after.aliases.Acyclic
  keys : ∀ v u, after.aliases.next? v = some u → state.aliases.next? v = some u ∨ v ∈ op.results
  closed : ∀ r ∈ op.results, source.Settled (done ++ [id]) (after.aliases.resolve r)
  inserted : ∀ (o : Nat) (op : Operation), state.program.ops.length ≤ o →
    after.program.ops[o]? = some op →
      ∀ v ∈ op.operands, source.Settled done v ∧ after.aliases.next? v = none
  known : ∀ (o : Nat) (op : Operation) (name : String), state.program.ops.length ≤ o →
    after.program.ops[o]? = some op → op.kind = .call name →
      ∃ func ∈ after.program.funcs, func.name = name
  record : Record source after.program after.aliases id op ids

/-- A visit continues a walk. -/
theorem Walk.visit (hsource : source.Valid) (h : Walk source start done expand state) {id : OpId}
    {op : Operation} {ids : List OpId} (hid : id ∉ done) (hop : source.ops[id.index]? = some op)
    (hreads : ∀ v ∈ op.operands, source.Settled done v)
    (hvisit : Visit source start done expand state id op ids after) :
    Walk source start (done ++ [id]) (Function.update expand id ids) after := by
  have hmore : ∀ other ∈ done, other ∈ done ++ [id] := fun other => List.mem_append_left _
  have hne : ∀ other ∈ done, other ≠ id := by
    rintro other hother rfl
    exact hid hother
  refine ⟨hvisit.valid, h.values.trans hvisit.later.extension.values,
    Nat.le_trans h.size hvisit.size, hvisit.funcs, fun other hother => ?_, hvisit.acyclic,
    fun v u hnext => ?_, fun v u hnext => hvisit.later.persist v u (h.started v u hnext),
    fun v hv => ?_, fun other hother op' hop' v hv => ?_, fun o op' ho hop' v hv => ?_,
    fun o op' name ho hop' hkind => ?_, fun other hother => ?_⟩
  · obtain ⟨hother, hneId⟩ : other ∉ done ∧ other ≠ id := by simpa using hother
    obtain ⟨hexpand, hop'⟩ := h.pending other hother
    rw [Function.update_of_ne hneId]
    exact ⟨hexpand, fun op' hbuilt => hvisit.pending other hneId op' (hop' op' hbuilt)⟩
  · rcases hvisit.keys v u hnext with hbefore | hresult
    · rcases h.keys v u hbefore with hstart | ⟨other, hother, hrest⟩
      · exact .inl hstart
      · exact .inr ⟨other, hmore other hother, hrest⟩
    · exact .inr ⟨id, by simp, op, hop, hresult⟩
  · by_cases hresult : v ∈ op.results
    · exact hvisit.closed v hresult
    · have hsettled : source.Settled done v := by
        intro other op' hop' hv'
        rcases List.mem_append.mp (hv other op' hop' hv') with hdone | hlast
        · exact hdone
        · obtain rfl := List.mem_singleton.mp hlast
          obtain rfl := Option.some.inj (hop.symm.trans hop')
          exact absurd hv' hresult
      rw [hvisit.later.resolve_eq h.acyclic (h.closed v hsettled)]
      exact (h.closed v hsettled).mono hmore
  · rcases List.mem_append.mp hother with hdone | hlast
    · exact (h.reads other hdone op' hop' v hv).mono hmore
    · obtain rfl := List.mem_singleton.mp hlast
      obtain rfl := Option.some.inj (hop.symm.trans hop')
      exact (hreads v hv).mono hmore
  · rcases Nat.lt_or_ge o state.program.ops.length with hlt | hge
    · have hbefore := List.getElem?_eq_getElem hlt
      have hsame := hvisit.later.same ⟨o⟩ _ (.inr ho) hbefore
      obtain rfl := Option.some.inj (hop'.symm.trans hsame)
      obtain ⟨hsettled, hnone⟩ := h.inserted o _ ho hbefore v hv
      exact ⟨hsettled.mono hmore, hvisit.later.fixed v hsettled hnone⟩
    · obtain ⟨hsettled, hnone⟩ := hvisit.inserted o op' hge hop' v hv
      exact ⟨hsettled.mono hmore, hnone⟩
  · rcases Nat.lt_or_ge o state.program.ops.length with hlt | hge
    · have hbefore := List.getElem?_eq_getElem hlt
      have hsame := hvisit.later.same ⟨o⟩ _ (.inr ho) hbefore
      obtain rfl := Option.some.inj (hop'.symm.trans hsame)
      obtain ⟨func, hfunc, hname⟩ := h.known o _ name ho hbefore hkind
      obtain ⟨func', hfunc', hname'⟩ := hvisit.names func hfunc
      exact ⟨func', hfunc', hname'.trans hname⟩
    · exact hvisit.known o op' name hge hop' hkind
  · rcases List.mem_append.mp hother with hdone | hlast
    · obtain ⟨op', hop', hrecord⟩ := h.records other hdone
      rw [Function.update_of_ne (hne other hdone)]
      refine ⟨op', hop', hrecord.later hvisit.later h.acyclic hdone (fun v hv => ?_) fun r hr => ?_⟩
      · exact h.closed v (h.reads other hdone op' hop' v hv)
      · exact hsource.settled_of_done hdone hop' hr
    · obtain rfl := List.mem_singleton.mp hlast
      rw [Function.update_self]
      exact ⟨op, hop, hvisit.record⟩

section Visits

variable (hresigned : Resigned handleTypes source start) (hsource : source.Valid)
  (h : Walk source start done expand state) {id : OpId} {op : Operation} (hid : id ∉ done)
  (hop : source.ops[id.index]? = some op) (hreads : ∀ v ∈ op.operands, source.Settled done v)

include hresigned hsource h hid hop

/-- Keeping an operation is a visit that changes nothing. -/
theorem Walk.visit_of_keeps (hkeeps : Keeps state after op) :
    Visit source start done expand state id op [id] after := by
  obtain ⟨hprogram, haliases, hdeclined⟩ := hkeeps
  obtain ⟨hexpand, hpending⟩ := h.pending id hid
  have hnone : ∀ r ∈ op.results, state.aliases.next? r = none :=
    fun r hr => h.next?_of_pending hresigned hsource hid hop hr
  have hsame : Function.update expand id [id] = expand := by
    rw [← hexpand, Function.update_eq_self]
  obtain ⟨decls, hfuncs, hdecls⟩ := h.funcs
  refine ⟨⟨⟨?_, ?_⟩, ?_, ?_, ?_⟩, ?_, ?_, ⟨decls, ?_, ?_⟩, ?_, ?_, ?_, ?_, ?_, ?_, ?_, ?_⟩
  all_goals simp only [hprogram, haliases, hsame]
  · exact List.prefix_rfl
  · exact fun o op' hop' => ⟨op'.erased, hop'⟩
  · exact fun _ _ _ hop' => hop'
  · exact fun _ _ hnext => hnext
  · exact fun _ _ hnext => hnext
  · exact h.valid
  · exact Nat.le_refl _
  · exact hfuncs
  · intro func hfunc
    obtain ⟨hbody, hprivate, other, hother, hrest⟩ := hdecls func hfunc
    exact ⟨hbody, hprivate, other, List.mem_append_left _ hother, hrest⟩
  · exact fun func hfunc => ⟨func, hfunc, rfl⟩
  · exact fun _ _ _ hop' => hop'
  · exact h.acyclic
  · exact fun _ _ hnext => .inl hnext
  · intro r hr
    rw [Renaming.resolve_of_next?_eq_none (hnone r hr)]
    exact hsource.settled_of_done (by simp) hop hr
  · intro o op' ho hop'
    rw [List.getElem?_eq_none ho] at hop'
    simp at hop'
  · intro o op' name ho hop'
    rw [List.getElem?_eq_none ho] at hop'
    simp at hop'
  · exact .kept (hpending op hop) hdeclined hnone

/-- What recording the replacement of an operation does to a renaming. -/
theorem Walk.insertAll {values : List ValueId}
    (hcases : (op.results = [] ∧ values = []) ∨
      ∃ old value, op.results = [old] ∧ values = [value])
    (hvalues : ∀ v ∈ values, source.Settled done v) {aliases : Renaming}
    (haliases : aliases = state.aliases.insertAll op.results values) :
    aliases.Acyclic ∧
    (∀ v u, state.aliases.next? v = some u → aliases.next? v = some u) ∧
    (∀ v, source.Settled done v → state.aliases.next? v = none → aliases.next? v = none) ∧
    (∀ v u, aliases.next? v = some u → state.aliases.next? v = some u ∨ v ∈ op.results) ∧
    List.Forall₂ (fun r v => aliases.next? r = some v) op.results values := by
  rcases hcases with ⟨hresults, rfl⟩ | ⟨old, value, hresults, rfl⟩
  · rw [hresults] at haliases ⊢
    subst haliases
    exact ⟨h.acyclic, fun _ _ hnext => hnext, fun _ _ hnext => hnext, fun _ _ hnext => .inl hnext,
      .nil⟩
  · have hold : old ∈ op.results := by simp [hresults]
    have hnone := h.next?_of_pending hresigned hsource hid hop hold
    have hends : state.aliases.resolve value ≠ old :=
      (h.closed value (hvalues value (by simp))).ne_result hid hop hold
    have hnext := Renaming.next?_insert state.aliases (Renaming.ne_of_resolve_ne hnone hends)
    have haliases' : aliases = state.aliases.insert old value := by
      rw [haliases, hresults]
      rfl
    subst haliases'
    refine ⟨h.acyclic.insert hnone hends, fun v u hv => ?_, fun v hsettled hv => ?_,
      fun v u hv => ?_, ?_⟩
    · rw [hnext, if_neg, hv]
      rintro rfl
      simp [hnone] at hv
    · rw [hnext, if_neg (hsettled.ne_result hid hop hold), hv]
    · rw [hnext] at hv
      split at hv
      · rename_i heq
        exact .inr (heq ▸ hold)
      · exact .inl hv
    · rw [hresults]
      exact .cons (by rw [hnext, if_pos rfl]) .nil

include hreads in
omit hid hop in
/-- The values that replace the results of an operation are settled. -/
theorem Walk.settled_of_rewrites {grown : Program} {new : List Operation} {values : List ValueId}
    (hrewrites : Rewrites state.program grown op (op.operands.map state.aliases.resolve) new values)
    (hgrown : grown.Valid) : ∀ v ∈ values, source.Settled done v := by
  intro v hv
  have hle : source.values.length ≤ state.program.values.length :=
    Nat.le_trans hresigned.values.length_le h.values.length_le
  rcases hrewrites.expansion.value_cases hv with ⟨created, hcreated, hresult⟩ | ⟨rfl, x, hx, hshows⟩
  · exact settled_of_fresh hsource
      (Nat.le_trans hle (hrewrites.grows.fresh created hcreated v hresult))
  · obtain ⟨y, hy, rfl⟩ := List.mem_map.mp hx
    refine h.settled_of_shows hgrown ?_ (h.closed y (hreads y hy)) (h.acyclic.next?_resolve y) hshows
    rw [hrewrites.grows.ops, List.append_nil]

end Visits

/-- An operation that does not stand in a list does not matter for its expansion. -/
theorem flatMap_update {ids : List OpId} {id : OpId} (hid : id ∉ ids) (new : List OpId) :
    ids.flatMap (Function.update expand id new) = ids.flatMap expand := by
  refine List.flatMap_congr fun other hother => ?_
  rw [Function.update_of_ne]
  rintro rfl
  exact hid hother

/-- Replacing an operation in its expanded block is expanding it in the original one. -/
theorem map_expandBody_update {program : Program} (hvalid : program.Valid) {funcId : FuncId}
    {func : Func} (hfunc : program.funcs[funcId.index]? = some func) {body pre post new : List OpId}
    {id : OpId} (hbody : func.body = some body) (hid : id ∈ body) (hexpand : expand id = [id])
    (hsplit : body.flatMap expand = pre ++ id :: post) (hnodup : (pre ++ id :: post).Nodup) :
    (program.funcs.map (Func.expandBody expand)).modify funcId.index
        (fun func => { func with body := some (pre ++ new ++ post) }) =
      program.funcs.map (Func.expandBody (Function.update expand id new)) := by
  have hmem : id ∈ func.bodyOps := by simpa [Func.bodyOps, hbody] using hid
  refine List.ext_getElem? fun i => ?_
  simp only [List.getElem?_modify, List.getElem?_map]
  cases hother : program.funcs[i]? with
  | none => simp
  | some other =>
    simp only [Option.map_some, Option.map_eq_map, Option.some.injEq]
    by_cases hi : funcId.index = i
    · subst hi
      obtain rfl := Option.some.inj (hfunc.symm.trans hother)
      obtain ⟨before, rest, rfl⟩ := List.append_of_mem hid
      have hblock : (before ++ id :: rest).Nodup := by
        simpa [Func.bodyOps, hbody] using hvalid.block_nodup hfunc
      have hbefore : id ∉ before := fun hin =>
        (List.nodup_append.mp hblock).2.2 id hin id List.mem_cons_self rfl
      have hrest : id ∉ rest := (List.nodup_cons.mp (List.nodup_append.mp hblock).2.1).1
      have hpre : id ∉ pre := fun hin =>
        (List.nodup_append.mp hnodup).2.2 id hin id List.mem_cons_self rfl
      have hpost : id ∉ post := (List.nodup_cons.mp (List.nodup_append.mp hnodup).2.1).1
      rw [List.flatMap_append, List.flatMap_cons, hexpand, List.singleton_append] at hsplit
      obtain ⟨rfl, -, rfl⟩ := (List.append_cons_inj_of_notMem hpre hpost).mp hsplit.symm
      simp only [↓reduceIte, Func.expandBody, hbody, Option.map_some, List.flatMap_append,
        List.flatMap_cons, Function.update_self, flatMap_update hbefore, flatMap_update hrest,
        List.append_assoc]
    · rw [if_neg hi, Func.expandBody, Func.expandBody]
      cases hbody' : other.body with
      | none => rfl
      | some body' =>
        have hnot : id ∉ body' := fun hin =>
          hi (hvalid.block_unique hfunc hmem hother (by simpa [Func.bodyOps, hbody'] using hin))
        simp only [Option.map_some, flatMap_update hnot]

/-- The operations that a replacement leaves behind. -/
theorem Replaces.getElem? {funcId : FuncId} {id : OpId} {op : Operation} {grown : Program}
    {new : List Operation} {values : List ValueId}
    (h : Replaces funcId id state after op grown new values) (o : Nat) :
    after.program.ops[o]? = (state.program.ops ++ new)[o]?.map fun op =>
      if id.index = o then { op with erased := true } else op := by
  obtain ⟨func, pre, post, -, -, -, hprogram⟩ := h.program
  rw [hprogram, ← h.rewrites.grows.ops]
  exact List.getElem?_modify ..

/-- Changing an entry of the first of two lists. -/
theorem modify_append_left {α : Type} {left : List α} {i : Nat} (hi : i < left.length)
    (right : List α) (change : α → α) :
    (left ++ right).modify i change = left.modify i change ++ right := by
  refine List.ext_getElem? fun j => ?_
  rw [List.getElem?_modify, List.getElem?_append, List.getElem?_append, List.length_modify,
    List.getElem?_modify]
  by_cases hj : j < left.length
  · simp [hj]
  · have hne : i ≠ j := by omega
    simp [hj, hne]

/-- The functions after a replacement: one block has changed, and declarations may have come. -/
theorem Walk.funcs_of_replaces (hstart : start.program.Valid)
    (h : Walk source start done expand state) {id : OpId} {op : Operation} (hid : id ∉ done)
    {funcId : FuncId} {func : Func} {body : List OpId}
    (hfunc : start.program.funcs[funcId.index]? = some func) (hbody : func.body = some body)
    (hmem : id ∈ body) {grown : Program} {new : List Operation} {values : List ValueId}
    (hreplaces : Replaces funcId id state after op grown new values)
    (hlater : Later source done state after)
    (hnew : ∀ (k : Nat) (op' : Operation), new[k]? = some op' →
      after.program.ops[state.program.ops.length + k]? = some op') :
    ∃ decls, after.program.funcs = start.program.funcs.map
        (Func.expandBody (Function.update expand id (state.program.nextOps new.length))) ++ decls ∧
      ∀ func ∈ decls, CalledAs source after.program (done ++ [id])
        (Function.update expand id (state.program.nextOps new.length)) func := by
  obtain ⟨hrewrites, hgrown, ⟨func', pre, post, hfunc', hbody', -, hprogram⟩, -⟩ := hreplaces
  obtain ⟨decls, hfuncs, hdecls⟩ := h.funcs
  obtain ⟨decls', hfuncs', hdecls'⟩ := hrewrites.declares.funcs
  have hlt : funcId.index < (start.program.funcs.map (Func.expandBody expand)).length := by
    rw [List.length_map]
    exact (List.getElem?_eq_some_iff.mp hfunc).1
  have hsplit : body.flatMap expand = pre ++ id :: post := by
    rw [hfuncs', hfuncs, List.append_assoc, List.getElem?_append_left hlt, List.getElem?_map, hfunc,
      Option.map_some, Option.some.injEq] at hfunc'
    rw [← hfunc', Func.expandBody, hbody, Option.map_some, Option.some.injEq] at hbody'
    exact hbody'
  have hnodup : (pre ++ id :: post).Nodup := by
    simpa [Func.bodyOps, hbody'] using hgrown.block_nodup hfunc'
  have hvalues : grown.values <+: after.program.values := by
    rw [hprogram]
    exact List.prefix_rfl
  refine ⟨decls ++ decls', ?_, fun func hfunc => ?_⟩
  · rw [hprogram]
    change grown.funcs.modify funcId.index _ = _
    rw [hfuncs', hfuncs, List.append_assoc, modify_append_left hlt,
      map_expandBody_update hstart hfunc hbody hmem (h.pending id hid).1 hsplit hnodup]
  · rcases List.mem_append.mp hfunc with hold | hadded
    · obtain ⟨hnone, hprivate, other, hother, called, hcalled, hge, op', hop', hkind, hargs,
        hresults⟩ := hdecls func hold
      have hne : other ≠ id := by
        rintro rfl
        exact hid hother
      refine ⟨hnone, hprivate, other, List.mem_append_left _ hother, called, ?_, hge, op',
        hlater.same called op' (.inr hge) hop', hkind,
        Program.typesOf_mono hlater.extension.values hargs,
        Program.typesOf_mono hlater.extension.values hresults⟩
      rwa [Function.update_of_ne hne]
    · obtain ⟨hnone, hprivate, op', hop', hkind, hargs, hresults⟩ := hdecls' func hadded
      obtain ⟨k, hk⟩ := List.mem_iff_getElem?.mp hop'
      refine ⟨hnone, hprivate, id, by simp, ⟨state.program.ops.length + k⟩, ?_,
        Nat.le_trans h.size (Nat.le_add_right _ k), op', hnew k op' hk, hkind,
        Program.typesOf_mono hvalues hargs, Program.typesOf_mono hvalues hresults⟩
      rw [Function.update_self]
      exact List.mem_map.mpr
        ⟨k, List.mem_range.mpr (List.getElem?_eq_some_iff.mp hk).1, rfl⟩

/-- A replacement is a visit. -/
theorem Walk.visit_of_replaces (hresigned : Resigned handleTypes source start)
    (hsource : source.Valid) (hstart : start.program.Valid)
    (h : Walk source start done expand state) {id : OpId} {op : Operation} (hid : id ∉ done)
    (hop : source.ops[id.index]? = some op) (hreads : ∀ v ∈ op.operands, source.Settled done v)
    {funcId : FuncId} {func : Func} {body : List OpId}
    (hfunc : start.program.funcs[funcId.index]? = some func) (hbody : func.body = some body)
    (hmem : id ∈ body) {grown : Program} {new : List Operation} {values : List ValueId}
    (hvalid : after.program.Valid)
    (hreplaces : Replaces funcId id state after op grown new values) :
    Visit source start done expand state id op (state.program.nextOps new.length) after := by
  have hops := hreplaces.getElem?
  have hlt : id.index < source.ops.length := (List.getElem?_eq_some_iff.mp hop).1
  have hle : source.values.length ≤ state.program.values.length :=
    Nat.le_trans hresigned.values.length_le h.values.length_le
  have hreplaces' := hreplaces
  obtain ⟨hrewrites, hgrown, ⟨func', pre, post, hfunc', hbody', -, hprogram⟩, haliases⟩ := hreplaces'
  have hsettled := h.settled_of_rewrites hresigned hsource hreads hrewrites hgrown
  obtain ⟨hacyclic, hpersist, hfixed, hkeys, hrenamed⟩ := h.insertAll hresigned hsource hid hop
    hrewrites.expansion.results_cases hsettled haliases
  have hextends : grown.Extends after.program := by
    rw [hprogram]
    exact (Program.Extends.modifyFunc grown funcId _).trans (.eraseOp _ id)
  have hsame : ∀ (other : OpId) (op' : Operation), other ≠ id →
      state.program.ops[other.index]? = some op' → after.program.ops[other.index]? = some op' := by
    intro other op' hne hop'
    have hne' : id.index ≠ other.index := fun heq => hne (OpId.eq_of_index heq.symm)
    rw [hops, getElem?_mono (List.prefix_append _ _) hop', Option.map_some, if_neg hne']
  have hlater : Later source done state after := by
    refine ⟨hrewrites.grows.extends.trans hextends, fun other op' hother hop' => ?_, hpersist, hfixed⟩
    refine hsame other op' ?_ hop'
    rintro rfl
    rcases hother with hdone | hge
    · exact hid hdone
    · omega
  have hnew : ∀ (o : Nat) (op' : Operation), state.program.ops.length ≤ o →
      after.program.ops[o]? = some op' → op' ∈ new := by
    intro o op' ho hop'
    have hne : id.index ≠ o := by
      have := h.size
      omega
    rw [hops, List.getElem?_append_right ho] at hop'
    simp only [if_neg hne, Option.map_id'] at hop'
    exact List.mem_of_getElem? hop'
  have hoperands : ∀ op' ∈ new, ∀ v ∈ op'.operands,
      source.Settled done v ∧ after.aliases.next? v = none := by
    intro op' hop' v hv
    rcases hrewrites.expansion.scoped.mem hop' hv with hoperand | ⟨other, hother, hresult⟩
    · obtain ⟨x, hx, rfl⟩ := List.mem_map.mp hoperand
      have hsettled := h.closed x (hreads x hx)
      exact ⟨hsettled, hfixed _ hsettled (h.acyclic.next?_resolve x)⟩
    · have hfresh := hrewrites.grows.fresh other hother v hresult
      have hsettled : source.Settled done v := settled_of_fresh hsource (Nat.le_trans hle hfresh)
      exact ⟨hsettled, hfixed v hsettled (h.next?_of_fresh hresigned hsource hfresh)⟩
  have hresolve : ∀ v, source.Settled done v →
      source.Settled done (after.aliases.resolve v) := by
    intro v hv
    rw [hlater.resolve_eq h.acyclic (h.closed v hv)]
    exact h.closed v hv
  have hplaces : ∀ (k : Nat) (op' : Operation), new[k]? = some op' →
      after.program.ops[state.program.ops.length + k]? = some op' := by
    intro k op' hk
    have hne : id.index ≠ state.program.ops.length + k := by
      have := h.size
      omega
    rw [hops, List.getElem?_append_right (Nat.le_add_right _ _), Nat.add_sub_cancel_left, hk]
    simp [hne]
  have hnames : ∀ func ∈ grown.funcs, ∃ func' ∈ after.program.funcs, func'.name = func.name := by
    intro func hfunc
    obtain ⟨i, hi⟩ := List.mem_iff_getElem?.mp hfunc
    have hafter : after.program.funcs[i]? = some (if funcId.index = i then
        { func with body := some (pre ++ state.program.nextOps new.length ++ post) } else func) := by
      rw [hprogram]
      simp only [Program.eraseOp, Program.modifyOp, Program.modifyFunc, List.getElem?_modify, hi,
        Option.map_eq_map, Option.map_some]
    refine ⟨_, List.mem_of_getElem? hafter, ?_⟩
    split <;> rfl
  refine ⟨hlater, hvalid, ?_, h.funcs_of_replaces hstart hid hfunc hbody hmem hreplaces hlater hplaces,
    fun func hfunc => ?_, fun other hne op' => hsame other op' hne, hacyclic, hkeys, fun r hr => ?_,
    fun o op' ho hop' => hoperands op' (hnew o op' ho hop'), fun o op' name ho hop' hkind => ?_, ?_⟩
  · have hsize : state.program.ops.length ≤ grown.ops.length := by
      rw [hrewrites.grows.ops, List.length_append]
      exact Nat.le_add_right _ _
    rw [hprogram]
    simpa [Program.eraseOp, Program.modifyOp, Program.modifyFunc] using hsize
  · obtain ⟨i, hi⟩ := List.mem_iff_getElem?.mp hfunc
    exact hnames func (List.mem_of_getElem? (hrewrites.grows.func hi))
  · obtain ⟨v, hv, hnext⟩ := exists_of_forall₂ hrenamed hr
    rw [hacyclic.resolve_eq_of_next? hnext]
    exact (hresolve v (hsettled v hv)).mono fun other => List.mem_append_left _
  · obtain ⟨func, hfunc, hname⟩ := hrewrites.declares.known op' (hnew o op' ho hop') name hkind
    obtain ⟨func', hfunc', hname'⟩ := hnames func hfunc
    exact ⟨func', hfunc', hname'.trans hname⟩
  · have hoperands' : op.operands.map after.aliases.resolve =
        op.operands.map state.aliases.resolve := List.map_congr_left fun v hv =>
      hlater.resolve_eq h.acyclic (h.closed v (hreads v hv))
    refine .replaced ?_ (fun other hother => ?_) ?_
      (hoperands' ▸ hrewrites.expansion.mono hextends) hrenamed
    · rw [hops, getElem?_mono (List.prefix_append _ _) ((h.pending id hid).2 op hop), Option.map_some,
        if_pos rfl]
    · obtain ⟨k, -, rfl⟩ := List.mem_map.mp hother
      exact Nat.le_trans h.size (Nat.le_add_right _ _)
    · refine List.forall₂_iff_get.mpr ⟨by simp [Program.nextOps], fun k hk hk' => ?_⟩
      have hplace := hplaces k _ (List.getElem?_eq_getElem hk')
      simpa [Program.nextOps] using hplace

/-! ### The whole walk -/

section Run

variable (hresigned : Resigned handleTypes source start) (hsource : source.Valid)
  (hstart : start.program.Valid) (hssa : source.DefBeforeUse)

include hresigned hsource

/-- A walk begins with nothing visited. -/
theorem Walk.begin (hstart : start.program.Valid) : Walk source start [] (fun id => [id]) start := by
  refine ⟨hstart, List.prefix_rfl, Nat.le_of_eq (by rw [hresigned.ops]), ⟨[], ?_, by simp⟩,
    fun id _ => ⟨rfl, ?_⟩, hresigned.acyclic, fun v u hnext => .inl hnext, fun v u hnext => hnext,
    fun v hv => ?_, by simp, fun o op ho hop => ?_, fun o op name ho hop => ?_, by simp⟩
  · rw [List.append_nil, map_expandBody_single]
  · intro op hop
    rwa [hresigned.ops]
  · -- A renamed argument leads to a fresh one, which no operation produces.
    cases hnext : start.aliases.next? v with
    | none => rwa [Renaming.resolve_of_next?_eq_none hnext]
    | some u =>
      obtain ⟨i, k, func, ty, -, -, -, -, hfresh, -⟩ := hresigned.keys v u hnext
      rw [hresigned.acyclic.resolve_eq_of_next? hnext,
        Renaming.resolve_of_next?_eq_none (hresigned.fresh u hfresh)]
      exact settled_of_fresh hsource hfresh
  · rw [hresigned.ops, List.getElem?_eq_none ho] at hop
    simp at hop
  · rw [hresigned.ops, List.getElem?_eq_none ho] at hop
    simp at hop

include hstart

/-- One operation of a block is visited. -/
theorem Walk.convertOp (h : Walk source start done expand state) {funcId : FuncId} {func : Func}
    {body : List OpId} {id : OpId} {op : Operation}
    (hfunc : start.program.funcs[funcId.index]? = some func) (hbody : func.body = some body)
    (hmem : id ∈ body) (hid : id ∉ done) (hop : source.ops[id.index]? = some op)
    (hreads : ∀ v ∈ op.operands, source.Settled done v)
    (hrun : convertOp rules funcId id state = .ok after) :
    ∃ expand', Walk source start (done ++ [id]) expand' after := by
  have hstands : id ∈ state.program.allOps := by
    refine Program.mem_allOps (h.func hfunc) ?_
    simp only [Func.expandBody, Func.bodyOps, hbody, Option.map_some, Option.getD_some]
    exact List.mem_flatMap.mpr ⟨id, hmem, by simp [(h.pending id hid).1]⟩
  have hvalid := convertOp_valid hrun h.valid
  obtain ⟨root, hroot, -, hcase⟩ := convertOp_cases h.valid hstands hrun
  obtain rfl := Option.some.inj (hroot.symm.trans ((h.pending id hid).2 op hop))
  rcases hcase with hkeeps | ⟨grown, new, values, hreplaces⟩
  · exact ⟨_, h.visit hsource hid hop hreads
      (h.visit_of_keeps hresigned hsource hid hop hkeeps)⟩
  · exact ⟨_, h.visit hsource hid hop hreads (h.visit_of_replaces hresigned hsource hstart hid hop
      hreads hfunc hbody hmem hvalid hreplaces)⟩

include hssa

/-- The operations of a block are visited in order. -/
theorem Walk.convertOps (h : Walk source start done expand state) {funcId : FuncId} {func : Func}
    {body ids rest : List OpId} (hfunc : start.program.funcs[funcId.index]? = some func)
    (hbody : func.body = some body) (hids : ∀ id ∈ ids, id ∈ body)
    (hall : source.allOps = done ++ (ids ++ rest))
    (hrun : convertOps rules funcId ids state = .ok after) :
    ∃ expand', Walk source start (done ++ ids) expand' after := by
  induction ids generalizing done expand state with
  | nil =>
    simp only [Conversion.convertOps, Except.ok.injEq] at hrun
    subst hrun
    exact ⟨expand, by rwa [List.append_nil]⟩
  | cons id ids ih =>
    obtain ⟨middle, hmiddle, hrest⟩ := convertOps_cons_eq_ok.mp hrun
    rw [List.cons_append] at hall
    have hnodup := hsource.nodup
    rw [hall] at hnodup
    have hid : id ∉ done := fun hin =>
      (List.nodup_append.mp hnodup).2.2 id hin id List.mem_cons_self rfl
    obtain ⟨op, hop, -⟩ := hsource.live id (by simp [hall])
    obtain ⟨expand', hstep⟩ := h.convertOp hresigned hsource hstart hfunc hbody
      (hids id List.mem_cons_self) hid hop (fun v hv => hssa.settled hsource hall hop hv) hmiddle
    have hafter := ih hstep (fun other hother => hids other (List.mem_cons_of_mem _ hother))
      (by rw [hall]; simp) hrest
    rwa [List.append_assoc, List.singleton_append] at hafter

/-- The blocks of several functions are visited in order. -/
theorem Walk.forEach (h : Walk source start done expand state) {ids : List FuncId}
    (hall : source.allOps = done ++ ids.flatMap source.blockOf)
    (hdefined : ∀ id ∈ ids, ∃ func body, start.program.funcs[id.index]? = some func ∧
      func.body = some body ∧ source.blockOf id = body)
    (hrun : forEach (convertBody rules) ids state = .ok after) :
    ∃ expand', Walk source start source.allOps expand' after := by
  induction ids generalizing done expand state with
  | nil =>
    simp only [Conversion.forEach, Except.ok.injEq] at hrun
    subst hrun
    rw [List.flatMap_nil, List.append_nil] at hall
    exact ⟨expand, hall ▸ h⟩
  | cons id rest ih =>
    simp only [Conversion.forEach, bind_eq_ok, convertBody, Halt.guard_eq_ok,
      Program.bodyOps_eq_ok] at hrun
    obtain ⟨middle, ⟨block, ⟨now, hnow, hblock⟩, hmiddle⟩, hrest⟩ := hrun
    obtain ⟨func, body, hfunc, hbody, hsame⟩ := hdefined id List.mem_cons_self
    rw [List.flatMap_cons, hsame] at hall
    have hunvisited : ∀ other ∈ body, other ∉ done := by
      intro other hother hin
      have hnodup := hsource.nodup
      rw [hall] at hnodup
      exact (List.nodup_append.mp hnodup).2.2 other hin other (List.mem_append_left _ hother) rfl
    obtain rfl : block = body := by
      obtain rfl := Option.some.inj (hnow.symm.trans (h.func hfunc))
      exact hblock.symm.trans (h.bodyOps_of_unvisited hbody hunvisited)
    obtain ⟨expand', hstep⟩ := h.convertOps hresigned hsource hstart hssa hfunc hbody
      (fun other hother => hother) hall hmiddle
    exact ih hstep (by rw [hall, List.append_assoc])
      (fun other hother => hdefined other (List.mem_cons_of_mem _ hother)) hrest

end Run

/-- A function with a block has its original block when the walk begins. -/
theorem exists_original_block (h : Resigned handleTypes source start) {id : FuncId}
    (hid : id ∈ source.definedFuncs) : ∃ func body, start.program.funcs[id.index]? = some func ∧
      func.body = some body ∧ source.blockOf id = body := by
  obtain ⟨func, body, hfunc, hbody⟩ := exists_of_mem_definedFuncs hid
  refine ⟨resign handleTypes start.aliases func, body, h.func hfunc, ?_, ?_⟩
  · simp [resign, Func.isDeclaration, hbody]
  · simp [Program.blockOf, hfunc, Func.bodyOps, hbody]

/-- Signatures and blocks of a program in which definitions precede uses: all operations of the
blocks end up on record. -/
theorem exists_walk (hsource : source.Valid) (hssa : source.DefBeforeUse)
    (hrun : walk rules handleTypes source = .ok state) :
    ∃ start expand, Resigned handleTypes source start ∧
      Walk source start source.allOps expand state := by
  simp only [walk, bind_eq_ok, Halt.guard_eq_ok] at hrun
  obtain ⟨start, hsigned, hrun⟩ := hrun
  have hresigned := resigned_of_forEach hsource hsigned
  have hstart : start.program.Valid :=
    forEach_invariant (fun state => state.program.Valid)
      (fun id _ state after hstate hstep => convertSignature_valid hstep hstate) hsigned hsource
  obtain ⟨expand, hwalk⟩ := (Walk.begin hresigned hsource hstart).forEach hresigned hsource hstart
    hssa (by rw [source.flatMap_blockOf, List.nil_append])
    (fun _ => exists_original_block hresigned) hrun
  exact ⟨start, expand, hresigned, hwalk⟩

end Lowering

end TensorLowering
