import TensorLowering.Proofs.Finished

/-!
# Tensors that are read and put together again

A tensor that is put together from the arrays of one handle is that handle. By the time it is
visited, its arrays have become results of calls into the library, and each call has what the source
of the array stands for as its first operand. So the fold looks through calls that earlier rules
have made, and it finds the handle there under its final name. The tensor is renamed to the handle,
and the next round of reading and putting together finds the same handle again, to any depth. Arrays
of two handles are never folded: the operation stays, and it is reported.
-/

namespace TensorLowering

namespace Lowering

open Conversion

/-! ### Arrays and the tensors made of them -/

/-- The operation reads this array from its first operand, and there is an accessor for the elements
of the array. -/
def Reads (program : Program) (array : ValueId) (read : Operation) : Prop :=
  ∃ (id : OpId) (accessor? : Ty → Option String) (ty : Ty), program.ops[id.index]? = some read ∧
    read.results[0]? = some array ∧ arrayAccessor? read.kind = some accessor? ∧
    program.typeOf array = .ok ty ∧ (ty.element?.bind accessor?).isSome = true

/-- An operation of a block that puts a tensor together: at least one operand is an array, every
array was read from a source of the given kind, and the other operands stand for values that no call
defines. -/
structure Assembles (source target : Program) (names : ValueId → ValueId) (origin : ValueId → Prop)
    (id : OpId) (op : Operation) : Prop where
  stands : id ∈ source.allOps
  built : source.ops[id.index]? = some op
  kind : op.kind = .toTensor
  array : ∃ v ∈ op.operands, ∃ read, Reads source v read
  sources : ∀ v ∈ op.operands, ∀ read, Reads source v read →
    ∃ first, read.operands.head? = some first ∧ origin first
  others : ∀ v ∈ op.operands, (∀ read, ¬Reads source v read) →
    ∀ call, ¬ResultOfCall target (names v) call

/-- The value stands for a handle, or it comes from values that do in at most the given number of
rounds, each of which reads arrays and puts a tensor together from them. -/
def Rounds (source target : Program) (names : ValueId → ValueId) (handle : ValueId) :
    Nat → ValueId → Prop
  | 0, v => names v = handle
  | n + 1, v => Rounds source target names handle n v ∨ ∃ (id : OpId) (op : Operation),
      v ∈ op.results ∧ Assembles source target names (Rounds source target names handle n) id op

/-- The operation has disappeared, and the handle has taken the place of its result. -/
structure FoldedAway (source target : Program) (names : ValueId → ValueId)
    (expand : OpId → List OpId) (handle : ValueId) (id : OpId) (op : Operation) : Prop where
  erased : target.ops[id.index]? = some { op with erased := true }
  expands : expand id = []
  gone : id ∉ target.allOps
  renamed : ∀ result ∈ op.results, names result = handle
  /-- No operation that stands in a block uses the result. -/
  unused : ∀ result ∈ op.results, ∀ other ∈ target.allOps, ∀ now,
    target.ops[other.index]? = some now → result ∉ now.operands
  /-- What used the result stays or is expanded with the handle at the same position. -/
  uses : ∀ result ∈ op.results, ∀ user ∈ source.allOps, ∀ use, source.ops[user.index]? = some use →
    Became source target names user use (expand user) ∧
      ∀ k : Nat, use.operands[k]? = some result → (use.operands.map names)[k]? = some handle

/-- The operation stays and is reported. -/
structure Refused (source : Program) (outcome : Outcome) (names : ValueId → ValueId)
    (expand : OpId → List OpId) (id : OpId) (op : Operation) : Prop where
  expands : expand id = [id]
  stands : id ∈ outcome.program.allOps
  now : outcome.program.ops[id.index]? = some { op with operands := op.operands.map names }
  fixed : ∀ result ∈ op.results, names result = result
  reported : ∃ reports, outcome.result = .error reports ∧ ∃ report ∈ reports,
    report.message = "failed to legalize operation 'sparse_tensor.tensor'" ∧
    report.span = op.span ∧ ∃ func ∈ source.funcs, ∃ text, id ∈ func.bodyOps ∧
      outcome.program.renderOp id = .ok text ∧ report.notes = ["in function @" ++ func.name, text]

/-- Another condition on the sources. -/
theorem Assembles.imp {source target : Program} {names : ValueId → ValueId}
    {origin origin' : ValueId → Prop} {id : OpId} {op : Operation}
    (h : Assembles source target names origin id op) (himp : ∀ v, origin v → origin' v) :
    Assembles source target names origin' id op where
  stands := h.stands
  built := h.built
  kind := h.kind
  array := h.array
  sources v hv read hread := by
    obtain ⟨first, hfirst, horigin⟩ := h.sources v hv read hread
    exact ⟨first, hfirst, himp first horigin⟩
  others := h.others

/-- A value is the result of one call only. -/
theorem ResultOfCall.unique {program : Program} {v : ValueId} {call call' : Operation}
    (h : ResultOfCall program v call) (h' : ResultOfCall program v call') : call = call' := by
  obtain ⟨ty, id, k, name, hvalue, hcall, -⟩ := h
  obtain ⟨ty', id', k', name', hvalue', hcall', -⟩ := h'
  simp only [hvalue, Option.some.injEq, Value.mk.injEq, Origin.result.injEq] at hvalue'
  obtain ⟨-, rfl, -⟩ := hvalue'
  exact Option.some.inj (hcall.symm.trans hcall')

/-- A tensor that is put together expands into nothing, and a handle that its operands fold into
takes its place. -/
theorem Expansion.exists_handle {program : Program} {root : Operation} {new : List Operation}
    {operands values : List ValueId} (h : Expansion program root operands new values)
    (hkind : root.kind = .toTensor) :
    new = [] ∧ ∃ old handle, root.results = [old] ∧ values = [handle] ∧
      FoldsInto program operands handle := by
  cases h with
  | fold _ hresults hhandle =>
    exact ⟨rfl, _, _, hresults, rfl, foldsInto_of_commonHandle hhandle⟩
  | ret hkind' => simp [hkind] at hkind'
  | construct hkind' => simp [hkind] at hkind'
  | convert hkind' => simp [hkind] at hkind'
  | query _ _ hquery =>
    rw [hkind] at hquery
    cases hquery with
    | read harray => simp [arrayAccessor?] at harray

section Lowered

variable {source target : Program} {start state : Progress} {expand : OpId → List OpId}
  (hsource : source.Valid) (h : Lowered source start state expand target)

include hsource h

/-- An array has become the result of a call over the renamed operands of its reading. -/
theorem Lowered.call_of_reads {v : ValueId} {read : Operation} (hread : Reads source v read)
    (hsettled : source.Settled source.allOps v) :
    ∃ call, ResultOfCall state.program (state.aliases.resolve v) call ∧
      call.operands = read.operands.map state.aliases.resolve := by
  obtain ⟨id, accessor?, ty, hop, hresult, harray, hty, hsome⟩ := hread
  have hid := hsettled id read hop (List.mem_of_getElem? hresult)
  obtain ⟨read', hop', hrecord⟩ := h.walk.records id hid
  obtain rfl := Option.some.inj (hop.symm.trans hop')
  generalize expand id = ids at hrecord
  cases hrecord with
  | kept _ hdeclined _ =>
    -- there is an accessor, so the reading was not declined
    obtain ⟨old, ty', hold, hty', hnone⟩ := hdeclined.read harray
    obtain rfl := Option.some.inj (hresult.symm.trans hold)
    have hsame := Program.typeOf_mono (h.resigned.values.trans h.walk.values) hty
    obtain rfl := Except.ok.inj (hsame.symm.trans hty')
    simp [hnone] at hsome
  | replaced _ hids hnew hexpansion hvalues =>
    cases hexpansion with
    | ret hkind => simp [hkind, arrayAccessor?] at harray
    | construct hkind => simp [hkind, arrayAccessor?] at harray
    | convert hkind => simp [hkind, arrayAccessor?] at harray
    | fold hkind => simp [hkind, arrayAccessor?] at harray
    | @query name old new _ hresults _ _ _ =>
      obtain ⟨created, rest, hcreated, hrest, rfl⟩ := List.forall₂_cons_right_iff.mp hnew
      rw [hresults] at hresult hvalues
      obtain rfl : old = v := by simpa using hresult
      have hnext := (List.forall₂_cons.mp hvalues).1
      have hfinal := h.walk.next?_of_created h.resigned hsource
        (hids created List.mem_cons_self) hcreated (List.mem_singleton_self new)
      have hname : state.aliases.resolve old = new := by
        rw [h.walk.acyclic.resolve_eq_of_next? hnext, Renaming.resolve_of_next?_eq_none hfinal]
      obtain ⟨ty', hvalue⟩ := h.walk.valid.results created.index 0 _ new hcreated rfl
      refine ⟨_, ⟨ty', created, 0, name, ?_, hcreated, rfl⟩, rfl⟩
      rw [hname]
      exact hvalue

omit hsource in
/-- Calls are calls after the renaming. -/
theorem Lowered.exists_resultOfCall {v : ValueId} {call : Operation}
    (hcall : ResultOfCall state.program v call) : ∃ call', ResultOfCall target v call' := by
  obtain ⟨ty, id, k, name, hvalue, hop, hkind⟩ := hcall
  have hnow := h.renamed.ops id.index
  rw [hop, Option.map_some] at hnow
  refine ⟨_, ty, id, k, name, h.renamed.values ▸ hvalue, hnow, ?_⟩
  split
  · exact hkind
  · exact hkind

variable {handle : ValueId} {id : OpId} {op : Operation}

/-- The operands of a tensor that is put together from the arrays of a handle fold into it. -/
theorem Lowered.foldsInto (hptr : target.typeOf handle = .ok .ptr)
    (hassembles : Assembles source target state.aliases.resolve
      (fun v => state.aliases.resolve v = handle) id op) :
    FoldsInto state.program (op.operands.map state.aliases.resolve) handle := by
  have hsettled : ∀ v ∈ op.operands, source.Settled source.allOps v :=
    h.walk.reads id hassembles.stands op hassembles.built
  refine ⟨h.typeOf handle ▸ hptr, ?_, ?_⟩
  · obtain ⟨v, hv, read, hread⟩ := hassembles.array
    obtain ⟨call, hcall, -⟩ := h.call_of_reads hsource hread (hsettled v hv)
    exact ⟨_, List.mem_map_of_mem hv, call, hcall⟩
  · intro x hx call hcall
    obtain ⟨v, hv, rfl⟩ := List.mem_map.mp hx
    by_cases hreads : ∃ read, Reads source v read
    · obtain ⟨read, hread⟩ := hreads
      obtain ⟨first, hfirst, hname⟩ := hassembles.sources v hv read hread
      obtain ⟨call', hcall', hoperands⟩ := h.call_of_reads hsource hread (hsettled v hv)
      rw [hcall.unique hcall', hoperands, List.head?_map, hfirst, Option.map_some, hname]
    · obtain ⟨call', hcall'⟩ := h.exists_resultOfCall hcall
      exact absurd hcall' (hassembles.others v hv (not_exists.mp hreads) call')

omit hsource in
/-- What became of a tensor whose operands fold into a handle. -/
theorem Lowered.folds (hid : id ∈ source.allOps) (hop : source.ops[id.index]? = some op)
    (hkind : op.kind = .toTensor)
    (hfolds : FoldsInto state.program (op.operands.map state.aliases.resolve) handle) :
    target.ops[id.index]? = some { op with erased := true } ∧ expand id = [] ∧
      ∀ result ∈ op.results, state.aliases.next? result = some handle := by
  obtain ⟨op', hop', hrecord⟩ := h.walk.records id hid
  obtain rfl := Option.some.inj (hop.symm.trans hop')
  generalize expand id = ids at hrecord ⊢
  cases hrecord with
  | kept _ hdeclined _ =>
    simp only [Declined, hkind] at hdeclined
    exact absurd hfolds (not_foldsInto_of_commonHandle hdeclined handle)
  | replaced herased _ hnew hexpansion hvalues =>
    obtain ⟨rfl, old, found, hresults, rfl, hfound⟩ := hexpansion.exists_handle hkind
    -- both handles are the first operand of the same call
    obtain ⟨v, hv, call, hcall⟩ := hfolds.called
    have hsame := (hfound.first v hv call hcall).symm.trans (hfolds.first v hv call hcall)
    obtain rfl := Option.some.inj hsame
    refine ⟨h.erased_op rfl herased, List.forall₂_nil_right_iff.mp hnew, fun result hresult => ?_⟩
    rw [hresults] at hvalues hresult
    rw [List.mem_singleton.mp hresult]
    exact (List.forall₂_cons.mp hvalues).1

/-- What stands in a block uses final names only. -/
theorem Lowered.next?_operand {other : OpId} {now : Operation} {v : ValueId}
    (hother : other ∈ target.allOps) (hnow : target.ops[other.index]? = some now)
    (hv : v ∈ now.operands) : state.aliases.next? v = none := by
  rw [h.allOps hsource] at hother
  obtain ⟨origin, horigin, hother⟩ := List.mem_flatMap.mp hother
  obtain ⟨built, hbuilt, -⟩ := hsource.live origin horigin
  have hbecame := h.became hsource horigin hbuilt
  generalize expand origin = ids at hbecame hother
  cases hbecame with
  | kept hkept =>
    obtain rfl := List.mem_singleton.mp hother
    obtain rfl := Option.some.inj (hnow.symm.trans hkept)
    obtain ⟨x, -, rfl⟩ := List.mem_map.mp hv
    exact h.walk.acyclic.next?_resolve x
  | replaced _ hids =>
    have hnew := hids other hother
    have hrenamed := h.renamed.ops other.index
    rw [hnow, eq_comm, Option.map_eq_some_iff] at hrenamed
    obtain ⟨created, hcreated, -⟩ := hrenamed
    obtain rfl := Option.some.inj (hnow.symm.trans (h.created_op hnew hcreated))
    exact (h.walk.inserted other.index now hnew hcreated v hv).2

/-- A tensor that is put together from the arrays of one handle is folded away. -/
theorem Lowered.foldedAway (hptr : target.typeOf handle = .ok .ptr)
    (hassembles : Assembles source target state.aliases.resolve
      (fun v => state.aliases.resolve v = handle) id op) :
    FoldedAway source target state.aliases.resolve expand handle id op := by
  have hop := hassembles.built
  have hfolds := h.foldsInto hsource hptr hassembles
  obtain ⟨herased, hexpand, hnext⟩ := h.folds hassembles.stands hop hassembles.kind hfolds
  -- the handle has its final name, since a source stands for it
  have hfinal : state.aliases.resolve handle = handle := by
    obtain ⟨v, hv, read, hread⟩ := hassembles.array
    obtain ⟨first, -, hname⟩ := hassembles.sources v hv read hread
    rw [← hname]
    exact h.walk.acyclic.resolve_resolve first
  have hrenamed : ∀ result ∈ op.results, state.aliases.resolve result = handle := by
    intro result hresult
    rw [h.walk.acyclic.resolve_eq_of_next? (hnext result hresult), hfinal]
  refine ⟨herased, hexpand, fun hgone => ?_, hrenamed, ?_, ?_⟩
  · rw [h.allOps hsource] at hgone
    obtain ⟨other, hother, hmem⟩ := List.mem_flatMap.mp hgone
    obtain ⟨built, hbuilt, -⟩ := hsource.live other hother
    have hbecame := h.became hsource hother hbuilt
    generalize hids : expand other = ids at hbecame hmem
    cases hbecame with
    | kept =>
      rw [← List.mem_singleton.mp hmem, hexpand] at hids
      contradiction
    | replaced _ hnew =>
      have hlt := (List.getElem?_eq_some_iff.mp hop).1
      have hge := hnew id hmem
      omega
  · intro result hresult other hother now hnow huse
    have hnone := h.next?_operand hsource hother hnow huse
    rw [hnext result hresult] at hnone
    contradiction
  · intro result hresult user huser use huse
    refine ⟨h.became hsource huser huse, fun k hk => ?_⟩
    rw [List.getElem?_map, hk, Option.map_some, hrenamed result hresult]

/-- A value that comes from a handle in some rounds stands for the handle. -/
theorem Lowered.resolve_of_rounds (hptr : target.typeOf handle = .ok .ptr) {n : Nat} {v : ValueId}
    (hrounds : Rounds source target state.aliases.resolve handle n v) :
    state.aliases.resolve v = handle := by
  induction n generalizing v with
  | zero => exact hrounds
  | succ n ih =>
    rcases hrounds with hearlier | ⟨id, op, hv, hassembles⟩
    · exact ih hearlier
    · have hfolded := h.foldedAway hsource hptr (hassembles.imp fun _ => ih)
      exact hfolded.renamed v hv

/-- Arrays of two handles are not put together. -/
theorem Lowered.keeps_mixed (hid : id ∈ source.allOps) (hop : source.ops[id.index]? = some op)
    (hkind : op.kind = .toTensor) {v v' first first' : ValueId} {read read' : Operation}
    (hv : v ∈ op.operands) (hread : Reads source v read) (hfirst : read.operands.head? = some first)
    (hv' : v' ∈ op.operands) (hread' : Reads source v' read')
    (hfirst' : read'.operands.head? = some first')
    (hne : state.aliases.resolve first ≠ state.aliases.resolve first') :
    expand id = [id] ∧
      target.ops[id.index]? = some { op with operands := op.operands.map state.aliases.resolve } ∧
      ∀ result ∈ op.results, state.aliases.resolve result = result := by
  have hsettled : ∀ v ∈ op.operands, source.Settled source.allOps v := h.walk.reads id hid op hop
  obtain ⟨op', hop', hrecord⟩ := h.walk.records id hid
  obtain rfl := Option.some.inj (hop.symm.trans hop')
  generalize hexpand : expand id = ids at hrecord ⊢
  cases hrecord with
  | kept hkept _ hresults =>
    refine ⟨rfl, h.kept_op hid hexpand hkept, fun result hresult => ?_⟩
    exact Renaming.resolve_of_next?_eq_none (hresults result hresult)
  | replaced _ _ _ hexpansion _ =>
    obtain ⟨-, -, found, -, -, hfolds⟩ := hexpansion.exists_handle hkind
    have hshared : ∀ {w tensor : ValueId} {read : Operation}, w ∈ op.operands →
        Reads source w read → read.operands.head? = some tensor →
        state.aliases.resolve tensor = found := by
      intro w tensor read hw hread hfirst
      obtain ⟨call, hcall, hoperands⟩ := h.call_of_reads hsource hread (hsettled w hw)
      have hhead := hfolds.first _ (List.mem_map_of_mem hw) call hcall
      rw [hoperands, List.head?_map, hfirst, Option.map_some] at hhead
      exact Option.some.inj hhead
    exact absurd ((hshared hv hread hfirst).trans (hshared hv' hread' hfirst').symm) hne

end Lowered

/-! ### Reports -/

/-- An illegal operation of a function is reported with its text and the name of the function. -/
theorem mem_illegalIn {program : Program} {ids : List FuncId} {reports : List Diagnostic}
    {funcId : FuncId} {func : Func} {id : OpId} {op : Operation}
    (hrun : illegalIn legality program ids = .ok reports) (hfuncId : funcId ∈ ids)
    (hfunc : program.funcs[funcId.index]? = some func) (hid : id ∈ func.bodyOps)
    (hop : program.ops[id.index]? = some op) (hillegal : legality.isLegal program op = .ok false) :
    ∃ text, program.renderOp id = .ok text ∧ illegalOp op func.name text ∈ reports := by
  let place : Located := { func := func.name, id, op }
  have hplace : place ∈ rejectedOf program
      (ids.flatMap fun id => (program.funcs[id.index]?.map program.locatedIn).getD []) := by
    refine List.mem_filter.mpr ⟨List.mem_flatMap.mpr ⟨funcId, hfuncId, ?_⟩, ?_⟩
    · rw [hfunc]
      exact Program.mem_locatedAt.mpr ⟨rfl, hid, hop⟩
    · simp [place, rejected, hillegal]
  obtain ⟨report, hreport, text, htext, rfl⟩ :=
    exists_of_forall₂ (reports_of_illegalIn hrun).flip hplace
  exact ⟨text, htext, hreport⟩

/-- An operation of the sparse tensor dialect that is kept is reported. -/
theorem Lowered.exists_report {source : Program} {outcome : Outcome} {start state : Progress}
    {expand : OpId → List OpId} (hsource : source.Valid)
    (h : Lowered source start state expand outcome.program) (hrun : lower source = .ok outcome)
    {id : OpId} {now : Operation} (hid : id ∈ source.allOps) (hexpand : expand id = [id])
    (hnow : outcome.program.ops[id.index]? = some now)
    (hsparse : now.kind.dialect = .sparseTensor) :
    ∃ reports, outcome.result = .error reports ∧ ∃ func ∈ source.funcs, ∃ text,
      id ∈ func.bodyOps ∧ outcome.program.renderOp id = .ok text ∧
        illegalOp now func.name text ∈ reports := by
  obtain ⟨func, hmem, hblock⟩ := List.mem_flatMap.mp hid
  obtain ⟨i, hfunc⟩ := List.mem_iff_getElem?.mp hmem
  have hbody : id ∈ ((resign handleTypes state.aliases func).expandBody expand).bodyOps := by
    rw [Func.bodyOps_expandBody, bodyOps_resign]
    exact List.mem_flatMap.mpr ⟨id, hblock, by simp [hexpand]⟩
  have hdefined : (⟨i⟩ : FuncId) ∈ source.definedFuncs := by
    rw [mem_definedFuncs hfunc]
    cases hnone : func.body with
    | none => simp [Func.bodyOps, hnone] at hblock
    | some body => simp [Func.isDeclaration, hnone]
  have hnewFunc := h.func hsource hfunc
  obtain ⟨state', renamed, reports, -, -, hreports, rfl⟩ := run_eq_ok.mp hrun
  obtain ⟨text, htext, hreport⟩ :=
    mem_illegalIn hreports hdefined hnewFunc hbody hnow (isLegal_of_sparse hsparse)
  have hname : ((resign handleTypes state.aliases func).expandBody expand).name = func.name :=
    name_resign state.aliases func
  rw [hname] at hreport
  refine ⟨reports, if_neg ?_, func, hmem, text, hblock, htext, hreport⟩
  rw [List.isEmpty_iff]
  exact List.ne_nil_of_mem hreport

/-- Reading the arrays of a tensor and putting them together again is no change, to any depth. A
tensor that is put together from arrays whose sources all stand for one handle disappears, and the
handle takes its place wherever it was used. After any number of such rounds a value stands for the
handle that the rounds began with. A tensor that is put together from arrays of two handles stays
and is reported. -/
theorem lower_reassembles {program : Program} {outcome : Outcome} (hreach : program.Reachable)
    (hssa : program.DefBeforeUse) (hrun : lower program = .ok outcome) :
    ∃ state, Conversion.walk rules handleTypes program = .ok state ∧
      ∃ expand : OpId → List OpId,
        (∀ (i : Nat) (func : Func) (body : List OpId), program.funcs[i]? = some func →
          func.body = some body → ∃ func', outcome.program.funcs[i]? = some func' ∧
            func'.body = some (body.flatMap expand)) ∧
        (∀ handle, outcome.program.typeOf handle = .ok .ptr →
          (∀ id op, Assembles program outcome.program state.aliases.resolve
              (fun v => state.aliases.resolve v = handle) id op →
            FoldedAway program outcome.program state.aliases.resolve expand handle id op) ∧
          ∀ n v, Rounds program outcome.program state.aliases.resolve handle n v →
            state.aliases.resolve v = handle) ∧
        ∀ id ∈ program.allOps, ∀ op, program.ops[id.index]? = some op → op.kind = .toTensor →
          ∀ v ∈ op.operands, ∀ v' ∈ op.operands, ∀ read read' first first',
            Reads program v read → read.operands.head? = some first →
            Reads program v' read' → read'.operands.head? = some first' →
            state.aliases.resolve first ≠ state.aliases.resolve first' →
            Refused program outcome state.aliases.resolve expand id op := by
  have hvalid := hreach.valid
  obtain ⟨start, state, expand, hwalk, hlowered⟩ := exists_lowered hvalid hssa hrun
  refine ⟨state, hwalk, expand, fun i func body hfunc hbody => ?_, fun handle hptr => ⟨?_, ?_⟩, ?_⟩
  · obtain ⟨func', hfunc', -, -, hbody'⟩ := hlowered.exists_func hvalid hfunc hbody
    exact ⟨func', hfunc', hbody'⟩
  · exact fun id op hassembles => hlowered.foldedAway hvalid hptr hassembles
  · exact fun n v hrounds => hlowered.resolve_of_rounds hvalid hptr hrounds
  · intro id hid op hop hkind v hv v' hv' read read' first first' hread hfirst hread' hfirst' hne
    obtain ⟨hexpand, hnow, hfixed⟩ := hlowered.keeps_mixed hvalid hid hop hkind hv hread hfirst hv'
      hread' hfirst' hne
    refine ⟨hexpand, ?_, hnow, hfixed, ?_⟩
    · rw [hlowered.allOps hvalid]
      exact List.mem_flatMap.mpr ⟨id, hid, by simp [hexpand]⟩
    · obtain ⟨reports, hresult, func, hfunc, text, hblock, htext, hreport⟩ :=
        hlowered.exists_report hvalid hrun hid hexpand hnow (by simp [hkind, OpKind.dialect])
      refine ⟨reports, hresult, _, hreport, ?_, rfl, func, hfunc, text, hblock, htext, rfl⟩
      change "failed to legalize operation '" ++ op.kind.name ++ "'" = _
      rw [hkind]
      rfl

/-- A vector is taken apart and put together in two rounds, the second time with a number besides
its array. Then one of its arrays is put together with an array of another vector. -/
def recycled : Program := .listed
  [{ name := "recycle"
     argTypes := [sparseVector, sparseVector]
     resultTypes := [sparseVector]
     lines := some [
      { kind := .constant (.index 0), operands := [], types := [.index] },
      { kind := .toPointers, operands := [0, 2], types := [.memref [.dynamic] .index] },
      { kind := .toValues, operands := [0], types := [.memref [.dynamic] .f64] },
      { kind := .toTensor, operands := [3, 4], types := [sparseVector] },
      { kind := .toIndices, operands := [5, 2], types := [.memref [.dynamic] .index] },
      { kind := .toTensor, operands := [6, 2], types := [sparseVector] },
      { kind := .toValues, operands := [1], types := [.memref [.dynamic] .f64] },
      { kind := .toTensor, operands := [3, 8], types := [sparseVector] },
      { kind := .ret, operands := [7] }] }]

/-- The arrays of the program with the tensors that they are read from. -/
def recycledArrays : List (ValueId × ValueId) :=
  [(⟨3⟩, ⟨0⟩), (⟨4⟩, ⟨0⟩), (⟨6⟩, ⟨5⟩), (⟨8⟩, ⟨1⟩)]

/-- No other arrays are read. -/
theorem mem_recycledArrays {v : ValueId} {read : Operation} (h : Reads recycled v read) :
    ∃ first, read.operands.head? = some first ∧ (v, first) ∈ recycledArrays := by
  obtain ⟨id, accessor?, ty, hop, hresult, harray, -⟩ := h
  have hall : ∀ read ∈ recycled.ops, ∀ v ∈ read.results[0]?, (arrayAccessor? read.kind).isSome →
      ∃ first ∈ read.operands.head?, (v, first) ∈ recycledArrays := by
    decide +kernel
  exact hall read (List.mem_of_getElem? hop) v hresult (by simp [harray])

/-- All these arrays are read. -/
theorem exists_reads_recycled : ∀ pair ∈ recycledArrays,
    ∃ read, Reads recycled pair.1 read ∧ read.operands.head? = some pair.2 := by
  intro pair hpair
  simp only [recycledArrays, List.mem_cons, List.not_mem_nil, or_false] at hpair
  rcases hpair with rfl | rfl | rfl | rfl
  · exact ⟨_, ⟨⟨1⟩, _, .memref [.dynamic] .index, rfl, rfl, rfl, rfl, rfl⟩, rfl⟩
  · exact ⟨_, ⟨⟨2⟩, _, .memref [.dynamic] .f64, rfl, rfl, rfl, rfl, rfl⟩, rfl⟩
  · exact ⟨_, ⟨⟨4⟩, _, .memref [.dynamic] .index, rfl, rfl, rfl, rfl, rfl⟩, rfl⟩
  · exact ⟨_, ⟨⟨6⟩, _, .memref [.dynamic] .f64, rfl, rfl, rfl, rfl, rfl⟩, rfl⟩

/-- What the run makes of the program: the first vector is a handle, the second one is not the same
handle, and the number is still a constant. -/
theorem recycled_run : ∃ outcome state, lower recycled = .ok outcome ∧
    Conversion.walk rules handleTypes recycled = .ok state ∧
    outcome.program.typeOf (state.aliases.resolve ⟨0⟩) = .ok .ptr ∧
    state.aliases.resolve ⟨0⟩ ≠ state.aliases.resolve ⟨1⟩ ∧
    ∀ call, ¬ResultOfCall outcome.program (state.aliases.resolve ⟨2⟩) call := by
  have hfacts : (lower recycled).toOption.any (fun outcome =>
      (Conversion.walk rules handleTypes recycled).toOption.any fun state => decide (
        outcome.program.values[(state.aliases.resolve ⟨0⟩).index]?.map Value.ty = some .ptr ∧
        state.aliases.resolve ⟨0⟩ ≠ state.aliases.resolve ⟨1⟩ ∧
        outcome.program.values[(state.aliases.resolve ⟨2⟩).index]? =
          some ⟨.index, .result ⟨0⟩ 0⟩ ∧
        outcome.program.ops[0]?.map Operation.kind = some (.constant (.index 0)))) = true := by
    decide +kernel
  cases hrun : lower recycled with
  | error halt => simp [hrun, Except.toOption] at hfacts
  | ok outcome =>
    cases hwalk : Conversion.walk rules handleTypes recycled with
    | error halt => simp [hrun, hwalk, Except.toOption] at hfacts
    | ok state =>
      simp only [hrun, hwalk, Except.toOption, Option.any_some, decide_eq_true_eq] at hfacts
      obtain ⟨hptr, hne, hnumber, hkind⟩ := hfacts
      refine ⟨outcome, state, rfl, rfl, ?_, hne, ?_⟩
      · obtain ⟨value, hvalue, hty⟩ := Option.map_eq_some_iff.mp hptr
        exact Program.typeOf_eq_ok.mpr ⟨value.origin, hty ▸ hvalue⟩
      · rintro call ⟨ty, id, k, name, hvalue, hop, hcall⟩
        simp only [hnumber, Option.some.injEq, Value.mk.injEq, Origin.result.injEq] at hvalue
        obtain ⟨-, rfl, -⟩ := hvalue
        simp [hop, hcall] at hkind

/-- A tensor of the program is put together from the arrays among its operands. Besides them, only
the number may be used. -/
theorem assembles_recycled {target : Program} {names : ValueId → ValueId} {origin : ValueId → Prop}
    {id : OpId} {op : Operation} {first : ValueId} (hid : id ∈ recycled.allOps)
    (hop : recycled.ops[id.index]? = some op) (hkind : op.kind = .toTensor)
    (harray : ∃ pair ∈ recycledArrays, pair.1 ∈ op.operands)
    (hfirst : ∀ pair ∈ recycledArrays, pair.1 ∈ op.operands → pair.2 = first)
    (hothers : ∀ v ∈ op.operands, v ∈ recycledArrays.map Prod.fst ∨ v = ⟨2⟩)
    (horigin : origin first) (hnumber : ∀ call, ¬ResultOfCall target (names ⟨2⟩) call) :
    Assembles recycled target names origin id op := by
  refine ⟨hid, hop, hkind, ?_, fun v hv read hread => ?_, fun v hv hnone => ?_⟩
  · obtain ⟨pair, hpair, hv⟩ := harray
    obtain ⟨read, hread, -⟩ := exists_reads_recycled pair hpair
    exact ⟨pair.1, hv, read, hread⟩
  · obtain ⟨source, hsource, hpair⟩ := mem_recycledArrays hread
    obtain rfl := hfirst (v, source) hpair hv
    exact ⟨source, hsource, horigin⟩
  · rcases hothers v hv with hmem | rfl
    · obtain ⟨pair, hpair, rfl⟩ := List.mem_map.mp hmem
      obtain ⟨read, hread, -⟩ := exists_reads_recycled pair hpair
      exact absurd hread (hnone read)
    · exact hnumber

/-- After two rounds the first vector is its handle again, and the mixture is reported. -/
theorem lower_reassembles_recycled : recycled.Reachable ∧ recycled.DefBeforeUse ∧
    ∃ outcome, lower recycled = .ok outcome ∧
      ∃ state, Conversion.walk rules handleTypes recycled = .ok state ∧
        state.aliases.resolve ⟨7⟩ = state.aliases.resolve ⟨0⟩ ∧
        ∃ expand : OpId → List OpId,
          (∃ op, FoldedAway recycled outcome.program state.aliases.resolve expand
            (state.aliases.resolve ⟨0⟩) ⟨5⟩ op) ∧
          ∃ op, Refused recycled outcome state.aliases.resolve expand ⟨7⟩ op := by
  have hreach : recycled.Reachable := Program.reachable_listed _
  have hssa : recycled.DefBeforeUse := by decide +kernel
  obtain ⟨outcome, state, hrun, hwalk, hptr, hne, hnumber⟩ := recycled_run
  obtain ⟨state', hwalk', expand, -, hsame, hmixed⟩ := lower_reassembles hreach hssa hrun
  obtain rfl := Except.ok.inj (hwalk.symm.trans hwalk')
  obtain ⟨hfolded, hrounds⟩ := hsame _ hptr
  have hround : Rounds recycled outcome.program state.aliases.resolve (state.aliases.resolve ⟨0⟩)
      1 ⟨5⟩ :=
    .inr ⟨⟨3⟩, _, by decide +kernel, assembles_recycled (by decide +kernel) rfl rfl
      (by decide +kernel) (by decide +kernel) (by decide +kernel) rfl hnumber⟩
  have hagain : Assembles recycled outcome.program state.aliases.resolve
      (Rounds recycled outcome.program state.aliases.resolve (state.aliases.resolve ⟨0⟩) 1) ⟨5⟩
      { kind := .toTensor, operands := [⟨6⟩, ⟨2⟩], results := [⟨7⟩], span := .nowhere } :=
    assembles_recycled (by decide +kernel) rfl rfl (by decide +kernel) (by decide +kernel)
      (by decide +kernel) hround hnumber
  obtain ⟨read, hread, hfirst⟩ := exists_reads_recycled (⟨3⟩, ⟨0⟩) (by decide)
  obtain ⟨read', hread', hfirst'⟩ := exists_reads_recycled (⟨8⟩, ⟨1⟩) (by decide)
  have hrefused := hmixed ⟨7⟩ (by decide +kernel) _ rfl rfl ⟨3⟩ (by decide +kernel) ⟨8⟩
    (by decide +kernel) read read' ⟨0⟩ ⟨1⟩ hread hfirst hread' hfirst' hne
  refine ⟨hreach, hssa, outcome, hrun, state, hwalk, ?_, expand, ?_, ⟨_, hrefused⟩⟩
  · exact hrounds 2 ⟨7⟩ (.inr ⟨⟨5⟩, _, by decide, hagain⟩)
  · exact ⟨_, hfolded ⟨5⟩ _ (hagain.imp (hrounds 1))⟩

end Lowering

end TensorLowering
