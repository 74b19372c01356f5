import TensorLowering.Proofs.CallAgreement
import TensorLowering.Proofs.Finished

/-!
# Declarations in the order of the calls

Entry points are declared on demand, while the blocks are walked: by several rules, twice within one
of them, and only where the name is not in the table yet. What remains of this in the end can be read
off the blocks. The new functions are the names that the new calls bring in, each at its first call
and with the types of that call. The invariant of the walk is that this holds of the part already
visited; a replacement adds its own calls at the end of that part.
-/

namespace TensorLowering

/-- The names that operations call, in order. -/
def callees (ops : List Operation) : List String := ops.filterMap fun op => op.kind.callee?

namespace Program

variable {program before after : Program} {known : List String} {ops : List Operation}
  {decls : List Func}

/-! ### What is introduced -/

/-- Only calls matter for what is introduced. -/
theorem Introduces.callsIn (h : program.Introduces known ops decls) :
    program.Introduces known (Lowering.callsIn ops) decls := by
  induction h with
  | nil => exact .nil
  | @skip _ op _ _ hskip _ ih =>
    cases hcall : op.kind.callee?.isSome with
    | true => simpa [Lowering.callsIn, hcall] using Introduces.skip hskip ih
    | false => simpa [Lowering.callsIn, hcall] using ih
  | first hcall hnew hprivate htypes _ ih =>
    simpa [Lowering.callsIn, hcall, OpKind.callee?] using
      Introduces.first hcall hnew hprivate htypes ih

/-- The new names are the unknown ones among those that are called, without repetition and in the
order in which they are called first. -/
theorem Introduces.names (h : program.Introduces known ops decls) :
    decls.map Func.name = ((callees ops).filter fun name => name ∉ known).eraseDups := by
  induction h with
  | nil => rfl
  | @skip known op _ _ hskip _ ih =>
    rw [ih]
    rcases Lowering.callee?_cases op.kind with hnone | ⟨name, hcall⟩
    · simp [callees, hnone]
    · simp [callees, hcall, OpKind.callee?, hskip name hcall]
  | @first known op ops func decls hcall hnew _ _ _ ih =>
    have hfilter :
        ((callees ops).filter fun name => name ∉ known).filter (fun name => !name == func.name) =
          (callees ops).filter fun name => name ∉ func.name :: known := by
      rw [List.filter_filter]
      refine List.filter_congr fun name _ => ?_
      by_cases hname : name = func.name <;> simp [hname]
    rw [List.map_cons, ih, ← hfilter]
    simp [callees, hcall, OpKind.callee?, hnew, List.eraseDups_cons]

/-- New names are not known. -/
theorem Introduces.notMem_known (h : program.Introduces known ops decls) {func : Func}
    (hfunc : func ∈ decls) : func.name ∉ known := by
  have hname : func.name ∈ decls.map Func.name := List.mem_map_of_mem hfunc
  rw [h.names, List.mem_eraseDups, List.mem_filter] at hname
  simpa using hname.2

/-- A new function has the types of the first call of its name. -/
theorem Introduces.exists_first (h : program.Introduces known ops decls) {func : Func}
    (hfunc : func ∈ decls) : ∃ op, (ops.find? fun op => op.kind = .call func.name) = some op ∧
      program.typesOf op.operands = .ok func.argTypes ∧
      program.typesOf op.results = .ok func.resultTypes := by
  induction h with
  | nil => simp at hfunc
  | @skip _ op _ _ hskip hrest ih =>
    obtain ⟨first, hfirst, htypes⟩ := ih hfunc
    have hother : op.kind ≠ .call func.name := fun hcall =>
      hrest.notMem_known hfunc (hskip _ hcall)
    exact ⟨first, by simpa [hother] using hfirst, htypes⟩
  | @first known op _ head _ hcall _ _ htypes hrest ih =>
    rcases List.mem_cons.mp hfunc with rfl | htail
    · exact ⟨op, by simp [hcall], htypes⟩
    · obtain ⟨first, hfirst, htypes⟩ := ih htail
      have hother : op.kind ≠ .call func.name := by
        intro hsame
        have hname := OpKind.call.inj (hcall.symm.trans hsame)
        exact hrest.notMem_known htail (hname ▸ List.mem_cons_self)
      exact ⟨first, by simpa [hother] using hfirst, htypes⟩

/-! ### Operations of an arena -/

/-- The listed operations that are not among the first ones of the arena. -/
def newAmong (program : Program) (size : Nat) (ids : List OpId) : List Operation :=
  program.operations (ids.filter fun id => size ≤ id.index)

/-- Lists of operations are read one after the other. -/
theorem newAmong_append (program : Program) (size : Nat) (ids more : List OpId) :
    program.newAmong size (ids ++ more) = program.newAmong size ids ++ program.newAmong size more := by
  rw [newAmong, List.filter_append, operations_append, newAmong, newAmong]

/-- Arenas that agree on the listed operations read the same. -/
theorem newAmong_congr {size : Nat} {ids : List OpId}
    (h : ∀ id ∈ ids, size ≤ id.index → after.ops[id.index]? = before.ops[id.index]?) :
    after.newAmong size ids = before.newAmong size ids := by
  refine List.filterMap_congr fun id hid => ?_
  obtain ⟨hid, hsize⟩ := List.mem_filter.mp hid
  exact h id hid (of_decide_eq_true hsize)

/-- Operations that are found one by one are read in order. -/
theorem operations_of_forall₂ {ids : List OpId}
    (h : List.Forall₂ (fun id op => program.ops[id.index]? = some op) ids ops) :
    program.operations ids = ops := by
  induction h with
  | nil => rfl
  | cons hfirst _ ih => rw [operations_cons hfirst, ih]

/-- Operations that were added to an arena are read in order. -/
theorem newAmong_nextOps {size : Nat} {new : List Operation} (hsize : size ≤ before.ops.length)
    (h : ∀ k op, new[k]? = some op → after.ops[before.ops.length + k]? = some op) :
    after.newAmong size (before.nextOps new.length) = new := by
  have hall : (before.nextOps new.length).filter (fun id => size ≤ id.index) =
      before.nextOps new.length := by
    refine List.filter_eq_self.mpr fun id hid => ?_
    obtain ⟨k, -, rfl⟩ := List.mem_map.mp hid
    exact decide_eq_true (Nat.le_trans hsize (Nat.le_add_right _ k))
  rw [newAmong, hall]
  refine operations_of_forall₂ (List.forall₂_iff_get.mpr ⟨by simp [nextOps], fun k _ hk => ?_⟩)
  simpa [nextOps] using h k _ (List.getElem?_eq_getElem hk)

end Program

namespace Lowering

open Conversion

/-! ### Along the walk -/

/-- A walk under way: the functions of the source keep their names, and what comes after them is
what the new operations in the visited part of the blocks introduce. -/
structure Declaring (source : Program) (pending : List OpId) (state : Progress) : Prop where
  size : source.ops.length ≤ state.program.ops.length
  names : (state.program.funcs.take source.funcs.length).map Func.name = source.funcs.map Func.name
  introduces : ∃ visited, state.program.allOps = visited ++ pending ∧
    state.program.Introduces (source.funcs.map Func.name)
      (state.program.newAmong source.ops.length visited)
      (state.program.funcs.drop source.funcs.length)

variable {source : Program} {start state after : Progress} {id : OpId} {root : Operation}
  {pending : List OpId}

/-- A walk begins with nothing introduced. -/
theorem Declaring.begin (hresigned : Resigned handleTypes source start) :
    Declaring source start.program.allOps start where
  size := hresigned.ops ▸ Nat.le_refl _
  names := by
    rw [hresigned.funcs, List.take_of_length_le (by simp), List.map_map]
    exact List.map_congr_left fun func _ => name_resign start.aliases func
  introduces := by
    refine ⟨[], rfl, ?_⟩
    rw [hresigned.funcs, List.drop_of_length_le (by simp)]
    exact .nil

/-- The functions of the source come first. -/
theorem Declaring.length_le (h : Declaring source pending state) :
    source.funcs.length ≤ state.program.funcs.length := by
  have hlength := congrArg List.length h.names
  simp only [List.length_map, List.length_take] at hlength
  omega

/-- A function with a block is one of the source. -/
theorem Declaring.lt_length (h : Declaring source pending state) {funcId : FuncId} {func : Func}
    (hfunc : state.program.funcs[funcId.index]? = some func) (hmem : id ∈ func.bodyOps) :
    funcId.index < source.funcs.length := by
  by_contra hge
  obtain ⟨visited, -, hintroduces⟩ := h.introduces
  have hdecl : func ∈ state.program.funcs.drop source.funcs.length := by
    refine List.mem_of_getElem? (i := funcId.index - source.funcs.length) ?_
    rw [List.getElem?_drop, Nat.add_sub_cancel' (Nat.le_of_not_lt hge), hfunc]
  simp [Func.bodyOps, (hintroduces.exists_call hdecl).1] at hmem

/-- Leaving an operation alone introduces nothing. -/
theorem Declaring.keeps (h : Declaring source (id :: pending) state)
    (hid : id.index < source.ops.length) (hkeeps : Keeps state after root) :
    Declaring source pending after := by
  obtain ⟨visited, hall, hintroduces⟩ := h.introduces
  refine ⟨hkeeps.program ▸ h.size, hkeeps.program ▸ h.names, visited ++ [id], ?_, ?_⟩
  · simp [hkeeps.program, hall]
  · have hold : state.program.newAmong source.ops.length [id] = [] := by
      simp [Program.newAmong, Program.operations, Nat.not_le.mpr hid]
    rwa [hkeeps.program, Program.newAmong_append, hold, List.append_nil]

/-- Names are kept when the block of a function changes. -/
theorem map_name_modify (funcs : List Func) (i : Nat) (body : Option (List OpId)) :
    (funcs.modify i fun func => { func with body }).map Func.name = funcs.map Func.name := by
  refine List.ext_getElem? fun j => ?_
  rw [List.getElem?_map, List.getElem?_modify, List.getElem?_map]
  cases funcs[j]? with
  | none => rfl
  | some func => by_cases hj : i = j <;> simp [hj]

/-- An operation that stands at one place of a list gives place to others there. -/
theorem flatMap_replacing {front back new : List OpId} (hnodup : (front ++ id :: back).Nodup) :
    (front ++ id :: back).flatMap (replacing id new) = front ++ new ++ back := by
  have hstay {ids : List OpId} (hids : id ∉ ids) : ids.flatMap (replacing id new) = ids := by
    rw [replacing, flatMap_update hids, List.flatMap_singleton']
  have hfront : id ∉ front := fun hin =>
    (List.nodup_append.mp hnodup).2.2 id hin id List.mem_cons_self rfl
  have hback : id ∉ back := (List.nodup_cons.mp (List.nodup_append.mp hnodup).2.1).1
  rw [List.flatMap_append, List.flatMap_cons, hstay hfront, hstay hback, replacing_self,
    List.append_assoc]

/-- Replacing an operation introduces what its expansion calls. -/
theorem Declaring.replaces (h : Declaring source (id :: pending) state)
    (hid : id.index < source.ops.length) (hvalid : state.program.Valid) {funcId : FuncId}
    (hlt : funcId.index < source.funcs.length) {grown : Program} {new : List Operation}
    {values : List ValueId} (hreplaces : Replaces funcId id state after root grown new values) :
    Declaring source pending after := by
  obtain ⟨visited, hall, hintroduces⟩ := h.introduces
  obtain ⟨decls, hfuncs, hdecls⟩ := hreplaces.rewrites.declares
  have hreshapes := hreplaces.reshapes
  have hops := hreplaces.getElem?
  obtain ⟨func, pre, post, -, -, -, hprogram⟩ := hreplaces.program
  have hvalues : grown.values <+: after.program.values := hprogram ▸ List.prefix_rfl
  have hafter : after.program.funcs = grown.funcs.modify funcId.index fun func =>
      { func with body := some (pre ++ state.program.nextOps new.length ++ post) } := by
    rw [hprogram]
    rfl
  have hlength := h.length_le
  refine ⟨Nat.le_trans h.size hreshapes.size, ?_, visited ++ state.program.nextOps new.length, ?_, ?_⟩
  · rw [hafter, List.take_modify, map_name_modify, hfuncs,
      List.take_append_of_le_length hlength, h.names]
  · obtain ⟨more, hmore, hnone⟩ := hreshapes.funcs
    rw [Program.allOps_of_expanded hmore hnone, hall]
    exact flatMap_replacing (hall ▸ hvalid.nodup)
  · -- What was introduced before stays, and the expansion was declared after all of it.
    have hold : after.program.newAmong source.ops.length visited =
        state.program.newAmong source.ops.length visited := by
      refine Program.newAmong_congr fun other hother hnew => ?_
      have hlive := hvalid.lt_length (hall ▸ List.mem_append_left _ hother)
      have hne : id.index ≠ other.index := by omega
      simp [hops, List.getElem?_append_left hlive, hne]
    have hadded : after.program.newAmong source.ops.length (state.program.nextOps new.length) =
        new := by
      refine Program.newAmong_nextOps h.size fun k op hk => ?_
      have hne : id.index ≠ state.program.ops.length + k := by
        have := h.size
        omega
      rw [hops, List.getElem?_append_right (Nat.le_add_right _ k), Nat.add_sub_cancel_left, hk,
        Option.map_some, if_neg hne]
    have hknown : state.program.funcs.map Func.name = source.funcs.map Func.name ++
        (state.program.funcs.drop source.funcs.length).map Func.name := by
      rw [← h.names, ← List.map_append, List.take_append_drop]
    rw [Program.newAmong_append, hold, hadded, hafter, List.drop_modify_of_lt _ _ _ _ hlt, hfuncs,
      List.drop_append_of_le_length hlength]
    exact (hintroduces.mono (hreplaces.rewrites.grows.values.trans hvalues)).append
      ((hknown ▸ hdecls).mono hvalues)

/-- Visits keep track of what is introduced. -/
theorem keptByVisits_declaring (hsource : source.Valid)
    (hresigned : Resigned handleTypes source start) :
    KeptByVisits True rules start.program (Declaring source) := by
  intro funcId id rest state func hid _ hscheduled hfunc hmem hdeclaring
  refine ensures_of_forall fun after hafter => ?_
  rw [hresigned.allOps] at hid
  obtain ⟨root, -, -, hkeeps | ⟨grown, new, values, hreplaces⟩⟩ :=
    convertOp_cases hscheduled.valid (Program.mem_allOps hfunc hmem) hafter
  · exact hdeclaring.keeps (hsource.lt_length hid) hkeeps
  · exact hdeclaring.replaces (hsource.lt_length hid) hscheduled.valid
      (hdeclaring.lt_length hfunc hmem) hreplaces

/-- At the end of a walk the new functions are what the new operations of the blocks introduce. -/
theorem exists_declaring (hsource : source.Valid)
    (hwalk : walk rules handleTypes source = .ok state) : Declaring source [] state := by
  simp only [walk, bind_eq_ok, Halt.guard_eq_ok] at hwalk
  obtain ⟨start, hsigned, hbodies⟩ := hwalk
  have hresigned := resigned_of_forEach hsource hsigned
  have hstart := convertSignatures_valid hsigned hsource
  have hends := (keptByVisits_declaring hsource hresigned).walk hresigned hstart (.begin hresigned)
  exact (hends.of_ok hbodies).2

/-! ### The calls that a lowering adds -/

/-- The operations of an expansion call entry points only. -/
theorem Expansion.mem_entryNames {program : Program} {operands values : List ValueId}
    {new : List Operation} (h : Expansion program root operands new values) {op : Operation}
    (hop : op ∈ new) {name : String} (hname : op.kind = .call name) : name ∈ entryNames := by
  have hnew : EntryPoint.newTensor ∈ entryNames := by decide +kernel
  have hcall : op ∈ callsIn new := List.mem_filter.mpr ⟨hop, by simp [hname, OpKind.callee?]⟩
  cases h with
  | ret => simp [callsIn, OpKind.callee?] at hcall
  | query _ _ hquery =>
    obtain rfl := List.mem_singleton.mp hop
    obtain rfl := OpKind.call.inj hname
    generalize root.kind = kind at hquery
    cases hquery with
    | dim => decide +kernel
    | read harray haccessor =>
      obtain ⟨element, -, haccessor⟩ := Option.bind_eq_some_iff.mp haccessor
      exact mem_entryNames_of_array harray haccessor
  | construct =>
    rw [callsIn_creation, List.mem_singleton] at hcall
    obtain rfl := hcall
    exact OpKind.call.inj hname ▸ hnew
  | convert _ _ _ _ _ _ _ _ haccess =>
    rw [callsIn, List.filter_append, ← callsIn, ← callsIn, callsIn_exposure, callsIn_creation,
      List.singleton_append, List.mem_cons, List.mem_singleton] at hcall
    rcases hcall with rfl | rfl
    · simp only [Ty.bufferAccess?, Option.bind_eq_some_iff, Option.map_eq_some_iff] at haccess
      obtain ⟨element', -, accessor', haccessor, shape', -, hsame⟩ := haccess
      obtain ⟨rfl, -⟩ := Prod.mk.inj hsame
      obtain ⟨primary, -, rfl⟩ := Option.map_eq_some_iff.mp haccessor
      exact OpKind.call.inj hname ▸ (mem_entryNames_of_primary primary).2
    · exact OpKind.call.inj hname ▸ hnew
  | fold => simp at hop

/-- The calls that stand in the blocks afterwards and were not there before, in the order of the
functions and of their blocks. -/
def addedCalls (before after : Program) : List Operation :=
  callsIn (after.newAmong before.ops.length after.allOps)

/-- The functions afterwards are those from before, under the same ids and names, and then the
declarations that the added calls need: the unknown names that are called, in the order of their
first calls and with the types of these. All of them are entry points, and no added call is left
without a function. -/
structure DeclaresAdded (before after : Program) : Prop where
  kept : ∀ (i : Nat) (func : Func), before.funcs[i]? = some func → ∃ func',
    after.funcs[i]? = some func' ∧ func'.name = func.name ∧ func'.isPublic = func.isPublic ∧
      func'.isDeclaration = func.isDeclaration ∧ after.lookupFunc? func.name = some ⟨i⟩
  names : (after.funcs.drop before.funcs.length).map Func.name =
    ((callees (addedCalls before after)).filter fun name =>
      (before.lookupFunc? name).isNone).eraseDups
  typed : ∀ func ∈ after.funcs.drop before.funcs.length, func.body = none ∧
    func.isPublic = false ∧ func.name ∈ entryNames ∧ ∃ call,
      ((addedCalls before after).find? fun op => op.kind = .call func.name) = some call ∧
        after.typesOf call.operands = .ok func.argTypes ∧
        after.typesOf call.results = .ok func.resultTypes
  found : ∀ call ∈ addedCalls before after, ∀ name, call.kind = .call name →
    ∃ id, after.lookupFunc? name = some id

/-- In a valid program the names of the functions are those of the table. -/
theorem mem_names_iff {program : Program} (hvalid : program.Valid) {name : String} :
    name ∈ program.funcs.map Func.name ↔ ∃ id, program.lookupFunc? name = some id := by
  constructor
  · intro hname
    obtain ⟨func, hfunc, rfl⟩ := List.mem_map.mp hname
    obtain ⟨i, hi⟩ := List.mem_iff_getElem?.mp hfunc
    exact ⟨⟨i⟩, (hvalid.symbols func.name ⟨i⟩).mpr ⟨func, hi, rfl⟩⟩
  · rintro ⟨id, hid⟩
    obtain ⟨func, hfunc, rfl⟩ := (hvalid.symbols name id).mp hid
    exact List.mem_map_of_mem (List.mem_of_getElem? hfunc)

section Lowered

variable {target : Program} {expand : OpId → List OpId}

/-- Added operations are not touched by the final renaming. -/
theorem Lowered.newAmong (h : Lowered source start state expand target) (ids : List OpId) :
    target.newAmong source.ops.length ids = state.program.newAmong source.ops.length ids := by
  refine Program.newAmong_congr fun id _ hge => ?_
  cases hop : state.program.ops[id.index]? with
  | some op => exact h.created_op hge hop
  | none => simp [h.renamed.ops, hop]

/-- Added calls name entry points. -/
theorem Lowered.mem_entryNames (hvalid : source.Valid) (h : Lowered source start state expand target)
    {op : Operation} (hop : op ∈ target.newAmong source.ops.length target.allOps) {name : String}
    (hname : op.kind = .call name) : name ∈ entryNames := by
  obtain ⟨id, hid, hget⟩ := List.mem_filterMap.mp hop
  obtain ⟨hid, hge⟩ := List.mem_filter.mp hid
  rw [h.allOps hvalid] at hid
  obtain ⟨first, hfirst, hmem⟩ := List.mem_flatMap.mp hid
  obtain ⟨root, hroot, -⟩ := hvalid.live first hfirst
  have hbecame := h.became hvalid hfirst hroot
  generalize expand first = ids at hbecame hmem
  cases hbecame with
  | kept =>
    have := hvalid.lt_length hfirst
    obtain rfl := List.mem_singleton.mp hmem
    simp only [decide_eq_true_eq] at hge
    omega
  | replaced _ _ hexpansion =>
    exact hexpansion.mem_entryNames (List.mem_filterMap.mpr ⟨id, hmem, hget⟩) hname

end Lowered

/-- Declarations are exactly what is called. After every run, whether it succeeds or fails, the
functions are those from before, followed by the declarations that the added calls need. -/
theorem lower_declares_added {program : Program} {outcome : Outcome} (hreach : program.Reachable)
    (hssa : program.DefBeforeUse) (hrun : lower program = .ok outcome) :
    DeclaresAdded program outcome.program := by
  have hvalid := hreach.valid
  have htarget := run_valid hrun hvalid
  obtain ⟨start, state, expand, hwalk, hlowered⟩ := exists_lowered hvalid hssa hrun
  obtain ⟨-, -, visited, hall, hintroduces⟩ := exists_declaring hvalid hwalk
  have hallOps : outcome.program.allOps = visited := by
    rw [Program.allOps, hlowered.renamed.funcs, ← Program.allOps, hall, List.append_nil]
  have hvalues : state.program.values <+: outcome.program.values :=
    hlowered.renamed.values ▸ List.prefix_rfl
  have hadded : outcome.program.Introduces (program.funcs.map Func.name)
      (addedCalls program outcome.program) (outcome.program.funcs.drop program.funcs.length) := by
    rw [addedCalls, hlowered.newAmong, hallOps, hlowered.renamed.funcs]
    exact (hintroduces.mono hvalues).callsIn
  refine ⟨fun i func hfunc => ?_, ?_, fun func hfunc => ?_, fun call hcall name hname => ?_⟩
  · have hfunc' := hlowered.func hvalid hfunc
    have hname := name_resign state.aliases func
    refine ⟨_, hfunc', hname, ?_, ?_, (htarget.symbols func.name ⟨i⟩).mpr ⟨_, hfunc', hname⟩⟩
    · cases hbody : func.isDeclaration <;> simp [Func.expandBody, resign, hbody]
    · cases hbody : func.body <;> simp [Func.expandBody, resign, Func.isDeclaration, hbody]
  · rw [hadded.names]
    refine congrArg List.eraseDups (List.filter_congr fun name _ => ?_)
    rw [Bool.eq_iff_iff, decide_eq_true_eq, mem_names_iff hvalid]
    cases program.lookupFunc? name <;> simp
  · obtain ⟨hbody, hprivate, call, hcall, hkind, -⟩ := hadded.exists_call hfunc
    exact ⟨hbody, hprivate, hlowered.mem_entryNames hvalid (List.mem_filter.mp hcall).1 hkind,
      hadded.exists_first hfunc⟩
  · refine (mem_names_iff htarget).mp ?_
    rcases hadded.known_or_declared hcall hname with hknown | ⟨func, hfunc, rfl⟩
    · obtain ⟨id, hid⟩ := (mem_names_iff hvalid).mp hknown
      obtain ⟨func, hfunc, rfl⟩ := (hvalid.symbols name id).mp hid
      have hfunc' := hlowered.func hvalid hfunc
      exact List.mem_map.mpr ⟨_, List.mem_of_getElem? hfunc', name_resign state.aliases func⟩
    · exact List.mem_map_of_mem (List.mem_of_mem_drop hfunc)

/-- Two functions that need entry points, one of which is declared already; the last operation is
rejected. -/
def inventoried : Program := .listed
  [{ name := "sparseDimSize", argTypes := [.ptr, .index], resultTypes := [.index], lines := none },
    { name := "pack"
      argTypes := [.dense [.dynamic] .f64, .index]
      resultTypes := [sparseVector]
      lines := some [
       { kind := .sparseConvert, operands := [2], types := [sparseVector] },
       { kind := .tensorDim, operands := [4, 3], types := [.index] },
       { kind := .ret, operands := [4] }] },
    { name := "unpack"
      argTypes := [sparseVector, .ptr]
      lines := some [
       { kind := .toValues, operands := [6], types := [.memref [.dynamic] .f64] },
       { kind := .sparseNew, operands := [7], types := [sparseVector] },
       { kind := .toValues, operands := [9], types := [.memref [.dynamic] .f64] },
       { kind := .sparseConvert, operands := [6], types := [sparseVector] }] }]

/-- The failing run declares three entry points. -/
theorem lower_declares_added_inventoried : inventoried.Reachable ∧ inventoried.DefBeforeUse ∧
    ∃ outcome, lower inventoried = .ok outcome ∧ outcome.result.isOk = false ∧
      outcome.program.funcs.map Func.name =
        ["sparseDimSize", "pack", "unpack", "getPtrF64", "newSparseTensor", "sparseValuesF64"] ∧
      DeclaresAdded inventoried outcome.program := by
  have hssa : inventoried.DefBeforeUse := by decide +kernel
  have hcheck : (lower inventoried).toOption.any (fun outcome => !outcome.result.isOk &&
      decide (outcome.program.funcs.map Func.name =
        ["sparseDimSize", "pack", "unpack", "getPtrF64", "newSparseTensor", "sparseValuesF64"])) =
      true := by
    decide +kernel
  cases hrun : lower inventoried with
  | error halt => simp [hrun, Except.toOption] at hcheck
  | ok outcome =>
    simp only [hrun, Except.toOption, Option.any_some, Bool.and_eq_true, Bool.not_eq_eq_eq_not,
      Bool.not_true, decide_eq_true_eq] at hcheck
    exact ⟨Program.reachable_listed _, hssa, outcome, rfl, hcheck.1, hcheck.2,
      lower_declares_added (Program.reachable_listed _) hssa hrun⟩

end Lowering

end TensorLowering
