import Mathlib.Data.List.Nodup
import TensorLowering.Proofs.Faults

/-!
# The representation invariant of programs

The arenas, the blocks and the symbol table of a program describe one thing from several sides.
`Program.Valid` says that they agree: names and functions determine each other, arguments and
results know where they come from, and an operation stands in at most one place of one block, where
it is not erased. Operands are free. Each edit of a program keeps the invariant, under a condition
on the edit alone where one is needed.
-/

namespace TensorLowering

/-- An entry of a list stays where it is when the list is continued. -/
theorem getElem?_mono {α : Type} {short long : List α} (hle : short <+: long) {i : Nat}
    {a : α} (ha : short[i]? = some a) : long[i]? = some a := by
  obtain ⟨suffix, rfl⟩ := hle
  obtain ⟨hi, rfl⟩ := List.getElem?_eq_some_iff.mp ha
  rw [List.getElem?_append_left hi, List.getElem?_eq_getElem hi]

/-- An operation is known by its place in the arena. -/
theorem OpId.eq_of_index {id other : OpId} (h : id.index = other.index) : id = other := by
  cases id
  exact congrArg OpId.mk h

namespace SymbolTable

/-- A new name is found first, and the others are found as before. -/
theorem lookup?_insert (table : SymbolTable) (name other : String) (func : FuncId) :
    (table.insert name func).lookup? other =
      if other = name then some func else table.lookup? other := by
  simp only [lookup?, insert, List.lookup_cons]
  by_cases h : other = name
  · simp [h]
  · have hne : (other == name) = false := by simpa using h
    simp [h, hne]

/-- A forgotten name is not found, and the others are found as before. -/
theorem lookup?_erase (table : SymbolTable) (name other : String) :
    (table.erase name).lookup? other = if other = name then none else table.lookup? other := by
  obtain ⟨entries⟩ := table
  simp only [lookup?, erase]
  induction entries with
  | nil => simp
  | cons entry rest ih =>
    obtain ⟨key, func⟩ := entry
    by_cases hkey : key = name
    · subst hkey
      by_cases hother : other = key
      · simpa [hother] using ih
      · have hne : (other == key) = false := by simpa using hother
        simpa [hother, List.lookup_cons, hne] using ih
    · by_cases hother : other = key
      · subst hother
        simp [hkey]
      · have hne : (other == key) = false := by simpa using hother
        simpa [hkey, List.lookup_cons, hne] using ih

/-- Forgetting the names of several functions hides exactly those names. -/
theorem lookup?_foldl_erase (table : SymbolTable) (funcs : List Func) (name : String) :
    (funcs.foldl (fun table func => table.erase func.name) table).lookup? name =
      if ∃ func ∈ funcs, func.name = name then none else table.lookup? name := by
  induction funcs generalizing table with
  | nil => simp
  | cons func rest ih =>
    rw [List.foldl_cons, ih, lookup?_erase]
    by_cases hrest : ∃ other ∈ rest, other.name = name
    · obtain ⟨other, hmem, hname⟩ := hrest
      rw [if_pos ⟨other, hmem, hname⟩, if_pos ⟨other, List.mem_cons_of_mem _ hmem, hname⟩]
    · rw [if_neg hrest]
      by_cases hfunc : name = func.name
      · rw [if_pos hfunc, if_pos ⟨func, List.mem_cons_self, hfunc.symm⟩]
      · rw [if_neg hfunc, if_neg]
        rintro ⟨other, hmem, hname⟩
        rcases List.mem_cons.mp hmem with rfl | htail
        · exact hfunc hname.symm
        · exact hrest ⟨other, htail, hname⟩

end SymbolTable

namespace Program

variable {program : Program}

/-- The parts of a program agree with each other. -/
structure Valid (program : Program) : Prop where
  /-- A name stands for the function that bears it. -/
  symbols : ∀ (name : String) (id : FuncId), program.lookupFunc? name = some id ↔
    ∃ func, program.funcs[id.index]? = some func ∧ func.name = name
  /-- A function has one value for each argument type. -/
  arity : ∀ func ∈ program.funcs, func.args.length = func.argTypes.length
  /-- An argument knows its function, its position and its type. -/
  args : ∀ (i k : Nat) (func : Func) (v : ValueId) (ty : Ty), program.funcs[i]? = some func →
    func.args[k]? = some v → func.argTypes[k]? = some ty →
      program.values[v.index]? = some ⟨ty, .argument ⟨i⟩ k⟩
  /-- A result knows its operation and its position. -/
  results : ∀ (o k : Nat) (op : Operation) (v : ValueId), program.ops[o]? = some op →
    op.results[k]? = some v → ∃ ty, program.values[v.index]? = some ⟨ty, .result ⟨o⟩ k⟩
  /-- A value that names an operation as its origin is that result of it. -/
  origins : ∀ (v : Nat) (ty : Ty) (id : OpId) (k : Nat),
    program.values[v]? = some ⟨ty, .result id k⟩ →
      ∃ op, program.ops[id.index]? = some op ∧ op.results[k]? = some ⟨v⟩
  /-- No operation stands in two places. -/
  nodup : program.allOps.Nodup
  /-- What stands in a block exists and is not erased. -/
  live : ∀ id ∈ program.allOps, ∃ op, program.ops[id.index]? = some op ∧ op.erased = false

/-- The empty program is valid. -/
theorem Valid.empty : Program.empty.Valid where
  symbols name id := by simp [Program.empty, lookupFunc?, SymbolTable.lookup?]
  arity := by simp [Program.empty]
  args := by simp [Program.empty]
  results := by simp [Program.empty]
  origins := by simp [Program.empty]
  nodup := by simp [Program.empty, allOps]
  live := by simp [Program.empty, allOps]

/-! ### Blocks inside the list of all operations -/

/-- Changing one function changes its own block only, in the middle of all operations. -/
theorem allOps_split {i : Nat} {func : Func} (hfunc : program.funcs[i]? = some func) :
    ∃ before after, program.allOps = before ++ func.bodyOps ++ after ∧
      ∀ change : Func → Func,
        (program.modifyFunc ⟨i⟩ change).allOps = before ++ (change func).bodyOps ++ after := by
  obtain ⟨hi, rfl⟩ := List.getElem?_eq_some_iff.mp hfunc
  refine ⟨(program.funcs.take i).flatMap Func.bodyOps,
    (program.funcs.drop (i + 1)).flatMap Func.bodyOps, ?_, fun change => ?_⟩
  · have hsplit : program.funcs =
        program.funcs.take i ++ program.funcs[i] :: program.funcs.drop (i + 1) := by simp
    conv_lhs => rw [allOps, hsplit]
    rw [List.flatMap_append, List.flatMap_cons, List.append_assoc]
  · simp only [allOps, modifyFunc]
    rw [List.modify_eq_take_cons_drop hi]
    simp

/-- A change that keeps the block of a function keeps the list of all operations. -/
theorem allOps_modifyFunc (program : Program) (id : FuncId) (change : Func → Func)
    (hbody : ∀ func, (change func).bodyOps = func.bodyOps) :
    (program.modifyFunc id change).allOps = program.allOps := by
  cases hfunc : program.funcs[id.index]? with
  | none =>
    have hout : program.funcs.length ≤ id.index := List.getElem?_eq_none_iff.mp hfunc
    have hsame : program.funcs.modify id.index change = program.funcs := by
      apply List.ext_getElem?
      intro j
      rw [List.getElem?_modify]
      by_cases hj : id.index = j
      · subst hj
        simp [hfunc]
      · simp [hj]
    simp [allOps, modifyFunc, hsame]
  | some func =>
    obtain ⟨before, after, hall, hchange⟩ := allOps_split hfunc
    rw [hchange change, hbody func, hall]

/-- The operations of a block are among all operations. -/
theorem mem_allOps {i : Nat} {func : Func} (hfunc : program.funcs[i]? = some func) {id : OpId}
    (hid : id ∈ func.bodyOps) : id ∈ program.allOps :=
  List.mem_flatMap.mpr ⟨func, List.mem_of_getElem? hfunc, hid⟩

/-- In a valid program every operation of a block has a place in the arena. -/
theorem Valid.lt_length (h : program.Valid) {id : OpId} (hid : id ∈ program.allOps) :
    id.index < program.ops.length := by
  obtain ⟨op, hop, -⟩ := h.live id hid
  exact (List.getElem?_eq_some_iff.mp hop).1

/-- No operation stands in the blocks of two functions. -/
theorem Valid.block_unique (h : program.Valid) {i j : Nat} {func func' : Func} {id : OpId}
    (hfunc : program.funcs[i]? = some func) (hid : id ∈ func.bodyOps)
    (hfunc' : program.funcs[j]? = some func') (hid' : id ∈ func'.bodyOps) : i = j := by
  have hpairwise := List.pairwise_iff_getElem.mp (List.nodup_flatMap.mp h.nodup).2
  obtain ⟨hi, rfl⟩ := List.getElem?_eq_some_iff.mp hfunc
  obtain ⟨hj, rfl⟩ := List.getElem?_eq_some_iff.mp hfunc'
  rcases Nat.lt_trichotomy i j with hlt | heq | hgt
  · exact absurd hid' (hpairwise i j hi hj hlt hid)
  · exact heq
  · exact absurd hid (hpairwise j i hj hi hgt hid')

/-- No operation stands twice in a block. -/
theorem Valid.block_nodup (h : program.Valid) {i : Nat} {func : Func}
    (hfunc : program.funcs[i]? = some func) : func.bodyOps.Nodup :=
  (List.nodup_flatMap.mp h.nodup).1 func (List.mem_of_getElem? hfunc)

/-- In a valid program two functions of one name are the same. -/
theorem Valid.func_unique (h : program.Valid) {i j : Nat} {func other : Func}
    (hfunc : program.funcs[i]? = some func) (hother : program.funcs[j]? = some other)
    (hname : func.name = other.name) : i = j := by
  have hi := (h.symbols func.name ⟨i⟩).mpr ⟨func, hfunc, rfl⟩
  have hj := (h.symbols func.name ⟨j⟩).mpr ⟨other, hother, hname.symm⟩
  exact FuncId.mk.inj (Option.some.inj (hi.symm.trans hj))

/-- A result has a place in the arena of values. -/
theorem Valid.result_lt (h : program.Valid) {o : Nat} {op : Operation} {v : ValueId}
    (hop : program.ops[o]? = some op) (hv : v ∈ op.results) : v.index < program.values.length := by
  obtain ⟨k, hk⟩ := List.mem_iff_getElem?.mp hv
  obtain ⟨ty, hty⟩ := h.results o k op v hop hk
  exact (List.getElem?_eq_some_iff.mp hty).1

/-- A value is the result of one operation at one position. -/
theorem Valid.result_position (h : program.Valid) {o k o' k' : Nat} {op op' : Operation}
    {v : ValueId} (hop : program.ops[o]? = some op) (hv : op.results[k]? = some v)
    (hop' : program.ops[o']? = some op') (hv' : op'.results[k']? = some v) : o = o' ∧ k = k' := by
  obtain ⟨ty, hty⟩ := h.results o k op v hop hv
  obtain ⟨ty', hty'⟩ := h.results o' k' op' v hop' hv'
  simp only [hty, Option.some.injEq, Value.mk.injEq, Origin.result.injEq, OpId.mk.injEq] at hty'
  exact hty'.2

/-- A value is the result of at most one operation. -/
theorem Valid.result_unique (h : program.Valid) {o o' : Nat} {op op' : Operation} {v : ValueId}
    (hop : program.ops[o]? = some op) (hv : v ∈ op.results) (hop' : program.ops[o']? = some op')
    (hv' : v ∈ op'.results) : o = o' := by
  obtain ⟨k, hk⟩ := List.mem_iff_getElem?.mp hv
  obtain ⟨k', hk'⟩ := List.mem_iff_getElem?.mp hv'
  exact (h.result_position hop hk hop' hk').1

/-- An argument has a type and knows where it stands. -/
theorem Valid.arg_value (h : program.Valid) {i k : Nat} {func : Func} {v : ValueId}
    (hfunc : program.funcs[i]? = some func) (hv : func.args[k]? = some v) :
    ∃ ty, func.argTypes[k]? = some ty ∧
      program.values[v.index]? = some ⟨ty, .argument ⟨i⟩ k⟩ := by
  have hk : k < func.argTypes.length := by
    rw [← h.arity func (List.mem_of_getElem? hfunc)]
    exact (List.getElem?_eq_some_iff.mp hv).1
  exact ⟨_, List.getElem?_eq_getElem hk,
    h.args i k func v _ hfunc hv (List.getElem?_eq_getElem hk)⟩

/-- An argument is not the result of an operation. -/
theorem Valid.arg_notMem_results (h : program.Valid) {i o : Nat} {func : Func} {op : Operation}
    {v : ValueId} (hfunc : program.funcs[i]? = some func) (hv : v ∈ func.args)
    (hop : program.ops[o]? = some op) : v ∉ op.results := by
  intro hresult
  obtain ⟨k, hk⟩ := List.mem_iff_getElem?.mp hv
  obtain ⟨k', hk'⟩ := List.mem_iff_getElem?.mp hresult
  obtain ⟨ty, -, hty⟩ := h.arg_value hfunc hk
  obtain ⟨ty', hty'⟩ := h.results o k' op v hop hk'
  simp [hty] at hty'

/-! ### Edits that keep the invariant -/

/-- A new operation outside all blocks. -/
theorem Valid.addOp (h : program.Valid) (kind : OpKind) (operands : List ValueId)
    (types : List Ty) (span : Span) : (program.addOp kind operands types span).Valid where
  symbols := h.symbols
  arity := h.arity
  args i k func v ty hfunc hv hty :=
    getElem?_mono (List.prefix_append _ _) (h.args i k func v ty hfunc hv hty)
  results o k op v hop hv := by
    rcases Nat.lt_or_ge o program.ops.length with ho | ho
    · simp only [Program.addOp, List.getElem?_append_left ho] at hop
      obtain ⟨ty, hty⟩ := h.results o k op v hop hv
      exact ⟨ty, getElem?_mono (List.prefix_append _ _) hty⟩
    · simp only [Program.addOp, List.getElem?_append_right ho] at hop
      obtain ⟨hlast, rfl⟩ := List.getElem?_eq_some_iff.mp hop
      have hzero : o = program.ops.length := by
        simp only [List.length_singleton] at hlast
        omega
      subst hzero
      simp only [nextValues, Nat.sub_self, List.getElem_cons_zero, List.getElem?_map,
        Option.map_eq_some_iff] at hv
      obtain ⟨j, hj, rfl⟩ := hv
      obtain ⟨hk, rfl⟩ := List.getElem?_eq_some_iff.mp hj
      have hkt : k < types.length := by simpa using hk
      refine ⟨types[k], ?_⟩
      simp [Program.addOp, nextOp, hkt]
  origins v ty id k hv := by
    simp only [Program.addOp] at hv ⊢
    rw [List.getElem?_append] at hv
    split at hv
    · obtain ⟨op, hop, hresult⟩ := h.origins v ty id k hv
      exact ⟨op, getElem?_mono (List.prefix_append _ _) hop, hresult⟩
    · rename_i hge
      simp only [List.getElem?_mapIdx, Option.map_eq_some_iff, Value.mk.injEq,
        Origin.result.injEq] at hv
      obtain ⟨ty', hty, rfl, rfl, rfl⟩ := hv
      have hk := (List.getElem?_eq_some_iff.mp hty).1
      refine ⟨_, List.getElem?_concat_length, ?_⟩
      simp only [nextValues, List.getElem?_map, List.getElem?_range hk, Option.map_some,
        Option.some.injEq, ValueId.mk.injEq]
      omega
  nodup := h.nodup
  live id hid := by
    obtain ⟨op, hop, herased⟩ := h.live id hid
    exact ⟨op, getElem?_mono (List.prefix_append _ _) hop, herased⟩

/-- A change of operations that keeps their results, and the erased mark of those in a block. -/
theorem Valid.modifyOp (h : program.Valid) (id : OpId) (change : Operation → Operation)
    (hresults : ∀ op, (change op).results = op.results)
    (herased : id ∈ program.allOps → ∀ op, (change op).erased = op.erased) :
    (program.modifyOp id change).Valid where
  symbols := h.symbols
  arity := h.arity
  args := h.args
  results o k op v hop hv := by
    simp only [Program.modifyOp, List.getElem?_modify, Option.map_eq_map,
      Option.map_eq_some_iff] at hop
    obtain ⟨old, hold, rfl⟩ := hop
    apply h.results o k old v hold
    split at hv
    · rwa [hresults] at hv
    · exact hv
  origins v ty other k hv := by
    obtain ⟨op, hop, hresult⟩ := h.origins v ty other k hv
    refine ⟨if id.index = other.index then change op else op, ?_, ?_⟩
    · simp [Program.modifyOp, List.getElem?_modify, hop]
    · split
      · rwa [hresults]
      · exact hresult
  nodup := h.nodup
  live other hother := by
    obtain ⟨op, hop, hlive⟩ := h.live other hother
    refine ⟨if id.index = other.index then change op else op, ?_, ?_⟩
    · simp [Program.modifyOp, List.getElem?_modify, hop]
    · split
      · rename_i heq
        have hid : id ∈ program.allOps := by
          obtain rfl := OpId.eq_of_index heq
          exact hother
        rw [herased hid, hlive]
      · exact hlive

/-- Erasing an operation that stands in no block. -/
theorem Valid.eraseOp (h : program.Valid) {id : OpId} (hid : id ∉ program.allOps) :
    (program.eraseOp id).Valid :=
  h.modifyOp id _ (fun _ => rfl) fun hin => absurd hin hid

/-- A new function under a new name, without operations. -/
theorem Valid.insertFunc (h : program.Valid) {name : String} (hname : program.lookupFunc? name = none)
    (argTypes resultTypes : List Ty) (body : Option (List OpId)) (isPublic : Bool)
    (hbody : body.getD [] = []) :
    (program.insertFunc name argTypes resultTypes body isPublic).Valid where
  symbols other id := by
    simp only [Program.insertFunc, lookupFunc?, SymbolTable.lookup?_insert]
    rw [List.getElem?_append]
    have hsymbols := h.symbols other id
    simp only [lookupFunc?] at hsymbols hname
    by_cases hother : other = name
    · subst hother
      rw [if_pos rfl]
      constructor
      · rintro hid
        obtain rfl : program.nextFunc = id := by simpa using hid
        simp [nextFunc]
      · rintro ⟨func, hfunc, hfname⟩
        split at hfunc
        · have hold := hsymbols.mpr ⟨func, hfunc, hfname⟩
          rw [hname] at hold
          simp at hold
        · obtain ⟨hlast, -⟩ := List.getElem?_eq_some_iff.mp hfunc
          have hindex : id.index = program.funcs.length := by
            simp only [List.length_singleton] at hlast
            omega
          cases id
          simp_all [nextFunc]
    · rw [if_neg hother, hsymbols]
      constructor
      · rintro ⟨func, hfunc, hfname⟩
        have hlt := (List.getElem?_eq_some_iff.mp hfunc).1
        exact ⟨func, by rw [if_pos hlt]; exact hfunc, hfname⟩
      · rintro ⟨func, hfunc, hfname⟩
        split at hfunc
        · exact ⟨func, hfunc, hfname⟩
        · obtain ⟨hlast, rfl⟩ := List.getElem?_eq_some_iff.mp hfunc
          simp only [List.getElem_singleton] at hfname
          exact absurd hfname.symm hother
  arity func hfunc := by
    simp only [Program.insertFunc, List.mem_append, List.mem_singleton] at hfunc
    rcases hfunc with hold | rfl
    · exact h.arity func hold
    · simp [nextValues]
  args i k func v ty hfunc hv hty := by
    simp only [Program.insertFunc] at hfunc ⊢
    rw [List.getElem?_append] at hfunc
    split at hfunc
    · exact getElem?_mono (List.prefix_append _ _) (h.args i k func v ty hfunc hv hty)
    · obtain ⟨hlast, rfl⟩ := List.getElem?_eq_some_iff.mp hfunc
      have hindex : i = program.funcs.length := by
        simp only [List.length_singleton] at hlast
        omega
      subst hindex
      simp only [List.getElem_singleton, nextValues, List.getElem?_map,
        Option.map_eq_some_iff] at hv hty
      obtain ⟨j, hj, rfl⟩ := hv
      obtain ⟨hk, rfl⟩ := List.getElem?_eq_some_iff.mp hj
      rw [List.getElem?_append_right (by simp)]
      simp [nextFunc, hty]
  results o k op v hop hv := by
    obtain ⟨ty, hty⟩ := h.results o k op v hop hv
    exact ⟨ty, getElem?_mono (List.prefix_append _ _) hty⟩
  origins v ty id k hv := by
    simp only [Program.insertFunc] at hv
    rw [List.getElem?_append] at hv
    split at hv
    · exact h.origins v ty id k hv
    · simp at hv
  nodup := by simpa [allOps, Program.insertFunc, Func.bodyOps, hbody] using h.nodup
  live id hid := h.live id (by simpa [allOps, Program.insertFunc, Func.bodyOps, hbody] using hid)

/-- A declaration, whether or not its name is new. -/
theorem Valid.declare (h : program.Valid) (name : String) (argTypes resultTypes : List Ty) :
    (program.declare name argTypes resultTypes).Valid := by
  unfold Program.declare
  split
  · exact h
  · rename_i hname
    exact h.insertFunc hname argTypes resultTypes none false rfl

/-- A definition under a new name. -/
theorem Valid.define (h : program.Valid) {name : String} {argTypes resultTypes : List Ty}
    {after : Program} (hdefine : program.define name argTypes resultTypes = .ok after) :
    after.Valid := by
  unfold Program.define at hdefine
  split at hdefine
  · simp at hdefine
  · rename_i hname
    obtain rfl := Except.ok.inj hdefine
    exact h.insertFunc hname argTypes resultTypes (some []) true rfl

/-- A change of functions that keeps their names and arguments, and leaves good blocks behind. -/
theorem Valid.modifyFunc (h : program.Valid) (id : FuncId) (change : Func → Func)
    (hname : ∀ func, (change func).name = func.name)
    (hargs : ∀ func, (change func).args = func.args)
    (hargTypes : ∀ func, (change func).argTypes = func.argTypes)
    (hnodup : (program.modifyFunc id change).allOps.Nodup)
    (hlive : ∀ other ∈ (program.modifyFunc id change).allOps,
      ∃ op, program.ops[other.index]? = some op ∧ op.erased = false) :
    (program.modifyFunc id change).Valid where
  symbols name other := by
    have hlookup : (program.modifyFunc id change).lookupFunc? name = program.lookupFunc? name := rfl
    rw [hlookup, h.symbols]
    simp only [Program.modifyFunc, List.getElem?_modify, Option.map_eq_map, Option.map_eq_some_iff]
    constructor
    · rintro ⟨func, hfunc, hfname⟩
      refine ⟨_, ⟨func, hfunc, rfl⟩, ?_⟩
      split
      · rw [hname, hfname]
      · exact hfname
    · rintro ⟨func, ⟨old, hold, rfl⟩, hfname⟩
      refine ⟨old, hold, ?_⟩
      split at hfname
      · rwa [hname] at hfname
      · exact hfname
  arity func hfunc := by
    obtain ⟨j, hj⟩ := List.mem_iff_getElem?.mp hfunc
    simp only [Program.modifyFunc, List.getElem?_modify, Option.map_eq_map,
      Option.map_eq_some_iff] at hj
    obtain ⟨old, hold, rfl⟩ := hj
    have harity := h.arity old (List.mem_of_getElem? hold)
    split
    · rw [hargs, hargTypes, harity]
    · exact harity
  args i k func v ty hfunc hv hty := by
    simp only [Program.modifyFunc, List.getElem?_modify, Option.map_eq_map,
      Option.map_eq_some_iff] at hfunc
    obtain ⟨old, hold, rfl⟩ := hfunc
    split at hv
    · rename_i heq
      rw [if_pos heq] at hty
      rw [hargs] at hv
      rw [hargTypes] at hty
      exact h.args i k old v ty hold hv hty
    · rename_i hne
      rw [if_neg hne] at hty
      exact h.args i k old v ty hold hv hty
  results := h.results
  origins := h.origins
  nodup := hnodup
  live := hlive

/-- A fresh value for an argument that the function has. -/
theorem Valid.replaceArg (h : program.Valid) {id : FuncId} {func : Func} {index : Nat}
    (hfunc : program.funcs[id.index]? = some func) (hindex : index < func.args.length) (ty : Ty) :
    (program.replaceArg id index ty).Valid where
  symbols name other := by
    have hlookup : (program.replaceArg id index ty).lookupFunc? name = program.lookupFunc? name := rfl
    rw [hlookup, h.symbols]
    simp only [Program.replaceArg, List.getElem?_modify, Option.map_eq_map, Option.map_eq_some_iff]
    constructor
    · rintro ⟨old, hold, hname⟩
      refine ⟨_, ⟨old, hold, rfl⟩, ?_⟩
      split <;> exact hname
    · rintro ⟨new, ⟨old, hold, rfl⟩, hname⟩
      refine ⟨old, hold, ?_⟩
      split at hname <;> exact hname
  arity new hnew := by
    obtain ⟨j, hj⟩ := List.mem_iff_getElem?.mp hnew
    simp only [Program.replaceArg, List.getElem?_modify, Option.map_eq_map,
      Option.map_eq_some_iff] at hj
    obtain ⟨old, hold, rfl⟩ := hj
    have harity := h.arity old (List.mem_of_getElem? hold)
    split
    · simpa using harity
    · exact harity
  args i k new v ty' hnew hv hty := by
    simp only [Program.replaceArg, List.getElem?_modify, Option.map_eq_map,
      Option.map_eq_some_iff] at hnew ⊢
    obtain ⟨old, hold, rfl⟩ := hnew
    split at hv
    · rename_i heq
      rw [if_pos heq] at hty
      subst heq
      obtain rfl : func = old := Option.some.inj (hfunc.symm.trans hold)
      simp only [List.getElem?_set] at hv hty
      split at hv
      · rename_i hk
        subst hk
        have hindexTy : index < func.argTypes.length := by
          rw [← h.arity func (List.mem_of_getElem? hfunc)]
          exact hindex
        simp only [hindexTy, ↓reduceIte, Option.some.injEq] at hv hty
        subst hv hty
        simp
      · rename_i hk
        rw [if_neg hk] at hty
        exact getElem?_mono (List.prefix_append _ _) (h.args _ k func v ty' hold hv hty)
    · rename_i hne
      rw [if_neg hne] at hty
      exact getElem?_mono (List.prefix_append _ _) (h.args i k old v ty' hold hv hty)
  results o k op v hop hv := by
    obtain ⟨ty', hty⟩ := h.results o k op v hop hv
    exact ⟨ty', getElem?_mono (List.prefix_append _ _) hty⟩
  origins v ty' other k hv := by
    simp only [Program.replaceArg] at hv
    rw [List.getElem?_append] at hv
    split at hv
    · exact h.origins v ty' other k hv
    · simp [List.getElem?_singleton] at hv
  nodup := by
    have hall : (program.replaceArg id index ty).allOps = program.allOps :=
      allOps_modifyFunc program id _ fun _ => rfl
    rw [hall]
    exact h.nodup
  live other hother := by
    have hall : (program.replaceArg id index ty).allOps = program.allOps :=
      allOps_modifyFunc program id _ fun _ => rfl
    rw [hall] at hother
    exact h.live other hother

/-- Other operations take the place of one that is erased. They must be new to all blocks. -/
theorem Valid.replaceInBody (h : program.Valid) {id : FuncId} {func : Func} {target : OpId}
    {pre post new : List OpId} (hfunc : program.funcs[id.index]? = some func)
    (hbody : func.bodyOps = pre ++ target :: post) (hnodup : new.Nodup)
    (hnew : ∀ other ∈ new, other ∉ program.allOps)
    (hlive : ∀ other ∈ new, ∃ op, program.ops[other.index]? = some op ∧ op.erased = false) :
    ((program.modifyFunc id fun func => { func with body := some (pre ++ new ++ post) }).eraseOp
      target).Valid := by
  obtain ⟨before, after, hall, hchange⟩ := allOps_split hfunc
  rw [hbody] at hall
  have hafter := hchange fun func => { func with body := some (pre ++ new ++ post) }
  simp only [Func.bodyOps, Option.getD_some] at hafter
  -- The old list is the new one with the target in place of the new operations.
  have hperm : program.allOps.Perm (target :: (before ++ (pre ++ post) ++ after)) := by
    rw [hall]
    simp only [List.append_assoc, List.cons_append]
    exact (List.perm_middle.append_left before).trans List.perm_middle
  have hold := List.nodup_cons.mp (hperm.nodup_iff.mp h.nodup)
  have hpermNew : (before ++ (pre ++ new ++ post) ++ after).Perm
      (new ++ (before ++ (pre ++ post) ++ after)) := by
    simp only [List.append_assoc]
    exact ((List.perm_append_comm_assoc pre new _).append_left before).trans
      (List.perm_append_comm_assoc before new _)
  have hmem : ∀ other ∈ before ++ (pre ++ post) ++ after, other ∈ program.allOps :=
    fun other hother => hperm.mem_iff.mpr (List.mem_cons_of_mem _ hother)
  apply Valid.eraseOp
  · refine h.modifyFunc id _ ?_ ?_ ?_ ?_ ?_
    iterate 3 exact fun _ => rfl
    · rw [hafter, hpermNew.nodup_iff]
      exact List.Nodup.append hnodup hold.2 fun other hother hin => hnew other hother (hmem other hin)
    · intro other hother
      rw [hafter, hpermNew.mem_iff, List.mem_append] at hother
      rcases hother with hin | hrest
      · exact hlive other hin
      · exact h.live other (hmem other hrest)
  · rw [hafter, hpermNew.mem_iff, List.mem_append]
    rintro (hin | hrest)
    · exact hnew target hin (hperm.mem_iff.mpr List.mem_cons_self)
    · exact hold.1 hrest

/-- An operation at the end of a block. -/
theorem Valid.appendOp (h : program.Valid) {id : FuncId} {kind : OpKind} {operands : List ValueId}
    {types : List Ty} {span : Span} {after : Program}
    (happend : program.appendOp id kind operands types span = .ok after) : after.Valid := by
  unfold Program.appendOp at happend
  simp only [bind_eq_ok, func_eq_ok] at happend
  obtain ⟨func, hfunc, happend⟩ := happend
  cases hbody : func.body with
  | none => simp [hbody, throw, throwThe, MonadExceptOf.throw] at happend
  | some body =>
    simp only [hbody, pure_eq_ok] at happend
    subst happend
    have hadd := h.addOp kind operands types span
    have hfuncAdd : (program.addOp kind operands types span).funcs[id.index]? = some func := hfunc
    obtain ⟨before, rest, hall, hchange⟩ := allOps_split hfuncAdd
    have hafter := hchange fun func => { func with body := some (body ++ [program.nextOp]) }
    simp only [Func.bodyOps, Option.getD_some, hbody] at hafter hall
    have hfresh : program.nextOp ∉ program.allOps := fun hin => by
      have := h.lt_length hin
      simp [nextOp] at this
    have hperm : (before ++ (body ++ [program.nextOp]) ++ rest).Perm
        (program.nextOp :: (program.addOp kind operands types span).allOps) := by
      rw [hall]
      simp only [List.append_assoc, List.singleton_append]
      exact (List.perm_middle.append_left before).trans List.perm_middle
    refine hadd.modifyFunc id _ ?_ ?_ ?_ ?_ ?_
    iterate 3 exact fun _ => rfl
    · rw [hafter, hperm.nodup_iff]
      exact List.nodup_cons.mpr ⟨hfresh, hadd.nodup⟩
    · intro other hother
      rw [hafter, hperm.mem_iff, List.mem_cons] at hother
      rcases hother with rfl | hin
      · refine ⟨⟨kind, operands, program.nextValues types.length, span, false⟩, ?_, rfl⟩
        simp [Program.addOp, nextOp]
      · exact hadd.live other hin

/-- Dropping the last functions, if they have no operations. -/
theorem Valid.truncateFuncs (h : program.Valid) (count : Nat)
    (hempty : ∀ func ∈ program.funcs.drop count, func.bodyOps = []) :
    (program.truncateFuncs count).Valid := by
  have hall : (program.truncateFuncs count).allOps = program.allOps := by
    have hdrop : (program.funcs.drop count).flatMap Func.bodyOps = [] :=
      List.flatMap_eq_nil_iff.mpr hempty
    simp only [allOps, Program.truncateFuncs]
    conv_rhs => rw [← List.take_append_drop count program.funcs, List.flatMap_append, hdrop]
    rw [List.append_nil]
  refine ⟨fun name id => ?_, fun func hfunc => ?_, fun i k func v ty hfunc hv hty => ?_, h.results,
    h.origins, ?_, ?_⟩
  · simp only [Program.truncateFuncs, lookupFunc?, SymbolTable.lookup?_foldl_erase]
    have hsymbols := h.symbols name
    simp only [lookupFunc?] at hsymbols
    constructor
    · intro hlookup
      split at hlookup
      · simp at hlookup
      · rename_i hkept
        obtain ⟨func, hfunc, hname⟩ := (hsymbols id).mp hlookup
        refine ⟨func, ?_, hname⟩
        rw [List.getElem?_take]
        split
        · exact hfunc
        · rename_i hge
          refine absurd ⟨func, ?_, hname⟩ hkept
          have hdrop : (program.funcs.drop count)[id.index - count]? = some func := by
            rw [List.getElem?_drop, Nat.add_sub_cancel' (Nat.le_of_not_lt hge)]
            exact hfunc
          exact List.mem_of_getElem? hdrop
    · rintro ⟨func, hfunc, hname⟩
      have hlt : id.index < count := by
        have := (List.getElem?_eq_some_iff.mp hfunc).1
        rw [List.length_take] at this
        omega
      replace hfunc := getElem?_mono (List.take_prefix _ _) hfunc
      rw [if_neg, (hsymbols id).mpr ⟨func, hfunc, hname⟩]
      rintro ⟨other, hother, hothername⟩
      obtain ⟨j, hj⟩ := List.mem_iff_getElem?.mp hother
      rw [List.getElem?_drop] at hj
      have hsame := (hsymbols ⟨count + j⟩).mpr ⟨other, hj, hothername⟩
      rw [(hsymbols id).mpr ⟨func, hfunc, hname⟩] at hsame
      have := congrArg FuncId.index (Option.some.inj hsame)
      simp only at this
      omega
  · exact h.arity func (List.mem_of_mem_take hfunc)
  · exact h.args i k func v ty (getElem?_mono (List.take_prefix _ _) hfunc) hv hty
  · rw [hall]
    exact h.nodup
  · rw [hall]
    exact h.live

end Program

end TensorLowering
