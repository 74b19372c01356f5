import Mathlib.Logic.Function.Basic
import TensorLowering.Proofs.Chains
import TensorLowering.Proofs.Reachability

/-!
# Converting signatures

The first phase of a conversion goes through the functions that have a body, and in each of them
through the arguments. The invariant says, for any point of this walk, which arguments and results
have been converted: a converted argument whose type changed is a fresh value to which the old one is
renamed, and everything else is as before. Operations, names and blocks are not touched.
-/

namespace TensorLowering

namespace Conversion

/-- A function before the conversion and now, when the first arguments have been converted. -/
structure SignedFunc (types : TypeMap) (fresh : Nat) (aliases : Renaming) (count : Nat)
    (finished : Bool) (func now : Func) : Prop where
  name : now.name = func.name
  body : now.body = func.body
  isPublic : now.isPublic = func.isPublic
  results : now.resultTypes = if finished then func.resultTypes.map types.convert
    else func.resultTypes
  argTypes : ∀ k, now.argTypes[k]? =
    func.argTypes[k]?.map fun ty => if k < count then types.convert ty else ty
  arity : now.args.length = func.args.length
  args : ∀ (k : Nat) (old : ValueId) (ty : Ty), func.args[k]? = some old →
    func.argTypes[k]? = some ty → ∃ new, now.args[k]? = some new ∧
      if k < count ∧ types.convert ty ≠ ty then aliases.next? old = some new ∧ fresh ≤ new.index
      else new = old

/-- The signatures have been converted up to the given number of arguments in each function. -/
structure Signed (types : TypeMap) (source : Program) (count : Nat → Nat) (finished : List FuncId)
    (state : Progress) : Prop where
  ops : state.program.ops = source.ops
  symbols : state.program.symbols = source.symbols
  values : source.values <+: state.program.values
  size : state.program.funcs.length = source.funcs.length
  funcs : ∀ (i : Nat) (func : Func), source.funcs[i]? = some func →
    ∃ now, state.program.funcs[i]? = some now ∧
      SignedFunc types source.values.length state.aliases (count i) (finished.contains ⟨i⟩) func now
  keys : ∀ old new, state.aliases.next? old = some new → ∃ i k func ty,
    source.funcs[i]? = some func ∧ k < count i ∧ func.args[k]? = some old ∧
      func.argTypes[k]? = some ty ∧ types.convert ty ≠ ty ∧ source.values.length ≤ new.index ∧
      state.program.values[new.index]? = some ⟨types.convert ty, .argument ⟨i⟩ k⟩

variable {types : TypeMap} {source : Program} {count : Nat → Nat} {finished : List FuncId}
  {state after : Progress}

/-- Nothing is converted at the start. -/
theorem Signed.start (types : TypeMap) (source : Program) :
    Signed types source (fun _ => 0) [] { program := source } where
  ops := rfl
  symbols := rfl
  values := List.prefix_rfl
  size := rfl
  funcs i func hfunc := by
    refine ⟨func, hfunc, rfl, rfl, rfl, rfl, fun k => by simp, rfl, fun k old ty hold hty => ?_⟩
    exact ⟨old, hold, by simp⟩
  keys old new hnext := by simp [Renaming.next?] at hnext

/-- Two arguments of a valid program are the same value only at the same place. -/
theorem arg_position (hvalid : source.Valid) {i k i' k' : Nat} {func func' : Func} {v : ValueId}
    (hfunc : source.funcs[i]? = some func) (hv : func.args[k]? = some v)
    (hfunc' : source.funcs[i']? = some func') (hv' : func'.args[k']? = some v) :
    i = i' ∧ k = k' := by
  obtain ⟨ty, -, hvalue⟩ := hvalid.arg_value hfunc hv
  obtain ⟨ty', -, hvalue'⟩ := hvalid.arg_value hfunc' hv'
  simp only [hvalue, Option.some.injEq, Value.mk.injEq, Origin.argument.injEq,
    FuncId.mk.injEq] at hvalue'
  exact hvalue'.2

/-- An argument whose type stays the same needs no conversion. -/
theorem SignedFunc.keepArg {fresh count : Nat} {aliases : Renaming} {done : Bool} {func now : Func}
    {ty : Ty} (h : SignedFunc types fresh aliases count done func now)
    (hty : func.argTypes[count]? = some ty) (hsame : types.convert ty = ty) :
    SignedFunc types fresh aliases (count + 1) done func now := by
  refine ⟨h.name, h.body, h.isPublic, h.results, fun k => ?_, h.arity, fun k old ty' hold hty' => ?_⟩
  · rw [h.argTypes]
    rcases Nat.lt_trichotomy k count with hk | rfl | hk
    · simp [hk, Nat.lt_succ_of_lt hk]
    · simp [hty, hsame]
    · simp [Nat.not_lt_of_gt hk, Nat.not_lt.mpr hk]
  · obtain ⟨new, hnew, hcase⟩ := h.args k old ty' hold hty'
    refine ⟨new, hnew, ?_⟩
    rcases Nat.lt_trichotomy k count with hk | rfl | hk
    · simpa [hk, Nat.lt_succ_of_lt hk] using hcase
    · obtain rfl := Option.some.inj (hty.symm.trans hty')
      simpa [hsame] using hcase
    · simpa [Nat.not_lt_of_gt hk, Nat.not_lt.mpr hk] using hcase

/-- An argument whose type changes becomes a fresh value. -/
theorem SignedFunc.changeArg {fresh count : Nat} {aliases aliases' : Renaming} {done : Bool}
    {func now : Func} {ty : Ty} {old new : ValueId}
    (h : SignedFunc types fresh aliases count done func now)
    (hty : func.argTypes[count]? = some ty) (hchange : types.convert ty ≠ ty)
    (hold : func.args[count]? = some old) (hfresh : fresh ≤ new.index)
    (hnew : aliases'.next? old = some new)
    (hothers : ∀ k other, k ≠ count → func.args[k]? = some other →
      aliases'.next? other = aliases.next? other) :
    SignedFunc types fresh aliases' (count + 1) done func
      { now with
        args := now.args.set count new
        argTypes := now.argTypes.set count (types.convert ty) } := by
  have hlt : count < now.args.length := by
    rw [h.arity]
    exact (List.getElem?_eq_some_iff.mp hold).1
  have hltTy : count < now.argTypes.length := by
    have := h.argTypes count
    rw [hty] at this
    exact (List.getElem?_eq_some_iff.mp this).1
  refine ⟨h.name, h.body, h.isPublic, h.results, fun k => ?_, by simpa using h.arity,
    fun k other ty' hother hty' => ?_⟩
  · rw [List.getElem?_set]
    rcases Nat.lt_trichotomy k count with hk | rfl | hk
    · rw [if_neg (Nat.ne_of_gt hk), h.argTypes]
      simp [hk, Nat.lt_succ_of_lt hk]
    · simp [hltTy, hty]
    · rw [if_neg (Nat.ne_of_lt hk), h.argTypes]
      simp [Nat.not_lt_of_gt hk, Nat.not_lt.mpr hk]
  · rw [List.getElem?_set]
    rcases Nat.lt_trichotomy k count with hk | rfl | hk
    · rw [if_neg (Nat.ne_of_gt hk), hothers k other (Nat.ne_of_lt hk) hother]
      simpa [hk, Nat.lt_succ_of_lt hk] using h.args k other ty' hother hty'
    · obtain rfl := Option.some.inj (hold.symm.trans hother)
      obtain rfl := Option.some.inj (hty.symm.trans hty')
      exact ⟨new, by simp [hlt], by simpa [hchange] using ⟨hnew, hfresh⟩⟩
    · rw [if_neg (Nat.ne_of_lt hk), hothers k other (Nat.ne_of_gt hk) hother]
      simpa [Nat.not_lt_of_gt hk, Nat.not_lt.mpr hk] using h.args k other ty' hother hty'

/-- Other functions do not notice a new entry for an argument that is not theirs. -/
theorem SignedFunc.congr {fresh count : Nat} {aliases aliases' : Renaming} {done : Bool}
    {func now : Func} (h : SignedFunc types fresh aliases count done func now)
    (hothers : ∀ (k : Nat) (other : ValueId), func.args[k]? = some other →
      aliases'.next? other = aliases.next? other) :
    SignedFunc types fresh aliases' count done func now := by
  refine ⟨h.name, h.body, h.isPublic, h.results, h.argTypes, h.arity, fun k other ty hother hty => ?_⟩
  rw [hothers k other hother]
  exact h.args k other ty hother hty

/-- One more argument of a function is converted. -/
theorem Signed.convertArg (h : Signed types source count finished state) (hvalid : source.Valid)
    {id : FuncId} {func : Func} {ty : Ty} (hfunc : source.funcs[id.index]? = some func)
    (hty : func.argTypes[count id.index]? = some ty)
    (hrun : convertArg types id (count id.index) ty state = .ok after) :
    Signed types source (Function.update count id.index (count id.index + 1)) finished after := by
  have hmono : ∀ i, count i ≤ Function.update count id.index (count id.index + 1) i := by
    intro i
    by_cases hi : i = id.index
    · subst hi
      simp
    · simp [hi]
  rcases convertArg_eq_ok.mp hrun with ⟨hsame, rfl⟩ | ⟨hchange, now, old, hnow, hold, rfl⟩
  · refine ⟨h.ops, h.symbols, h.values, h.size, fun i other hother => ?_, fun old new hnext => ?_⟩
    · obtain ⟨now, hnow, hsigned⟩ := h.funcs i other hother
      refine ⟨now, hnow, ?_⟩
      by_cases hi : i = id.index
      · subst hi
        obtain rfl := Option.some.inj (hfunc.symm.trans hother)
        simpa using hsigned.keepArg hty hsame
      · simpa [hi] using hsigned
    · obtain ⟨i, k, other, ty', hother, hk, hrest⟩ := h.keys old new hnext
      exact ⟨i, k, other, ty', hother, Nat.lt_of_lt_of_le hk (hmono i), hrest⟩
  · obtain ⟨now', hnow', hsigned⟩ := h.funcs id.index func hfunc
    obtain rfl := Option.some.inj (hnow.symm.trans hnow')
    have hlength : count id.index < func.args.length := by
      rw [← hsigned.arity]
      exact (List.getElem?_eq_some_iff.mp hold).1
    obtain ⟨new, hnew, hcase⟩ := hsigned.args _ _ ty (List.getElem?_eq_getElem hlength) hty
    obtain rfl := Option.some.inj (hold.symm.trans hnew)
    simp only [Nat.lt_irrefl, false_and, ↓reduceIte] at hcase
    have hold : func.args[count id.index]? = some old := by
      rw [List.getElem?_eq_getElem hlength, hcase]
    obtain ⟨argTy, -, hvalue⟩ := hvalid.arg_value hfunc hold
    have hlt : old.index < state.program.values.length :=
      (List.getElem?_eq_some_iff.mp (getElem?_mono h.values hvalue)).1
    have hne : old ≠ ⟨state.program.values.length⟩ := by
      rintro rfl
      exact Nat.lt_irrefl _ hlt
    have hnext := Renaming.next?_insert state.aliases hne
    have hothers : ∀ i k other v, source.funcs[i]? = some other → other.args[k]? = some v →
        (i ≠ id.index ∨ k ≠ count id.index) →
        (state.aliases.insert old ⟨state.program.values.length⟩).next? v =
          state.aliases.next? v := by
      intro i k other v hother hv hplace
      rw [hnext, if_neg]
      rintro rfl
      obtain ⟨rfl, rfl⟩ := arg_position hvalid hother hv hfunc hold
      simp at hplace
    refine ⟨h.ops, h.symbols, h.values.trans (List.prefix_append _ _),
      by simpa [Program.replaceArg] using h.size, fun i other hother => ?_, fun v new hv => ?_⟩
    · simp only [Program.replaceArg, List.getElem?_modify]
      by_cases hi : i = id.index
      · subst hi
        obtain rfl := Option.some.inj (hfunc.symm.trans hother)
        refine ⟨_, by rw [hnow]; simp; rfl, ?_⟩
        simp only [Function.update_self]
        exact hsigned.changeArg hty hchange hold h.values.length_le (by simp [hnext])
          fun k v hk hv => hothers _ k func v hfunc hv (.inr hk)
      · obtain ⟨now', hnow', hsigned'⟩ := h.funcs i other hother
        refine ⟨now', by simp [hnow', Ne.symm hi], ?_⟩
        simpa [hi] using hsigned'.congr fun k v hv => hothers i k other v hother hv (.inl hi)
    · rw [hnext] at hv
      split at hv
      · rename_i hv'
        obtain rfl := Option.some.inj hv
        subst hv'
        exact ⟨id.index, count id.index, func, ty, hfunc, by simp, hold, hty, hchange,
          h.values.length_le, by simp [Program.replaceArg]⟩
      · obtain ⟨i, k, other, ty', hother, hk, hargs, htys, hchange', hfresh, hvalue'⟩ := h.keys v new hv
        exact ⟨i, k, other, ty', hother, Nat.lt_of_lt_of_le hk (hmono i), hargs, htys, hchange',
          hfresh, getElem?_mono (List.prefix_append _ _) hvalue'⟩

/-- The remaining arguments of a function are converted. -/
theorem Signed.convertArgs (h : Signed types source count finished state) (hvalid : source.Valid)
    {id : FuncId} {func : Func} (hfunc : source.funcs[id.index]? = some func) {tys : List Ty}
    (htys : func.argTypes.drop (count id.index) = tys)
    (hcount : count id.index ≤ func.argTypes.length)
    (hrun : convertArgs types id (count id.index) tys state = .ok after) :
    Signed types source (Function.update count id.index func.argTypes.length) finished after := by
  induction tys generalizing count state with
  | nil =>
    simp only [Conversion.convertArgs, Except.ok.injEq] at hrun
    subst hrun
    have hall : count id.index = func.argTypes.length :=
      Nat.le_antisymm hcount (List.drop_eq_nil_iff.mp htys)
    rwa [← hall, Function.update_eq_self]
  | cons ty rest ih =>
    simp only [Conversion.convertArgs, bind_eq_ok] at hrun
    obtain ⟨middle, hmiddle, hrest⟩ := hrun
    have hty : func.argTypes[count id.index]? = some ty := by
      rw [← List.head?_drop, htys, List.head?_cons]
    have hstep := h.convertArg hvalid hfunc hty hmiddle
    have hnext : Function.update count id.index (count id.index + 1) id.index =
        count id.index + 1 := Function.update_self ..
    rw [← hnext] at hrest
    have hlt := (List.getElem?_eq_some_iff.mp hty).1
    have hdrop : func.argTypes.drop (count id.index + 1) = rest := by
      rw [← List.tail_drop, htys, List.tail_cons]
    have hafter := ih hstep (by rw [hnext, hdrop]) (by rw [hnext]; exact hlt) hrest
    rwa [Function.update_idem] at hafter

/-- The signature of one more function is converted. -/
theorem Signed.convertSignature (h : Signed types source count finished state)
    (hvalid : source.Valid) {id : FuncId} {func : Func}
    (hfunc : source.funcs[id.index]? = some func) (hcount : count id.index = 0)
    (hnew : id ∉ finished) (hrun : convertSignature types id state = .ok after) :
    Signed types source (Function.update count id.index func.argTypes.length) (id :: finished)
      after := by
  simp only [Conversion.convertSignature, bind_eq_ok, Program.func_eq_ok] at hrun
  obtain ⟨now, hnow, middle, hargs, hrun⟩ := hrun
  obtain ⟨now', hnow', hsigned⟩ := h.funcs id.index func hfunc
  obtain rfl := Option.some.inj (hnow.symm.trans hnow')
  have hargTypes : now.argTypes = func.argTypes :=
    List.ext_getElem? fun k => by simp [hsigned.argTypes, hcount]
  rw [hargTypes, ← hcount] at hargs
  have hmiddle := h.convertArgs hvalid hfunc (by simp [hcount]) (by simp [hcount]) hargs
  have hprogram : after.program = middle.program.modifyFunc id (fun func =>
      { func with resultTypes := func.resultTypes.map types.convert }) ∧
      after.aliases = middle.aliases := by
    split at hrun <;> exact (pure_eq_ok.mp hrun) ▸ ⟨rfl, rfl⟩
  obtain ⟨hprogram, haliases⟩ := hprogram
  refine ⟨?_, ?_, ?_, ?_, fun i other hother => ?_, ?_⟩
  · rw [hprogram]
    exact hmiddle.ops
  · rw [hprogram]
    exact hmiddle.symbols
  · rw [hprogram]
    exact hmiddle.values
  · rw [hprogram]
    simpa [Program.modifyFunc] using hmiddle.size
  · obtain ⟨now', hnow', hsigned'⟩ := hmiddle.funcs i other hother
    simp only [hprogram, haliases, Program.modifyFunc, List.getElem?_modify, hnow',
      Option.map_eq_map, Option.map_some, Option.some.injEq, exists_eq_left']
    by_cases hi : i = id.index
    · subst hi
      have hnot : finished.contains (⟨id.index⟩ : FuncId) = false := by simpa using hnew
      have hin : (id :: finished).contains (⟨id.index⟩ : FuncId) = true := by simp
      have hresults : now'.resultTypes = other.resultTypes := by
        simpa only [hnot, Bool.false_eq_true, ↓reduceIte] using hsigned'.results
      rw [if_pos rfl, hin]
      exact ⟨hsigned'.name, hsigned'.body, hsigned'.isPublic, by simp [hresults],
        hsigned'.argTypes, hsigned'.arity, hsigned'.args⟩
    · have hsame : (id :: finished).contains (⟨i⟩ : FuncId) = finished.contains ⟨i⟩ := by
        have hne : (⟨i⟩ : FuncId) ≠ id := fun heq => hi (congrArg FuncId.index heq)
        simp [hne]
      rw [if_neg (Ne.symm hi), hsame]
      exact hsigned'
  · rw [hprogram, haliases]
    exact hmiddle.keys

/-- The signatures of several functions are converted. -/
theorem Signed.forEach (hvalid : source.Valid) {ids : List FuncId} (hnodup : ids.Nodup)
    (h : Signed types source count finished state)
    (hnew : ∀ id ∈ ids, count id.index = 0 ∧ id ∉ finished)
    (hrun : forEach (Conversion.convertSignature types) ids state = .ok after) :
    ∃ count' finished', Signed types source count' finished' after ∧
      (∀ id, id ∈ finished' ↔ id ∈ ids ∨ id ∈ finished) ∧
      ∀ (i : Nat) (func : Func), source.funcs[i]? = some func →
        count' i = if ⟨i⟩ ∈ ids then func.argTypes.length else count i := by
  induction ids generalizing count finished state with
  | nil =>
    simp only [Conversion.forEach, Except.ok.injEq] at hrun
    exact ⟨count, finished, hrun ▸ h, by simp, by simp⟩
  | cons id rest ih =>
    simp only [Conversion.forEach, bind_eq_ok] at hrun
    obtain ⟨middle, hmiddle, hrest⟩ := hrun
    obtain ⟨hid, hnodup⟩ := List.nodup_cons.mp hnodup
    have hexists : ∃ func, source.funcs[id.index]? = some func := by
      have hread := hmiddle
      simp only [Conversion.convertSignature, bind_eq_ok, Program.func_eq_ok] at hread
      obtain ⟨now, hnow, -⟩ := hread
      have hlt := (List.getElem?_eq_some_iff.mp hnow).1
      rw [h.size] at hlt
      exact ⟨_, List.getElem?_eq_getElem hlt⟩
    obtain ⟨func, hfunc⟩ := hexists
    obtain ⟨hzero, hnot⟩ := hnew id List.mem_cons_self
    have hstep := h.convertSignature hvalid hfunc hzero hnot hmiddle
    have hothers : ∀ other ∈ rest, other.index ≠ id.index := by
      intro other hother heq
      obtain rfl : other = id := by
        cases other
        cases id
        exact congrArg FuncId.mk heq
      exact hid hother
    obtain ⟨count', finished', hafter, hfinished, hcount⟩ := ih hnodup hstep (fun other hother => by
      obtain ⟨hzero', hnot'⟩ := hnew other (List.mem_cons_of_mem _ hother)
      refine ⟨by rw [Function.update_of_ne (hothers other hother), hzero'], fun hin => ?_⟩
      rcases List.mem_cons.mp hin with rfl | hin
      · exact hid hother
      · exact hnot' hin) hrest
    refine ⟨count', finished', hafter, fun other => ?_, fun i other hother => ?_⟩
    · rw [hfinished, List.mem_cons, List.mem_cons]
      exact ⟨fun hcase => by tauto, fun hcase => by tauto⟩
    · rw [hcount i other hother]
      by_cases hi : i = id.index
      · subst hi
        obtain rfl := Option.some.inj (hfunc.symm.trans hother)
        simp
      · have hne : (⟨i⟩ : FuncId) ≠ id := fun heq => hi (congrArg FuncId.index heq)
        simp [hne, hi]

/-! ### The whole phase -/

/-- A function with its signature converted, if it has a body. -/
def resign (types : TypeMap) (aliases : Renaming) (func : Func) : Func :=
  if func.isDeclaration then func
  else { func with
    args := func.args.map aliases.resolve
    argTypes := func.argTypes.map types.convert
    resultTypes := func.resultTypes.map types.convert }

/-- What the first phase does to a program. -/
structure Resigned (types : TypeMap) (source : Program) (state : Progress) : Prop where
  ops : state.program.ops = source.ops
  symbols : state.program.symbols = source.symbols
  values : source.values <+: state.program.values
  funcs : state.program.funcs = source.funcs.map (resign types state.aliases)
  acyclic : state.aliases.Acyclic
  fresh : ∀ v : ValueId, source.values.length ≤ v.index → state.aliases.next? v = none
  /-- Only arguments whose type changes are renamed, to fresh values. -/
  keys : ∀ old new, state.aliases.next? old = some new → ∃ i k func ty,
    source.funcs[i]? = some func ∧ func.args[k]? = some old ∧ func.argTypes[k]? = some ty ∧
      types.convert ty ≠ ty ∧ source.values.length ≤ new.index ∧
      state.program.values[new.index]? = some ⟨types.convert ty, .argument ⟨i⟩ k⟩
  /-- The arguments of declarations are not renamed. -/
  defined : ∀ (i : Nat) (func : Func) (v : ValueId), source.funcs[i]? = some func →
    func.isDeclaration = true → v ∈ func.args → state.aliases.next? v = none

/-- The functions that have a body are listed once each. -/
theorem nodup_definedFuncs (program : Program) : program.definedFuncs.Nodup := by
  apply List.Nodup.filter
  apply List.Nodup.map _ List.nodup_range
  intro i j hij
  simpa using hij

/-- A function has its signature converted. -/
theorem Resigned.func (h : Resigned types source state) {i : Nat} {func : Func}
    (hfunc : source.funcs[i]? = some func) :
    state.program.funcs[i]? = some (resign types state.aliases func) := by
  rw [h.funcs, List.getElem?_map, hfunc, Option.map_some]

/-- A function is listed exactly if it has a body. -/
theorem mem_definedFuncs {program : Program} {i : Nat} {func : Func}
    (hfunc : program.funcs[i]? = some func) :
    (⟨i⟩ : FuncId) ∈ program.definedFuncs ↔ func.isDeclaration = false := by
  have hlt := (List.getElem?_eq_some_iff.mp hfunc).1
  have hid : (⟨i⟩ : FuncId) ∈ program.funcIds := List.mem_map.mpr ⟨i, List.mem_range.mpr hlt, rfl⟩
  simp only [Program.definedFuncs, List.mem_filter, hid, hfunc, Option.any_some, true_and,
    Bool.not_eq_true']

/-- What is listed is a function with a body. -/
theorem exists_of_mem_definedFuncs {program : Program} {id : FuncId}
    (hid : id ∈ program.definedFuncs) :
    ∃ func body, program.funcs[id.index]? = some func ∧ func.body = some body := by
  obtain ⟨i, hi, rfl⟩ := List.mem_map.mp (List.mem_filter.mp hid).1
  obtain ⟨func, hfunc⟩ : ∃ func, program.funcs[i]? = some func :=
    ⟨_, List.getElem?_eq_getElem (List.mem_range.mp hi)⟩
  have hdefined := (mem_definedFuncs hfunc).mp hid
  cases hbody : func.body with
  | none => simp [Func.isDeclaration, hbody] at hdefined
  | some body => exact ⟨func, body, hfunc, hbody⟩

/-- Fresh values are not renamed in the first phase. -/
theorem Signed.next?_eq_none (h : Signed types source count finished state) (hvalid : source.Valid)
    {v : ValueId} (hv : source.values.length ≤ v.index) : state.aliases.next? v = none := by
  cases hnext : state.aliases.next? v with
  | none => rfl
  | some new =>
    obtain ⟨i, k, func, ty, hfunc, -, hold, -⟩ := h.keys v new hnext
    obtain ⟨ty', -, hvalue⟩ := hvalid.arg_value hfunc hold
    have := (List.getElem?_eq_some_iff.mp hvalue).1
    omega

/-- A function that was not reached is as before. -/
theorem SignedFunc.eq_of_zero {fresh : Nat} {aliases : Renaming} {func now : Func}
    (h : SignedFunc types fresh aliases 0 false func now)
    (harity : func.args.length = func.argTypes.length) : now = func := by
  have hargTypes : now.argTypes = func.argTypes :=
    List.ext_getElem? fun k => by simp [h.argTypes]
  have hargs : now.args = func.args := by
    refine List.ext_getElem h.arity fun k hk hk' => ?_
    obtain ⟨new, hnew, hcase⟩ := h.args k _ _ (List.getElem?_eq_getElem hk')
      (List.getElem?_eq_getElem (harity ▸ hk'))
    simp only [Nat.not_lt_zero, false_and, ↓reduceIte] at hcase
    rw [List.getElem?_eq_getElem hk, Option.some.injEq] at hnew
    rw [hnew, hcase]
  have hresults : now.resultTypes = func.resultTypes := by simpa using h.results
  obtain ⟨hname, hbody, hpublic, -, -, -, -⟩ := h
  cases now
  cases func
  simp_all

/-- The arguments of a function are the renamed ones, however many have been converted. -/
theorem Signed.args_eq (h : Signed types source count finished state) (hvalid : source.Valid)
    {i : Nat} {func now : Func} (hfunc : source.funcs[i]? = some func)
    (hsigned : SignedFunc types source.values.length state.aliases (count i)
      (finished.contains ⟨i⟩) func now) : now.args = func.args.map state.aliases.resolve := by
  have harity := hvalid.arity func (List.mem_of_getElem? hfunc)
  refine List.ext_getElem (by rw [hsigned.arity, List.length_map]) fun k hk hk' => ?_
  rw [List.length_map] at hk'
  have hold := List.getElem?_eq_getElem hk'
  have hty := List.getElem?_eq_getElem (l := func.argTypes) (i := k) (harity ▸ hk')
  obtain ⟨new, hnew, hcase⟩ := hsigned.args k _ _ hold hty
  rw [List.getElem?_eq_getElem hk, Option.some.injEq] at hnew
  rw [hnew, List.getElem_map]
  split at hcase
  · obtain ⟨hnext, hfresh⟩ := hcase
    exact ((Renaming.Chain.step hnext (.stop (h.next?_eq_none hvalid hfresh))).resolve_eq).symm
  · rename_i hsame
    rw [hcase, Renaming.resolve_of_next?_eq_none]
    -- An entry for this argument would come from this very position.
    cases hnext : state.aliases.next? func.args[k] with
    | none => rfl
    | some other =>
      obtain ⟨j, l, func', ty, hfunc', hl, hold', hty', hchange, -⟩ := h.keys _ other hnext
      obtain ⟨rfl, rfl⟩ := arg_position hvalid hfunc hold hfunc' hold'
      obtain rfl := Option.some.inj (hfunc.symm.trans hfunc')
      obtain rfl := Option.some.inj (hty.symm.trans hty')
      exact absurd ⟨hl, hchange⟩ hsame

/-- The first phase converts the signatures of exactly the functions that have a body. -/
theorem resigned_of_forEach (hvalid : source.Valid)
    (hrun : forEach (convertSignature types) source.definedFuncs { program := source } =
      .ok state) : Resigned types source state := by
  obtain ⟨count, finished, hsigned, hfinished, hcount⟩ := Signed.forEach hvalid
    (nodup_definedFuncs source) (.start types source) (fun id _ => ⟨rfl, by simp⟩) hrun
  have hfresh : ∀ v : ValueId, source.values.length ≤ v.index → state.aliases.next? v = none :=
    fun v hv => hsigned.next?_eq_none hvalid hv
  have hacyclic : state.aliases.Acyclic := .of_targets fun old new hnext => by
    obtain ⟨i, k, func, ty, -, -, -, -, -, hnew, -⟩ := hsigned.keys old new hnext
    exact hfresh new hnew
  have hundefined : ∀ (i : Nat) (func : Func), source.funcs[i]? = some func →
      func.isDeclaration = true → (⟨i⟩ : FuncId) ∉ source.definedFuncs ∧ count i = 0 := by
    intro i func hfunc hdecl
    have hnot : (⟨i⟩ : FuncId) ∉ source.definedFuncs := by simp [mem_definedFuncs hfunc, hdecl]
    exact ⟨hnot, by rw [hcount i func hfunc, if_neg hnot]⟩
  refine ⟨hsigned.ops, hsigned.symbols, hsigned.values, ?_, hacyclic, hfresh,
    fun old new hnext => ?_, fun i func v hfunc hdecl hv => ?_⟩
  · refine List.ext_getElem? fun i => ?_
    rw [List.getElem?_map]
    cases hfunc : source.funcs[i]? with
    | none =>
      rw [List.getElem?_eq_none_iff] at hfunc
      rw [Option.map_none, List.getElem?_eq_none_iff, hsigned.size]
      exact hfunc
    | some func =>
      obtain ⟨now, hnow, hfuncSigned⟩ := hsigned.funcs i func hfunc
      have harity := hvalid.arity func (List.mem_of_getElem? hfunc)
      have hdefined := mem_definedFuncs hfunc
      rw [hnow, Option.map_some, Option.some.injEq, resign]
      cases hdecl : func.isDeclaration with
      | true =>
        obtain ⟨hnot, hzero⟩ := hundefined i func hfunc hdecl
        have hopen : finished.contains (⟨i⟩ : FuncId) = false := by
          simp [hfinished, hnot]
        rw [hzero, hopen] at hfuncSigned
        exact hfuncSigned.eq_of_zero harity
      | false =>
        have hin : (⟨i⟩ : FuncId) ∈ source.definedFuncs := hdefined.mpr hdecl
        have hall : count i = func.argTypes.length := by rw [hcount i func hfunc, if_pos hin]
        have hargs := hsigned.args_eq hvalid hfunc hfuncSigned
        have hargTypes : now.argTypes = func.argTypes.map types.convert := by
          refine List.ext_getElem? fun k => ?_
          rw [hfuncSigned.argTypes, List.getElem?_map]
          cases hty : func.argTypes[k]? with
          | none => rfl
          | some ty =>
            have hk := (List.getElem?_eq_some_iff.mp hty).1
            simp [hall, hk]
        have hresults : now.resultTypes = func.resultTypes.map types.convert := by
          have hdone : finished.contains (⟨i⟩ : FuncId) = true := by simp [hfinished, hin]
          simpa only [hdone, ↓reduceIte] using hfuncSigned.results
        obtain ⟨hname, hbody, hpublic, -, -, -, -⟩ := hfuncSigned
        cases now
        cases func
        simp_all
  · obtain ⟨i, k, func, ty, hfunc, -, hrest⟩ := hsigned.keys old new hnext
    exact ⟨i, k, func, ty, hfunc, hrest⟩
  · cases hnext : state.aliases.next? v with
    | none => rfl
    | some new =>
      obtain ⟨j, k, func', ty, hfunc', hk, hold, -⟩ := hsigned.keys v new hnext
      obtain ⟨k', hk'⟩ := List.mem_iff_getElem?.mp hv
      obtain ⟨rfl, rfl⟩ := arg_position hvalid hfunc hk' hfunc' hold
      have := (hundefined i func hfunc hdecl).2
      omega

end Conversion

end TensorLowering
