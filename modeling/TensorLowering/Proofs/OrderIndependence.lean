import TensorLowering.Proofs.Alignment
import TensorLowering.Proofs.Counts

/-!
# The order of functions does not matter

Functions are visited in their order, and ids of values, operations and functions are handed out on
the way, so the ids in a lowered program depend on that order. Nothing else does: every function is
lowered to the same function, the same entry points are declared, the counts are the same, and each
function gets the same reports.
-/

namespace TensorLowering

open Matching Conversion

/-- Related groups make related lists. -/
theorem forall₂_flatMap {α β γ : Type} {rel : β → γ → Prop} {items : List α} {left : α → List β}
    {right : α → List γ} (h : ∀ a ∈ items, List.Forall₂ rel (left a) (right a)) :
    List.Forall₂ rel (items.flatMap left) (items.flatMap right) := by
  induction items with
  | nil => exact .nil
  | cons a rest ih =>
    exact List.rel_append (h a List.mem_cons_self)
      (ih fun b hb => h b (List.mem_cons_of_mem _ hb))

/-- A program with its functions in another order. The matching says how the values and operations
have been renumbered, and the functions go to new places. -/
structure Reordered (m : Matching) (place : FuncId → FuncId) (program program' : Program) :
    Prop where
  sound : m.Sound program program'
  unique : Relator.BiUnique m.ops
  order : (program.funcIds.map place).Perm program'.funcIds
  funcs : ∀ (id : FuncId) (func : Func), program.funcs[id.index]? = some func → ∃ func',
    program'.funcs[(place id).index]? = some func' ∧ m.SameFunc func func'

namespace Reordered

variable {m : Matching} {place : FuncId → FuncId} {program program' : Program}
  (h : Reordered m place program program')

include h

/-- Programs that differ in the order of their functions have the same functions. -/
theorem corresponds : m.Corresponds program program' where
  sound := h.sound
  unique := h.unique
  forth func hfunc := by
    obtain ⟨i, hi⟩ := List.mem_iff_getElem?.mp hfunc
    obtain ⟨func', hfunc', hsame⟩ := h.funcs ⟨i⟩ func hi
    exact ⟨func', List.mem_of_getElem? hfunc', hsame⟩
  back func' hfunc' := by
    obtain ⟨i', hi'⟩ := List.mem_iff_getElem?.mp hfunc'
    have hid' : (⟨i'⟩ : FuncId) ∈ program'.funcIds :=
      List.mem_map.mpr ⟨i', List.mem_range.mpr (List.getElem?_eq_some_iff.mp hi').1, rfl⟩
    obtain ⟨id, hid, hplace⟩ := List.mem_map.mp (h.order.mem_iff.mpr hid')
    obtain ⟨i, hlt, rfl⟩ := List.mem_map.mp hid
    have hfunc := List.getElem?_eq_getElem (List.mem_range.mp hlt)
    obtain ⟨found, hfound, hsame⟩ := h.funcs ⟨i⟩ _ hfunc
    rw [hplace] at hfound
    obtain rfl := Option.some.inj (hi'.symm.trans hfound)
    exact ⟨_, List.mem_of_getElem? hfunc, hsame⟩

/-- The functions that have a block go to the functions that have one. -/
theorem definedFuncs : (program.definedFuncs.map place).Perm program'.definedFuncs := by
  refine .trans (.of_eq ?_) (h.order.filter _)
  rw [List.filter_map, Program.definedFuncs]
  refine congrArg (List.map place) (List.filter_congr fun id hid => ?_)
  obtain ⟨i, hlt, rfl⟩ := List.mem_map.mp hid
  have hfunc := List.getElem?_eq_getElem (List.mem_range.mp hlt)
  obtain ⟨func', hfunc', hsame⟩ := h.funcs ⟨i⟩ _ hfunc
  simp [hfunc, hfunc', hsame.isDeclaration]

/-- The operations of a reordered program, put back in the old order. -/
theorem exists_allOps :
    ∃ ops', ops'.Perm program'.allOps ∧ List.Forall₂ m.ops program.allOps ops' := by
  refine ⟨(program.definedFuncs.map place).flatMap program'.blockOf, ?_, ?_⟩
  · rw [← program'.flatMap_blockOf]
    exact h.definedFuncs.flatMap_right _
  · rw [← program.flatMap_blockOf, List.flatMap_map]
    refine forall₂_flatMap fun id hid => ?_
    obtain ⟨func, body, hfunc, -⟩ := exists_of_mem_definedFuncs hid
    obtain ⟨func', hfunc', hsame⟩ := h.funcs id func hfunc
    simpa [Program.blockOf, hfunc, hfunc'] using hsame.bodyOps

/-- What is counted alike of matched operations has the same count. -/
theorem countP_allOps {p p' : OpId → Bool}
    (hsame : ∀ id id', m.ops id id' → id ∈ program.allOps → (p id = true ↔ p' id' = true)) :
    program.allOps.countP p = program'.allOps.countP p' := by
  obtain ⟨ops', hperm, hops⟩ := h.exists_allOps
  have hmem := (List.forall₂_and_left _ _).mpr ⟨fun id hid => hid, hops⟩
  have hfilter := List.rel_filter (fun id id' hid => hsame id id' hid.2 hid.1) hmem
  rw [← hperm.countP_eq, List.countP_eq_length_filter, List.countP_eq_length_filter,
    hfilter.length_eq]

/-- The same signatures change. -/
theorem countP_changes (types : TypeMap) :
    program.definedFuncs.countP (changes types program) =
      program'.definedFuncs.countP (changes types program') := by
  rw [← h.definedFuncs.countP_eq, List.countP_map]
  refine List.countP_congr fun id hid => ?_
  obtain ⟨func, body, hfunc, -⟩ := exists_of_mem_definedFuncs hid
  obtain ⟨func', hfunc', hsame⟩ := h.funcs id func hfunc
  simp [changes, hfunc, hfunc', changesSignature, hsame.argTypes, hsame.resultTypes]

end Reordered

namespace Lowering

/-! ### Reports -/

/-- The reports about the block of one function. -/
def reportsOn (program : Program) (id : FuncId) : List Diagnostic :=
  (illegalIn legality program [id]).toOption.getD []

/-- The reports about several functions are grouped by function. -/
theorem illegalIn_groups {program : Program} {ids : List FuncId} {reports : List Diagnostic}
    (hrun : illegalIn legality program ids = .ok reports) :
    reports = ids.flatMap (reportsOn program) ∧
      ∀ id ∈ ids, illegalIn legality program [id] = .ok (reportsOn program id) := by
  induction ids generalizing reports with
  | nil =>
    simp only [illegalIn, Except.ok.injEq] at hrun
    exact ⟨hrun.symm, by simp⟩
  | cons id rest ih =>
    simp only [illegalIn, bind_eq_ok, Program.func_eq_ok, pure_eq_ok] at hrun
    obtain ⟨func, hfunc, here, hhere, there, hthere, rfl⟩ := hrun
    have hone : illegalIn legality program [id] = .ok here := by
      simp only [illegalIn, bind_eq_ok, Program.func_eq_ok, pure_eq_ok]
      exact ⟨func, hfunc, here, hhere, [], rfl, List.append_nil here⟩
    have hgroup : reportsOn program id = here := by rw [reportsOn, hone]; rfl
    obtain ⟨hreports, hgroups⟩ := ih hthere
    refine ⟨by rw [List.flatMap_cons, hgroup, ← hreports], fun other hother => ?_⟩
    rcases List.mem_cons.mp hother with rfl | hlater
    · rw [hgroup, hone]
    · exact hgroups other hlater

/-- Functions that are the same get the same reports. -/
theorem illegalIn_alike {m : Matching} {program program' : Program} (h : m.Sound program program')
    {id id' : FuncId} {func func' : Func} (hfunc : program.funcs[id.index]? = some func)
    (hfunc' : program'.funcs[id'.index]? = some func') (hsame : m.SameFunc func func') :
    Alike (List.Forall₂ m.SameReport) (illegalIn legality program [id])
      (illegalIn legality program' [id']) := by
  simp only [illegalIn, Program.func_eq_ok.mpr hfunc, Program.func_eq_ok.mpr hfunc']
  refine Alike.bind (.ok hsame) fun func func' hsame => ?_
  rw [hsame.name]
  refine (h.illegalOps hsame.bodyOps func.name).bind fun here here' hhere => ?_
  exact .ok (List.rel_append hhere .nil)

/-! ### Two lowerings -/

/-- Two lowerings did the same to functions in different orders. -/
structure SameLowering (m : Matching) (place : FuncId → FuncId) (source source' : Program)
    (outcome outcome' : Outcome) : Prop where
  sound : m.Sound outcome.program outcome'.program
  unique : Relator.BiUnique m.ops
  /-- Every function ends with the same signature and the same block. -/
  funcs : ∀ (id : FuncId) (func : Func), source.funcs[id.index]? = some func → ∃ now now',
    outcome.program.funcs[id.index]? = some now ∧
      outcome'.program.funcs[(place id).index]? = some now' ∧ m.SameFunc now now'
  declared : ∀ name, name ∈ declaredNames source outcome.program ↔
    name ∈ declaredNames source' outcome'.program
  stats : ∀ stats, outcome.result = .ok stats ↔ outcome'.result = .ok stats
  /-- The reports come in groups, one for each function in its turn. -/
  reports : ∀ reports, outcome.result = .error reports →
    reports = source.definedFuncs.flatMap (reportsOn outcome.program)
  reports' : ∀ reports, outcome'.result = .error reports →
    reports = source'.definedFuncs.flatMap (reportsOn outcome'.program)
  order : (source.definedFuncs.map place).Perm source'.definedFuncs
  groups : ∀ id ∈ source.definedFuncs, List.Forall₂ m.SameReport
    (reportsOn outcome.program id) (reportsOn outcome'.program (place id))

section Courses

variable {m : Matching} {c c' : Course}

/-- What is declared in one lowering is declared in the other. -/
theorem declaredNames_of_corresponds (h : m.Corresponds c.source c'.source) {name : String}
    (hname : name ∈ declaredNames c.source c.target) :
    name ∈ declaredNames c'.source c'.target := by
  obtain ⟨hnew, id, j, other, op, hmakes, hop, hcall⟩ := c.mem_declaredNames.mp hname
  refine c'.mem_declaredNames.mpr ⟨fun hold => hnew ?_, ?_⟩
  · obtain ⟨func', hfunc', rfl⟩ := List.mem_map.mp hold
    obtain ⟨func, hfunc, hsame⟩ := h.back func' hfunc'
    exact List.mem_map.mpr ⟨func, hfunc, hsame.name.symm⟩
  · obtain ⟨id', hid', hops⟩ := h.exists_op hmakes.mem
    obtain ⟨other', hstands, p, p', hp, hp', hplace⟩ :=
      exists_getElem?_of_forall₂ ((aligned_allOps h).blocks id id' hops hmakes.mem) hmakes.stands
    obtain rfl := hp.place_unique (.made hmakes)
    cases hplace with
    | made hrel hid =>
      cases hp' with
      | made hmakes' =>
        obtain ⟨op', hop'⟩ := hmakes'.exists_op
        have hsame := ((aligned_allOps h).made hrel hid hmakes hmakes' hop hop').1
        exact ⟨_, _, _, op', hmakes', hop', hsame.kind.trans hcall⟩

/-- The counts do not depend on the order. -/
theorem Course.stats_of_reordered {place : FuncId → FuncId}
    (h : Reordered m place c.source c'.source) : c.state.stats = c'.state.stats := by
  obtain ⟨hsignatures, hconverted, hattempts⟩ := c.stats_eq
  obtain ⟨hsignatures', hconverted', hattempts'⟩ := c'.stats_eq
  have hkept : c.source.allOps.countP (fun id => c.expand id ≠ [id]) =
      c'.source.allOps.countP (fun id => c'.expand id ≠ [id]) :=
    h.countP_allOps fun id id' hops hid => by simp [expand_eq_self_iff h.corresponds hops hid]
  have hoffered : c.source.allOps.countP (offered c.source) =
      c'.source.allOps.countP (offered c'.source) := h.countP_allOps fun id id' hops _ => by
    obtain ⟨op, op', hop, hop', hsame⟩ := h.sound.ops id id' hops
    simp [offered, hop, hop', hsame.kind]
  rw [h.countP_changes, ← hsignatures'] at hsignatures
  rw [hkept, ← hconverted'] at hconverted
  rw [hoffered, ← hattempts', hconverted, Nat.add_right_cancel_iff] at hattempts
  generalize c.state.stats = stats at *
  generalize c'.state.stats = stats' at *
  cases stats
  cases stats'
  simp_all

end Courses

/-- The order of functions does not matter. If the functions of a program are put in another order
and its ids are renumbered, then the lowering of one program succeeds exactly if that of the other
does, with the same counts. Every function ends with the same signature and the same block up to ids,
the same names are declared, and every function gets the same reports up to the names of values. -/
theorem lower_reordered {m : Matching} {place : FuncId → FuncId} {program program' : Program}
    {outcome outcome' : Outcome} (hreach : program.Reachable) (hreach' : program'.Reachable)
    (hssa : program.DefBeforeUse) (hssa' : program'.DefBeforeUse)
    (hreordered : Reordered m place program program') (hrun : lower program = .ok outcome)
    (hrun' : lower program' = .ok outcome') :
    ∃ m', SameLowering m' place program program' outcome outcome' := by
  obtain ⟨c, reports, rfl, htarget, hreports, hresult⟩ := exists_course hreach.valid hssa hrun
  obtain ⟨c', reports', rfl, htarget', hreports', hresult'⟩ :=
    exists_course hreach'.valid hssa' hrun'
  have h := hreordered.corresponds
  have hsound := aligned_sound h
  rw [htarget, htarget'] at hsound
  have hfuncs : ∀ (id : FuncId) (func : Func), c.source.funcs[id.index]? = some func →
      ∃ now now', outcome.program.funcs[id.index]? = some now ∧
        outcome'.program.funcs[(place id).index]? = some now' ∧
        (aligned m c c' c.source.allOps).SameFunc now now' := by
    intro id func hfunc
    obtain ⟨func', hfunc', hsame⟩ := hreordered.funcs id func hfunc
    rw [← htarget, ← htarget']
    exact aligned_func h hfunc hfunc' hsame
  -- The reports of either run are its groups, and the groups of a function are the same.
  obtain ⟨rfl, hgroups⟩ := illegalIn_groups hreports
  obtain ⟨rfl, hgroups'⟩ := illegalIn_groups hreports'
  have hsame : ∀ id ∈ c.source.definedFuncs,
      List.Forall₂ (aligned m c c' c.source.allOps).SameReport (reportsOn outcome.program id)
        (reportsOn outcome'.program (place id)) := by
    intro id hid
    obtain ⟨func, body, hfunc, -⟩ := exists_of_mem_definedFuncs hid
    obtain ⟨now, now', hnow, hnow', hsame⟩ := hfuncs id func hfunc
    have hid' := hreordered.definedFuncs.mem_iff.mp (List.mem_map_of_mem hid)
    exact (illegalIn_alike hsound hnow hnow' hsame).of_ok (hgroups id hid) (hgroups' _ hid')
  have hempty : (c.source.definedFuncs.flatMap (reportsOn outcome.program)).isEmpty =
      (c'.source.definedFuncs.flatMap (reportsOn outcome'.program)).isEmpty := by
    have hperm := hreordered.definedFuncs.flatMap_right (reportsOn outcome'.program)
    rw [List.flatMap_map] at hperm
    rw [Bool.eq_iff_iff, List.isEmpty_iff_length_eq_zero, List.isEmpty_iff_length_eq_zero,
      (forall₂_flatMap hsame).length_eq, hperm.length_eq]
  refine ⟨_, hsound, aligned_unique_ops h _, hfuncs, fun name => ?_, fun stats => ?_,
    fun reports herror => ?_, fun reports herror => ?_, hreordered.definedFuncs, hsame⟩
  · rw [← htarget, ← htarget']
    exact ⟨declaredNames_of_corresponds h, declaredNames_of_corresponds h.flip⟩
  · rw [hresult, hresult', hempty, Course.stats_of_reordered hreordered]
    split <;> simp
  · rw [hresult] at herror
    split at herror <;> simp_all
  · rw [hresult'] at herror
    split at herror <;> simp_all

/-- Reads the values of a tensor; the conversion is rejected. -/
def reading (tensor : Nat) : Listing where
  name := "read"
  argTypes := [sparseVector]
  lines := some [
    { kind := .toValues, operands := [tensor], types := [.memref [.dynamic] .f64] },
    { kind := .sparseConvert, operands := [tensor], types := [sparseVector] }]

/-- Asks for the extent of a tensor; the conversion is rejected. -/
def measuring (tensor : Nat) : Listing where
  name := "measure"
  argTypes := [sparseVector, .index]
  lines := some [
    { kind := .tensorDim, operands := [tensor, tensor + 1], types := [.index] },
    { kind := .sparseConvert, operands := [tensor], types := [sparseVector] }]

/-- Two functions. -/
def paired : Program := .listed [reading 0, measuring 3]

/-- The two functions in the other order. -/
def swapped : Program := .listed [measuring 0, reading 4]

/-- How the ids change if the functions change places. -/
def exchange : Matching where
  values v v' := v.index < 7 ∧ v'.index = (v.index + 4) % 7
  ops o o' := o.index < 4 ∧ o'.index = (o.index + 2) % 4

/-- The functions have changed places. -/
theorem reordered_exchange : Reordered exchange (fun id => ⟨1 - id.index⟩) paired swapped where
  sound := by
    refine ⟨?_, ?_, ?_⟩
    · rintro ⟨v⟩ ⟨v'⟩ ⟨hlt, heq⟩
      simp only at hlt heq
      subst heq
      obtain rfl | rfl | rfl | rfl | rfl | rfl | rfl :
        v = 0 ∨ v = 3 ∨ v = 4 ∨ v = 1 ∨ v = 2 ∨ v = 5 ∨ v = 6 := by omega
      iterate 3 exact ⟨_, _, _, rfl, rfl, .argument⟩
      iterate 4 exact ⟨_, _, _, rfl, rfl, .result ⟨by decide, by decide⟩⟩
    · rintro ⟨o⟩ ⟨o'⟩ ⟨hlt, heq⟩
      simp only at hlt heq
      subst heq
      obtain rfl | rfl | rfl | rfl : o = 0 ∨ o = 1 ∨ o = 3 ∨ o = 2 := by omega
      iterate 3
        exact ⟨_, _, rfl, rfl, rfl, .cons ⟨by decide, by decide⟩ .nil,
          .cons ⟨by decide, by decide⟩ .nil, rfl⟩
      exact ⟨_, _, rfl, rfl, rfl,
        .cons ⟨by decide, by decide⟩ (.cons ⟨by decide, by decide⟩ .nil),
        .cons ⟨by decide, by decide⟩ .nil, rfl⟩
    · constructor <;> rintro ⟨v⟩ ⟨w⟩ ⟨u⟩ ⟨hv, hv'⟩ ⟨hw, hw'⟩ <;>
        simp only [ValueId.mk.injEq] at * <;> omega
  unique := by
    constructor <;> rintro ⟨o⟩ ⟨p⟩ ⟨u⟩ ⟨ho, ho'⟩ ⟨hp, hp'⟩ <;>
      simp only [OpId.mk.injEq] at * <;> omega
  order := by decide +kernel
  funcs := by
    rintro ⟨i⟩ func hfunc
    have hlt : i < paired.funcs.length := (List.getElem?_eq_some_iff.mp hfunc).1
    obtain rfl | rfl : i = 0 ∨ i = 1 := by
      have hlength : paired.funcs.length = 2 := by decide +kernel
      omega
    · obtain rfl := Option.some.inj hfunc
      exact ⟨_, rfl, rfl, .cons ⟨by decide, by decide⟩ .nil, rfl, rfl, rfl,
        .some (.cons ⟨by decide, by decide⟩ (.cons ⟨by decide, by decide⟩ .nil))⟩
    · obtain rfl := Option.some.inj hfunc
      exact ⟨_, rfl, rfl, .cons ⟨by decide, by decide⟩ (.cons ⟨by decide, by decide⟩ .nil), rfl, rfl,
        rfl, .some (.cons ⟨by decide, by decide⟩ (.cons ⟨by decide, by decide⟩ .nil))⟩

/-- Both runs report two operations. They declare the same names, one before the other. -/
theorem lower_reordered_exchange : paired.Reachable ∧ swapped.Reachable ∧ paired.DefBeforeUse ∧
    swapped.DefBeforeUse ∧ Reordered exchange (fun id => ⟨1 - id.index⟩) paired swapped ∧
    ∃ outcome outcome', lower paired = .ok outcome ∧ lower swapped = .ok outcome' ∧
      declaredNames paired outcome.program = ["sparseValuesF64", "sparseDimSize"] ∧
      declaredNames swapped outcome'.program = ["sparseDimSize", "sparseValuesF64"] ∧
      (paired.definedFuncs.map fun id => (reportsOn outcome.program id).length) = [1, 1] ∧
      ∃ m', SameLowering m' (fun id => ⟨1 - id.index⟩) paired swapped outcome outcome' := by
  have hssa : paired.DefBeforeUse := by decide +kernel
  have hssa' : swapped.DefBeforeUse := by decide +kernel
  have hcheck : (lower paired).toOption.any (fun outcome =>
      decide (declaredNames paired outcome.program = ["sparseValuesF64", "sparseDimSize"]) &&
      decide ((paired.definedFuncs.map fun id => (reportsOn outcome.program id).length) = [1, 1])) =
        true := by
    decide +kernel
  have hcheck' : (lower swapped).toOption.any (fun outcome =>
      decide (declaredNames swapped outcome.program = ["sparseDimSize", "sparseValuesF64"])) =
        true := by
    decide +kernel
  cases hrun : lower paired with
  | error halt => simp [hrun, Except.toOption] at hcheck
  | ok outcome =>
    cases hrun' : lower swapped with
    | error halt => simp [hrun', Except.toOption] at hcheck'
    | ok outcome' =>
      simp only [hrun, hrun', Except.toOption, Option.any_some, Bool.and_eq_true,
        decide_eq_true_eq] at hcheck hcheck'
      have hreach : paired.Reachable := Program.reachable_listed _
      have hreach' : swapped.Reachable := Program.reachable_listed _
      exact ⟨hreach, hreach', hssa, hssa', reordered_exchange, outcome, outcome', rfl, rfl, hcheck.1,
        hcheck', hcheck.2, lower_reordered hreach hreach' hssa hssa' reordered_exchange hrun hrun'⟩

end Lowering

end TensorLowering
