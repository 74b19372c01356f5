import TensorLowering.Proofs.Ranges
import TensorLowering.Proofs.Resubmission
import TensorLowering.Proofs.Withdrawal

/-!
# When a tensor folds into a handle

The rule looks at the operands one after the other. It remembers the first handle, passes over what
no call defines, and gives up in three different ways. Whether it succeeds, and with which handle,
is nevertheless a statement about the set of calls among the operands: there is one, and all of them
have the same handle as their first operand. The order of the operands matters in one case only. A
call whose first operand points past the arena stops the run when its result is looked at, but not
if the rule has given up before.
-/

namespace TensorLowering

namespace Lowering

open Conversion

/-- Every call among the values has a first operand that is in the arena, or none. -/
def CallsInRange (program : Program) (values : List ValueId) : Prop :=
  ∀ v ∈ values, ∀ call, ResultOfCall program v call →
    ∀ first, call.operands.head? = some first → program.Has first

/-- The values that calls define are members of both lists or of none. -/
def SameCalls (program : Program) (values others : List ValueId) : Prop :=
  ∀ v call, ResultOfCall program v call → (v ∈ values ↔ v ∈ others)

/-- How an offer to the rule ends, at a point of a conversion. -/
def foldOf (state : Progress) (site : Site) : Except Halt (Option Unit × Attempt) :=
  (tensorRule.attempt site).run site.root { program := state.program, log := state.log }

variable {program : Program} {values others : List ValueId} {handle other : ValueId}

/-! ### Folding as a condition on calls -/

/-- Values fold into one handle only. -/
theorem FoldsInto.unique (h : FoldsInto program values handle)
    (hother : FoldsInto program values other) : handle = other := by
  obtain ⟨v, hv, call, hcall⟩ := h.called
  exact Option.some.inj ((h.first v hv call hcall).symm.trans (hother.first v hv call hcall))

/-- The calls among values that fold have the handle, which is in the arena. -/
theorem FoldsInto.callsInRange (h : FoldsInto program values handle) :
    CallsInRange program values := by
  intro v hv call hcall first hfirst
  obtain rfl := Option.some.inj (hfirst.symm.trans (h.first v hv call hcall))
  exact Program.has_iff_typeOf.mpr ⟨_, h.ptr⟩

/-- Only the calls among the values count. -/
theorem FoldsInto.congr (hsame : SameCalls program values others)
    (h : FoldsInto program values handle) : FoldsInto program others handle := by
  refine ⟨h.ptr, ?_, fun v hv call hcall => ?_⟩
  · obtain ⟨v, hv, call, hcall⟩ := h.called
    exact ⟨v, (hsame v call hcall).mp hv, call, hcall⟩
  · exact h.first v ((hsame v call hcall).mpr hv) call hcall

/-- Values with the same calls have the same calls in range. -/
theorem CallsInRange.congr (hsame : SameCalls program values others)
    (h : CallsInRange program values) : CallsInRange program others := by
  intro v hv call hcall
  exact h v ((hsame v call hcall).mpr hv) call hcall

/-- Sharing calls goes both ways. -/
theorem SameCalls.symm (h : SameCalls program values others) : SameCalls program others values :=
  fun v call hcall => (h v call hcall).symm

/-- A value of the arena shows something, unless a call defines it whose first operand is not in the
arena. -/
theorem exists_shows_of_has (hvalid : program.Valid) {v : ValueId} (hv : program.Has v)
    (hcall : ∀ call, ResultOfCall program v call →
      ∀ first, call.operands.head? = some first → program.Has first) :
    ∃ seen, Shows program v seen := by
  obtain ⟨⟨ty, origin⟩, hvalue⟩ : ∃ value, program.values[v.index]? = some value :=
    ⟨_, List.getElem?_eq_getElem hv⟩
  cases origin with
  | argument func k => exact ⟨_, .argument hvalue⟩
  | result id k =>
    obtain ⟨op, hop, -⟩ := hvalid.origins _ _ _ _ hvalue
    rcases callee?_cases op.kind with hplain | ⟨name, hkind⟩
    · exact ⟨_, .other hvalue hop hplain⟩
    · refine exists_shows_of_result hvalue hop fun first hfirst => Program.has_iff_typeOf.mp ?_
      exact hcall op ⟨ty, id, k, name, hvalue, hop, hkind⟩ first hfirst

/-! ### The loop and the condition -/

/-- The loop comes to its end if the values and the first operands of their calls are in the
arena. -/
theorem exists_commonHandle_of_has (hvalid : program.Valid) (hrange : ∀ v ∈ values, program.Has v)
    (hcalls : CallsInRange program values) :
    ∃ found, commonHandle program none values = .ok found :=
  exists_commonHandle none fun v hv => exists_shows_of_has hvalid (hrange v hv) (hcalls v hv)

/-- The loop finds a handle exactly if the values fold into it. -/
theorem commonHandle_eq_some_iff (hvalid : program.Valid) (hrange : ∀ v ∈ values, program.Has v) :
    commonHandle program none values = .ok (some handle) ↔ FoldsInto program values handle := by
  constructor
  · exact foldsInto_of_commonHandle
  · intro h
    obtain ⟨found, hfound⟩ := exists_commonHandle_of_has hvalid hrange h.callsInRange
    cases found with
    | none => exact absurd h (not_foldsInto_of_commonHandle hfound handle)
    | some other =>
      obtain rfl := h.unique (foldsInto_of_commonHandle hfound)
      exact hfound

/-- With all calls in range, the loop finds no handle exactly if the values fold into none. -/
theorem commonHandle_eq_none_iff (hvalid : program.Valid) (hrange : ∀ v ∈ values, program.Has v)
    (hcalls : CallsInRange program values) :
    commonHandle program none values = .ok none ↔ ∀ handle, ¬FoldsInto program values handle := by
  constructor
  · intro h handle
    exact not_foldsInto_of_commonHandle h handle
  · intro h
    obtain ⟨found, hfound⟩ := exists_commonHandle_of_has hvalid hrange hcalls
    cases found with
    | none => exact hfound
    | some handle => exact absurd (foldsInto_of_commonHandle hfound) (h handle)

section Offers

variable {patterns : List Pattern} {types : TypeMap} {state : Progress} {site : Site}
  {after : Attempt}

/-- An offer succeeds exactly if the operands fold into a handle, and then it only names it. -/
theorem foldOf_eq_some (hvalid : state.program.Valid) (hsingle : site.root.results.length = 1)
    (hrange : ∀ v ∈ site.operands, state.program.Has v) :
    foldOf state site = .ok (some (), after) ↔
      ∃ handle, FoldsInto state.program site.operands handle ∧
        after = { program := state.program, log := state.log, replacement := some [handle] } := by
  rw [foldOf, tensorRule_eq_ok]
  simp only [reduceCtorEq, false_and, and_false, false_or, hsingle, true_and]
  constructor
  · rintro ⟨_, hfound, handle, rfl, rfl⟩
    exact ⟨handle, (commonHandle_eq_some_iff hvalid hrange).mp hfound, rfl⟩
  · rintro ⟨handle, hfolds, rfl⟩
    exact ⟨some handle, (commonHandle_eq_some_iff hvalid hrange).mpr hfolds, handle, rfl, rfl⟩

/-- With all calls in range, an offer is declined exactly if the operands fold into no handle, and
then nothing has happened. -/
theorem foldOf_eq_none (hvalid : state.program.Valid)
    (hrange : ∀ v ∈ site.operands, state.program.Has v)
    (hcalls : CallsInRange state.program site.operands) :
    foldOf state site = .ok (none, after) ↔
      (∀ handle, ¬FoldsInto state.program site.operands handle) ∧
        after = { program := state.program, log := state.log } := by
  rw [foldOf, tensorRule_eq_ok, ← commonHandle_eq_none_iff hvalid hrange hcalls]
  simp only [reduceCtorEq, false_and, and_false, exists_false, or_false, true_and]
  constructor
  · rintro ⟨_, hfound, rfl, rfl⟩
    exact ⟨hfound, rfl⟩
  · rintro ⟨hfound, rfl⟩
    exact ⟨none, hfound, rfl, rfl⟩

/-- With all calls in range, an offer comes to an end. -/
theorem exists_foldOf (hvalid : state.program.Valid) (hsingle : site.root.results.length = 1)
    (hrange : ∀ v ∈ site.operands, state.program.Has v)
    (hcalls : CallsInRange state.program site.operands) :
    ∃ result after, foldOf state site = .ok (result, after) := by
  by_cases hfolds : ∃ handle, FoldsInto state.program site.operands handle
  · obtain ⟨handle, hfolds⟩ := hfolds
    exact ⟨_, _, (foldOf_eq_some hvalid hsingle hrange).mpr ⟨handle, hfolds, rfl⟩⟩
  · exact ⟨_, _, (foldOf_eq_none hvalid hrange hcalls).mpr ⟨not_exists.mp hfolds, rfl⟩⟩

/-- Offers of one root with the same calls among their operands succeed alike. -/
theorem foldOf_eq_some_congr (hvalid : state.program.Valid) {other : Site}
    (hroot : other.root = site.root) (hsingle : site.root.results.length = 1)
    (hrange : ∀ v ∈ site.operands, state.program.Has v)
    (hrange' : ∀ v ∈ other.operands, state.program.Has v)
    (hsame : SameCalls state.program site.operands other.operands) :
    foldOf state other = .ok (some (), after) ↔ foldOf state site = .ok (some (), after) := by
  have hsingle' : other.root.results.length = 1 := hroot ▸ hsingle
  rw [foldOf_eq_some hvalid hsingle hrange, foldOf_eq_some hvalid hsingle' hrange']
  constructor
  · rintro ⟨handle, hfolds, hafter⟩
    exact ⟨handle, hfolds.congr hsame.symm, hafter⟩
  · rintro ⟨handle, hfolds, hafter⟩
    exact ⟨handle, hfolds.congr hsame, hafter⟩

/-- With all calls in range, offers of one root with the same calls among the operands end alike. -/
theorem foldOf_congr (hvalid : state.program.Valid) {other : Site} (hroot : other.root = site.root)
    (hsingle : site.root.results.length = 1) (hrange : ∀ v ∈ site.operands, state.program.Has v)
    (hrange' : ∀ v ∈ other.operands, state.program.Has v)
    (hsame : SameCalls state.program site.operands other.operands)
    (hcalls : CallsInRange state.program site.operands) :
    foldOf state other = foldOf state site := by
  obtain ⟨_ | ⟨⟩, after, hend⟩ := exists_foldOf hvalid hsingle hrange hcalls
  · obtain ⟨hnone, hafter⟩ := (foldOf_eq_none hvalid hrange hcalls).mp hend
    rw [hend, foldOf_eq_none hvalid hrange' (hcalls.congr hsame)]
    exact ⟨fun handle hfolds => hnone handle (hfolds.congr hsame.symm), hafter⟩
  · rw [hend, foldOf_eq_some_congr hvalid hroot hsingle hrange hrange' hsame, hend]

/-- A tensor folds exactly if a call is among what defines its operands, and all calls that do have
one and the same first operand, which is a handle. The tensor is then replaced by the handle. If
the first operands of these calls are in the arena, the offer is declined otherwise. In both cases
no operation is created, no function declared and nothing recorded. The end of an offer, and the
handle, depend on the calls among the operands only: the operands may be permuted and repeated, and
others that no call defines may be put in or left out. -/
theorem fold_exact (hstate : Underway patterns types state)
    (hsingle : site.root.results.length = 1)
    (hrange : ∀ v ∈ site.operands, state.program.Has v) :
    (∀ after, foldOf state site = .ok (some (), after) ↔
      ∃ handle, FoldsInto state.program site.operands handle ∧
        after = { program := state.program, log := state.log, replacement := some [handle] }) ∧
    (CallsInRange state.program site.operands → ∀ after,
      foldOf state site = .ok (none, after) ↔
        (∀ handle, ¬FoldsInto state.program site.operands handle) ∧
          after = { program := state.program, log := state.log }) ∧
    ∀ operands, (∀ v ∈ operands, state.program.Has v) →
      SameCalls state.program site.operands operands →
      (∀ after, foldOf state { site with operands } = .ok (some (), after) ↔
        foldOf state site = .ok (some (), after)) ∧
      (CallsInRange state.program site.operands →
        foldOf state { site with operands } = foldOf state site) := by
  have hvalid := hstate.valid
  refine ⟨fun after => foldOf_eq_some hvalid hsingle hrange,
    fun hcalls after => foldOf_eq_none hvalid hrange hcalls, fun operands hrange' hsame => ?_⟩
  exact ⟨fun after => foldOf_eq_some_congr hvalid rfl hsingle hrange hrange' hsame,
    fun hcalls => foldOf_congr hvalid rfl hsingle hrange hrange' hsame hcalls⟩

end Offers

/-- Two arrays of one handle, beside a number, are put together. -/
def gathered : Program := .listed
  [{ name := "gather"
     argTypes := [.ptr, .index]
     lines := some [
      { kind := .call "sparsePointers", operands := [0, 1], types := [.memref [.dynamic] .index] },
      { kind := .call "sparseValuesF64", operands := [0], types := [.memref [.dynamic] .f64] },
      { kind := .constant (.index 3), operands := [], types := [.index] },
      { kind := .toTensor, operands := [4, 2, 3]
        types := [.tensor [.dynamic] .f64 (some { levels := [.compressed] })] }] }]

/-- A tensor as it is offered, put together from three values by the fourth operation. -/
def offeredTensor : Site where
  id := ⟨3⟩
  root := { kind := .toTensor, operands := [⟨4⟩, ⟨2⟩, ⟨3⟩], results := [⟨5⟩], span := .nowhere }
  operands := [⟨4⟩, ⟨2⟩, ⟨3⟩]

/-- The tensor folds into the handle, also if the arrays change places, one of them is repeated and
the number is left out. -/
theorem fold_exact_gathered :
    Underway rules handleTypes { program := gathered } ∧
    gathered.op offeredTensor.id = .ok offeredTensor.root ∧
    offeredTensor.root.results.length = 1 ∧ (∀ v ∈ offeredTensor.operands, gathered.Has v) ∧
    CallsInRange gathered offeredTensor.operands ∧
    SameCalls gathered offeredTensor.operands [⟨3⟩, ⟨2⟩, ⟨3⟩] ∧
    foldOf { program := gathered } offeredTensor =
      .ok (some (), { program := gathered, replacement := some [⟨0⟩] }) ∧
    foldOf { program := gathered } { offeredTensor with operands := [⟨3⟩, ⟨2⟩, ⟨3⟩] } =
      foldOf { program := gathered } offeredTensor := by
  have hstate : Underway rules handleTypes { program := gathered } :=
    .begin (Program.reachable_listed _)
  have hrange : ∀ v ∈ offeredTensor.operands, gathered.Has v := by decide +kernel
  have hrange' : ∀ v ∈ [⟨3⟩, ⟨2⟩, ⟨3⟩], gathered.Has v := by decide +kernel
  have hfolds : FoldsInto gathered offeredTensor.operands ⟨0⟩ := foldsInto_of_commonHandle rfl
  have hsame : SameCalls gathered offeredTensor.operands [⟨3⟩, ⟨2⟩, ⟨3⟩] := by
    intro v call hcall
    have hsilent : Shows gathered ⟨4⟩ .silent := evidence_eq_ok.mp rfl
    have hne : v ≠ ⟨4⟩ := by
      rintro rfl
      rcases hcall.shows hsilent with ⟨_, hseen, -⟩ | ⟨hseen, -⟩ <;> contradiction
    grind [offeredTensor]
  obtain ⟨hsome, -, hcongr⟩ := fold_exact hstate rfl hrange
  exact ⟨hstate, rfl, rfl, hrange, hfolds.callsInRange, hsame, (hsome _).mpr ⟨⟨0⟩, hfolds, rfl⟩,
    (hcongr _ hrange' hsame).2 hfolds.callsInRange⟩

/-- Arrays of two handles, and one of a call with an operand past the arena, are put together. -/
def astray : Program := .listed
  [{ name := "mix"
     argTypes := [.ptr, .ptr]
     lines := some [
      { kind := .call "left", operands := [0], types := [.memref [.dynamic] .f64] },
      { kind := .call "right", operands := [1], types := [.memref [.dynamic] .f64] },
      { kind := .call "lost", operands := [7], types := [.memref [.dynamic] .f64] },
      { kind := .toTensor, operands := [4, 2, 3]
        types := [.tensor [.dynamic] .f64 (some { levels := [.compressed] })] },
      { kind := .toValues, operands := [5], types := [.memref [.dynamic] .f64] },
      { kind := .ret, operands := [] }] }]

/-- The operands are in the arena and fold into no handle. With the two handles first, the offer is
declined; with the lost call first, the run stops. -/
theorem astray_stops :
    Underway rules handleTypes { program := astray } ∧
    astray.op offeredTensor.id = .ok offeredTensor.root ∧
    offeredTensor.root.results.length = 1 ∧ (∀ v ∈ offeredTensor.operands, astray.Has v) ∧
    (∀ handle, ¬FoldsInto astray offeredTensor.operands handle) ∧
    foldOf { program := astray } offeredTensor = .error ⟨.outOfBounds 7 7, []⟩ ∧
    [⟨2⟩, ⟨3⟩, ⟨4⟩].Perm offeredTensor.operands ∧
    foldOf { program := astray } { offeredTensor with operands := [⟨2⟩, ⟨3⟩, ⟨4⟩] } =
      .ok (none, { program := astray }) := by
  have hstate : Underway rules handleTypes { program := astray } :=
    .begin (Program.reachable_listed _)
  have hperm : [⟨2⟩, ⟨3⟩, ⟨4⟩].Perm offeredTensor.operands := by decide
  refine ⟨hstate, rfl, rfl, by decide +kernel, fun handle hfolds => ?_, rfl, hperm, rfl⟩
  have hnone : commonHandle astray none [⟨2⟩, ⟨3⟩, ⟨4⟩] = .ok none := rfl
  exact not_foldsInto_of_commonHandle hnone handle
    (hfolds.congr fun v call _ => hperm.symm.mem_iff)

end Lowering

end TensorLowering
