import TensorLowering.Proofs.Lockstep
import TensorLowering.Proofs.Finished

/-!
# Patterns that only decline

Patterns that always decline may be registered anywhere between the rules, for any operations. The
conversion goes through the same steps with them as without them: after every visit the two programs
are twins, since a declined attempt leaves only erased operations and unused values behind, at the
ends of the arenas. In the end the functions, the reports and the counts are the same, except that
more attempts are counted as declined.

Nothing is assumed of the added patterns beyond the attempts that the conversion makes of them: each
one ends with a decline and not with a fault, whatever it asked for before.
-/

namespace TensorLowering

open Matching

namespace Conversion

/-! ### Attempts that a conversion makes -/

/-- The conversion comes to an operation: the functions in front of its function and the operations
in front of it in the block are done. -/
def Visits (patterns : List Pattern) (types : TypeMap) (program : Program) (id : OpId)
    (state : Progress) : Prop :=
  ∃ start middle before funcId after pre post,
    forEach (convertSignature types) program.definedFuncs { program } = .ok start ∧
    program.definedFuncs = before ++ funcId :: after ∧
    forEach (convertBody patterns) before start = .ok middle ∧
    middle.program.bodyOps funcId = .ok (pre ++ id :: post) ∧
    convertOps patterns funcId pre middle = .ok state

/-- The conversion tries a pattern at an operation, after the patterns in front of it declined. -/
def Tries (patterns : List Pattern) (types : TypeMap) (program : Program) (site : Site)
    (pattern : Pattern) (reached : Progress) : Prop :=
  ∃ id state root trials later, Visits patterns types program id state ∧
    state.program.op id = .ok root ∧ root.erased = false ∧ site = state.site id root ∧
    Pattern.rootedAt patterns root.name = trials.map Trial.pattern ++ pattern :: later ∧
    Declines site state trials reached

/-- Whenever the conversion tries the pattern, the attempt ends with a decline. -/
def DeclinesWhenTried (patterns : List Pattern) (types : TypeMap) (program : Program)
    (pattern : Pattern) : Prop :=
  ∀ site reached, Tries patterns types program site pattern reached → ∃ attempt,
    (pattern.attempt site).run site.root { program := reached.program, log := reached.log } =
      .ok (none, attempt)

/-- The second list has the patterns of the first, in their order, with others in between. -/
inductive Interspersed (extra : Pattern → Prop) : List Pattern → List Pattern → Prop
  | nil : Interspersed extra [] []
  | keep {patterns patterns' : List Pattern} (pattern : Pattern) :
      Interspersed extra patterns patterns' →
      Interspersed extra (pattern :: patterns) (pattern :: patterns')
  | insert {patterns patterns' : List Pattern} {pattern : Pattern} : extra pattern →
      Interspersed extra patterns patterns' → Interspersed extra patterns (pattern :: patterns')

/-- Patterns are added for each kind of operation. -/
theorem Interspersed.rootedAt {extra : Pattern → Prop} {patterns patterns' : List Pattern}
    (h : Interspersed extra patterns patterns') (root : String) :
    Interspersed extra (Pattern.rootedAt patterns root) (Pattern.rootedAt patterns' root) := by
  unfold Pattern.rootedAt
  induction h with
  | nil => exact .nil
  | keep pattern _ ih =>
    simp only [List.filter_cons]
    cases pattern.root == root with
    | true => exact .keep pattern ih
    | false => exact ih
  | @insert _ _ pattern hextra _ ih =>
    simp only [List.filter_cons]
    cases pattern.root == root with
    | true => exact .insert hextra ih
    | false => exact ih

/-! ### Two conversions side by side -/

/-- Conversions that have come equally far, the second one with more declined attempts. -/
structure Abreast (m : Matching) (state state' : Progress) : Prop where
  programs : m.Twins state.program state'.program
  aliases : m.SameAliases state.aliases state'.aliases
  converted : state'.stats.converted = state.stats.converted
  signatures : state'.stats.signatures = state.stats.signatures
  declined : state.stats.declined ≤ state'.stats.declined

/-- Conversions that have come equally far, under a matching that may have grown. -/
def KeptAbreast (m : Matching) (state state' : Progress) : Prop :=
  ∃ m', m ≤ m' ∧ Abreast m' state state'

variable {m : Matching} {state state' : Progress}

/-- The offers of one operation to the rules, and to the rules with other patterns in between. -/
theorem offer_abreast {extra : Pattern → Prop} {patterns patterns' : List Pattern}
    (hpatterns : Interspersed extra patterns patterns')
    (hrules : ∀ pattern ∈ patterns, pattern ∈ Lowering.rules) (funcId : FuncId) {id id' : OpId}
    (hid : m.ops id id') {site site' : Site} (hsite : SameSite m site site')
    (h : Abreast m state state')
    (hextra : ∀ trials pattern later reached,
      patterns' = trials.map Trial.pattern ++ pattern :: later →
      Declines site' state' trials reached → extra pattern → ∃ attempt,
        (pattern.attempt site').run site'.root { program := reached.program, log := reached.log } =
          .ok (none, attempt)) :
    Alike (KeptAbreast m) (offer funcId id site patterns state)
      (offer funcId id' site' patterns' state') := by
  induction hpatterns generalizing state state' with
  | nil => exact .ok ⟨m, le_rfl, h⟩
  | @keep rest rest' pattern _ ih =>
    have hbegin : SameAttempt m { program := state.program, log := state.log }
        { program := state'.program, log := state'.log } := ⟨h.programs, .nil, .none⟩
    have hrun := (Lowering.mirrors_rules hsite (hrules pattern List.mem_cons_self)).run hsite.root
      hbegin
    refine hrun.with_eq.bind ?_
    rintro ⟨result, attempt⟩ ⟨result', attempt'⟩ ⟨⟨later, hle, hattempt, hresult⟩, hleft, hright⟩
    cases hresult with
    | some _ =>
      refine ((hattempt.commit (hsite.root.mono hle) (hle.2 _ _ hid) (h.aliases.mono hle) pattern
        funcId).guard _ _).bind ?_
      rintro ⟨program, aliases⟩ ⟨program', aliases'⟩ ⟨htwins, haliases⟩
      exact .ok ⟨later, hle, htwins, haliases, congrArg (· + 1) h.converted, h.signatures,
        h.declined⟩
    | none =>
      -- What the attempts left behind is at the ends of the arenas, and matched by neither side.
      have hpassed : Abreast m (state.passOver site pattern attempt)
          (state'.passOver site' pattern attempt') :=
        ⟨h.programs.padded (rollBack_padded hleft) (rollBack_padded hright), h.aliases, h.converted,
          h.signatures, Nat.succ_le_succ h.declined⟩
      refine ih (fun other hother => hrules other (List.mem_cons_of_mem _ hother)) hpassed ?_
      intro trials other later reached heq hdeclines
      exact hextra (⟨pattern, attempt'⟩ :: trials) other later reached (by rw [heq]; rfl)
        (.cons hright hdeclines)
  | @insert patterns rest' pattern hpattern _ ih =>
    obtain ⟨attempt, hattempt⟩ := hextra [] pattern rest' state' rfl .nil hpattern
    have hpassed : Abreast m state (state'.passOver site' pattern attempt) :=
      ⟨h.programs.padded (.refl _) (rollBack_padded hattempt), h.aliases, h.converted,
        h.signatures, Nat.le_succ_of_le h.declined⟩
    have hoffer : offer funcId id' site' (pattern :: rest') state' =
        offer funcId id' site' rest' (state'.passOver site' pattern attempt) := by
      simp only [offer, hattempt, bind, Except.bind]
      rfl
    rw [hoffer]
    refine ih hrules hpassed fun trials other later reached heq hdeclines => ?_
    exact hextra (⟨pattern, attempt⟩ :: trials) other later reached (by rw [heq]; rfl)
      (.cons hattempt hdeclines)

section Walk

variable {patterns : List Pattern} {types : TypeMap} {program : Program}
  (hpatterns : Interspersed (DeclinesWhenTried patterns types program) Lowering.rules patterns)

include hpatterns

/-- A visit to matched operations. -/
theorem convertOp_abreast (funcId : FuncId) {id id' : OpId} (hid : m.ops id id')
    (h : Abreast m state state') (hvisits : Visits patterns types program id' state') :
    Alike (KeptAbreast m) (convertOp Lowering.rules funcId id state)
      (convertOp patterns funcId id' state') := by
  obtain ⟨root, root', hroot, hroot', hsame⟩ := h.programs.sound.ops id id' hid
  have herased := h.programs.erased id id' hid root root' hroot hroot'
  unfold convertOp
  rw [Program.op_eq_ok.mpr hroot, Program.op_eq_ok.mpr hroot']
  simp only [Halt.guard, bind, Except.bind, herased]
  cases hlive : root.erased with
  | true => exact .ok ⟨m, le_rfl, h⟩
  | false =>
    simp only [Bool.false_eq_true, ↓reduceIte]
    rw [hsame.name]
    refine offer_abreast (hpatterns.rootedAt root.name)
      (fun pattern hpattern => (List.mem_filter.mp hpattern).1) funcId hid
      ⟨hsame, h.aliases.map_resolve h.programs.sound.unique hsame.operands⟩ h ?_
    intro trials pattern later reached heq hdeclines hextra
    refine hextra _ reached ⟨id', state', root', trials, later, hvisits,
      Program.op_eq_ok.mpr hroot', herased.trans hlive, rfl, ?_, hdeclines⟩
    rw [hsame.name, heq]

/-- The walks over matched blocks. -/
theorem convertOps_abreast (funcId : FuncId) {ids ids' : List OpId}
    (hids : List.Forall₂ m.ops ids ids') (h : Abreast m state state')
    (hvisits : ∀ pre id post reached, ids' = pre ++ id :: post →
      convertOps patterns funcId pre state' = .ok reached →
      Visits patterns types program id reached) :
    Alike (KeptAbreast m) (convertOps Lowering.rules funcId ids state)
      (convertOps patterns funcId ids' state') := by
  induction ids generalizing m state state' ids' with
  | nil =>
    cases hids
    exact .ok ⟨m, le_rfl, h⟩
  | cons id rest ih =>
    obtain ⟨id', rest', hid, hrest, rfl⟩ := List.forall₂_cons_left_iff.mp hids
    have hfirst := convertOp_abreast hpatterns funcId hid h (hvisits [] id' rest' state' rfl rfl)
    refine hfirst.with_eq.bind ?_
    rintro middle middle' ⟨⟨later, hle, hmiddle⟩, -, hright⟩
    refine (ih (hrest.imp hle.2) hmiddle fun pre other post reached heq hreached => ?_).imp
      fun _ _ ⟨last, hlast, hdone⟩ => ⟨last, hle.trans hlast, hdone⟩
    exact hvisits (id' :: pre) other post reached (by rw [heq]; rfl)
      (convertOps_cons_eq_ok.mpr ⟨middle', hright, hreached⟩)

/-- The walks over the blocks of several functions. -/
theorem convertBodies_abreast {ids : List FuncId} (h : Abreast m state state')
    (hvisits : ∀ before funcId after middle pre id post reached, ids = before ++ funcId :: after →
      forEach (convertBody patterns) before state' = .ok middle →
      middle.program.bodyOps funcId = .ok (pre ++ id :: post) →
      convertOps patterns funcId pre middle = .ok reached →
      Visits patterns types program id reached) :
    Alike (KeptAbreast m) (forEach (convertBody Lowering.rules) ids state)
      (forEach (convertBody patterns) ids state') := by
  induction ids generalizing m state state' with
  | nil => exact .ok ⟨m, le_rfl, h⟩
  | cons funcId rest ih =>
    have hbody : Alike (KeptAbreast m) (convertBody Lowering.rules funcId state)
        (convertBody patterns funcId state') := by
      refine ((h.programs.bodyOps funcId).with_eq.guard _ _).bind ?_
      rintro body body' ⟨hblock, -, hright⟩
      refine convertOps_abreast hpatterns funcId hblock h fun pre id post reached heq hreached => ?_
      exact hvisits [] funcId rest state' pre id post reached rfl rfl (heq ▸ hright) hreached
    refine hbody.with_eq.bind ?_
    rintro middle middle' ⟨⟨later, hle, hmiddle⟩, -, hright⟩
    refine (ih hmiddle ?_).imp fun _ _ ⟨last, hlast, hdone⟩ => ⟨last, hle.trans hlast, hdone⟩
    intro before other after last pre id post reached heq hlast
    refine hvisits (funcId :: before) other after last pre id post reached (by rw [heq]; rfl) ?_
    exact bind_eq_ok.mpr ⟨middle', hright, hlast⟩

end Walk

/-! ### The beginning -/

/-- Each operation that stands in a block is matched with itself, and so is each value that is an
argument or comes from such an operation. -/
def placed (program : Program) : Matching where
  values v v' := v = v' ∧ ∃ ty origin, program.values[v.index]? = some ⟨ty, origin⟩ ∧
    ∀ id, origin.op? = some id → id ∈ program.allOps
  ops o o' := o = o' ∧ o ∈ program.allOps

/-- An argument is matched with itself. -/
theorem placed_of_argument {program : Program} {v : ValueId} {ty : Ty} {func : FuncId} {k : Nat}
    (hv : program.values[v.index]? = some ⟨ty, .argument func k⟩) : (placed program).values v v :=
  ⟨rfl, ty, _, hv, by simp [Origin.op?]⟩

/-- A result of an operation in a block is matched with itself. -/
theorem placed_of_result {program : Program} {v : ValueId} {ty : Ty} {id : OpId} {k : Nat}
    (hv : program.values[v.index]? = some ⟨ty, .result id k⟩) (hid : id ∈ program.allOps) :
    (placed program).values v v :=
  ⟨rfl, ty, _, hv, fun _ hother => Option.some.inj hother ▸ hid⟩

/-- A valid program whose blocks use arguments and results of each other is its own twin. -/
theorem twins_placed {program : Program} (hvalid : program.Valid)
    (hoperands : ∀ id ∈ program.allOps, ∀ op, program.ops[id.index]? = some op →
      ∀ v ∈ op.operands, (placed program).values v v) :
    (placed program).Twins program program := by
  have hordered : (placed program).Ordered := by
    refine ⟨?_, ?_⟩
    · rintro v _ w _ ⟨rfl, -⟩ ⟨rfl, -⟩
      exact Iff.rfl
    · rintro o _ p _ ⟨rfl, -⟩ ⟨rfl, -⟩
      exact Iff.rfl
  refine ⟨hordered, ⟨?_, ?_, hordered.unique_values⟩, ?_, ?_, rfl⟩
  · rintro v _ ⟨rfl, ty, origin, hv, hplaced⟩
    refine ⟨ty, origin, origin, hv, hv, ?_⟩
    cases origin with
    | argument func k => exact .argument
    | result id k => exact .result ⟨rfl, hplaced id rfl⟩
  · rintro o _ ⟨rfl, ho⟩
    obtain ⟨op, hop, -⟩ := hvalid.live o ho
    refine ⟨op, op, hop, hop, rfl, List.forall₂_same.mpr (hoperands o ho op hop),
      List.forall₂_same.mpr fun v hv => ?_, rfl⟩
    obtain ⟨k, hk⟩ := List.mem_iff_getElem?.mp hv
    obtain ⟨ty, hvalue⟩ := hvalid.results o.index k op v hop hk
    exact placed_of_result hvalue ho
  · rintro o _ ⟨rfl, -⟩ op op' hop hop'
    rw [Option.some.inj (hop.symm.trans hop')]
  · refine List.forall₂_same.mpr fun func hfunc => ?_
    obtain ⟨i, hi⟩ := List.mem_iff_getElem?.mp hfunc
    refine ⟨rfl, List.forall₂_same.mpr fun v hv => ?_, rfl, rfl, rfl, ?_⟩
    · obtain ⟨k, hk⟩ := List.mem_iff_getElem?.mp hv
      obtain ⟨ty, -, hvalue⟩ := hvalid.arg_value hi hk
      exact placed_of_argument hvalue
    · cases hbody : func.body with
      | none => exact .none
      | some body =>
        refine .some (List.forall₂_same.mpr fun id hid => ⟨rfl, ?_⟩)
        exact List.mem_flatMap.mpr ⟨func, hfunc, by simpa [Func.bodyOps, hbody] using hid⟩

/-- Only arguments are renamed, and to arguments. -/
def RenamesArguments (state : Progress) : Prop :=
  ∀ entry ∈ state.aliases.entries, ∀ v ∈ [entry.1, entry.2], ∃ ty func k,
    state.program.values[v.index]? = some ⟨ty, .argument func k⟩

/-- Converting one argument renames it to its new value. -/
theorem RenamesArguments.convertArg {types : TypeMap} {id : FuncId} {index : Nat} {ty : Ty}
    {state after : Progress} (h : RenamesArguments state) (hvalid : state.program.Valid)
    (hrun : convertArg types id index ty state = .ok after) : RenamesArguments after := by
  rcases convertArg_eq_ok.mp hrun with ⟨-, rfl⟩ | ⟨-, func, old, hfunc, hold, rfl⟩
  · exact h
  · intro entry hentry v hv
    have hlater : ∀ {w : ValueId} {value : Value}, state.program.values[w.index]? = some value →
        (state.program.replaceArg id index (types.convert ty)).values[w.index]? = some value :=
      fun hw => getElem?_mono (List.prefix_append _ _) hw
    have hcases : entry = (old, ⟨state.program.values.length⟩) ∨ entry ∈ state.aliases.entries := by
      simp only [Renaming.insert] at hentry
      split at hentry
      · exact .inr hentry
      · exact List.mem_cons.mp hentry
    rcases hcases with rfl | hbefore
    · simp only [List.mem_cons, List.not_mem_nil, or_false] at hv
      rcases hv with rfl | rfl
      · obtain ⟨oldTy, -, hvalue⟩ := hvalid.arg_value hfunc hold
        exact ⟨oldTy, _, _, hlater hvalue⟩
      · exact ⟨types.convert ty, id, index, List.getElem?_concat_length⟩
    · obtain ⟨oldTy, func, k, hvalue⟩ := h entry hbefore v hv
      exact ⟨oldTy, func, k, hlater hvalue⟩

/-- Converting a signature renames arguments only. -/
theorem RenamesArguments.convertSignature {types : TypeMap} {id : FuncId} {state after : Progress}
    (h : RenamesArguments state) (hvalid : state.program.Valid)
    (hrun : convertSignature types id state = .ok after) : RenamesArguments after := by
  have hargs : ∀ (tys : List Ty) (index : Nat) (state middle : Progress), RenamesArguments state →
      state.program.Valid → convertArgs types id index tys state = .ok middle →
      RenamesArguments middle := by
    intro tys
    induction tys with
    | nil =>
      intro index state middle hstate _ hmiddle
      exact Except.ok.inj hmiddle ▸ hstate
    | cons ty rest ih =>
      intro index state middle hstate hvalid hmiddle
      obtain ⟨next, hnext, hrest⟩ := bind_eq_ok.mp hmiddle
      have hsingle : convertArgs types id index [ty] state = .ok next :=
        bind_eq_ok.mpr ⟨next, hnext, rfl⟩
      exact ih (index + 1) next middle (hstate.convertArg hvalid hnext)
        (convertArgs_valid hsingle hvalid) hrest
  simp only [Conversion.convertSignature, bind_eq_ok] at hrun
  obtain ⟨func, -, middle, hmiddle, hafter⟩ := hrun
  have hrenames := hargs _ 0 state middle h hvalid hmiddle
  split at hafter
  · exact pure_eq_ok.mp hafter ▸ hrenames
  · exact pure_eq_ok.mp hafter ▸ hrenames

/-- After the first phase the conversion is abreast of itself. -/
theorem abreast_start {types : TypeMap} {program : Program} {start : Progress}
    (hvalid : program.Valid) (hssa : program.DefBeforeUse)
    (hstart : forEach (convertSignature types) program.definedFuncs { program } = .ok start) :
    Abreast (placed start.program) start start := by
  have hresigned := resigned_of_forEach hvalid hstart
  obtain ⟨hstartValid, hrenames⟩ : start.program.Valid ∧ RenamesArguments start :=
    forEach_invariant (fun state => state.program.Valid ∧ RenamesArguments state)
      (fun id _ state after h hstep =>
        ⟨convertSignature_valid hstep h.1, h.2.convertSignature h.1 hstep⟩)
      hstart ⟨hvalid, by simp [RenamesArguments]⟩
  refine ⟨twins_placed hstartValid fun id hid op hop v hv => ?_, ?_, rfl, rfl, Nat.le_refl _⟩
  · rw [hresigned.allOps] at hid
    rw [hresigned.ops] at hop
    obtain ⟨func, hfunc, hbody⟩ := List.mem_flatMap.mp hid
    obtain ⟨earlier, later, hsplit⟩ := List.append_of_mem hbody
    rcases (Lowering.visible_of_defBeforeUse hvalid hssa hfunc hsplit hop hv).origin with
      harg | ⟨other, hother, built, hbuilt, -, hresult⟩
    · obtain ⟨i, hi⟩ := List.mem_iff_getElem?.mp hfunc
      obtain ⟨k, hk⟩ := List.mem_iff_getElem?.mp harg
      obtain ⟨ty, -, hvalue⟩ := hvalid.arg_value hi hk
      exact placed_of_argument (getElem?_mono hresigned.values hvalue)
    · obtain ⟨k, hk⟩ := List.mem_iff_getElem?.mp hresult
      obtain ⟨ty, hvalue⟩ := hvalid.results other.index k built v hbuilt hk
      refine placed_of_result (getElem?_mono hresigned.values hvalue) ?_
      rw [hresigned.allOps]
      exact List.mem_flatMap.mpr ⟨func, hfunc, hsplit ▸ List.mem_append_left _ hother⟩
  · refine List.forall₂_same.mpr fun entry hentry => ⟨?_, ?_⟩
    · obtain ⟨ty, func, k, hvalue⟩ := hrenames entry hentry entry.1 (by simp)
      exact placed_of_argument hvalue
    · obtain ⟨ty, func, k, hvalue⟩ := hrenames entry hentry entry.2 (by simp)
      exact placed_of_argument hvalue

/-! ### The whole conversion -/

/-- Results that are the same up to the names of values and the number of declined attempts. -/
inductive SameResult (m : Matching) :
    Except (List Diagnostic) Stats → Except (List Diagnostic) Stats → Prop
  | ok {stats stats' : Stats} (hconverted : stats'.converted = stats.converted)
      (hsignatures : stats'.signatures = stats.signatures)
      (hdeclined : stats.declined ≤ stats'.declined) : SameResult m (.ok stats) (.ok stats')
  | error {reports reports' : List Diagnostic} (h : List.Forall₂ m.SameReport reports reports') :
      SameResult m (.error reports) (.error reports')

/-- Two conversions end alike: the programs are twins, and the results are the same. -/
def SameOutcome (outcome outcome' : Outcome) : Prop :=
  ∃ m : Matching, m.Twins outcome.program outcome'.program ∧
    SameResult m outcome.result outcome'.result

/-- Conversions that walk abreast end alike. -/
theorem Abreast.finish {m : Matching} {state state' : Progress} (h : Abreast m state state')
    {reports reports' : List Diagnostic} (hreports : List.Forall₂ m.SameReport reports reports') :
    SameResult m (if reports.isEmpty then .ok state.stats else .error reports)
      (if reports'.isEmpty then .ok state'.stats else .error reports') := by
  cases hreports with
  | nil => exact .ok h.converted h.signatures h.declined
  | cons hfirst hrest => exact .error (.cons hfirst hrest)

end Conversion

namespace Lowering

open Conversion

/-- Patterns that decline whenever they are tried change nothing. Registered anywhere between the
rules, for any operations and whatever they ask for before they decline, they leave the outcome of
the lowering as it is without them: it stops on both sides or on neither; the final programs have the
same functions in the same order, with the same names, signatures and blocks, up to one renumbering
that keeps the order of ids; the reports are the same up to that renumbering; and the counts are the
same except for the declined attempts. -/
theorem declining_patterns_transparent {program : Program} {patterns : List Pattern}
    (hreach : program.Reachable) (hssa : program.DefBeforeUse)
    (hpatterns : Interspersed (DeclinesWhenTried patterns handleTypes program) rules patterns) :
    Alike SameOutcome (run rules handleTypes legality program)
      (run patterns handleTypes legality program) := by
  have hwalk : Alike (fun state state' => ∃ m, Abreast m state state')
      (walk rules handleTypes program) (walk patterns handleTypes program) := by
    unfold walk
    cases hstart : forEach (convertSignature handleTypes) program.definedFuncs { program } with
    | error fault => exact .error
    | ok start =>
      refine (convertBodies_abreast hpatterns (abreast_start hreach.valid hssa hstart) ?_).imp
        fun _ _ ⟨m, _, h⟩ => ⟨m, h⟩
      intro before funcId after middle pre id post reached hsplit hbefore hbody hpre
      exact ⟨start, middle, before, funcId, after, pre, post, hstart, hsplit, hbefore, hbody, hpre⟩
  refine hwalk.bind fun state state' ⟨m, h⟩ => ?_
  refine ((h.programs.renameBodies h.aliases _).guard _ _).bind fun target target' htwins => ?_
  refine ((htwins.illegalIn _).guard _ _).bind fun reports reports' hreports => ?_
  exact .ok ⟨m, htwins, h.finish hreports⟩

/-- A pattern that creates a constant, declares an entry point with a wrong signature, names the
results of its root as their own replacement and then declines. -/
def scribble (root : String) : Pattern where
  name := "Scribble"
  root
  attempt site := .create (.constant (.index 7)) [] [.index] fun _ =>
    .declare EntryPoint.dimSize [] [.index] (.replace site.root.results .decline)

/-- It declines wherever it is tried. -/
theorem scribble_declines (root : String) (patterns : List Pattern) (types : TypeMap)
    (program : Program) : DeclinesWhenTried patterns types program (scribble root) := by
  intro site reached _
  simp only [scribble, Script.run, Attempt.replace, Attempt.create, Attempt.declare,
    Option.isSome_none, Bool.false_eq_true, ↓reduceIte]
  exact ⟨_, rfl⟩

/-- The rules with such patterns in front, twice in between and at the end. -/
def scribbled : List Pattern :=
  [scribble OpKind.toPointers.name, returnRule, dimSizeRule, newRule, convertRule, pointersRule,
    scribble OpKind.toTensor.name, scribble OpKind.toTensor.name, indicesRule, valuesRule, tensorRule,
    scribble OpKind.ret.name, scribble (OpKind.call "read").name]

/-- A vector is taken apart and put together twice in the same way. -/
theorem declining_patterns_transparent_rebuilt : rebuilt.Reachable ∧ rebuilt.DefBeforeUse ∧
    Interspersed (DeclinesWhenTried scribbled handleTypes rebuilt) rules scribbled ∧
    ∃ outcome outcome', run rules handleTypes legality rebuilt = .ok outcome ∧
      run scribbled handleTypes legality rebuilt = .ok outcome' ∧
      outcome.program ≠ outcome'.program ∧ SameOutcome outcome outcome' := by
  have hreach : rebuilt.Reachable := Program.reachable_listed _
  have hssa : rebuilt.DefBeforeUse := by decide +kernel
  have hextra (root : String) : DeclinesWhenTried scribbled handleTypes rebuilt (scribble root) :=
    scribble_declines root _ _ _
  have hpatterns : Interspersed (DeclinesWhenTried scribbled handleTypes rebuilt) rules scribbled :=
    .insert (hextra _) (.keep _ (.keep _ (.keep _ (.keep _ (.keep _ (.insert (hextra _)
      (.insert (hextra _) (.keep _ (.keep _ (.keep _ (.insert (hextra _)
        (.insert (hextra _) .nil))))))))))))
  have hsizes :
      (run rules handleTypes legality rebuilt).toOption.map (·.program.ops.length) = some 8 ∧
      (run scribbled handleTypes legality rebuilt).toOption.map (·.program.ops.length) = some 14 := by
    decide +kernel
  have halike := declining_patterns_transparent hreach hssa hpatterns
  cases hrun : run rules handleTypes legality rebuilt with
  | error halt => simp [hrun, Except.toOption] at hsizes
  | ok outcome =>
    cases hrun' : run scribbled handleTypes legality rebuilt with
    | error halt => simp [hrun', Except.toOption] at hsizes
    | ok outcome' =>
      simp only [hrun, hrun', Except.toOption, Option.map_some, Option.some.injEq] at hsizes
      refine ⟨hreach, hssa, hpatterns, outcome, outcome', rfl, rfl, fun heq => ?_,
        halike.of_ok hrun hrun'⟩
      rw [heq] at hsizes
      omega

end Lowering

end TensorLowering
