import TensorLowering.Proofs.Courses

/-!
# Two lowerings of the same functions

Programs correspond if they have the same functions, whatever their order and their ids. Lowerings
of such programs are aligned: values and operations at the same places stand for each other, all of
them look the same, and values that stand for each other are renamed to values that do. This is shown
for the operations of the first program one after the other, in the order of its own walk. The second
walk may have come to its operations in any order, since what is on record about them is final.
-/

namespace TensorLowering

namespace Matching

/-! ### The other side -/

/-- What is matched one to one is so from the other side. -/
theorem biUnique_flip {α β : Type} {rel : α → β → Prop} (h : Relator.BiUnique rel) :
    Relator.BiUnique fun b a => rel a b :=
  ⟨fun _ _ _ hb hb' => h.2 hb hb', fun _ _ _ hb hb' => h.1 hb hb'⟩

/-- The matching seen from the other side. -/
def flip (m : Matching) : Matching where
  values v v' := m.values v' v
  ops o o' := m.ops o' o

variable {m : Matching}

/-- Operations are the same from the other side. -/
theorem SameOp.flip {op op' : Operation} (h : m.SameOp op op') : m.flip.SameOp op' op :=
  ⟨h.kind.symm, List.Forall₂.flip h.operands, List.Forall₂.flip h.results, h.span.symm⟩

/-- Origins are the same from the other side. -/
theorem SameOrigin.flip {origin origin' : Origin} (h : m.SameOrigin origin origin') :
    m.flip.SameOrigin origin' origin := by
  cases h with
  | argument => exact .argument
  | result h => exact .result h

/-- Functions are the same from the other side. -/
theorem SameFunc.flip {func func' : Func} (h : m.SameFunc func func') :
    m.flip.SameFunc func' func where
  name := h.name.symm
  args := List.Forall₂.flip h.args
  argTypes := h.argTypes.symm
  resultTypes := h.resultTypes.symm
  isPublic := h.isPublic.symm
  body := by
    have hbody := h.body
    generalize func.body = body at hbody
    generalize func'.body = body' at hbody
    cases hbody with
    | none => exact .none
    | some hblock => exact .some (List.Forall₂.flip hblock)

/-- A matching is sound from the other side. -/
theorem Sound.flip {program program' : Program} (h : m.Sound program program') :
    m.flip.Sound program' program where
  values v v' hv := by
    obtain ⟨ty, origin, origin', hvalue, hvalue', hsame⟩ := h.values v' v hv
    exact ⟨ty, origin', origin, hvalue', hvalue, hsame.flip⟩
  ops o o' ho := by
    obtain ⟨op, op', hop, hop', hsame⟩ := h.ops o' o ho
    exact ⟨op', op, hop', hop, hsame.flip⟩
  unique := biUnique_flip h.unique

/-- A declaration is a declaration on the other side. -/
theorem SameFunc.isDeclaration {func func' : Func} (h : m.SameFunc func func') :
    func'.isDeclaration = func.isDeclaration := by
  have hsome := isSome_of_optionRel h.body
  rw [Func.isDeclaration, Func.isDeclaration, ← Option.not_isSome, ← Option.not_isSome, hsome]

/-! ### Programs with the same functions -/

/-- Two programs have the same functions up to ids. -/
structure Corresponds (m : Matching) (program program' : Program) : Prop where
  sound : m.Sound program program'
  unique : Relator.BiUnique m.ops
  forth : ∀ func ∈ program.funcs, ∃ func' ∈ program'.funcs, m.SameFunc func func'
  back : ∀ func' ∈ program'.funcs, ∃ func ∈ program.funcs, m.SameFunc func func'

variable {program program' : Program}

/-- Programs correspond from the other side. -/
theorem Corresponds.flip (h : m.Corresponds program program') :
    m.flip.Corresponds program' program where
  sound := h.sound.flip
  unique := biUnique_flip h.unique
  forth func hfunc := by
    obtain ⟨func', hfunc', hsame⟩ := h.back func hfunc
    exact ⟨func', hfunc', hsame.flip⟩
  back func hfunc := by
    obtain ⟨func', hfunc', hsame⟩ := h.forth func hfunc
    exact ⟨func', hfunc', hsame.flip⟩

/-- What stands in a block is matched with what stands in a block. -/
theorem Corresponds.exists_op (h : m.Corresponds program program') {id : OpId}
    (hid : id ∈ program.allOps) : ∃ id' ∈ program'.allOps, m.ops id id' := by
  obtain ⟨func, hfunc, hmem⟩ := List.mem_flatMap.mp hid
  obtain ⟨func', hfunc', hsame⟩ := h.forth func hfunc
  obtain ⟨id', hid', hrel⟩ := Lowering.exists_of_forall₂ hsame.bodyOps hmem
  exact ⟨id', List.mem_flatMap.mpr ⟨func', hfunc', hid'⟩, hrel⟩

/-- An operation that is matched with one in a block stands in a block. -/
theorem Corresponds.mem_allOps (h : m.Corresponds program program') {id id' : OpId}
    (hop : m.ops id id') (hid : id ∈ program.allOps) : id' ∈ program'.allOps := by
  obtain ⟨other, hother, hrel⟩ := h.exists_op hid
  rwa [h.unique.2 hop hrel]

/-- A value that no operation produces is matched with such a value. -/
theorem Corresponds.settled (h : m.Corresponds program program') (hvalid : program.Valid)
    (hvalid' : program'.Valid) {v v' : ValueId} (hv : m.values v v')
    (hsettled : program.Settled [] v) : program'.Settled [] v' := by
  intro id' op' hop' hresult
  obtain ⟨k, hk⟩ := List.mem_iff_getElem?.mp hresult
  obtain ⟨ty', hvalue'⟩ := hvalid'.results id'.index k op' v' hop' hk
  obtain ⟨ty, origin, origin', hvalue, hsame', hsame⟩ := h.sound.values v v' hv
  obtain rfl : origin' = .result id' k := by
    have := Option.some.inj (hsame'.symm.trans hvalue')
    exact congrArg Value.origin this
  cases hsame with
  | result hop =>
    obtain ⟨op, hbuilt, hresult⟩ := hvalid.origins _ _ _ _ hvalue
    simpa using hsettled _ op hbuilt (List.mem_of_getElem? hresult)

end Matching

/-- A rule sees operations in the same way from the other side. -/
theorem SameRoot.flip {m : Matching} {program program' : Program} {root root' : Operation}
    (h : SameRoot m program program' root root') : SameRoot m.flip program' program root' root where
  kind := h.kind.symm
  operands := List.Forall₂.flip h.operands
  results := List.Forall₂.flip (h.results.imp fun _ _ ⟨ty, hty, hty'⟩ => ⟨ty, hty', hty⟩)
  span := h.span.symm

namespace Lowering

open Conversion Matching

variable {m : Matching} {c c' : Course}

/-- An argument is replaced on both sides or on neither. -/
theorem exists_fresh_of_corresponds (h : m.Corresponds c.source c'.source) {v v' u : ValueId}
    (hv : m.values v v') (hnext : c.start.aliases.next? v = some u) :
    ∃ u', c'.start.aliases.next? v' = some u' := by
  obtain ⟨i, k, func, ty, hfunc, harg, hty, hchange, -⟩ := c.fresh_cases hnext
  -- The function has a block, since the arguments of declarations are not renamed.
  have hdefined : func.isDeclaration = false := by
    by_contra hdecl
    have hnone := c.lowered.resigned.defined i func v hfunc (by simpa using hdecl)
      (List.mem_of_getElem? harg)
    simp [hnext] at hnone
  obtain ⟨func', hmem', hsame⟩ := h.forth func (List.mem_of_getElem? hfunc)
  obtain ⟨i', hfunc'⟩ := List.mem_iff_getElem?.mp hmem'
  obtain ⟨w', harg', hw⟩ := exists_getElem?_of_forall₂ hsame.args harg
  obtain rfl := h.sound.unique.2 hv hw
  exact c'.exists_fresh hfunc' (hsame.isDeclaration.trans hdefined) harg' (hsame.argTypes ▸ hty)
    hchange

/-! ### The same places -/

/-- Places of values that stand for each other, as far as the listed operations are concerned. -/
inductive SamePlace (m : Matching) (source : Program) (done : List OpId) : Place → Place → Prop
  | old {v v' : ValueId} (h : m.values v v') (hsettled : source.Settled done v) :
      SamePlace m source done (.old v) (.old v')
  | fresh {v v' : ValueId} (h : m.values v v') : SamePlace m source done (.fresh v) (.fresh v')
  | made {id id' : OpId} {j k : Nat} (h : m.ops id id') (hid : id ∈ done) :
      SamePlace m source done (.made id j k) (.made id' j k)

/-- Places of operations that stand for each other, as far as the listed ones are concerned. -/
inductive SameOpPlace (m : Matching) (done : List OpId) : OpPlace → OpPlace → Prop
  | old {id id' : OpId} (h : m.ops id id') (hid : id ∈ done) :
      SameOpPlace m done (.old id) (.old id')
  | made {id id' : OpId} {j : Nat} (h : m.ops id id') (hid : id ∈ done) :
      SameOpPlace m done (.made id j) (.made id' j)

/-- Values and operations of two lowerings that are at the same places. -/
def aligned (m : Matching) (c c' : Course) (done : List OpId) : Matching where
  values v v' := ∃ p p', c.Holds p v ∧ c'.Holds p' v' ∧ SamePlace m c.source done p p'
  ops o o' := ∃ p p', c.Stands p o ∧ c'.Stands p' o' ∧ SameOpPlace m done p p'

/-- Places of values are matched one to one. -/
theorem samePlace_unique (h : m.Corresponds c.source c'.source) (done : List OpId) :
    Relator.BiUnique (SamePlace m c.source done) := by
  constructor
  · intro p q p' hp hq
    cases hp with
    | old hp => cases hq with | old hq => rw [h.sound.unique.1 hp hq]
    | fresh hp => cases hq with | fresh hq => rw [h.sound.unique.1 hp hq]
    | made hp => cases hq with | made hq => rw [h.unique.1 hp hq]
  · intro p p' q' hp hq
    cases hp with
    | old hp => cases hq with | old hq => rw [h.sound.unique.2 hp hq]
    | fresh hp => cases hq with | fresh hq => rw [h.sound.unique.2 hp hq]
    | made hp => cases hq with | made hq => rw [h.unique.2 hp hq]

/-- Places of operations are matched one to one. -/
theorem sameOpPlace_unique (h : m.Corresponds c.source c'.source) (done : List OpId) :
    Relator.BiUnique (SameOpPlace m done) := by
  constructor
  · intro p q p' hp hq
    cases hp with
    | old hp => cases hq with | old hq => rw [h.unique.1 hp hq]
    | made hp => cases hq with | made hq => rw [h.unique.1 hp hq]
  · intro p p' q' hp hq
    cases hp with
    | old hp => cases hq with | old hq => rw [h.unique.2 hp hq]
    | made hp => cases hq with | made hq => rw [h.unique.2 hp hq]

/-- What has its own place is matched one to one if the places are. -/
theorem biUnique_of_places {α β π : Type} {holds : π → α → Prop} {holds' : π → β → Prop}
    {same : π → π → Prop} (hholds : Relator.BiUnique holds) (hholds' : Relator.BiUnique holds')
    (hsame : Relator.BiUnique same) :
    Relator.BiUnique fun a b => ∃ p p', holds p a ∧ holds' p' b ∧ same p p' := by
  constructor
  · rintro a₁ a₂ b ⟨p, p', hp, hp', hplace⟩ ⟨q, q', hq, hq', hplace'⟩
    obtain rfl := hholds'.1 hp' hq'
    obtain rfl := hsame.1 hplace hplace'
    exact hholds.2 hp hq
  · rintro a b₁ b₂ ⟨p, p', hp, hp', hplace⟩ ⟨q, q', hq, hq', hplace'⟩
    obtain rfl := hholds.1 hp hq
    obtain rfl := hsame.2 hplace hplace'
    exact hholds'.2 hp' hq'

/-- Values are matched one to one. -/
theorem aligned_unique (h : m.Corresponds c.source c'.source) (done : List OpId) :
    Relator.BiUnique (aligned m c c' done).values :=
  biUnique_of_places c.holds_unique c'.holds_unique (samePlace_unique h done)

/-- Operations are matched one to one. -/
theorem aligned_unique_ops (h : m.Corresponds c.source c'.source) (done : List OpId) :
    Relator.BiUnique (aligned m c c' done).ops :=
  biUnique_of_places c.stands_unique c'.stands_unique (sameOpPlace_unique h done)

/-- More operations, more places. -/
theorem aligned_mono {done more : List OpId} (hmore : ∀ id ∈ done, id ∈ more) :
    aligned m c c' done ≤ aligned m c c' more := by
  constructor
  · rintro v v' ⟨p, p', hp, hp', hsame⟩
    refine ⟨p, p', hp, hp', ?_⟩
    cases hsame with
    | old h hsettled => exact .old h (hsettled.mono hmore)
    | fresh h => exact .fresh h
    | made h hid => exact .made h (hmore _ hid)
  · rintro o o' ⟨p, p', hp, hp', hsame⟩
    refine ⟨p, p', hp, hp', ?_⟩
    cases hsame with
    | old h hid => exact .old h (hmore _ hid)
    | made h hid => exact .made h (hmore _ hid)

/-- Values at the same place were there before, or they keep their names. -/
theorem aligned_cases {done : List OpId} {v v' : ValueId} (hv : (aligned m c c' done).values v v') :
    (m.values v v' ∧ c.source.Settled done v ∧ v.index < c.source.values.length) ∨
      (c.state.aliases.resolve v = v ∧ c'.state.aliases.resolve v' = v') := by
  obtain ⟨p, p', hp, hp', hsame⟩ := hv
  cases hsame with
  | old hold hsettled =>
    cases hp with | old hlt =>
    cases hp'
    exact .inl ⟨hold, hsettled, hlt⟩
  | fresh hold =>
    cases hp with | fresh hu =>
    cases hp' with | fresh hu' => exact .inr ⟨c.resolve_fresh hu, c'.resolve_fresh hu'⟩
  | made =>
    cases hp with | made hmakes hop hv =>
    cases hp' with | made hmakes' hop' hv' =>
    exact .inr ⟨hmakes.resolve_result hop hv, hmakes'.resolve_result hop' hv'⟩

section Places

variable (h : m.Corresponds c.source c'.source) {done : List OpId}

include h

/-- Settled values of the sources stand for each other. -/
theorem aligned_of_settled {v v' : ValueId} (hv : m.values v v')
    (hsettled : c.source.Settled done v) : (aligned m c c' done).values v v' := by
  obtain ⟨ty, origin, origin', hvalue, hvalue', -⟩ := h.sound.values v v' hv
  exact ⟨_, _, .old (List.getElem?_eq_some_iff.mp hvalue).1,
    .old (List.getElem?_eq_some_iff.mp hvalue').1, .old hv hsettled⟩

/-- Lists of settled values of the sources stand for each other. -/
theorem aligned_forall₂ {ids ids' : List ValueId} (hids : List.Forall₂ m.values ids ids')
    (hsettled : ∀ v ∈ ids, c.source.Settled done v) :
    List.Forall₂ (aligned m c c' done).values ids ids' :=
  ((List.forall₂_and_left _ _).mpr ⟨hsettled, hids⟩).imp
    fun _ _ hv => aligned_of_settled h hv.2 hv.1

/-- The listed operations of the sources stand for each other. -/
theorem aligned_of_mem {id id' : OpId} (hop : m.ops id id') (hid : id ∈ done) :
    (aligned m c c' done).ops id id' := by
  obtain ⟨op, op', hget, hget', -⟩ := h.sound.ops id id' hop
  exact ⟨_, _, .old (List.getElem?_eq_some_iff.mp hget).1,
    .old (List.getElem?_eq_some_iff.mp hget').1, .old hop hid⟩

/-- Settled values of the sources look the same. -/
theorem value_of_settled {v v' : ValueId} (hv : m.values v v')
    (hsettled : c.source.Settled done v) : ∃ ty origin origin',
      c.state.program.values[v.index]? = some ⟨ty, origin⟩ ∧
      c'.state.program.values[v'.index]? = some ⟨ty, origin'⟩ ∧
      (aligned m c c' done).SameOrigin origin origin' := by
  obtain ⟨ty, origin, origin', hvalue, hvalue', hsame⟩ := h.sound.values v v' hv
  refine ⟨ty, origin, origin', getElem?_mono c.values_kept hvalue,
    getElem?_mono c'.values_kept hvalue', ?_⟩
  cases hsame with
  | argument => exact .argument
  | @result id id' k hop =>
    obtain ⟨op, hbuilt, hresult⟩ := c.valid.origins _ _ _ _ hvalue
    exact .result (aligned_of_mem h hop (hsettled id op hbuilt (List.mem_of_getElem? hresult)))

/-- The new values of arguments look the same. -/
theorem value_of_fresh {v v' u u' : ValueId} (hv : m.values v v')
    (hu : c.start.aliases.next? v = some u) (hu' : c'.start.aliases.next? v' = some u') :
    ∃ ty origin origin', c.state.program.values[u.index]? = some ⟨ty, origin⟩ ∧
      c'.state.program.values[u'.index]? = some ⟨ty, origin'⟩ ∧
      (aligned m c c' done).SameOrigin origin origin' := by
  obtain ⟨i, k, func, ty, hfunc, harg, hty, -, -, hvalue⟩ := c.fresh_cases hu
  obtain ⟨i', k', func', ty', hfunc', harg', hty', -, -, hvalue'⟩ := c'.fresh_cases hu'
  obtain ⟨oldTy, origin, origin', hold, hold', hsame⟩ := h.sound.values v v' hv
  obtain ⟨rfl, rfl⟩ : oldTy = ty ∧ origin = .argument ⟨i⟩ k := by
    simpa [hold] using c.valid.args i k func v ty hfunc harg hty
  obtain ⟨rfl, rfl⟩ : oldTy = ty' ∧ origin' = .argument ⟨i'⟩ k' := by
    simpa [hold'] using c'.valid.args i' k' func' v' ty' hfunc' harg' hty'
  cases hsame with
  | argument => exact ⟨_, _, _, hvalue, hvalue', .argument⟩

/-- The listed operations of the sources look the same. -/
theorem op_of_mem {rest : List OpId} (hall : c.source.allOps = done ++ rest) {id id' : OpId}
    (hop : m.ops id id') (hid : id ∈ done) : ∃ op op',
      c.state.program.ops[id.index]? = some op ∧ c'.state.program.ops[id'.index]? = some op' ∧
      (aligned m c c' done).SameOp op op' := by
  obtain ⟨op, op', hget, hget', hsame⟩ := h.sound.ops id id' hop
  obtain ⟨erased, hnow⟩ := c.exists_erased hget
  obtain ⟨erased', hnow'⟩ := c'.exists_erased hget'
  refine ⟨_, _, hnow, hnow', hsame.kind, ?_, ?_, hsame.span⟩
  · exact aligned_forall₂ h hsame.operands fun v hv => c.settled_operands hall hid hget hv
  · exact aligned_forall₂ h hsame.results fun v hv => c.valid.settled_of_done hid hget hv

end Places

/-! ### Alignment -/

/-- As far as the listed operations are concerned, the lowerings did the same. -/
structure Aligned (m : Matching) (c c' : Course) (done : List OpId) : Prop where
  /-- Operations that were created at the same place are the same. -/
  made : ∀ {id id' other other' : OpId} {j : Nat} {op op' : Operation}, m.ops id id' → id ∈ done →
    c.Makes id j other → c'.Makes id' j other' →
      c.state.program.ops[other.index]? = some op → c'.state.program.ops[other'.index]? = some op' →
        (aligned m c c' done).SameOp op op' ∧ ∀ (k : Nat) (v v' : ValueId),
          op.results[k]? = some v → op'.results[k]? = some v' →
            SameType c.state.program c'.state.program v v'
  names : ∀ v v', (aligned m c c' done).values v v' →
    (aligned m c c' done).values (c.state.aliases.resolve v) (c'.state.aliases.resolve v')
  blocks : ∀ id id', m.ops id id' → id ∈ done →
    List.Forall₂ (aligned m c c' done).ops (c.expand id) (c'.expand id')

section Alignment

variable (h : m.Corresponds c.source c'.source) {done rest : List OpId}

include h

/-- What is at the same places looks the same. -/
theorem Aligned.sound (halign : Aligned m c c' done) (hall : c.source.allOps = done ++ rest) :
    (aligned m c c' done).Sound c.state.program c'.state.program where
  values v v' hv := by
    obtain ⟨p, p', hp, hp', hsame⟩ := hv
    cases hsame with
    | old hold hsettled =>
      cases hp
      cases hp'
      exact value_of_settled h hold hsettled
    | fresh hold =>
      cases hp with | fresh hu =>
      cases hp' with | fresh hu' => exact value_of_fresh h hold hu hu'
    | made hops hid =>
      cases hp with | made hmakes hop hv =>
      cases hp' with | made hmakes' hop' hv' =>
      obtain ⟨-, htypes⟩ := halign.made hops hid hmakes hmakes' hop hop'
      obtain ⟨ty, hty, hty'⟩ := htypes _ _ _ hv hv'
      obtain ⟨ty₁, hvalue⟩ := c.result_origin hop hv
      obtain ⟨ty₂, hvalue'⟩ := c'.result_origin hop' hv'
      obtain rfl := Except.ok.inj (hty.symm.trans (Program.typeOf_eq_ok.mpr ⟨_, hvalue⟩))
      obtain rfl := Except.ok.inj (hty'.symm.trans (Program.typeOf_eq_ok.mpr ⟨_, hvalue'⟩))
      exact ⟨_, _, _, hvalue, hvalue', .result ⟨_, _, .made hmakes, .made hmakes', .made hops hid⟩⟩
  ops o o' ho := by
    obtain ⟨p, p', hp, hp', hsame⟩ := ho
    cases hsame with
    | old hops hid =>
      cases hp
      cases hp'
      exact op_of_mem h hall hops hid
    | made hops hid =>
      cases hp with | made hmakes =>
      cases hp' with | made hmakes' =>
      obtain ⟨op, hop⟩ := hmakes.exists_op
      obtain ⟨op', hop'⟩ := hmakes'.exists_op
      exact ⟨op, op', hop, hop', (halign.made hops hid hmakes hmakes' hop hop').1⟩
  unique := aligned_unique h done

/-- Before anything was visited. -/
theorem aligned_nil : Aligned m c c' [] where
  made _ hid := by simp at hid
  blocks _ _ _ hid := by simp at hid
  names v v' hv := by
    rcases aligned_cases hv with ⟨hold, hsettled, -⟩ | ⟨hself, hself'⟩
    · have hsettled' := h.settled c.valid c'.valid hold hsettled
      rcases c.resolve_of_settled hsettled with ⟨hnone, hself⟩ | ⟨u, hnext, hself⟩ <;>
      rcases c'.resolve_of_settled hsettled' with ⟨hnone', hself'⟩ | ⟨u', hnext', hself'⟩
      · rwa [hself, hself']
      · obtain ⟨u, hnext⟩ := exists_fresh_of_corresponds h.flip hold hnext'
        simp [hnone] at hnext
      · obtain ⟨u', hnext'⟩ := exists_fresh_of_corresponds h hold hnext
        simp [hnone'] at hnext'
      · rw [hself, hself']
        exact ⟨_, _, .fresh hnext, .fresh hnext', .fresh hold⟩
    · rwa [hself, hself']

/-- Matched operations of the sources are seen in the same way. -/
theorem sameRoot_of_settled {id : OpId} {op op' : Operation}
    (hop : c.source.ops[id.index]? = some op)
    (hall : c.source.allOps = done ++ id :: rest) (hsame : m.SameOp op op') :
    SameRoot (aligned m c c' done) c.state.program c'.state.program op op' where
  kind := hsame.kind
  operands := aligned_forall₂ h hsame.operands fun v hv => c.ssa.settled c.valid hall hop hv
  results := hsame.results.imp fun v v' hv => by
    obtain ⟨ty, hty, hty'⟩ := h.sound.typeOf hv
    exact ⟨ty, Program.typeOf_mono c.values_kept hty, Program.typeOf_mono c'.values_kept hty'⟩
  span := hsame.span

/-- The operands of matched operations have matched final names. -/
theorem Aligned.operands (halign : Aligned m c c' done) {id : OpId} {op op' : Operation}
    (hop : c.source.ops[id.index]? = some op)
    (hall : c.source.allOps = done ++ id :: rest) (hsame : m.SameOp op op') :
    List.Forall₂ (aligned m c c' done).values (op.operands.map c.state.aliases.resolve)
      (op'.operands.map c'.state.aliases.resolve) := by
  rw [List.forall₂_map_left_iff, List.forall₂_map_right_iff]
  exact (sameRoot_of_settled h hop hall hsame).operands.imp halign.names

omit h in
/-- The operations that stand in the place of a replaced one were created for it. -/
theorem makes_of_replaced {id other : OpId} (hid : id ∈ c.source.allOps)
    (hids : ∀ other ∈ c.expand id, c.source.ops.length ≤ other.index) {j : Nat}
    (hother : (c.expand id)[j]? = some other) : c.Makes id j other :=
  ⟨hid, hother, hids other (List.mem_of_getElem? hother)⟩

/-- What became of two matched operations: both stand where they stood, or both have been replaced
by the same operations. -/
inductive SameFate (m : Matching) (c c' : Course) (done : List OpId) (id id' : OpId)
    (op op' : Operation) : Prop
  | kept (hexpand : c.expand id = [id]) (hexpand' : c'.expand id' = [id'])
      (hresults : ∀ r ∈ op.results, c.state.aliases.next? r = none)
      (hresults' : ∀ r ∈ op'.results, c'.state.aliases.next? r = none) :
      SameFate m c c' done id id' op op'
  | replaced {new new' : List Operation} {values values' : List ValueId}
      (hids : ∀ other ∈ c.expand id, c.source.ops.length ≤ other.index)
      (hids' : ∀ other ∈ c'.expand id', c'.source.ops.length ≤ other.index)
      (hnew : List.Forall₂ (fun other op => c.state.program.ops[other.index]? = some op)
        (c.expand id) new)
      (hnew' : List.Forall₂ (fun other op => c'.state.program.ops[other.index]? = some op)
        (c'.expand id') new')
      (hvalues : List.Forall₂ (fun r v => c.state.aliases.next? r = some v) op.results values)
      (hvalues' : List.Forall₂ (fun r v => c'.state.aliases.next? r = some v) op'.results values')
      (hexpansion : Expansion c.state.program op (op.operands.map c.state.aliases.resolve) new
        values)
      (hsame : SameExpansion (aligned m c c' done) c.state.program c'.state.program new new' values
        values') :
      SameFate m c c' done id id' op op'

/-- The next operation and its partner have the same fate. -/
theorem Aligned.fate (halign : Aligned m c c' done) {id id' : OpId} {op op' : Operation}
    (hall : c.source.allOps = done ++ id :: rest) (hops : m.ops id id')
    (hop : c.source.ops[id.index]? = some op) (hop' : c'.source.ops[id'.index]? = some op')
    (hsame : m.SameOp op op') : SameFate m c c' done id id' op op' := by
  have hid : id ∈ c.source.allOps := by simp [hall]
  have hsound := halign.sound h hall
  have hroot := sameRoot_of_settled h hop hall hsame
  have hoperands := halign.operands h hop hall hsame
  obtain ⟨found, hfound, hrecord⟩ := c.lowered.walk.records id hid
  obtain rfl := Option.some.inj (hop.symm.trans hfound)
  obtain ⟨found', hfound', hrecord'⟩ := c'.lowered.walk.records id' (h.mem_allOps hops hid)
  obtain rfl := Option.some.inj (hop'.symm.trans hfound')
  generalize hexpand : c.expand id = ids at hrecord
  generalize hexpand' : c'.expand id' = ids' at hrecord'
  -- What is declined on one side is declined on the other, so the records are of the same kind.
  cases hrecord with
  | kept _ hdeclined hresults =>
    cases hrecord' with
    | kept _ _ hresults' => exact .kept hexpand hexpand' hresults hresults'
    | replaced _ _ _ hexpansion' =>
      exact absurd (hdeclined.matched hsound hroot hoperands) hexpansion'.not_declined
  | replaced _ hids hnew hexpansion hvalues =>
    cases hrecord' with
    | kept _ hdeclined' =>
      have hback := hdeclined'.matched hsound.flip hroot.flip (List.Forall₂.flip hoperands)
      exact absurd hback hexpansion.not_declined
    | replaced _ hids' hnew' hexpansion' hvalues' =>
      subst hexpand hexpand'
      exact .replaced hids hids' hnew hnew' hvalues hvalues' hexpansion
        (hexpansion.matched hsound hroot hoperands hexpansion')

/-- Values at the same place of what replaced two matched operations are at the same place. -/
theorem aligned_of_sameSpot {id id' : OpId} (hops : m.ops id id') (hid : id ∈ c.source.allOps)
    (hdone : id ∈ done) {new new' : List Operation}
    (hids : ∀ other ∈ c.expand id, c.source.ops.length ≤ other.index)
    (hids' : ∀ other ∈ c'.expand id', c'.source.ops.length ≤ other.index)
    (hnew : List.Forall₂ (fun other op => c.state.program.ops[other.index]? = some op)
      (c.expand id) new)
    (hnew' : List.Forall₂ (fun other op => c'.state.program.ops[other.index]? = some op)
      (c'.expand id') new') (v v' : ValueId) (hspot : SameSpot new new' v v') :
    (aligned m c c' done).values v v' := by
  obtain ⟨j, k, op, op', hop, hop', hv, hv'⟩ := hspot
  obtain ⟨other, hother, hget⟩ := exists_getElem?_of_forall₂ (List.Forall₂.flip hnew) hop
  obtain ⟨other', hother', hget'⟩ := exists_getElem?_of_forall₂ (List.Forall₂.flip hnew') hop'
  exact ⟨_, _, .made (makes_of_replaced hid hids hother) hget hv,
    .made (makes_of_replaced (h.mem_allOps hops hid) hids' hother') hget' hv', .made hops hdone⟩

section Fate

variable {more : List OpId} {id id' : OpId} {op op' : Operation}
  (hfate : SameFate m c c' done id id' op op') (hops : m.ops id id') (hid : id ∈ c.source.allOps)
  (hmore : ∀ other ∈ done, other ∈ more) (hin : id ∈ more)

include hfate hops hid hmore hin

/-- The operations that stand in the place of two matched ones are at the same places. -/
theorem SameFate.blocks :
    List.Forall₂ (aligned m c c' more).ops (c.expand id) (c'.expand id') := by
  have hid' := h.mem_allOps hops hid
  cases hfate with
  | kept hexpand hexpand' =>
    rw [hexpand, hexpand']
    exact .cons (aligned_of_mem h hops hin) .nil
  | replaced hids hids' hnew hnew' _ _ _ hsame =>
    obtain ⟨hnews, -⟩ := hsame.ops _ (aligned_mono hmore)
      (aligned_of_sameSpot h hops hid hin hids hids' hnew hnew')
    refine List.forall₂_iff_get.mpr ⟨?_, fun j hj hj' => ?_⟩
    · rw [hnew.length_eq, hnews.length_eq, hnew'.length_eq]
    · exact ⟨_, _, .made (makes_of_replaced hid hids (List.getElem?_eq_getElem hj)),
        .made (makes_of_replaced hid' hids' (List.getElem?_eq_getElem hj')), .made hops hin⟩

/-- Operations that were created for two matched ones at the same place are the same. -/
theorem SameFate.made {other other' : OpId} {j : Nat} {new new' : Operation}
    (hmakes : c.Makes id j other) (hmakes' : c'.Makes id' j other')
    (hnew : c.state.program.ops[other.index]? = some new)
    (hnew' : c'.state.program.ops[other'.index]? = some new') :
    (aligned m c c' more).SameOp new new' ∧ ∀ (k : Nat) (v v' : ValueId),
      new.results[k]? = some v → new'.results[k]? = some v' →
        SameType c.state.program c'.state.program v v' := by
  cases hfate with
  | kept hexpand =>
    obtain ⟨kept, hkept, -⟩ := c.valid.live id hid
    have hlt := (List.getElem?_eq_some_iff.mp hkept).1
    have hstands := hmakes.stands
    rw [hexpand] at hstands
    obtain rfl := List.mem_singleton.mp (List.mem_of_getElem? hstands)
    have := hmakes.new
    omega
  | replaced hids hids' hnews hnews' _ _ _ hsame =>
    obtain ⟨hall, -⟩ := hsame.ops _ (aligned_mono hmore)
      (aligned_of_sameSpot h hops hid hin hids hids' hnews hnews')
    obtain ⟨found, hfound, hget⟩ := exists_getElem?_of_forall₂ hnews hmakes.stands
    obtain ⟨found', hfound', hget'⟩ := exists_getElem?_of_forall₂ hnews' hmakes'.stands
    obtain rfl := Option.some.inj (hnew.symm.trans hget)
    obtain rfl := Option.some.inj (hnew'.symm.trans hget')
    obtain ⟨partner, hpartner, hsameOp⟩ := exists_getElem?_of_forall₂ hall hfound
    obtain rfl := Option.some.inj (hfound'.symm.trans hpartner)
    exact ⟨hsameOp, fun k v v' hv hv' => hsame.types v v' ⟨j, k, _, _, hfound, hfound', hv, hv'⟩⟩

/-- The results of two matched operations have matched final names. -/
theorem SameFate.names (halign : Aligned m c c' done) {k : Nat} {v v' : ValueId}
    (hk : op.results[k]? = some v) (hk' : op'.results[k]? = some v')
    (hv : (aligned m c c' more).values v v') :
    (aligned m c c' more).values (c.state.aliases.resolve v) (c'.state.aliases.resolve v') := by
  cases hfate with
  | kept _ _ hresults hresults' =>
    rwa [Renaming.resolve_of_next?_eq_none (hresults v (List.mem_of_getElem? hk)),
      Renaming.resolve_of_next?_eq_none (hresults' v' (List.mem_of_getElem? hk'))]
  | @replaced new new' values values' hids hids' hnew hnew' hvalues hvalues' hexpansion hsame =>
    obtain ⟨value, hvalue, hnext⟩ := exists_getElem?_of_forall₂ hvalues hk
    obtain ⟨value', hvalue', hnext'⟩ := exists_getElem?_of_forall₂ hvalues' hk'
    rw [c.lowered.walk.acyclic.resolve_eq_of_next? hnext,
      c'.lowered.walk.acyclic.resolve_eq_of_next? hnext']
    have hpartner {m' : Matching} (hall : List.Forall₂ m'.values values values') :
        m'.values value value' := by
      obtain ⟨partner, hget, hrel⟩ := exists_getElem?_of_forall₂ hall hvalue
      obtain rfl := Option.some.inj (hvalue'.symm.trans hget)
      exact hrel
    rcases hexpansion.value_cases (List.mem_of_getElem? hvalue) with ⟨made, hmade, hres⟩ | ⟨rfl, -⟩
    · -- A result of the expansion keeps its name, and so does its partner.
      have hmatched := hpartner (hsame.ops _ (aligned_mono hmore)
        (aligned_of_sameSpot h hops hid hin hids hids' hnew hnew')).2
      obtain ⟨j, hj⟩ := List.mem_iff_getElem?.mp hmade
      obtain ⟨other, hother, hget⟩ := exists_getElem?_of_forall₂ (List.Forall₂.flip hnew) hj
      obtain ⟨r, hr⟩ := List.mem_iff_getElem?.mp hres
      have hge := (makes_of_replaced hid hids hother).result_ge hget hr
      rcases aligned_cases hmatched with ⟨-, -, hlt⟩ | ⟨hself, hself'⟩
      · omega
      · rwa [hself, hself']
    · -- A handle that the operands show was settled before.
      have hmatched := hpartner (hsame.ops _ (le_refl _) (by
        rintro _ _ ⟨j, k, op, op', hop, -⟩
        simp at hop)).2
      exact (aligned_mono hmore).1 _ _ (halign.names _ _ hmatched)

end Fate

/-- One operation more. -/
theorem Aligned.step (halign : Aligned m c c' done) {id : OpId}
    (hall : c.source.allOps = done ++ id :: rest) : Aligned m c c' (done ++ [id]) := by
  have hid : id ∈ c.source.allOps := by simp [hall]
  have hin : id ∈ done ++ [id] := by simp
  have hmore : ∀ other ∈ done, other ∈ done ++ [id] := fun other => List.mem_append_left _
  obtain ⟨id', -, hops⟩ := h.exists_op hid
  obtain ⟨op, op', hop, hop', hsame⟩ := h.sound.ops id id' hops
  have hfate := halign.fate h hall hops hop hop' hsame
  refine ⟨?_, ?_, ?_⟩
  · intro made made' other other' j new new' hrel hmade hmakes hmakes' hnew hnew'
    rcases List.mem_append.mp hmade with hbefore | hlast
    · obtain ⟨hsameOp, htypes⟩ :=
        halign.made hrel hbefore hmakes hmakes' hnew hnew'
      exact ⟨hsameOp.mono (aligned_mono hmore), htypes⟩
    · obtain rfl := List.mem_singleton.mp hlast
      obtain rfl := h.unique.2 hops hrel
      exact hfate.made h hops hid hmore hin hmakes hmakes' hnew hnew'
  · intro v v' hv
    rcases aligned_cases hv with ⟨hold, hsettled, -⟩ | ⟨hself, hself'⟩
    · by_cases hbefore : c.source.Settled done v
      · exact (aligned_mono hmore).1 _ _ (halign.names _ _ (aligned_of_settled h hold hbefore))
      · -- A value that is settled only now is a result of this operation.
        obtain ⟨k, hk⟩ : ∃ k, op.results[k]? = some v := by
          simp only [Program.Settled, not_forall] at hbefore
          obtain ⟨maker, made, hmade, hresult, hnew⟩ := hbefore
          have hlast := (List.mem_append.mp (hsettled maker made hmade hresult)).resolve_left hnew
          obtain rfl := List.mem_singleton.mp hlast
          obtain rfl := Option.some.inj (hop.symm.trans hmade)
          exact List.mem_iff_getElem?.mp hresult
        obtain ⟨w', hk', hw⟩ := exists_getElem?_of_forall₂ hsame.results hk
        obtain rfl := h.sound.unique.2 hold hw
        exact hfate.names h hops hid hmore hin halign hk hk' hv
    · rwa [hself, hself']
  · intro made made' hrel hmade
    rcases List.mem_append.mp hmade with hbefore | hlast
    · exact (halign.blocks _ _ hrel hbefore).imp (aligned_mono hmore).2
    · obtain rfl := List.mem_singleton.mp hlast
      obtain rfl := h.unique.2 hops hrel
      exact hfate.blocks h hops hid hmore hin

/-- Lowerings of programs with the same functions are aligned. -/
theorem aligned_allOps : Aligned m c c' c.source.allOps := by
  -- By induction on how far the first walk has come.
  have hfront : ∀ done rest : List OpId, c.source.allOps = done ++ rest → Aligned m c c' done := by
    intro done
    induction done using List.reverseRecOn with
    | nil => exact fun _ _ => aligned_nil h
    | append_singleton done id ih =>
      intro rest hall
      rw [List.append_assoc, List.singleton_append] at hall
      exact (ih _ hall).step h hall
  exact hfront _ [] (List.append_nil _).symm

/-! ### The lowered programs -/

/-- An operation stands where it stood on both sides or on neither. -/
theorem expand_eq_self_iff {id id' : OpId} (hops : m.ops id id') (hid : id ∈ c.source.allOps) :
    c.expand id = [id] ↔ c'.expand id' = [id'] := by
  have hblocks := (aligned_allOps h).blocks id id' hops hid
  have hself : (aligned m c c' c.source.allOps).ops id id' := aligned_of_mem h hops hid
  have hunique := aligned_unique_ops h c.source.allOps
  constructor
  · intro hexpand
    rw [hexpand] at hblocks
    obtain ⟨other', tail, hother, htail, heq⟩ := List.forall₂_cons_left_iff.mp hblocks
    rw [heq, List.forall₂_nil_left_iff.mp htail, hunique.2 hother hself]
  · intro hexpand
    rw [hexpand] at hblocks
    obtain ⟨other, tail, hother, htail, heq⟩ := List.forall₂_cons_right_iff.mp hblocks
    rw [heq, List.forall₂_nil_right_iff.mp htail, hunique.1 hother hself]

/-- What is at the same places of the lowered programs looks the same. -/
theorem aligned_sound :
    (aligned m c c' c.source.allOps).Sound c.target c'.target := by
  have halign := aligned_allOps h
  have hsound := halign.sound h (List.append_nil _).symm
  refine ⟨?_, ?_, hsound.unique⟩
  · rw [c.lowered.renamed.values, c'.lowered.renamed.values]
    exact hsound.values
  · rintro o o' ⟨p, p', hp, hp', hplace⟩
    obtain ⟨op, op', hop, hop', hsame⟩ := hsound.ops o o' ⟨p, p', hp, hp', hplace⟩
    cases hplace with
    | old hops hid =>
      cases hp
      cases hp'
      have hiff := expand_eq_self_iff h hops hid
      rcases c.target_cases hid hop with ⟨hkept, hnow⟩ | ⟨hgone, hnow⟩ <;>
      rcases c'.target_cases (h.mem_allOps hops hid) hop' with ⟨hkept', hnow'⟩ | ⟨hgone', hnow'⟩
      · refine ⟨_, _, hnow, hnow', hsame.kind, ?_, hsame.results, hsame.span⟩
        rw [List.forall₂_map_left_iff, List.forall₂_map_right_iff]
        exact hsame.operands.imp halign.names
      · exact absurd (hiff.mp hkept) hgone'
      · exact absurd (hiff.mpr hkept') hgone
      · exact ⟨op, op', hnow, hnow', hsame⟩
    | made =>
      cases hp with | made hmakes =>
      cases hp' with | made hmakes' =>
      exact ⟨op, op', c.lowered.created_op hmakes.new hop, c'.lowered.created_op hmakes'.new hop',
        hsame⟩

/-- Matched blocks are expanded into matched blocks. -/
theorem aligned_blocks {block block' : List OpId} (hmem : ∀ id ∈ block, id ∈ c.source.allOps)
    (hblock : List.Forall₂ m.ops block block') : List.Forall₂ (aligned m c c' c.source.allOps).ops
      (block.flatMap c.expand) (block'.flatMap c'.expand) :=
  List.rel_flatMap ((List.forall₂_and_left _ _).mpr ⟨hmem, hblock⟩)
    fun id id' hid => (aligned_allOps h).blocks id id' hid.2 hid.1

/-- Functions that are the same are lowered to functions that are the same. -/
theorem aligned_func {i i' : Nat} {func func' : Func} (hfunc : c.source.funcs[i]? = some func)
    (hfunc' : c'.source.funcs[i']? = some func') (hsame : m.SameFunc func func') :
    ∃ now now', c.target.funcs[i]? = some now ∧ c'.target.funcs[i']? = some now' ∧
      (aligned m c c' c.source.allOps).SameFunc now now' := by
  have halign := aligned_allOps h
  refine ⟨_, _, c.lowered.func c.valid hfunc, c'.lowered.func c'.valid hfunc', ?_⟩
  have hargs : List.Forall₂ (aligned m c c' c.source.allOps).values func.args func'.args :=
    aligned_forall₂ h hsame.args fun v hv => Program.Settled.of_notMem fun o op hop =>
      c.valid.arg_notMem_results hfunc hv hop
  have hbody : Option.Rel (List.Forall₂ (aligned m c c' c.source.allOps).ops)
      (func.body.map fun body => body.flatMap c.expand)
      (func'.body.map fun body => body.flatMap c'.expand) := by
    have hmem : ∀ id ∈ func.bodyOps, id ∈ c.source.allOps := fun id => Program.mem_allOps hfunc
    have hrel := hsame.body
    unfold Func.bodyOps at hmem
    generalize func.body = body at hmem hrel
    generalize func'.body = body' at hrel
    cases hrel with
    | none => exact .none
    | some hblock => exact .some (aligned_blocks h hmem hblock)
  have hdeclaration := hsame.isDeclaration
  cases hdecl : func.isDeclaration with
  | true =>
    simp only [resign, hdeclaration, hdecl, ↓reduceIte]
    exact ⟨hsame.name, hargs, hsame.argTypes, hsame.resultTypes, hsame.isPublic, hbody⟩
  | false =>
    simp only [resign, hdeclaration, hdecl, Bool.false_eq_true, ↓reduceIte]
    refine ⟨hsame.name, ?_, congrArg (List.map handleTypes.convert) hsame.argTypes,
      congrArg (List.map handleTypes.convert) hsame.resultTypes, hsame.isPublic, hbody⟩
    simp only [Func.expandBody]
    rw [List.forall₂_map_left_iff, List.forall₂_map_right_iff]
    exact hargs.imp halign.names

end Alignment

end Lowering

end TensorLowering
