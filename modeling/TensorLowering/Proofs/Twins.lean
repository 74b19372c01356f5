import TensorLowering.Proofs.Matching
import TensorLowering.Proofs.Withdrawal

/-!
# Programs that differ in their numbering

Twins are programs with the same functions, the same names and the same blocks, up to a renumbering
that keeps the order of ids. An addition to both of them continues the renumbering: what is added is
at the end of the arenas on both sides. So a script and its mirror image, which asks for the same
under the other names, run in step, and twins stay twins.
-/

namespace TensorLowering

namespace Matching

/-- Matched ids come in the same order on both sides. -/
structure Ordered (m : Matching) : Prop where
  values : ∀ v v' w w', m.values v v' → m.values w w' → (v.index < w.index ↔ v'.index < w'.index)
  ops : ∀ o o' p p', m.ops o o' → m.ops p p' → (o.index < p.index ↔ o'.index < p'.index)

/-- Programs that are the same up to a renumbering that keeps the order of ids. -/
structure Twins (m : Matching) (program program' : Program) : Prop where
  ordered : m.Ordered
  sound : m.Sound program program'
  erased : ∀ o o', m.ops o o' → ∀ op op', program.ops[o.index]? = some op →
    program'.ops[o'.index]? = some op' → op'.erased = op.erased
  funcs : List.Forall₂ m.SameFunc program.funcs program'.funcs
  symbols : program'.symbols = program.symbols

variable {m m' : Matching} {program program' : Program}

/-- Values in the same order are matched one to one. -/
theorem Ordered.unique_values (h : m.Ordered) : Relator.BiUnique m.values := by
  constructor
  · intro v w v' hv hw
    have hlt := h.values v v' w v' hv hw
    have hgt := h.values w v' v v' hw hv
    obtain ⟨i⟩ := v
    obtain ⟨j⟩ := w
    rw [ValueId.mk.injEq]
    dsimp only at hlt hgt
    omega
  · intro v v' w' hv hw
    have hlt := h.values v v' v w' hv hw
    have hgt := h.values v w' v v' hw hv
    obtain ⟨i⟩ := v'
    obtain ⟨j⟩ := w'
    rw [ValueId.mk.injEq]
    dsimp only at hlt hgt
    omega

/-- Operations in the same order are matched one to one. -/
theorem Ordered.eq_iff (h : m.Ordered) {o o' p p' : OpId} (ho : m.ops o o') (hp : m.ops p p') :
    o = p ↔ o' = p' := by
  have hlt := h.ops o o' p p' ho hp
  have hgt := h.ops p p' o o' hp ho
  constructor
  · rintro rfl
    exact OpId.eq_of_index (by omega)
  · rintro rfl
    exact OpId.eq_of_index (by omega)

/-! ### Additions on both sides -/

/-- The next values are matched too. -/
def grow (m : Matching) (program program' : Program) (count : Nat) : Matching where
  values v v' := m.values v v' ∨ ∃ i < count, v = ⟨program.values.length + i⟩ ∧
    v' = ⟨program'.values.length + i⟩
  ops := m.ops

/-- The next operation is matched too. -/
def growOp (m : Matching) (program program' : Program) : Matching where
  values := m.values
  ops o o' := m.ops o o' ∨ (o = program.nextOp ∧ o' = program'.nextOp)

/-- More values are matched than before. -/
theorem le_grow (count : Nat) : m ≤ m.grow program program' count :=
  ⟨fun _ _ => .inl, fun _ _ h => h⟩

/-- More operations are matched than before. -/
theorem le_growOp : m ≤ m.growOp program program' := ⟨fun _ _ h => h, fun _ _ => .inl⟩

/-- Matched values are in the arenas. -/
theorem Sound.values_lt (h : m.Sound program program') {v v' : ValueId} (hv : m.values v v') :
    v.index < program.values.length ∧ v'.index < program'.values.length := by
  obtain ⟨ty, origin, origin', hvalue, hvalue', -⟩ := h.values v v' hv
  exact ⟨(List.getElem?_eq_some_iff.mp hvalue).1, (List.getElem?_eq_some_iff.mp hvalue').1⟩

/-- Matched operations are in the arenas. -/
theorem Sound.ops_lt (h : m.Sound program program') {o o' : OpId} (ho : m.ops o o') :
    o.index < program.ops.length ∧ o'.index < program'.ops.length := by
  obtain ⟨op, op', hop, hop', -⟩ := h.ops o o' ho
  exact ⟨(List.getElem?_eq_some_iff.mp hop).1, (List.getElem?_eq_some_iff.mp hop').1⟩

/-- The next values come after the matched ones. -/
theorem Ordered.grow (h : m.Ordered) (hsound : m.Sound program program') (count : Nat) :
    (m.grow program program' count).Ordered where
  ops := h.ops
  values v v' w w' hv hw := by
    rcases hv with hv | ⟨i, -, rfl, rfl⟩
    · rcases hw with hw | ⟨j, -, rfl, rfl⟩
      · exact h.values v v' w w' hv hw
      · have := hsound.values_lt hv
        dsimp only
        omega
    · rcases hw with hw | ⟨j, -, rfl, rfl⟩
      · have := hsound.values_lt hw
        dsimp only
        omega
      · dsimp only
        omega

/-- The next operation comes after the matched ones. -/
theorem Ordered.growOp (h : m.Ordered) (hsound : m.Sound program program') :
    (m.growOp program program').Ordered where
  values := h.values
  ops o o' p p' ho hp := by
    rcases ho with ho | ⟨rfl, rfl⟩
    · rcases hp with hp | ⟨rfl, rfl⟩
      · exact h.ops o o' p p' ho hp
      · have := hsound.ops_lt ho
        simp only [Program.nextOp]
        omega
    · rcases hp with hp | ⟨rfl, rfl⟩
      · have := hsound.ops_lt hp
        simp only [Program.nextOp]
        omega
      · simp

/-- The next values are matched in order. -/
theorem forall₂_nextValues (count : Nat) :
    List.Forall₂ (m.grow program program' count).values (program.nextValues count)
      (program'.nextValues count) := by
  refine List.forall₂_map_left_iff.mpr (List.forall₂_map_right_iff.mpr (List.forall₂_same.mpr ?_))
  exact fun i hi => .inr ⟨i, List.mem_range.mp hi, rfl, rfl⟩

/-- Values at the ends of the arenas. -/
theorem getElem?_mapIdx_append {α β : Type} (items : List β) (types : List α) (make : Nat → α → β)
    (i : Nat) : (items ++ types.mapIdx make)[items.length + i]? = types[i]?.map (make i) := by
  rw [List.getElem?_append_right (by omega), Nat.add_sub_cancel_left, List.getElem?_mapIdx]

/-- Twins stay twins when the same operation over matched operands is added to both. -/
theorem Twins.addOp (h : m.Twins program program') {operands operands' : List ValueId}
    (hoperands : List.Forall₂ m.values operands operands') (kind : OpKind) (types : List Ty)
    (span : Span) : ∃ m', m ≤ m' ∧
      m'.Twins (program.addOp kind operands types span) (program'.addOp kind operands' types span) ∧
      List.Forall₂ m'.values (program.nextValues types.length)
        (program'.nextValues types.length) ∧ m'.ops program.nextOp program'.nextOp := by
  let wider := m.grow program program' types.length
  have hle : m ≤ wider.growOp program program' := (le_grow _).trans le_growOp
  have hordered : (wider.growOp program program').Ordered := by
    refine ⟨(h.ordered.grow h.sound _).values, (h.ordered.growOp h.sound).ops⟩
  have hfresh : List.Forall₂ (wider.growOp program program').values
      (program.nextValues types.length) (program'.nextValues types.length) :=
    forall₂_nextValues types.length
  have hnext : (wider.growOp program program').ops program.nextOp program'.nextOp :=
    .inr ⟨rfl, rfl⟩
  refine ⟨_, hle, ⟨hordered, ⟨?_, ?_, hordered.unique_values⟩, ?_,
    h.funcs.imp fun _ _ hfunc => hfunc.mono hle, h.symbols⟩, hfresh, hnext⟩
  · rintro v v' (hv | ⟨i, hi, rfl, rfl⟩)
    · obtain ⟨ty, origin, origin', hvalue, hvalue', hsame⟩ := h.sound.values v v' hv
      exact ⟨ty, origin, origin', getElem?_mono (List.prefix_append _ _) hvalue,
        getElem?_mono (List.prefix_append _ _) hvalue', hsame.mono hle⟩
    · refine ⟨types.get ⟨i, hi⟩, .result program.nextOp i, .result program'.nextOp i, ?_, ?_,
        .result hnext⟩
      · exact (getElem?_mapIdx_append ..).trans (by simp [hi])
      · exact (getElem?_mapIdx_append ..).trans (by simp [hi])
  · rintro o o' (ho | ⟨rfl, rfl⟩)
    · obtain ⟨op, op', hop, hop', hsame⟩ := h.sound.ops o o' ho
      exact ⟨op, op', getElem?_mono (List.prefix_append _ _) hop,
        getElem?_mono (List.prefix_append _ _) hop', hsame.mono hle⟩
    · exact ⟨_, _, List.getElem?_concat_length, List.getElem?_concat_length,
        ⟨rfl, forall₂_mono hle hoperands, hfresh, rfl⟩⟩
  · rintro o o' (ho | ⟨rfl, rfl⟩) op op' hop hop'
    · obtain ⟨hlt, hlt'⟩ := h.sound.ops_lt ho
      rw [Program.addOp, List.getElem?_append_left hlt] at hop
      rw [Program.addOp, List.getElem?_append_left hlt'] at hop'
      exact h.erased o o' ho op op' hop hop'
    · obtain rfl := Option.some.inj (List.getElem?_concat_length.symm.trans hop)
      obtain rfl := Option.some.inj (List.getElem?_concat_length.symm.trans hop')
      rfl

/-- Twins know the same names. -/
theorem Twins.lookupFunc? (h : m.Twins program program') (name : String) :
    program'.lookupFunc? name = program.lookupFunc? name := by
  rw [Program.lookupFunc?, Program.lookupFunc?, h.symbols]

/-- Twins stay twins when the same function is declared in both. -/
theorem Twins.declare (h : m.Twins program program') (name : String)
    (argTypes resultTypes : List Ty) : ∃ m', m ≤ m' ∧
      m'.Twins (program.declare name argTypes resultTypes)
        (program'.declare name argTypes resultTypes) := by
  unfold Program.declare
  rw [h.lookupFunc? name]
  cases program.lookupFunc? name with
  | some id => exact ⟨m, le_rfl, h⟩
  | none =>
    let wider := m.grow program program' argTypes.length
    have hle : m ≤ wider := le_grow _
    have hordered : wider.Ordered := h.ordered.grow h.sound _
    refine ⟨wider, hle, hordered, ⟨?_, ?_, hordered.unique_values⟩, h.erased, ?_, ?_⟩
    · rintro v v' (hv | ⟨i, hi, rfl, rfl⟩)
      · obtain ⟨ty, origin, origin', hvalue, hvalue', hsame⟩ := h.sound.values v v' hv
        exact ⟨ty, origin, origin', getElem?_mono (List.prefix_append _ _) hvalue,
          getElem?_mono (List.prefix_append _ _) hvalue', hsame.mono hle⟩
      · refine ⟨argTypes.get ⟨i, hi⟩, .argument program.nextFunc i, .argument program'.nextFunc i,
          ?_, ?_, .argument⟩
        · exact (getElem?_mapIdx_append ..).trans (by simp [hi])
        · exact (getElem?_mapIdx_append ..).trans (by simp [hi])
    · intro o o' ho
      obtain ⟨op, op', hop, hop', hsame⟩ := h.sound.ops o o' ho
      exact ⟨op, op', hop, hop', hsame.mono hle⟩
    · refine List.rel_append (h.funcs.imp fun _ _ hfunc => hfunc.mono hle) (.cons ?_ .nil)
      exact ⟨rfl, forall₂_nextValues _, rfl, rfl, rfl, .none⟩
    · simp only [Program.insertFunc, Program.nextFunc, h.symbols, h.funcs.length_eq]

/-! ### Edits on both sides -/

/-- Erased operations at the ends of the arenas do not matter. -/
theorem Twins.padded (h : m.Twins program program') {after after' : Program}
    (hpad : program.Padded after) (hpad' : program'.Padded after') : m.Twins after after' where
  ordered := h.ordered
  sound := by
    refine ⟨fun v v' hv => ?_, fun o o' ho => ?_, h.sound.unique⟩
    · obtain ⟨ty, origin, origin', hvalue, hvalue', hsame⟩ := h.sound.values v v' hv
      exact ⟨ty, origin, origin', getElem?_mono hpad.values hvalue,
        getElem?_mono hpad'.values hvalue', hsame⟩
    · obtain ⟨op, op', hop, hop', hsame⟩ := h.sound.ops o o' ho
      exact ⟨op, op', getElem?_mono hpad.old_ops hop, getElem?_mono hpad'.old_ops hop', hsame⟩
  erased o o' ho op op' hop hop' := by
    obtain ⟨now, now', hnow, hnow', -⟩ := h.sound.ops o o' ho
    obtain rfl := Option.some.inj ((getElem?_mono hpad.old_ops hnow).symm.trans hop)
    obtain rfl := Option.some.inj ((getElem?_mono hpad'.old_ops hnow').symm.trans hop')
    exact h.erased o o' ho now now' hnow hnow'
  funcs := hpad.funcs ▸ hpad'.funcs ▸ h.funcs
  symbols := hpad'.symbols.trans (h.symbols.trans hpad.symbols.symm)

/-- Twins stay twins when matched operations are changed in the same way. -/
theorem Twins.modifyOp (h : m.Twins program program') {id id' : OpId} (hid : m.ops id id')
    {change change' : Operation → Operation}
    (hsame : ∀ op op', m.SameOp op op' → m.SameOp (change op) (change' op'))
    (herased : ∀ op op', op'.erased = op.erased → (change' op').erased = (change op).erased) :
    m.Twins (program.modifyOp id change) (program'.modifyOp id' change') := by
  have hchange : ∀ o o', m.ops o o' → ∀ op op', program.ops[o.index]? = some op →
      program'.ops[o'.index]? = some op' →
      ((program.modifyOp id change).ops[o.index]? = some op ∧
        (program'.modifyOp id' change').ops[o'.index]? = some op') ∨
      ((program.modifyOp id change).ops[o.index]? = some (change op) ∧
        (program'.modifyOp id' change').ops[o'.index]? = some (change' op')) := by
    intro o o' ho op op' hop hop'
    simp only [Program.modifyOp, List.getElem?_modify, hop, hop', Option.map_eq_map,
      Option.map_some]
    by_cases heq : id = o
    · have heq' := (h.ordered.eq_iff hid ho).mp heq
      subst heq heq'
      exact .inr ⟨by simp, by simp⟩
    · have hne : id.index ≠ o.index := fun hindex => heq (OpId.eq_of_index hindex)
      have hne' : id'.index ≠ o'.index := fun hindex =>
        heq ((h.ordered.eq_iff hid ho).mpr (OpId.eq_of_index hindex))
      exact .inl ⟨by simp [hne], by simp [hne']⟩
  refine ⟨h.ordered, ⟨h.sound.values, fun o o' ho => ?_, h.sound.unique⟩, ?_, h.funcs, h.symbols⟩
  · obtain ⟨op, op', hop, hop', hop_same⟩ := h.sound.ops o o' ho
    rcases hchange o o' ho op op' hop hop' with ⟨hnow, hnow'⟩ | ⟨hnow, hnow'⟩
    · exact ⟨op, op', hnow, hnow', hop_same⟩
    · exact ⟨_, _, hnow, hnow', hsame op op' hop_same⟩
  · intro o o' ho now now' hop hop'
    obtain ⟨op, op', hbefore, hbefore', -⟩ := h.sound.ops o o' ho
    have hkept := h.erased o o' ho op op' hbefore hbefore'
    rcases hchange o o' ho op op' hbefore hbefore' with ⟨hnow, hnow'⟩ | ⟨hnow, hnow'⟩
    · obtain rfl := Option.some.inj (hnow.symm.trans hop)
      obtain rfl := Option.some.inj (hnow'.symm.trans hop')
      exact hkept
    · obtain rfl := Option.some.inj (hnow.symm.trans hop)
      obtain rfl := Option.some.inj (hnow'.symm.trans hop')
      exact herased op op' hkept

/-- Twins stay twins when matched operations are erased. -/
theorem Twins.eraseOp (h : m.Twins program program') {id id' : OpId} (hid : m.ops id id') :
    m.Twins (program.eraseOp id) (program'.eraseOp id') :=
  h.modifyOp hid (fun _ _ hop => ⟨hop.kind, hop.operands, hop.results, hop.span⟩)
    fun _ _ _ => rfl

/-- Twins stay twins when a function gets matched blocks. -/
theorem Twins.modifyBody (h : m.Twins program program') (id : FuncId) {block block' : List OpId}
    (hblock : List.Forall₂ m.ops block block') :
    m.Twins (program.modifyFunc id fun func => { func with body := some block })
      (program'.modifyFunc id fun func => { func with body := some block' }) where
  ordered := h.ordered
  sound := ⟨h.sound.values, h.sound.ops, h.sound.unique⟩
  erased := h.erased
  funcs := by
    refine List.forall₂_iff_get.mpr ⟨by simp [Program.modifyFunc, h.funcs.length_eq], ?_⟩
    intro i hi hi'
    have hfunc := (List.forall₂_iff_get.mp h.funcs).2 i (by simpa [Program.modifyFunc] using hi)
      (by simpa [Program.modifyFunc] using hi')
    simp only [Program.modifyFunc, List.get_eq_getElem, List.getElem_modify] at hfunc ⊢
    split
    · exact ⟨hfunc.name, hfunc.args, hfunc.argTypes, hfunc.resultTypes, hfunc.isPublic,
        .some hblock⟩
    · exact hfunc
  symbols := h.symbols

end Matching

end TensorLowering
