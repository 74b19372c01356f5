import TensorLowering.Proofs.Signatures
import TensorLowering.Proofs.Withdrawal

/-!
# Every name and every value is introduced once

What the parts of a valid program say about each other leaves no room for two introductions of one
thing. A name is found in the table under one id only, so no two functions bear it. A value knows
the function or the operation that introduces it and its position there, so it stands in one place
of one list only. Both hold of every reachable program, whatever was declared and dropped on the way
and whichever ids were given out twice.
-/

namespace TensorLowering

/-- If an entry of a part knows its part and its position there, no entry occurs twice. -/
theorem nodup_flatMap_of_position {α : Type} {items : List α} {part : α → List ValueId}
    (h : ∀ (i k i' k' : Nat) (a a' : α) (v : ValueId), items[i]? = some a → (part a)[k]? = some v →
      items[i']? = some a' → (part a')[k']? = some v → i = i' ∧ k = k') :
    (items.flatMap part).Nodup := by
  apply List.nodup_flatMap.mpr
  constructor
  · intro a ha
    obtain ⟨i, hi⟩ := List.mem_iff_getElem?.mp ha
    apply List.nodup_iff_getElem?_ne_getElem?.mpr
    intro k k' hlt hk' heq
    have hlast := List.getElem?_eq_getElem hk'
    have hsame := (h i k i k' a a _ hi (heq.trans hlast) hi hlast).2
    omega
  · apply List.pairwise_iff_getElem.mpr
    intro i i' hi hi' hlt v hv hv'
    obtain ⟨k, hk⟩ := List.mem_iff_getElem?.mp hv
    obtain ⟨k', hk'⟩ := List.mem_iff_getElem?.mp hv'
    have hsame := (h i k i' k' _ _ v (List.getElem?_eq_getElem hi) hk
      (List.getElem?_eq_getElem hi') hk').1
    omega

namespace Program

variable {program : Program}

/-- No two functions bear the same name. -/
theorem Valid.nodup_names (h : program.Valid) : (program.funcs.map Func.name).Nodup := by
  apply List.nodup_iff_getElem?_ne_getElem?.mpr
  intro i j hlt hj heq
  rw [List.length_map] at hj
  have hi : i < program.funcs.length := by omega
  have hfirst := List.getElem?_eq_getElem hi
  have hsecond := List.getElem?_eq_getElem hj
  simp only [List.getElem?_map, hfirst, hsecond, Option.map_some, Option.some.injEq] at heq
  have hindex := h.func_unique hfirst hsecond heq
  omega

/-- No value is introduced twice, as an argument of a function or as a result of an operation. -/
theorem Valid.nodup_introduced (h : program.Valid) :
    (program.funcs.flatMap Func.args ++ program.ops.flatMap Operation.results).Nodup := by
  apply List.nodup_append.mpr
  refine ⟨?_, ?_, ?_⟩
  · apply nodup_flatMap_of_position
    intro i k i' k' func func' v hfunc hv hfunc' hv'
    exact Conversion.arg_position h hfunc hv hfunc' hv'
  · apply nodup_flatMap_of_position
    intro o k o' k' op op' v hop hv hop' hv'
    exact h.result_position hop hv hop' hv'
  · intro v hv w hw hsame
    subst hsame
    obtain ⟨func, hfunc, harg⟩ := List.mem_flatMap.mp hv
    obtain ⟨op, hop, hresult⟩ := List.mem_flatMap.mp hw
    obtain ⟨i, hi⟩ := List.mem_iff_getElem?.mp hfunc
    obtain ⟨o, ho⟩ := List.mem_iff_getElem?.mp hop
    exact h.arg_notMem_results hi harg ho hresult

/-- In every program that can be built, by definitions, declarations, new operations and conversions
with any patterns, type map and legality, the parts agree: names and functions determine each other,
arguments and results know where they come from, and an operation stands in at most one place of one
block, where it is not erased. So no two functions bear one name, and no value is introduced twice.
-/
theorem reachable_coherent (hreach : program.Reachable) :
    program.Valid ∧ (program.funcs.map Func.name).Nodup ∧
      (program.funcs.flatMap Func.args ++ program.ops.flatMap Operation.results).Nodup :=
  ⟨hreach.valid, hreach.valid.nodup_names, hreach.valid.nodup_introduced⟩

/-- A pattern that replaces an extent by a call. -/
def scaling : Pattern := Recipe.pattern "Scaling" OpKind.tensorDim.name
  [.replaceWithCall "scale" .allOperands [.rootResult 0]]

/-- Indices become integers. -/
def indexTypes : TypeMap := .ofCases [(.equals .index, .int 64)]

/-- Two functions were declared and dropped before one of them was declared again, with an id that
was given out before; arguments were replaced, and an operation stands outside all blocks. -/
theorem reachable_coherent_scaled : ∃ outcome program,
    Conversion.run [Conversion.hesitant, scaling] indexTypes {}
      (Conversion.measured.addOp .ret [⟨0⟩] [.index] .nowhere) = .ok outcome ∧
    outcome.log.countP (· = .declared "scale") = 2 ∧
    outcome.program.lookupFunc? "scale" = some ⟨2⟩ ∧ outcome.program.lookupFunc? "spare" = none ∧
    outcome.program.define "late" [.index] [] = .ok program ∧ program.Reachable ∧ program.Valid ∧
    (program.funcs.map Func.name).Nodup ∧
    (program.funcs.flatMap Func.args ++ program.ops.flatMap Operation.results).Nodup := by
  have hreach {outcome : Conversion.Outcome} {program : Program}
      (hrun : Conversion.run [Conversion.hesitant, scaling] indexTypes {}
        (Conversion.measured.addOp .ret [⟨0⟩] [.index] .nowhere) = .ok outcome)
      (hlate : outcome.program.define "late" [.index] [] = .ok program) : program.Reachable :=
    .define (.convert (.addOp _ _ _ _ (reachable_listed _)) hrun) hlate
  refine ⟨_, _, rfl, by decide +kernel, by decide +kernel, by decide +kernel, rfl, ?_⟩
  exact ⟨hreach rfl rfl, reachable_coherent (hreach rfl rfl)⟩

end Program

end TensorLowering
