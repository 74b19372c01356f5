import TensorLowering.Proofs.Mirroring

/-!
# The phases of a conversion on twins

Every step of a conversion that does not ask a pattern does the same to twins: a committed attempt
takes the place of its root on both sides, operands are renamed to matched values, and the reports
that remain are the same up to the names of values. Renamings are compared entry by entry, so that
chains have the same length on both sides.
-/

namespace TensorLowering

open Conversion

namespace Matching

variable {m m' : Matching} {program program' : Program} {aliases aliases' : Renaming}

/-! ### Renamings -/

/-- Renamings that record matched replacements of matched values, in the same order. -/
def SameAliases (m : Matching) (aliases aliases' : Renaming) : Prop :=
  List.Forall₂ (fun entry entry' => m.values entry.1 entry'.1 ∧ m.values entry.2 entry'.2)
    aliases.entries aliases'.entries

/-- Renamings stay the same. -/
theorem SameAliases.mono (hle : m ≤ m') (h : m.SameAliases aliases aliases') :
    m'.SameAliases aliases aliases' :=
  h.imp fun _ _ hentry => ⟨hle.1 _ _ hentry.1, hle.1 _ _ hentry.2⟩

section Renamings

variable (hunique : Relator.BiUnique m.values) (h : m.SameAliases aliases aliases')
  {v v' w w' : ValueId}

include hunique

/-- Values that are matched one to one are equal on both sides or on neither. -/
theorem eq_iff_of_unique (hv : m.values v v') (hw : m.values w w') : v = w ↔ v' = w' :=
  ⟨fun heq => hunique.2 hv (heq ▸ hw), fun heq => hunique.1 hv (heq ▸ hw)⟩

include h

/-- Matched values have matched replacements, or none. -/
theorem SameAliases.next? (hv : m.values v v') :
    Option.Rel m.values (aliases.next? v) (aliases'.next? v') := by
  obtain ⟨entries⟩ := aliases
  obtain ⟨entries'⟩ := aliases'
  simp only [SameAliases, Renaming.next?] at h ⊢
  induction h with
  | nil => exact .none
  | @cons entry entry' _ _ hentry _ ih =>
    obtain ⟨old, new⟩ := entry
    obtain ⟨old', new'⟩ := entry'
    have heq : v = old ↔ v' = old' := eq_iff_of_unique hunique hv hentry.1
    simp only [List.lookup_cons]
    by_cases hold : v = old
    · rw [beq_iff_eq.mpr hold, beq_iff_eq.mpr (heq.mp hold)]
      exact .some hentry.2
    · rw [beq_false_of_ne hold, beq_false_of_ne fun hold' => hold (heq.mpr hold')]
      exact ih

/-- Chains lead to matched values. -/
theorem SameAliases.follow (steps : Nat) (hv : m.values v v') :
    m.values (aliases.follow steps v) (aliases'.follow steps v') := by
  induction steps generalizing v v' with
  | zero => exact hv
  | succ steps ih =>
    have hnext := h.next? hunique hv
    simp only [Renaming.follow]
    generalize aliases.next? v = next at hnext
    generalize aliases'.next? v' = next' at hnext
    cases hnext with
    | none => exact hv
    | some hnext => exact ih hnext

/-- Matched values stand for matched values. -/
theorem SameAliases.resolve (hv : m.values v v') :
    m.values (aliases.resolve v) (aliases'.resolve v') := by
  unfold Renaming.resolve
  rw [← List.Forall₂.length_eq h]
  exact h.follow hunique _ hv

/-- Lists of matched values stand for matched values. -/
theorem SameAliases.map_resolve {ids ids' : List ValueId} (hids : List.Forall₂ m.values ids ids') :
    List.Forall₂ m.values (ids.map aliases.resolve) (ids'.map aliases'.resolve) :=
  List.forall₂_map_left_iff.mpr (List.forall₂_map_right_iff.mpr
    (hids.imp fun _ _ hv => h.resolve hunique hv))

/-- Matched replacements are recorded on both sides. -/
theorem SameAliases.insert (hv : m.values v v') (hw : m.values w w') :
    m.SameAliases (aliases.insert v w) (aliases'.insert v' w') := by
  unfold Renaming.insert
  by_cases heq : v = w
  · rw [if_pos heq, if_pos ((eq_iff_of_unique hunique hv hw).mp heq)]
    exact h
  · rw [if_neg heq, if_neg fun heq' => heq ((eq_iff_of_unique hunique hv hw).mpr heq')]
    exact .cons ⟨hv, hw⟩ h

/-- Lists of matched replacements are recorded on both sides. -/
theorem SameAliases.insertAll {olds olds' news news' : List ValueId}
    (holds : List.Forall₂ m.values olds olds') (hnews : List.Forall₂ m.values news news') :
    m.SameAliases (aliases.insertAll olds news) (aliases'.insertAll olds' news') := by
  induction holds generalizing aliases aliases' news news' with
  | nil => exact h
  | cons hold _ ih =>
    cases hnews with
    | nil => exact h
    | cons hnew hnews => exact ih (h.insert hunique hold hnew) hnews

end Renamings

/-! ### Committed attempts -/

/-- Matched operations take the place of matched roots. -/
theorem Ordered.splice (h : m.Ordered) {id id' : OpId} (hid : m.ops id id')
    {inserted inserted' body body' : List OpId} (hinserted : List.Forall₂ m.ops inserted inserted')
    (hbody : List.Forall₂ m.ops body body') :
    Option.Rel (List.Forall₂ m.ops) (Conversion.splice id inserted body)
      (Conversion.splice id' inserted' body') := by
  induction hbody with
  | nil => exact .none
  | @cons first first' rest rest' hfirst hrest ih =>
    have heq := h.eq_iff hfirst hid
    simp only [Conversion.splice]
    by_cases htarget : first = id
    · rw [if_pos htarget, if_pos (heq.mp htarget)]
      exact .some (List.rel_append hinserted hrest)
    · rw [if_neg htarget, if_neg fun htarget' => htarget (heq.mpr htarget')]
      generalize Conversion.splice id inserted rest = block at ih
      generalize Conversion.splice id' inserted' rest' = block' at ih
      cases ih with
      | none => exact .none
      | some hblock => exact .some (.cons hfirst hblock)

/-- The block of a function after a committed attempt. -/
theorem SameFunc.blockAfter {func func' : Func} (h : m.SameFunc func func') (hordered : m.Ordered)
    {id id' : OpId} (hid : m.ops id id') {inserted inserted' : List OpId}
    (hinserted : List.Forall₂ m.ops inserted inserted') :
    Alike (List.Forall₂ m.ops) (Conversion.blockAfter id inserted func)
      (Conversion.blockAfter id' inserted' func') := by
  have hbody := h.body
  unfold Conversion.blockAfter
  generalize func.body = body at hbody
  generalize func'.body = body' at hbody
  cases hbody with
  | none => exact .error
  | @some block block' hblock =>
    have hsplice := hordered.splice hid hinserted hblock
    dsimp only
    generalize Conversion.splice id inserted block = answer at hsplice
    generalize Conversion.splice id' inserted' block' = answer' at hsplice
    cases hsplice with
    | none => exact .error
    | some hafter => exact .ok hafter

end Matching

variable {m : Matching} {program program' : Program} {aliases aliases' : Renaming}

/-- Committing attempts over twins leaves twins and renamings that are the same. -/
theorem SameAttempt.commit {attempt attempt' : Attempt} (h : SameAttempt m attempt attempt')
    {root root' : Operation} (hroot : m.SameOp root root') {id id' : OpId} (hid : m.ops id id')
    (haliases : m.SameAliases aliases aliases') (pattern : Pattern) (funcId : FuncId) :
    Alike (fun out out' => m.Twins out.1 out'.1 ∧ m.SameAliases out.2 out'.2)
      (Conversion.commit pattern funcId id root attempt aliases)
      (Conversion.commit pattern funcId id' root' attempt' aliases') := by
  have hvalues : Alike (List.Forall₂ m.values) (replacementOf pattern root attempt)
      (replacementOf pattern root' attempt') := by
    have hreplacement := h.replacement
    unfold replacementOf
    generalize attempt.replacement = answer at hreplacement
    generalize attempt'.replacement = answer' at hreplacement
    cases hreplacement with
    | none => exact .error
    | some hvalues => exact .ok hvalues
  refine hvalues.bind fun values values' hvalues => ?_
  refine (fetch_alike h.programs.funcs funcId.index).bind fun func func' hfunc => ?_
  refine (hfunc.blockAfter h.programs.ordered hid h.inserted).bind fun block block' hblock => ?_
  exact .ok ⟨(h.programs.modifyBody funcId hblock).eraseOp hid,
    haliases.insertAll h.programs.sound.unique hroot.results hvalues⟩

/-! ### Operands and reports -/

namespace Matching

/-- The blocks of twins. -/
theorem Twins.bodyOps (h : m.Twins program program') (id : FuncId) :
    Alike (List.Forall₂ m.ops) (program.bodyOps id) (program'.bodyOps id) :=
  (fetch_alike h.funcs id.index).bind fun _ _ hfunc => .ok hfunc.bodyOps

/-- Renaming the operands of matched operations leaves twins. -/
theorem Twins.renameOperands (h : m.Twins program program')
    (haliases : m.SameAliases aliases aliases') {ids ids' : List OpId}
    (hids : List.Forall₂ m.ops ids ids') :
    m.Twins (ids.foldl (Conversion.renameOperands aliases) program)
      (ids'.foldl (Conversion.renameOperands aliases') program') := by
  induction hids generalizing program program' with
  | nil => exact h
  | cons hid _ ih =>
    refine ih (h.modifyOp hid (fun op op' hop => ?_) fun _ _ herased => herased)
    exact ⟨hop.kind, haliases.map_resolve h.sound.unique hop.operands, hop.results, hop.span⟩

/-- Renaming the operands of several blocks leaves twins. -/
theorem Twins.renameBodies (h : m.Twins program program')
    (haliases : m.SameAliases aliases aliases') (ids : List FuncId) :
    Alike m.Twins (forEach (renameBody aliases) ids program)
      (forEach (renameBody aliases') ids program') := by
  induction ids generalizing program program' with
  | nil => exact .ok h
  | cons id rest ih =>
    have hfirst : Alike m.Twins (renameBody aliases id program) (renameBody aliases' id program') :=
      (h.bodyOps id).bind fun _ _ hbody => .ok (h.renameOperands haliases hbody)
    exact hfirst.bind fun _ _ htwins => ih htwins

/-- The reports about twins are the same. -/
theorem Twins.illegalIn (h : m.Twins program program') (ids : List FuncId) :
    Alike (List.Forall₂ m.SameReport) (Conversion.illegalIn Lowering.legality program ids)
      (Conversion.illegalIn Lowering.legality program' ids) := by
  induction ids with
  | nil => exact .ok .nil
  | cons id rest ih =>
    refine (fetch_alike h.funcs id.index).bind fun func func' hfunc => ?_
    rw [hfunc.name]
    refine (h.sound.illegalOps hfunc.bodyOps func.name).bind fun here here' hhere => ?_
    exact ih.bind fun there there' hthere => .ok (List.rel_append hhere hthere)

end Matching

end TensorLowering
