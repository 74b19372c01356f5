import TensorLowering.Proofs.Twins

/-!
# Scripts that ask for the same

A script and its mirror image make the same requests under the names of two matched programs. The
relation follows the constructors of a script; a request that adds something continues under every
later matching, since the new values and operations are matched from then on. Run on twins, the two
scripts end alike and leave twins behind. Every rule is its own mirror image.
-/

namespace TensorLowering

open Matching

namespace Script

variable {α β : Type}

/-- Two scripts make the same requests, and their results are related. -/
inductive Mirrors (rel : Matching → α → α → Prop) : Matching → Script α → Script α → Prop
  | done {m : Matching} {a a' : α} (h : rel m a a') : Mirrors rel m (.done a) (.done a')
  | decline {m : Matching} : Mirrors rel m .decline .decline
  | fail {m : Matching} {fault fault' : Fault} : Mirrors rel m (.fail fault) (.fail fault')
  | inspect {m : Matching} {next next' : Program → Script α}
      (h : ∀ program program', m.Sound program program' →
        Mirrors rel m (next program) (next' program')) :
      Mirrors rel m (.inspect next) (.inspect next')
  | create {m : Matching} {kind : OpKind} {operands operands' : List ValueId} {types : List Ty}
      {next next' : List ValueId → Script α} (hoperands : List.Forall₂ m.values operands operands')
      (h : ∀ m', m ≤ m' → ∀ results results', List.Forall₂ m'.values results results' →
        Mirrors rel m' (next results) (next' results')) :
      Mirrors rel m (.create kind operands types next) (.create kind operands' types next')
  | declare {m : Matching} {name : String} {argTypes resultTypes : List Ty} {next next' : Script α}
      (h : ∀ m', m ≤ m' → Mirrors rel m' next next') :
      Mirrors rel m (.declare name argTypes resultTypes next)
        (.declare name argTypes resultTypes next')
  | replace {m : Matching} {values values' : List ValueId} {next next' : Script α}
      (hvalues : List.Forall₂ m.values values values') (h : Mirrors rel m next next') :
      Mirrors rel m (.replace values next) (.replace values' next')

variable {m : Matching} {rel : Matching → α → α → Prop} {rel' : Matching → β → β → Prop}

/-- Results that are the same on both sides. -/
abbrev Same : Matching → α → α → Prop := fun _ => Eq

/-- Continuing in mirrored ways. -/
theorem Mirrors.bind {script script' : Script α} {next next' : α → Script β}
    (h : Mirrors rel m script script')
    (hnext : ∀ m', m ≤ m' → ∀ a a', rel m' a a' → Mirrors rel' m' (next a) (next' a')) :
    Mirrors rel' m (script.bind next) (script'.bind next') := by
  induction h with
  | done h => exact hnext _ le_rfl _ _ h
  | decline => exact .decline
  | fail => exact .fail
  | inspect _ ih => exact .inspect fun program program' hsound => ih program program' hsound hnext
  | create hoperands _ ih =>
    exact .create hoperands fun later hle results results' hresults =>
      ih later hle results results' hresults fun last hlast => hnext last (hle.trans hlast)
  | declare _ ih =>
    exact .declare fun later hle => ih later hle fun last hlast => hnext last (hle.trans hlast)
  | replace hvalues _ ih => exact .replace hvalues (ih hnext)

/-! ### Requests -/

/-- Computations that end alike. -/
theorem mirrors_ofExcept {run run' : Except Fault α} (h : Alike (rel m) run run') :
    Mirrors rel m (ofExcept run) (ofExcept run') := by
  cases h with
  | ok h => exact .done h
  | error => exact .fail

/-- Optional results, both there or both not. -/
theorem mirrors_ofOption {answer answer' : Option α} (h : Option.Rel (rel m) answer answer') :
    Mirrors rel m (ofOption answer) (ofOption answer') := by
  cases h with
  | some h => exact .done h
  | none => exact .decline

/-- Optional results that do not depend on the side. -/
theorem mirrors_ofOption_self (answer : Option α) :
    Mirrors Same m (ofOption answer) (ofOption answer) := by
  cases answer with
  | some result => exact .done rfl
  | none => exact .decline

/-- Computations that do not depend on the side. -/
theorem mirrors_ofExcept_self (run : Except Fault α) :
    Mirrors Same m (ofExcept run) (ofExcept run) := by
  cases run with
  | ok result => exact .done rfl
  | error fault => exact .fail

/-- The type of a matched value. -/
theorem mirrors_typeOf {v v' : ValueId} (hv : m.values v v') :
    Mirrors Same m (typeOf v) (typeOf v') := by
  refine .inspect fun program program' hsound => ?_
  obtain ⟨ty, hty, hty'⟩ := hsound.typeOf hv
  rw [hty, hty']
  exact .done rfl

section Requests

variable {operands operands' : List ValueId} (hoperands : List.Forall₂ m.values operands operands')

include hoperands

/-- A new operation with one result. -/
theorem mirrors_createValue (kind : OpKind) (ty : Ty) :
    Mirrors Matching.values m (createValue kind operands ty) (createValue kind operands' ty) :=
  .create hoperands fun _ _ _ _ hresults => mirrors_ofExcept (fetch_alike hresults 0)

/-- A call. -/
theorem mirrors_createCall (callee : String) (types : List Ty) :
    Mirrors (fun m => List.Forall₂ m.values) m (createCall callee operands types)
      (createCall callee operands' types) := by
  refine .inspect fun program program' hsound => ?_
  obtain ⟨argTypes, htypes, htypes'⟩ := hsound.typesOf hoperands
  rw [htypes, htypes']
  refine .declare fun later hle => .create (forall₂_mono hle hoperands) ?_
  exact fun _ _ _ _ hresults => .done hresults

/-- A call whose results replace the root. -/
theorem mirrors_replaceWithCall (callee : String) (types : List Ty) :
    Mirrors (fun m => List.Forall₂ m.values) m (replaceWithCall callee operands types)
      (replaceWithCall callee operands' types) :=
  (mirrors_createCall hoperands callee types).bind fun _ _ _ _ hresults =>
    .replace hresults (.done hresults)

/-- A new operation whose results replace the root. -/
theorem mirrors_replaceWithNew (kind : OpKind) (types : List Ty) :
    Mirrors (fun m => List.Forall₂ m.values) m (replaceWithNew kind operands types)
      (replaceWithNew kind operands' types) :=
  .create hoperands fun _ _ _ _ hresults => .replace hresults (.done hresults)

end Requests

/-- A constant. -/
theorem mirrors_intConstant (width : Nat) (value : Int) :
    Mirrors Matching.values m (intConstant width value) (intConstant width value) :=
  mirrors_createValue .nil _ _

/-- An array of constants. -/
theorem mirrors_intArray (width : Nat) (values : List Nat) :
    Mirrors Matching.values m (intArray width values) (intArray width values) :=
  (mirrors_createValue .nil _ _).bind fun _ _ _ _ helements =>
    mirrors_createValue (.cons helements .nil) _ _

end Script

open Script

variable {m m' : Matching}

/-- The argument block of a matched pointer. -/
theorem TensorBlock.mirrors_emit (block : TensorBlock) {pointer pointer' : ValueId}
    (hpointer : m.values pointer pointer') :
    Mirrors (fun m => List.Forall₂ m.values) m (block.emit pointer) (block.emit pointer') := by
  refine (mirrors_intArray 8 block.levels).bind fun m₁ hm₁ _ _ hlevels => ?_
  refine (mirrors_intArray 64 block.sizes).bind fun m₂ hm₂ _ _ hsizes => ?_
  refine (mirrors_intArray 64 block.permutation).bind fun m₃ hm₃ _ _ hpermutation => ?_
  refine (mirrors_intConstant 64 block.pointerOverhead).bind fun m₄ hm₄ _ _ hpointers => ?_
  refine (mirrors_intConstant 64 block.indexOverhead).bind fun m₅ hm₅ _ _ hindices => ?_
  refine (mirrors_intConstant 64 block.primary).bind fun m₆ hm₆ _ _ hprimary => ?_
  refine (mirrors_intConstant 32 block.action.code).bind fun m₇ hm₇ _ _ haction => ?_
  have h₆ := hm₇
  have h₅ := hm₆.trans h₆
  have h₄ := hm₅.trans h₅
  have h₃ := hm₄.trans h₄
  have h₂ := hm₃.trans h₃
  have h₁ := hm₂.trans h₂
  exact .done (.cons (h₁.1 _ _ hlevels) (.cons (h₂.1 _ _ hsizes) (.cons (h₃.1 _ _ hpermutation)
    (.cons (h₄.1 _ _ hpointers) (.cons (h₅.1 _ _ hindices) (.cons (h₆.1 _ _ hprimary)
      (.cons haction (.cons ((hm₁.trans h₁).1 _ _ hpointer) .nil))))))))

/-! ### Sites -/

/-- Sites that show the same operation over matched operands. -/
structure SameSite (m : Matching) (site site' : Site) : Prop where
  root : m.SameOp site.root site'.root
  operands : List.Forall₂ m.values site.operands site'.operands

/-- Sites stay the same. -/
theorem SameSite.mono (hle : m ≤ m') {site site' : Site} (h : SameSite m site site') :
    SameSite m' site site' := ⟨h.root.mono hle, forall₂_mono hle h.operands⟩

section Sites

variable {site site' : Site} (h : SameSite m site site')

include h

/-- One operand after renaming. -/
theorem SameSite.operand (index : Nat) :
    Mirrors Matching.values m (site.operand index) (site'.operand index) :=
  mirrors_ofExcept (fetch_alike h.operands index)

/-- One operand that the root was built with. -/
theorem SameSite.source (index : Nat) :
    Mirrors Matching.values m (site.source index) (site'.source index) :=
  mirrors_ofExcept (fetch_alike h.root.operands index)

/-- The type of one result of the root. -/
theorem SameSite.resultType (index : Nat) :
    Mirrors Same m (site.resultType index) (site'.resultType index) := by
  have hresult : Mirrors Matching.values m (ofExcept (Fault.fetch site.root.results index))
      (ofExcept (Fault.fetch site'.root.results index)) :=
    mirrors_ofExcept (fetch_alike h.root.results index)
  exact hresult.bind fun _ _ _ _ hv => mirrors_typeOf hv

/-- A new tensor from matched pointers. -/
theorem SameSite.replaceWithNewTensor (sparsity : Sparsity) (action : Action)
    {pointer pointer' : ValueId} (hpointer : m.values pointer pointer') :
    Mirrors Same m (site.replaceWithNewTensor sparsity action pointer)
      (site'.replaceWithNewTensor sparsity action pointer') := by
  refine (h.resultType 0).bind fun m₁ hm₁ ty _ hty => ?_
  subst hty
  refine (mirrors_ofExcept_self _).bind fun m₂ hm₂ block _ hblock => ?_
  subst hblock
  refine (block.mirrors_emit ((hm₁.trans hm₂).1 _ _ hpointer)).bind fun _ _ _ _ hargs => ?_
  exact (mirrors_replaceWithCall hargs _ _).bind fun _ _ _ _ _ => .done rfl

/-- The buffers of matched values. -/
theorem SameSite.exposeBuffer {v v' : ValueId} (hv : m.values v v') :
    Mirrors Matching.values m (site.exposeBuffer v) (site'.exposeBuffer v') := by
  refine (h.resultType 0).bind fun m₁ hm₁ ty _ hty => ?_
  subst hty
  refine (mirrors_ofOption_self ty.element?).bind fun m₂ hm₂ element _ helement => ?_
  subst helement
  refine (mirrors_ofOption_self _).bind fun m₃ hm₃ accessor _ haccessor => ?_
  subst haccessor
  refine (mirrors_ofOption_self ty.shape?).bind fun m₄ hm₄ shape _ hshape => ?_
  subst hshape
  have hv := (hm₁.trans (hm₂.trans (hm₃.trans hm₄))).1 _ _ hv
  refine (mirrors_createValue (.cons hv .nil) _ _).bind fun _ _ _ _ hbuffer => ?_
  refine (mirrors_createValue (.cons hbuffer .nil) _ _).bind fun _ _ _ _ hview => ?_
  refine (mirrors_createCall (.cons hview .nil) _ _).bind fun _ _ _ _ hresults => ?_
  exact mirrors_ofExcept (fetch_alike hresults 0)

end Sites

/-! ### The rules -/

namespace Lowering

variable {site site' : Site} (h : SameSite m site site')

include h

/-- Reading an array. -/
theorem mirrors_readArray (accessor? : Ty → Option String) :
    Mirrors Same m (readArray accessor? site) (readArray accessor? site') := by
  refine (h.resultType 0).bind fun m₁ hm₁ ty _ hty => ?_
  subst hty
  refine (mirrors_ofOption_self _).bind fun m₂ hm₂ accessor _ haccessor => ?_
  subst haccessor
  have hoperands := forall₂_mono (hm₁.trans hm₂) h.operands
  exact (mirrors_replaceWithCall hoperands _ _).bind fun _ _ _ _ _ => .done rfl

/-- Building a return again. -/
theorem mirrors_returnRule :
    Mirrors Same m (returnRule.attempt site) (returnRule.attempt site') :=
  (mirrors_replaceWithNew h.operands _ _).bind fun _ _ _ _ _ => .done rfl

/-- Asking for an extent. -/
theorem mirrors_dimSizeRule :
    Mirrors Same m (dimSizeRule.attempt site) (dimSizeRule.attempt site') := by
  refine (h.operand 0).bind fun m₁ hm₁ _ _ htensor => ?_
  refine (mirrors_typeOf htensor).bind fun m₂ hm₂ ty _ hty => ?_
  subst hty
  have hsite := h.mono (hm₁.trans hm₂)
  cases ty.isPtr with
  | false => exact .decline
  | true =>
    refine (hsite.resultType 0).bind fun m₃ hm₃ result _ hresult => ?_
    subst hresult
    exact (mirrors_replaceWithCall (hsite.mono hm₃).operands _ _).bind fun _ _ _ _ _ => .done rfl

/-- Making a tensor from a source. -/
theorem mirrors_newRule : Mirrors Same m (newRule.attempt site) (newRule.attempt site') := by
  refine (h.resultType 0).bind fun m₁ hm₁ ty _ hty => ?_
  subst hty
  refine (mirrors_ofOption_self _).bind fun m₂ hm₂ sparsity _ hsparsity => ?_
  subst hsparsity
  have hsite := h.mono (hm₁.trans hm₂)
  refine (hsite.operand 0).bind fun m₃ hm₃ _ _ hsource => ?_
  exact (hsite.mono hm₃).replaceWithNewTensor _ _ hsource

/-- Making a tensor from a buffer. -/
theorem mirrors_convertRule :
    Mirrors Same m (convertRule.attempt site) (convertRule.attempt site') := by
  refine (h.resultType 0).bind fun m₁ hm₁ ty _ hty => ?_
  subst hty
  refine (mirrors_ofOption_self _).bind fun m₂ hm₂ sparsity _ hsparsity => ?_
  subst hsparsity
  have hsite := h.mono (hm₁.trans hm₂)
  refine (hsite.source 0).bind fun m₃ hm₃ _ _ hsource => ?_
  refine (mirrors_typeOf hsource).bind fun m₄ hm₄ sourceTy _ hsourceTy => ?_
  subst hsourceTy
  have hsite := hsite.mono (hm₃.trans hm₄)
  cases sourceTy.isSparse with
  | true => exact .decline
  | false =>
    refine (hsite.operand 0).bind fun m₅ hm₅ _ _ hoperand => ?_
    refine ((hsite.mono hm₅).exposeBuffer hoperand).bind fun m₆ hm₆ _ _ hpointer => ?_
    exact (hsite.mono (hm₅.trans hm₆)).replaceWithNewTensor _ _ hpointer

/-- Putting a tensor together. -/
theorem mirrors_tensorRule :
    Mirrors Same m (tensorRule.attempt site) (tensorRule.attempt site') := by
  refine .inspect fun program program' hsound => ?_
  obtain ⟨answer, answer', hanswer, hanswer', hfound⟩ := hsound.commonHandle h.operands .none
  rw [hanswer, hanswer']
  have hhandle : Mirrors Matching.values m (ofOption answer) (ofOption answer') :=
    mirrors_ofOption hfound
  exact hhandle.bind fun _ _ _ _ hv => .replace (.cons hv .nil) (.done rfl)

/-- Every rule asks for the same at sites that are the same. -/
theorem mirrors_rules {pattern : Pattern} (hpattern : pattern ∈ rules) :
    Mirrors Same m (pattern.attempt site) (pattern.attempt site') := by
  simp only [rules, List.mem_cons, List.not_mem_nil, or_false] at hpattern
  rcases hpattern with rfl | rfl | rfl | rfl | rfl | rfl | rfl | rfl
  · exact mirrors_returnRule h
  · exact mirrors_dimSizeRule h
  · exact mirrors_newRule h
  · exact mirrors_convertRule h
  · exact mirrors_readArray h _
  · exact mirrors_readArray h _
  · exact mirrors_readArray h _
  · exact mirrors_tensorRule h

end Lowering

/-! ### Running on twins -/

/-- Attempts over twins that have made the same requests. -/
structure SameAttempt (m : Matching) (attempt attempt' : Attempt) : Prop where
  programs : m.Twins attempt.program attempt'.program
  inserted : List.Forall₂ m.ops attempt.inserted attempt'.inserted
  replacement : Option.Rel (List.Forall₂ m.values) attempt.replacement attempt'.replacement

/-- Naming the replacement goes through on both sides or on neither. -/
theorem SameAttempt.replace {attempt attempt' : Attempt} (h : SameAttempt m attempt attempt')
    {root root' : Operation} (hroot : m.SameOp root root') {values values' : List ValueId}
    (hvalues : List.Forall₂ m.values values values') :
    Alike (SameAttempt m) (attempt.replace root values) (attempt'.replace root' values') := by
  have hsome : attempt'.replacement.isSome = attempt.replacement.isSome :=
    isSome_of_optionRel h.replacement
  unfold Attempt.replace
  rw [hsome, ← hvalues.length_eq, ← hroot.results.length_eq]
  split
  · exact .error
  · split
    · exact .ok ⟨h.programs, h.inserted, .some hvalues⟩
    · exact .error

/-- Mirrored scripts end alike on twins, and leave twins behind. -/
theorem Script.Mirrors.run {α : Type} {rel : Matching → α → α → Prop} {script script' : Script α}
    (h : Mirrors rel m script script') {root root' : Operation} (hroot : m.SameOp root root')
    {attempt attempt' : Attempt} (hattempt : SameAttempt m attempt attempt') :
    Alike (fun out out' => ∃ m', m ≤ m' ∧ SameAttempt m' out.2 out'.2 ∧
        Option.Rel (rel m') out.1 out'.1)
      (script.run root attempt) (script'.run root' attempt') := by
  induction h generalizing attempt attempt' with
  | @done m _ _ h => exact .ok ⟨m, le_rfl, hattempt, .some h⟩
  | @decline m => exact .ok ⟨m, le_rfl, hattempt, .none⟩
  | fail => exact .error
  | inspect _ ih => exact ih _ _ hattempt.programs.sound hroot hattempt
  | @create m kind operands operands' types next next' hoperands _ ih =>
    obtain ⟨later, hle, htwins, hresults, hnext⟩ :=
      hattempt.programs.addOp hoperands kind types root.span
    have hgrown : SameAttempt later (attempt.create kind operands types root.span)
        (attempt'.create kind operands' types root'.span) := by
      refine ⟨hroot.span ▸ htwins, ?_, ?_⟩
      · exact List.rel_append (hattempt.inserted.imp hle.2) (.cons hnext .nil)
      · exact optionRel_imp (fun _ _ => forall₂_mono hle) hattempt.replacement
    exact (ih later hle _ _ hresults (hroot.mono hle) hgrown).imp
      fun _ _ ⟨last, hlast, hrest⟩ => ⟨last, hle.trans hlast, hrest⟩
  | @declare m name argTypes resultTypes next next' _ ih =>
    obtain ⟨later, hle, htwins⟩ := hattempt.programs.declare name argTypes resultTypes
    have hgrown : SameAttempt later (attempt.declare name argTypes resultTypes)
        (attempt'.declare name argTypes resultTypes) :=
      ⟨htwins, hattempt.inserted.imp hle.2,
        optionRel_imp (fun _ _ => forall₂_mono hle) hattempt.replacement⟩
    exact (ih later hle (hroot.mono hle) hgrown).imp
      fun _ _ ⟨last, hlast, hrest⟩ => ⟨last, hle.trans hlast, hrest⟩
  | replace hvalues _ ih =>
    simp only [Script.run]
    have hreplace := hattempt.replace hroot hvalues
    revert hreplace
    generalize attempt.replace root _ = answer
    generalize attempt'.replace root' _ = answer'
    rintro (⟨hsame⟩ | _)
    · exact ih hroot hsame
    · exact .error

end TensorLowering
