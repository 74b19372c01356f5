import Mathlib.Logic.Relator
import Mathlib.Order.Basic
import TensorLowering.Proofs.Rejections

/-!
# Programs that are the same up to ids

Two runs over the same code rarely hand out the same ids. A matching says which values and which
operations of two programs stand for each other; it is sound if what it matches looks the same in
both. Everything that the lowering reads from a program, it reads in the same way from both sides of
a sound matching: types, the evidence about a handle, the verdict about an operation, and the text of
a report up to the names of values.
-/

namespace TensorLowering

/-- Both computations have results, which are related, or both of them stop. -/
inductive Alike {ε α β : Type} (rel : α → β → Prop) : Except ε α → Except ε β → Prop
  | ok {a : α} {b : β} (h : rel a b) : Alike rel (.ok a) (.ok b)
  | error {fault fault' : ε} : Alike rel (.error fault) (.error fault')

section Alike

variable {ε α α' β β' : Type} {rel : α → α' → Prop} {run : Except ε α} {run' : Except ε α'}

/-- Continuing in related ways. -/
theorem Alike.bind {rel' : β → β' → Prop} {next : α → Except ε β} {next' : α' → Except ε β'}
    (h : Alike rel run run') (hnext : ∀ a a', rel a a' → Alike rel' (next a) (next' a')) :
    Alike rel' (run >>= next) (run' >>= next') := by
  cases h with
  | ok h => exact hnext _ _ h
  | error => exact .error

/-- The relation can be weakened. -/
theorem Alike.imp {rel' : α → α' → Prop} (h : Alike rel run run')
    (himp : ∀ a a', rel a a' → rel' a a') : Alike rel' run run' := by
  cases h with
  | ok h => exact .ok (himp _ _ h)
  | error => exact .error

/-- The related results are those of the two computations. -/
theorem Alike.with_eq (h : Alike rel run run') :
    Alike (fun a a' => rel a a' ∧ run = .ok a ∧ run' = .ok a') run run' := by
  cases h with
  | ok h => exact .ok ⟨h, rfl, rfl⟩
  | error => exact .error

/-- What is recorded does not matter. -/
theorem Alike.guard {run : Except Fault α} {run' : Except Fault α'} (h : Alike rel run run')
    (log log' : List Event) : Alike rel (Halt.guard log run) (Halt.guard log' run') := by
  cases h with
  | ok h => exact .ok h
  | error => exact .error

/-- The results of two computations that have results. -/
theorem Alike.of_ok (h : Alike rel run run') {a : α} {a' : α'} (hrun : run = .ok a)
    (hrun' : run' = .ok a') : rel a a' := by
  subst hrun hrun'
  cases h with
  | ok h => exact h

end Alike

/-- Optional results stay related under a weaker relation. -/
theorem optionRel_imp {α β : Type} {rel rel' : α → β → Prop} (himp : ∀ a b, rel a b → rel' a b)
    {a : Option α} {b : Option β} (h : Option.Rel rel a b) : Option.Rel rel' a b := by
  cases h with
  | some h => exact .some (himp _ _ h)
  | none => exact .none

/-- Related optional results are both there or both not. -/
theorem isSome_of_optionRel {α β : Type} {rel : α → β → Prop} {a : Option α} {b : Option β}
    (h : Option.Rel rel a b) : b.isSome = a.isSome := by
  cases h with
  | some _ => rfl
  | none => rfl

/-- Related lists have related entries. -/
theorem exists_getElem?_of_forall₂ {α β : Type} {rel : α → β → Prop} {xs : List α} {ys : List β}
    (h : List.Forall₂ rel xs ys) {i : Nat} {x : α} (hx : xs[i]? = some x) :
    ∃ y, ys[i]? = some y ∧ rel x y := by
  induction h generalizing i with
  | nil => simp at hx
  | cons hfirst _ ih =>
    cases i with
    | zero =>
      obtain rfl := Option.some.inj hx
      exact ⟨_, rfl, hfirst⟩
    | succ i => exact ih hx

/-- Entries of related lists are fetched alike. -/
theorem fetch_alike {α β : Type} {rel : α → β → Prop} {xs : List α} {ys : List β}
    (h : List.Forall₂ rel xs ys) (i : Nat) : Alike rel (Fault.fetch xs i) (Fault.fetch ys i) := by
  cases hx : xs[i]? with
  | some x =>
    obtain ⟨y, hy, hrel⟩ := exists_getElem?_of_forall₂ h hx
    rw [Fault.fetch_eq_ok.mpr hx, Fault.fetch_eq_ok.mpr hy]
    exact .ok hrel
  | none =>
    have hy : ys[i]? = none := by
      rw [List.getElem?_eq_none_iff] at hx ⊢
      exact h.length_eq ▸ hx
    simp only [Fault.fetch, hx, hy]
    exact .error

/-- Which values and which operations of two programs stand for each other. -/
structure Matching where
  values : ValueId → ValueId → Prop
  ops : OpId → OpId → Prop

namespace Matching

/-- A later matching matches all that an earlier one does. -/
instance : Preorder Matching where
  le m m' := (∀ v v', m.values v v' → m'.values v v') ∧ ∀ o o', m.ops o o' → m'.ops o o'
  le_refl _ := ⟨fun _ _ h => h, fun _ _ h => h⟩
  le_trans _ _ _ h h' :=
    ⟨fun v v' hv => h'.1 v v' (h.1 v v' hv), fun o o' ho => h'.2 o o' (h.2 o o' ho)⟩

/-- Operations that are the same up to the names of values. -/
structure SameOp (m : Matching) (op op' : Operation) : Prop where
  kind : op'.kind = op.kind
  operands : List.Forall₂ m.values op.operands op'.operands
  results : List.Forall₂ m.values op.results op'.results
  span : op'.span = op.span

/-- Values that come from arguments, or from the same place of matched operations. -/
inductive SameOrigin (m : Matching) : Origin → Origin → Prop
  | argument {func func' : FuncId} {k : Nat} : SameOrigin m (.argument func k) (.argument func' k)
  | result {id id' : OpId} {k : Nat} (h : m.ops id id') : SameOrigin m (.result id k) (.result id' k)

/-- Functions that are the same up to ids. -/
structure SameFunc (m : Matching) (func func' : Func) : Prop where
  name : func'.name = func.name
  args : List.Forall₂ m.values func.args func'.args
  argTypes : func'.argTypes = func.argTypes
  resultTypes : func'.resultTypes = func.resultTypes
  isPublic : func'.isPublic = func.isPublic
  body : Option.Rel (List.Forall₂ m.ops) func.body func'.body

/-- What is matched looks the same, and values are matched one to one. -/
structure Sound (m : Matching) (program program' : Program) : Prop where
  values : ∀ v v', m.values v v' → ∃ ty origin origin',
    program.values[v.index]? = some ⟨ty, origin⟩ ∧
    program'.values[v'.index]? = some ⟨ty, origin'⟩ ∧ m.SameOrigin origin origin'
  ops : ∀ o o', m.ops o o' → ∃ op op', program.ops[o.index]? = some op ∧
    program'.ops[o'.index]? = some op' ∧ m.SameOp op op'
  unique : Relator.BiUnique m.values

variable {m m' : Matching}

/-! ### Later matchings -/

/-- Lists of values stay matched. -/
theorem forall₂_mono (hle : m ≤ m') {ids ids' : List ValueId}
    (h : List.Forall₂ m.values ids ids') : List.Forall₂ m'.values ids ids' := h.imp hle.1

/-- Operations stay the same. -/
theorem SameOp.mono (hle : m ≤ m') {op op' : Operation} (h : m.SameOp op op') : m'.SameOp op op' :=
  ⟨h.kind, forall₂_mono hle h.operands, forall₂_mono hle h.results, h.span⟩

/-- Origins stay the same. -/
theorem SameOrigin.mono (hle : m ≤ m') {origin origin' : Origin} (h : m.SameOrigin origin origin') :
    m'.SameOrigin origin origin' := by
  cases h with
  | argument => exact .argument
  | result h => exact .result (hle.2 _ _ h)

/-- Functions stay the same. -/
theorem SameFunc.mono (hle : m ≤ m') {func func' : Func} (h : m.SameFunc func func') :
    m'.SameFunc func func' where
  name := h.name
  args := forall₂_mono hle h.args
  argTypes := h.argTypes
  resultTypes := h.resultTypes
  isPublic := h.isPublic
  body := optionRel_imp (fun _ _ hbody => hbody.imp hle.2) h.body

/-- The blocks of functions that are the same. -/
theorem SameFunc.bodyOps {func func' : Func} (h : m.SameFunc func func') :
    List.Forall₂ m.ops func.bodyOps func'.bodyOps := by
  have hbody := h.body
  unfold Func.bodyOps
  generalize func.body = body at hbody
  generalize func'.body = body' at hbody
  cases hbody with
  | none => exact .nil
  | some hblock => exact hblock

/-- The name of an operation depends on its kind. -/
theorem SameOp.name {op op' : Operation} (h : m.SameOp op op') : op'.name = op.name := by
  rw [Operation.name, Operation.name, h.kind]

/-! ### Reading from both sides -/

variable {program program' : Program} (h : m.Sound program program') {v v' : ValueId}
  {ids ids' : List ValueId}

include h

/-- A matched value has one type. -/
theorem Sound.typeOf (hv : m.values v v') :
    ∃ ty, program.typeOf v = .ok ty ∧ program'.typeOf v' = .ok ty := by
  obtain ⟨ty, origin, origin', hvalue, hvalue', -⟩ := h.values v v' hv
  exact ⟨ty, Program.typeOf_eq_ok.mpr ⟨origin, hvalue⟩, Program.typeOf_eq_ok.mpr ⟨origin', hvalue'⟩⟩

/-- Matched values have the same types. -/
theorem Sound.typesOf (hids : List.Forall₂ m.values ids ids') :
    ∃ types, program.typesOf ids = .ok types ∧ program'.typesOf ids' = .ok types := by
  induction hids with
  | nil => exact ⟨[], rfl, rfl⟩
  | cons hfirst _ ih =>
    obtain ⟨ty, hty, hty'⟩ := h.typeOf hfirst
    obtain ⟨types, htypes, htypes'⟩ := ih
    exact ⟨ty :: types, bind_eq_ok.mpr ⟨ty, hty, bind_eq_ok.mpr ⟨types, htypes, rfl⟩⟩,
      bind_eq_ok.mpr ⟨ty, hty', bind_eq_ok.mpr ⟨types, htypes', rfl⟩⟩⟩

omit h

/-- Evidence about matched handles. -/
inductive SameEvidence (m : Matching) : Lowering.Evidence → Lowering.Evidence → Prop
  | silent : SameEvidence m .silent .silent
  | handle {v v' : ValueId} (h : m.values v v') : SameEvidence m (.handle v) (.handle v')
  | foreign : SameEvidence m .foreign .foreign

include h

/-- Matched operands show the same. -/
theorem Sound.shows (hv : m.values v v') : ∃ seen seen', Lowering.Shows program v seen ∧
    Lowering.Shows program' v' seen' ∧ m.SameEvidence seen seen' := by
  obtain ⟨ty, origin, origin', hvalue, hvalue', horigin⟩ := h.values v v' hv
  cases horigin with
  | argument => exact ⟨_, _, .argument hvalue, .argument hvalue', .silent⟩
  | result hops =>
    obtain ⟨op, op', hop, hop', hsame⟩ := h.ops _ _ hops
    rcases Lowering.callee?_cases op.kind with hnone | ⟨name, hcall⟩
    · exact ⟨_, _, .other hvalue hop hnone, .other hvalue' hop' (hsame.kind ▸ hnone), .silent⟩
    · have hcall' := hsame.kind.trans hcall
      have hoperands := hsame.operands
      generalize hleft : op.operands = operands at hoperands
      generalize hright : op'.operands = operands' at hoperands
      cases hoperands with
      | nil => exact ⟨_, _, .bare hvalue hop hcall hleft, .bare hvalue' hop' hcall' hright, .foreign⟩
      | cons hfirst _ =>
        obtain ⟨firstTy, hty, hty'⟩ := h.typeOf hfirst
        cases hptr : firstTy.isPtr with
        | true =>
          obtain rfl := Lowering.isPtr_eq_true.mp hptr
          exact ⟨_, _, .handle hvalue hop hcall (by rw [hleft]; rfl) hty,
            .handle hvalue' hop' hcall' (by rw [hright]; rfl) hty', .handle hfirst⟩
        | false =>
          exact ⟨_, _, .foreign hvalue hop hcall (by rw [hleft]; rfl) hty hptr,
            .foreign hvalue' hop' hcall' (by rw [hright]; rfl) hty' hptr, .foreign⟩

/-- Matched operands have matched handles in common, or none. -/
theorem Sound.commonHandle (hids : List.Forall₂ m.values ids ids') {found found' : Option ValueId}
    (hfound : Option.Rel m.values found found') : ∃ answer answer',
      Lowering.commonHandle program found ids = .ok answer ∧
      Lowering.commonHandle program' found' ids' = .ok answer' ∧
      Option.Rel m.values answer answer' := by
  induction hids generalizing found found' with
  | nil => exact ⟨found, found', rfl, rfl, hfound⟩
  | cons hfirst _ ih =>
    obtain ⟨seen, seen', hseen, hseen', hsame⟩ := h.shows hfirst
    simp only [Lowering.commonHandle_cons]
    cases hsame with
    | silent =>
      obtain ⟨answer, answer', hanswer, hanswer', hrel⟩ := ih hfound
      exact ⟨answer, answer', .inl ⟨hseen, hanswer⟩, .inl ⟨hseen', hanswer'⟩, hrel⟩
    | foreign =>
      exact ⟨none, none, .inr (.inl ⟨hseen, rfl⟩), .inr (.inl ⟨hseen', rfl⟩), .none⟩
    | @handle w w' hw =>
      obtain ⟨answer, answer', hanswer, hanswer', hrel⟩ := ih (.some hw)
      cases hfound with
      | none =>
        exact ⟨answer, answer', .inr (.inr ⟨w, hseen, .inl ⟨.inl rfl, hanswer⟩⟩),
          .inr (.inr ⟨w', hseen', .inl ⟨.inl rfl, hanswer'⟩⟩), hrel⟩
      | @some u u' hu =>
        by_cases heq : u = w
        · subst heq
          obtain rfl := h.unique.2 hu hw
          exact ⟨answer, answer', .inr (.inr ⟨u, hseen, .inl ⟨.inr rfl, hanswer⟩⟩),
            .inr (.inr ⟨u', hseen', .inl ⟨.inr rfl, hanswer'⟩⟩), hrel⟩
        · have heq' : u' ≠ w' := fun hsame => heq (h.unique.1 hu (hsame ▸ hw))
          exact ⟨none, none, .inr (.inr ⟨w, hseen, .inr ⟨⟨u, rfl, heq⟩, rfl⟩⟩),
            .inr (.inr ⟨w', hseen', .inr ⟨⟨u', rfl, heq'⟩, rfl⟩⟩), .none⟩

/-! ### Verdicts and reports -/

/-- Matched values are sparse tensors alike. -/
theorem Sound.noneSparse (hids : List.Forall₂ m.values ids ids') : ∃ answer,
    Legality.noneSparse program ids = .ok answer ∧
      Legality.noneSparse program' ids' = .ok answer := by
  induction hids with
  | nil => exact ⟨true, rfl, rfl⟩
  | cons hfirst _ ih =>
    obtain ⟨ty, hty, hty'⟩ := h.typeOf hfirst
    obtain ⟨answer, hanswer, hanswer'⟩ := ih
    cases hsparse : ty.isSparse with
    | true =>
      exact ⟨false, bind_eq_ok.mpr ⟨ty, hty, by simp [hsparse, pure_eq_ok]⟩,
        bind_eq_ok.mpr ⟨ty, hty', by simp [hsparse, pure_eq_ok]⟩⟩
    | false =>
      exact ⟨answer, bind_eq_ok.mpr ⟨ty, hty, by simpa [hsparse] using hanswer⟩,
        bind_eq_ok.mpr ⟨ty, hty', by simpa [hsparse] using hanswer'⟩⟩

/-- The verdict is the same about operations that are the same. -/
theorem Sound.isLegal {op op' : Operation} (hop : m.SameOp op op') :
    Alike Eq (Lowering.legality.isLegal program op) (Lowering.legality.isLegal program' op') := by
  rcases Lowering.kind_cases op.kind with hkind | hkind | hkind | hkind
  · rw [Lowering.isLegal_of_ret hkind, Lowering.isLegal_of_ret (hop.kind.trans hkind)]
    obtain ⟨answer, hanswer, hanswer'⟩ := h.noneSparse hop.operands
    rw [hanswer, hanswer']
    exact .ok rfl
  · rw [Lowering.isLegal_of_tensorDim hkind, Lowering.isLegal_of_tensorDim (hop.kind.trans hkind)]
    refine (fetch_alike hop.operands 0).bind fun v v' hv => ?_
    obtain ⟨ty, hty, hty'⟩ := h.typeOf hv
    rw [hty, hty']
    exact .ok rfl
  · rw [Lowering.isLegal_of_sparse hkind, Lowering.isLegal_of_sparse (hop.kind ▸ hkind)]
    exact .ok rfl
  · rw [Lowering.isLegal_of_plain hkind, Lowering.isLegal_of_plain (hop.kind ▸ hkind)]
    exact .ok rfl

omit h

/-- Reports about operations that are the same, in the same function and with the same types. -/
def SameReport (m : Matching) (report report' : Diagnostic) : Prop :=
  ∃ op op' func operandTypes resultTypes, m.SameOp op op' ∧
    report = Conversion.illegalOp op func (op.render operandTypes resultTypes) ∧
    report' = Conversion.illegalOp op' func (op'.render operandTypes resultTypes)

include h

/-- The reports about matched blocks are the same. -/
theorem Sound.illegalOps {ops ops' : List OpId} (hops : List.Forall₂ m.ops ops ops')
    (func : String) : Alike (List.Forall₂ m.SameReport)
      (Conversion.illegalOps Lowering.legality program func ops)
      (Conversion.illegalOps Lowering.legality program' func ops') := by
  induction hops with
  | nil => exact .ok .nil
  | cons hfirst _ ih =>
    obtain ⟨op, op', hop, hop', hsame⟩ := h.ops _ _ hfirst
    simp only [Conversion.illegalOps, Program.op_eq_ok.mpr hop, Program.op_eq_ok.mpr hop']
    refine (h.isLegal hsame).bind fun legal legal' hlegal => ?_
    subst hlegal
    cases legal with
    | true => exact ih
    | false =>
      obtain ⟨operandTypes, hoperands, hoperands'⟩ := h.typesOf hsame.operands
      obtain ⟨resultTypes, hresults, hresults'⟩ := h.typesOf hsame.results
      simp only [Program.renderOp, Program.op_eq_ok.mpr hop, Program.op_eq_ok.mpr hop', bind,
        Except.bind, hoperands, hoperands', hresults, hresults', pure, Except.pure,
        Bool.false_eq_true, ↓reduceIte]
      refine Alike.bind ih fun reports reports' hreports => .ok (.cons ?_ hreports)
      exact ⟨op, op', func, operandTypes, resultTypes, hsame, rfl, rfl⟩

end Matching

end TensorLowering
