import TensorLowering.Proofs.Expansions
import TensorLowering.Proofs.Scoping

/-!
# What the operands of a tensor show, and what does not depend on when one looks

The evidence of an operand is restated as a relation with one case for each way to come to it, and
the common handle of a list as a statement about its members. Both, and with them every expansion and
every reason to decline, stay true while values are added and operations are marked as erased.
-/

namespace TensorLowering

namespace Program

/-- Values are added, and operations are added or marked as erased. -/
structure Extends (before after : Program) : Prop where
  values : before.values <+: after.values
  ops : ∀ (o : Nat) (op : Operation), before.ops[o]? = some op →
    ∃ erased, after.ops[o]? = some { op with erased }

/-- Continuing a program extends it. -/
theorem Grows.extends {before after : Program} {new : List Operation} (h : before.Grows after new) :
    before.Extends after where
  values := h.values
  ops _ op hop := ⟨op.erased, getElem?_mono ⟨new, h.ops.symm⟩ hop⟩

/-- Marking an operation as erased extends a program. -/
theorem Extends.eraseOp (program : Program) (id : OpId) : program.Extends (program.eraseOp id) where
  values := List.prefix_rfl
  ops o op hop := by
    simp only [Program.eraseOp, modifyOp, List.getElem?_modify, hop, Option.map_eq_map,
      Option.map_some]
    split
    · exact ⟨true, rfl⟩
    · exact ⟨op.erased, rfl⟩

/-- Changing a function leaves values and operations alone. -/
theorem Extends.modifyFunc (program : Program) (id : FuncId) (change : Func → Func) :
    program.Extends (program.modifyFunc id change) where
  values := List.prefix_rfl
  ops _ op hop := ⟨op.erased, hop⟩

/-- Extensions compose. -/
theorem Extends.trans {first second third : Program} (h : first.Extends second)
    (h' : second.Extends third) : first.Extends third where
  values := h.values.trans h'.values
  ops o op hop := by
    obtain ⟨erased, hop'⟩ := h.ops o op hop
    obtain ⟨erased', hop''⟩ := h'.ops o _ hop'
    exact ⟨erased', hop''⟩

end Program

namespace Lowering

variable {program before after : Program}

/-- What an operand shows about the handle of a tensor, case by case. -/
inductive Shows (program : Program) (operand : ValueId) : Evidence → Prop
  | argument {ty : Ty} {func : FuncId} {k : Nat} :
      program.values[operand.index]? = some ⟨ty, .argument func k⟩ → Shows program operand .silent
  | other {ty : Ty} {id : OpId} {k : Nat} {op : Operation} :
      program.values[operand.index]? = some ⟨ty, .result id k⟩ →
      program.ops[id.index]? = some op → op.kind.callee? = none → Shows program operand .silent
  | bare {ty : Ty} {id : OpId} {k : Nat} {op : Operation} {name : String} :
      program.values[operand.index]? = some ⟨ty, .result id k⟩ →
      program.ops[id.index]? = some op → op.kind = .call name → op.operands = [] →
      Shows program operand .foreign
  | handle {ty : Ty} {id : OpId} {k : Nat} {op : Operation} {name : String} {first : ValueId} :
      program.values[operand.index]? = some ⟨ty, .result id k⟩ →
      program.ops[id.index]? = some op → op.kind = .call name → op.operands.head? = some first →
      program.typeOf first = .ok .ptr → Shows program operand (.handle first)
  | foreign {ty firstTy : Ty} {id : OpId} {k : Nat} {op : Operation} {name : String}
      {first : ValueId} :
      program.values[operand.index]? = some ⟨ty, .result id k⟩ →
      program.ops[id.index]? = some op → op.kind = .call name → op.operands.head? = some first →
      program.typeOf first = .ok firstTy → firstTy.isPtr = false → Shows program operand .foreign

/-- Only the handle type is recognized as one. -/
theorem isPtr_eq_true {ty : Ty} : ty.isPtr = true ↔ ty = .ptr := by
  cases ty <;> simp [Ty.isPtr]

/-- Only calls have a callee. -/
theorem callee?_cases (kind : OpKind) : kind.callee? = none ∨ ∃ name, kind = .call name := by
  cases kind <;> simp [OpKind.callee?]

/-- The evidence of an operand is what it shows. -/
theorem evidence_eq_ok {operand : ValueId} {seen : Evidence} :
    evidence program operand = .ok seen ↔ Shows program operand seen := by
  simp only [evidence, bind_eq_ok, Program.definingOp?_eq_ok]
  constructor
  · rintro ⟨_, ⟨⟨ty, origin⟩, hvalue, rfl⟩, hseen⟩
    cases origin with
    | argument func k =>
      obtain rfl := pure_eq_ok.mp hseen
      exact .argument hvalue
    | result id k =>
      simp only [Origin.op?, bind_eq_ok, Program.op_eq_ok] at hseen
      obtain ⟨op, hop, hseen⟩ := hseen
      rcases callee?_cases op.kind with hkind | ⟨name, hkind⟩
      · simp only [hkind, Option.isNone_none, ↓reduceIte] at hseen
        obtain rfl := pure_eq_ok.mp hseen
        exact .other hvalue hop hkind
      · simp only [hkind, OpKind.callee?, Option.isNone_some, Bool.false_eq_true,
          ↓reduceIte] at hseen
        cases hoperands : op.operands with
        | nil =>
          rw [hoperands] at hseen
          obtain rfl := pure_eq_ok.mp hseen
          exact .bare hvalue hop hkind hoperands
        | cons first rest =>
          simp only [hoperands, bind_eq_ok] at hseen
          obtain ⟨firstTy, hfirst, hseen⟩ := hseen
          obtain rfl := pure_eq_ok.mp hseen
          cases hptr : firstTy.isPtr with
          | true =>
            exact .handle hvalue hop hkind (by simp [hoperands]) (isPtr_eq_true.mp hptr ▸ hfirst)
          | false => exact .foreign hvalue hop hkind (by simp [hoperands]) hfirst hptr
  · intro hshows
    cases hshows with
    | argument hvalue => exact ⟨none, ⟨_, hvalue, rfl⟩, rfl⟩
    | @other ty id k op hvalue hop hkind =>
      refine ⟨some id, ⟨_, hvalue, rfl⟩, ?_⟩
      simp only [bind_eq_ok, Program.op_eq_ok]
      exact ⟨op, hop, by simp [hkind, pure, Except.pure]⟩
    | @bare ty id k op name hvalue hop hkind hoperands =>
      refine ⟨some id, ⟨_, hvalue, rfl⟩, ?_⟩
      simp only [bind_eq_ok, Program.op_eq_ok]
      exact ⟨op, hop, by simp [hkind, OpKind.callee?, hoperands, pure, Except.pure]⟩
    | @handle ty id k op name first hvalue hop hkind hfirst hty =>
      obtain ⟨rest, hoperands⟩ := List.head?_eq_some_iff.mp hfirst
      refine ⟨some id, ⟨_, hvalue, rfl⟩, ?_⟩
      simp only [bind_eq_ok, Program.op_eq_ok]
      refine ⟨op, hop, ?_⟩
      simp only [hkind, OpKind.callee?, Option.isNone_some, Bool.false_eq_true, ↓reduceIte,
        hoperands, bind_eq_ok]
      exact ⟨.ptr, hty, rfl⟩
    | @foreign ty firstTy id k op name first hvalue hop hkind hfirst hty hptr =>
      obtain ⟨rest, hoperands⟩ := List.head?_eq_some_iff.mp hfirst
      refine ⟨some id, ⟨_, hvalue, rfl⟩, ?_⟩
      simp only [bind_eq_ok, Program.op_eq_ok]
      refine ⟨op, hop, ?_⟩
      simp only [hkind, OpKind.callee?, Option.isNone_some, Bool.false_eq_true, ↓reduceIte,
        hoperands, bind_eq_ok]
      exact ⟨firstTy, hty, by simp [hptr, pure, Except.pure]⟩

/-- Evidence does not depend on when one looks. -/
theorem Shows.mono (hext : before.Extends after) {operand : ValueId} {seen : Evidence}
    (h : Shows before operand seen) : Shows after operand seen := by
  cases h with
  | argument hvalue => exact .argument (getElem?_mono hext.values hvalue)
  | other hvalue hop hkind =>
    obtain ⟨erased, hop'⟩ := hext.ops _ _ hop
    exact .other (getElem?_mono hext.values hvalue) hop' hkind
  | bare hvalue hop hkind hoperands =>
    obtain ⟨erased, hop'⟩ := hext.ops _ _ hop
    exact .bare (getElem?_mono hext.values hvalue) hop' hkind hoperands
  | handle hvalue hop hkind hfirst hty =>
    obtain ⟨erased, hop'⟩ := hext.ops _ _ hop
    exact .handle (getElem?_mono hext.values hvalue) hop' hkind hfirst
      (Program.typeOf_mono hext.values hty)
  | foreign hvalue hop hkind hfirst hty hptr =>
    obtain ⟨erased, hop'⟩ := hext.ops _ _ hop
    exact .foreign (getElem?_mono hext.values hvalue) hop' hkind hfirst
      (Program.typeOf_mono hext.values hty) hptr

/-- The result of an operation shows something if the first operand of the operation has a type. -/
theorem exists_shows_of_result {x : ValueId} {ty : Ty} {id : OpId} {k : Nat} {op : Operation}
    (hvalue : program.values[x.index]? = some ⟨ty, .result id k⟩)
    (hop : program.ops[id.index]? = some op)
    (hfirst : ∀ first, op.operands.head? = some first → ∃ ty, program.typeOf first = .ok ty) :
    ∃ seen, Shows program x seen := by
  rcases callee?_cases op.kind with hnone | ⟨name, hkind⟩
  · exact ⟨_, .other hvalue hop hnone⟩
  cases hhead : op.operands.head? with
  | none => exact ⟨_, .bare hvalue hop hkind (List.head?_eq_none_iff.mp hhead)⟩
  | some first =>
    obtain ⟨firstTy, hfirstTy⟩ := hfirst first hhead
    cases hptr : firstTy.isPtr with
    | true => exact ⟨_, .handle hvalue hop hkind hhead (isPtr_eq_true.mp hptr ▸ hfirstTy)⟩
    | false => exact ⟨_, .foreign hvalue hop hkind hhead hfirstTy hptr⟩

/-- What a list of operands tells beyond its first member. -/
theorem commonHandle_cons {found answer : Option ValueId} {operand : ValueId}
    {rest : List ValueId} : commonHandle program found (operand :: rest) = .ok answer ↔
      (Shows program operand .silent ∧ commonHandle program found rest = .ok answer) ∨
      (Shows program operand .foreign ∧ answer = none) ∨
      ∃ id, Shows program operand (.handle id) ∧
        (((found = none ∨ found = some id) ∧ commonHandle program (some id) rest = .ok answer) ∨
          (∃ other, found = some other ∧ other ≠ id) ∧ answer = none) := by
  simp only [commonHandle, bind_eq_ok, evidence_eq_ok]
  constructor
  · rintro ⟨seen, hseen, hrest⟩
    cases seen with
    | silent => exact .inl ⟨hseen, hrest⟩
    | foreign => exact .inr (.inl ⟨hseen, (pure_eq_ok.mp hrest).symm⟩)
    | handle id =>
      refine .inr (.inr ⟨id, hseen, ?_⟩)
      cases found with
      | none => exact .inl ⟨.inl rfl, hrest⟩
      | some other =>
        by_cases hother : other = id
        · subst hother
          exact .inl ⟨.inr rfl, by simpa using hrest⟩
        · have hfalse : ((some other).isNone || some other == some id) = false := by simp [hother]
          simp only [hfalse, Bool.false_eq_true, ↓reduceIte] at hrest
          exact .inr ⟨⟨other, rfl, hother⟩, (pure_eq_ok.mp hrest).symm⟩
  · rintro (⟨hseen, hrest⟩ | ⟨hseen, rfl⟩ | ⟨id, hseen, ⟨hfound, hrest⟩ | ⟨⟨other, rfl, hne⟩, rfl⟩⟩)
    · exact ⟨.silent, hseen, hrest⟩
    · exact ⟨.foreign, hseen, rfl⟩
    · refine ⟨.handle id, hseen, ?_⟩
      rcases hfound with rfl | rfl <;> simpa using hrest
    · exact ⟨.handle id, hseen, by simp [hne, pure, Except.pure]⟩

/-- The common handle does not depend on when one looks. -/
theorem commonHandle_mono (hext : before.Extends after) {found answer : Option ValueId}
    {operands : List ValueId} (h : commonHandle before found operands = .ok answer) :
    commonHandle after found operands = .ok answer := by
  induction operands generalizing found with
  | nil => exact h
  | cons operand rest ih =>
    rw [commonHandle_cons] at h ⊢
    rcases h with ⟨hseen, hrest⟩ | ⟨hseen, hnone⟩ | ⟨id, hseen, ⟨hfound, hrest⟩ | hother⟩
    · exact .inl ⟨hseen.mono hext, ih hrest⟩
    · exact .inr (.inl ⟨hseen.mono hext, hnone⟩)
    · exact .inr (.inr ⟨id, hseen.mono hext, .inl ⟨hfound, ih hrest⟩⟩)
    · exact .inr (.inr ⟨id, hseen.mono hext, .inr hother⟩)

/-- With one handle found, the others must show the same one or nothing. -/
theorem commonHandle_some {found handle : ValueId} {operands : List ValueId} :
    commonHandle program (some found) operands = .ok (some handle) ↔ found = handle ∧
      ∀ x ∈ operands, Shows program x .silent ∨ Shows program x (.handle handle) := by
  induction operands generalizing found with
  | nil => simp [commonHandle]
  | cons operand rest ih =>
    simp only [commonHandle_cons, reduceCtorEq, and_false, false_or, Option.some.injEq,
      List.forall_mem_cons, or_false, ih]
    constructor
    · rintro (⟨hseen, rfl, hrest⟩ | ⟨id, hseen, rfl, rfl, hrest⟩)
      · exact ⟨rfl, .inl hseen, hrest⟩
      · exact ⟨rfl, .inr hseen, hrest⟩
    · rintro ⟨rfl, hseen | hseen, hrest⟩
      · exact .inl ⟨hseen, rfl, hrest⟩
      · exact .inr ⟨found, hseen, rfl, rfl, hrest⟩

/-- Operands have a common handle if every one shows it or nothing, and some one shows it. -/
theorem commonHandle_eq_some {handle : ValueId} {operands : List ValueId} :
    commonHandle program none operands = .ok (some handle) ↔
      (∀ x ∈ operands, Shows program x .silent ∨ Shows program x (.handle handle)) ∧
        ∃ x ∈ operands, Shows program x (.handle handle) := by
  induction operands with
  | nil => simp [commonHandle]
  | cons operand rest ih =>
    simp only [commonHandle_cons, reduceCtorEq, and_false, false_or, false_and, exists_false,
      or_false, true_and, List.forall_mem_cons, List.exists_mem_cons_iff, ih,
      commonHandle_some]
    constructor
    · rintro (⟨hseen, hrest, hsome⟩ | ⟨id, hseen, rfl, hrest⟩)
      · exact ⟨⟨.inl hseen, hrest⟩, .inr hsome⟩
      · exact ⟨⟨.inr hseen, hrest⟩, .inl hseen⟩
    · rintro ⟨⟨hseen | hseen, hrest⟩, hsome⟩
      · refine .inl ⟨hseen, hrest, hsome.resolve_left fun hother => ?_⟩
        have := (evidence_eq_ok.mpr hseen).symm.trans (evidence_eq_ok.mpr hother)
        simp at this
      · exact .inr ⟨handle, hseen, rfl, hrest⟩

/-! ### Tensors that can be folded -/

/-- The value is a result of this call. -/
def ResultOfCall (program : Program) (v : ValueId) (call : Operation) : Prop :=
  ∃ ty id k name, program.values[v.index]? = some ⟨ty, .result id k⟩ ∧
    program.ops[id.index]? = some call ∧ call.kind = .call name

/-- Some of the values are results of calls, and all these calls have one handle as their first
operand. -/
structure FoldsInto (program : Program) (values : List ValueId) (handle : ValueId) : Prop where
  ptr : program.typeOf handle = .ok .ptr
  called : ∃ v ∈ values, ∃ call, ResultOfCall program v call
  first : ∀ v ∈ values, ∀ call, ResultOfCall program v call → call.operands.head? = some handle

/-- The result of a call shows a handle if the call was given one, and contradicts otherwise. -/
theorem ResultOfCall.shows {v : ValueId} {call : Operation} (h : ResultOfCall program v call)
    {seen : Evidence} (hshows : Shows program v seen) :
    (∃ handle, seen = .handle handle ∧ call.operands.head? = some handle) ∨
      seen = .foreign ∧ ∀ handle, program.typeOf handle = .ok .ptr →
        call.operands.head? ≠ some handle := by
  obtain ⟨ty, id, k, name, hvalue, hcall, hkind⟩ := h
  cases hshows with
  | argument hvalue' => simp [hvalue] at hvalue'
  | other hvalue' hop hplain =>
    obtain ⟨-, rfl, -⟩ : _ ∧ id = _ ∧ _ := by simpa [hvalue] using hvalue'
    obtain rfl := Option.some.inj (hcall.symm.trans hop)
    simp [hkind, OpKind.callee?] at hplain
  | bare hvalue' hop _ hoperands =>
    obtain ⟨-, rfl, -⟩ : _ ∧ id = _ ∧ _ := by simpa [hvalue] using hvalue'
    obtain rfl := Option.some.inj (hcall.symm.trans hop)
    exact .inr ⟨rfl, by simp [hoperands]⟩
  | handle hvalue' hop _ hfirst =>
    obtain ⟨-, rfl, -⟩ : _ ∧ id = _ ∧ _ := by simpa [hvalue] using hvalue'
    obtain rfl := Option.some.inj (hcall.symm.trans hop)
    exact .inl ⟨_, rfl, hfirst⟩
  | foreign hvalue' hop _ hfirst hty hptr =>
    obtain ⟨-, rfl, -⟩ : _ ∧ id = _ ∧ _ := by simpa [hvalue] using hvalue'
    obtain rfl := Option.some.inj (hcall.symm.trans hop)
    refine .inr ⟨rfl, fun handle hhandle hsame => ?_⟩
    obtain rfl := Option.some.inj (hfirst.symm.trans hsame)
    obtain rfl := Except.ok.inj (hty.symm.trans hhandle)
    simp [Ty.isPtr] at hptr

/-- What shows a handle is the result of a call that was given it first. -/
theorem Shows.resultOfCall {v handle : ValueId} (h : Shows program v (.handle handle)) :
    program.typeOf handle = .ok .ptr ∧ ∃ call, ResultOfCall program v call := by
  cases h with
  | handle hvalue hop hkind hfirst hty => exact ⟨hty, _, _, _, _, _, hvalue, hop, hkind⟩

/-- What contradicts is the result of a call that was not given a handle first. -/
theorem Shows.resultOfCall_of_foreign {v : ValueId} (h : Shows program v .foreign) :
    ∃ call, ResultOfCall program v call := by
  cases h with
  | bare hvalue hop hkind => exact ⟨_, _, _, _, _, hvalue, hop, hkind⟩
  | foreign hvalue hop hkind => exact ⟨_, _, _, _, _, hvalue, hop, hkind⟩

/-- Values with a common handle fold into it. -/
theorem foldsInto_of_commonHandle {values : List ValueId} {handle : ValueId}
    (h : commonHandle program none values = .ok (some handle)) : FoldsInto program values handle := by
  obtain ⟨hall, v, hv, hshows⟩ := commonHandle_eq_some.mp h
  obtain ⟨hptr, call, hcall⟩ := hshows.resultOfCall
  refine ⟨hptr, ⟨v, hv, call, hcall⟩, fun w hw call' hcall' => ?_⟩
  rcases hall w hw with hsilent | hhandle
  · rcases hcall'.shows hsilent with ⟨_, hseen, -⟩ | ⟨hseen, -⟩ <;> simp at hseen
  · rcases hcall'.shows hhandle with ⟨other, hseen, hfirst⟩ | ⟨hseen, -⟩
    · rwa [Evidence.handle.inj hseen]
    · simp at hseen

/-- If all calls among the values have one handle first, no contradiction is found; so an answer
without a handle means that there is no call. -/
theorem no_call_of_commonHandle {values : List ValueId} {handle : ValueId} {found : Option ValueId}
    (hptr : program.typeOf handle = .ok .ptr)
    (hfirst : ∀ v ∈ values, ∀ call, ResultOfCall program v call →
      call.operands.head? = some handle)
    (hfound : found = none ∨ found = some handle)
    (h : commonHandle program found values = .ok none) :
    found = none ∧ ∀ v ∈ values, ∀ call, ¬ResultOfCall program v call := by
  induction values generalizing found with
  | nil =>
    obtain rfl : found = none := by simpa [commonHandle] using h
    exact ⟨rfl, by simp⟩
  | cons v rest ih =>
    have hrest := fun w hw => hfirst w (List.mem_cons_of_mem v hw)
    rcases commonHandle_cons.mp h with
      ⟨hshows, hnone⟩ | ⟨hshows, -⟩ | ⟨id, hshows, ⟨-, hnone⟩ | ⟨⟨other, hother, hne⟩, -⟩⟩
    · obtain ⟨rfl, hcalls⟩ := ih hrest hfound hnone
      refine ⟨rfl, List.forall_mem_cons.mpr ⟨fun call hcall => ?_, hcalls⟩⟩
      rcases hcall.shows hshows with ⟨_, hseen, -⟩ | ⟨hseen, -⟩ <;> simp at hseen
    · obtain ⟨call, hcall⟩ := hshows.resultOfCall_of_foreign
      rcases hcall.shows hshows with ⟨_, hseen, -⟩ | ⟨-, hne⟩
      · simp at hseen
      · exact absurd (hfirst v List.mem_cons_self call hcall) (hne handle hptr)
    · obtain ⟨-, call, hcall⟩ := hshows.resultOfCall
      rcases hcall.shows hshows with ⟨_, hseen, hhead⟩ | ⟨hseen, -⟩
      · obtain rfl := Evidence.handle.inj hseen
        obtain rfl := Option.some.inj (hhead.symm.trans (hfirst v List.mem_cons_self call hcall))
        simpa using (ih hrest (.inr rfl) hnone).1
      · simp at hseen
    · obtain ⟨-, call, hcall⟩ := hshows.resultOfCall
      rcases hcall.shows hshows with ⟨_, hseen, hhead⟩ | ⟨hseen, -⟩
      · obtain rfl := Evidence.handle.inj hseen
        obtain rfl := Option.some.inj (hhead.symm.trans (hfirst v List.mem_cons_self call hcall))
        exact absurd (by simpa [hother] using hfound) hne
      · simp at hseen

/-- Values without a common handle fold into nothing. -/
theorem not_foldsInto_of_commonHandle {values : List ValueId}
    (h : commonHandle program none values = .ok none) (handle : ValueId) :
    ¬FoldsInto program values handle := by
  rintro ⟨hptr, ⟨v, hv, call, hcall⟩, hfirst⟩
  exact (no_call_of_commonHandle hptr hfirst (.inl rfl) h).2 v hv call hcall

/-! ### Expansions and declines -/

/-- Queries do not depend on when one looks. -/
theorem Query.mono (hvalues : before.values <+: after.values) {operands : List ValueId} {ty : Ty}
    {kind : OpKind} {name : String} (h : Query before operands ty kind name) :
    Query after operands ty kind name := by
  cases h with
  | dim htensor hty => exact .dim htensor (Program.typeOf_mono hvalues hty)
  | read hkind hname => exact .read hkind hname

/-- Blocks do not depend on when one looks. -/
theorem Encodes.mono (hvalues : before.values <+: after.values) {root : Operation} {action : Action}
    {block : TensorBlock} (h : Encodes before root action block) :
    Encodes after root action block := by
  obtain ⟨old, ty, sparsity, hresults, hty, hrest⟩ := h
  exact ⟨old, ty, sparsity, hresults, Program.typeOf_mono hvalues hty, hrest⟩

/-- An expansion in another program: the new operations keep their results, and the common handle of
the operands may have got another name. -/
theorem Expansion.transfer (hvalues : before.values <+: after.values) {root : Operation}
    {operands : List ValueId} {new : List Operation} {values : List ValueId}
    {names : ValueId → ValueId} (hnew : ∀ op ∈ new, ∀ v ∈ op.results, names v = v)
    (hfold : ∀ handle, commonHandle before none operands = .ok (some handle) →
      commonHandle after none operands = .ok (some (names handle)))
    (h : Expansion before root operands new values) :
    Expansion after root operands new (values.map names) := by
  have htype {v : ValueId} {ty : Ty} (hty : before.typeOf v = .ok ty) : after.typeOf v = .ok ty :=
    Program.typeOf_mono hvalues hty
  cases h with
  | ret hkind hresults => exact .ret hkind hresults
  | query hresults hold hquery hresult =>
    rw [List.map_singleton, hnew _ (List.mem_singleton_self _) _ (List.mem_singleton_self _)]
    exact .query hresults (htype hold) (hquery.mono hvalues) (htype hresult)
  | construct hkind hencodes hsource hcreated =>
    rw [List.map_singleton, hnew _ (List.mem_append_right _ (List.mem_singleton_self _)) _
      (List.mem_singleton_self _)]
    exact .construct hkind (hencodes.mono hvalues) hsource
      ⟨hcreated.1.mono hvalues, htype hcreated.2⟩
  | convert hkind hencodes hbuilt hbuiltTy hdense hsource hresults hold haccess hview hpointer
      hcreated =>
    rw [List.map_singleton, hnew _ (List.mem_append_right _ (List.mem_append_right _
      (List.mem_singleton_self _))) _ (List.mem_singleton_self _)]
    exact .convert hkind (hencodes.mono hvalues) hbuilt (htype hbuiltTy) hdense hsource hresults
      (htype hold) haccess (hview.mono hvalues) (htype hpointer)
      ⟨hcreated.1.mono hvalues, htype hcreated.2⟩
  | fold hkind hresults hhandle => exact .fold hkind hresults (hfold _ hhandle)

/-- Expansions do not depend on when one looks. -/
theorem Expansion.mono (hext : before.Extends after) {root : Operation} {operands : List ValueId}
    {new : List Operation} {values : List ValueId}
    (h : Expansion before root operands new values) : Expansion after root operands new values := by
  have hsame : Expansion after root operands new (values.map id) :=
    h.transfer hext.values (fun _ _ _ _ => rfl) fun _ hhandle => commonHandle_mono hext hhandle
  rwa [List.map_id] at hsame

/-- An operation that is expanded has at most one result, and it is replaced by one value. -/
theorem Expansion.results_cases {root : Operation} {operands : List ValueId}
    {new : List Operation} {values : List ValueId} (h : Expansion program root operands new values) :
    (root.results = [] ∧ values = []) ∨ ∃ old value, root.results = [old] ∧ values = [value] := by
  cases h with
  | ret _ hresults => exact .inl ⟨hresults, rfl⟩
  | query hresults => exact .inr ⟨_, _, hresults, rfl⟩
  | construct _ hencodes =>
    obtain ⟨old, ty, sparsity, hresults, -⟩ := hencodes
    exact .inr ⟨_, _, hresults, rfl⟩
  | convert _ _ _ _ _ _ hresults => exact .inr ⟨_, _, hresults, rfl⟩
  | fold _ hresults => exact .inr ⟨_, _, hresults, rfl⟩

/-- The results are replaced by a result of the expansion, or by a handle that the operands
show. -/
theorem Expansion.value_cases {root : Operation} {operands : List ValueId} {new : List Operation}
    {values : List ValueId} {value : ValueId} (h : Expansion program root operands new values)
    (hvalue : value ∈ values) : (∃ op ∈ new, value ∈ op.results) ∨
      (new = [] ∧ ∃ x ∈ operands, Shows program x (.handle value)) := by
  cases h with
  | ret => simp at hvalue
  | query => exact .inl ⟨_, List.mem_singleton_self _, hvalue⟩
  | construct =>
    exact .inl ⟨_, List.mem_append_right _ (List.mem_singleton_self _), hvalue⟩
  | convert =>
    refine .inl ⟨_, List.mem_append_right _ (List.mem_append_right _ (List.mem_singleton_self _)),
      hvalue⟩
  | fold _ _ hhandle =>
    obtain rfl := List.mem_singleton.mp hvalue
    exact .inr ⟨rfl, (commonHandle_eq_some.mp hhandle).2⟩

/-- The constants and the call of a new tensor are scoped over its source. -/
theorem creation_scoped (span : Span) (block : TensorBlock) (first : Nat) (source handle : ValueId)
    {seen : List ValueId} (hsource : source ∈ seen) :
    Scoped seen (creation span block first source handle) := by
  simp [creation, TensorBlock.items, emitted, Scoped, callOp, TensorBlock.arguments, hsource]

/-- The view of a value and the call that exposes it are scoped over the value. -/
theorem exposure_scoped (span : Span) (accessor : String) (shape : List Dim) (element : Ty)
    (first : Nat) (source pointer : ValueId) {seen : List ValueId} (hsource : source ∈ seen) :
    Scoped seen (exposure span accessor shape element first source pointer) := by
  simp [exposure, viewItems, emitted, Scoped, callOp, hsource]

/-- Expansions are scoped over the operands. -/
theorem Expansion.scoped {root : Operation} {operands : List ValueId} {new : List Operation}
    {values : List ValueId} (h : Expansion program root operands new values) :
    Scoped operands new := by
  cases h with
  | ret => simp [Scoped]
  | query => simp [Scoped, callOp]
  | construct _ _ hsource => exact creation_scoped _ _ _ _ _ (List.mem_of_getElem? hsource)
  | convert _ _ _ _ _ hsource =>
    refine scoped_append.mpr ⟨exposure_scoped _ _ _ _ _ _ _ (List.mem_of_getElem? hsource), ?_⟩
    apply creation_scoped
    simp [exposure, callOp]
  | fold => trivial

/-- Declines do not depend on when one looks. -/
theorem Declined.mono (hext : before.Extends after) {root : Operation} {operands : List ValueId}
    (h : Declined before root operands) : Declined after root operands := by
  have htype {v : ValueId} {ty : Ty} (hty : before.typeOf v = .ok ty) : after.typeOf v = .ok ty :=
    Program.typeOf_mono hext.values hty
  unfold Declined at h ⊢
  split at h
  · exact h
  · obtain ⟨tensor, ty, htensor, hty, hptr⟩ := h
    exact ⟨tensor, ty, htensor, htype hty, hptr⟩
  · obtain ⟨old, ty, hold, hty, hnone⟩ := h
    exact ⟨old, ty, hold, htype hty, hnone⟩
  · obtain ⟨old, ty, hold, hty, hnone | ⟨built, sourceTy, hbuilt, hsourceTy, hcase⟩⟩ := h
    · exact ⟨old, ty, hold, htype hty, .inl hnone⟩
    · exact ⟨old, ty, hold, htype hty, .inr ⟨built, sourceTy, hbuilt, htype hsourceTy, hcase⟩⟩
  · exact commonHandle_mono hext h
  · intro accessor? hkind
    obtain ⟨old, ty, hold, hty, hnone⟩ := h accessor? hkind
    exact ⟨old, ty, hold, htype hty, hnone⟩

/-- An operation that reads an array is declined for want of an accessor. -/
theorem Declined.read {root : Operation} {operands : List ValueId} {accessor? : Ty → Option String}
    (h : Declined program root operands) (harray : arrayAccessor? root.kind = some accessor?) :
    ∃ old ty, root.results[0]? = some old ∧ program.typeOf old = .ok ty ∧
      ty.element?.bind accessor? = none := by
  unfold Declined at h
  split at h <;> rename_i hkind <;> simp only [hkind, arrayAccessor?, reduceCtorEq] at harray
  exact h accessor? harray

/-- What is expanded is not declined. -/
theorem Expansion.not_declined {root : Operation} {operands : List ValueId} {new : List Operation}
    {values : List ValueId} (h : Expansion program root operands new values) :
    ¬Declined program root operands := by
  intro hdeclined
  cases h with
  | ret hkind => simp [Declined, hkind] at hdeclined
  | query hresults hold hquery =>
    generalize hkind : root.kind = kind at hquery
    cases hquery with
    | dim htensor hptr =>
      simp only [Declined, hkind] at hdeclined
      obtain ⟨tensor, ty, htensor', hty, hdense⟩ := hdeclined
      obtain rfl := Option.some.inj (htensor.symm.trans htensor')
      obtain rfl := Except.ok.inj (hptr.symm.trans hty)
      simp [Ty.isPtr] at hdense
    | read harray hname =>
      obtain ⟨old, ty, hold', hty, hnone⟩ := hdeclined.read (hkind ▸ harray)
      obtain rfl : _ = old := by simpa [hresults] using hold'
      obtain rfl := Except.ok.inj (hold.symm.trans hty)
      simp [hname] at hnone
  | construct hkind hencodes =>
    obtain ⟨old, ty, sparsity, hresults, hty, hsparse, -⟩ := hencodes
    simp only [Declined, hkind, hresults] at hdeclined
    obtain ⟨old', ty', hold', hty', hnone⟩ := hdeclined
    obtain rfl : old = old' := by simpa using hold'
    obtain rfl := Except.ok.inj (hty.symm.trans hty')
    simp [hsparse] at hnone
  | convert hkind hencodes hbuilt hbuiltTy hdense hsource hresults hold haccess =>
    obtain ⟨old, ty, sparsity, hresults', hty, hsparse, -⟩ := hencodes
    simp only [Declined, hkind] at hdeclined
    obtain ⟨old', ty', hold', hty', hcase⟩ := hdeclined
    obtain rfl : old = old' := by simpa [hresults'] using hold'
    obtain rfl := Except.ok.inj (hty.symm.trans hty')
    rcases hcase with hnone | ⟨built, builtTy, hbuilt', hbuiltTy', hsparse' | ⟨-, -, hnone⟩⟩
    · simp [hsparse] at hnone
    · obtain rfl := Option.some.inj (hbuilt.symm.trans hbuilt')
      obtain rfl := Except.ok.inj (hbuiltTy.symm.trans hbuiltTy')
      simp [hdense] at hsparse'
    · obtain rfl : _ = old := by simpa [hresults] using hresults'
      obtain rfl := Except.ok.inj (hold.symm.trans hty)
      simp [haccess] at hnone
  | fold hkind _ hhandle =>
    simp only [Declined, hkind] at hdeclined
    simp [hdeclined] at hhandle

end Lowering

end TensorLowering
