import TensorLowering.Lowering.Rules
import TensorLowering.Proofs.Attempts

/-!
# Running scripts step by step

One lemma for each request that the lowering rules make: a script that starts with the request runs
to a given end exactly when the request succeeds and the rest of the script runs to that end from
the state the request leaves. Emitting the block of a new tensor is the longest such sequence; its
ten constants are listed once, with the ids of their results counted from the first one.
-/

namespace TensorLowering

/-- An operation with one result that is still to be created. -/
structure Item where
  kind : OpKind
  operands : List ValueId
  ty : Ty

namespace Program

/-- Adds operations with one result each. -/
def emit (program : Program) (span : Span) (items : List Item) : Program :=
  items.foldl (fun program item => program.addOp item.kind item.operands [item.ty] span) program

/-- Adds a call, and a declaration of the function unless its name is known. -/
def call (program : Program) (name : String) (argTypes : List Ty) (operands : List ValueId)
    (types : List Ty) (span : Span) : Program :=
  (program.declare name argTypes types).addOp (.call name) operands types span

end Program

namespace Attempt

/-- Creates operations with one result each. -/
def emit (attempt : Attempt) (span : Span) (items : List Item) : Attempt :=
  items.foldl (fun attempt item => attempt.create item.kind item.operands [item.ty] span) attempt

/-- Creating operations adds them to the program. -/
theorem emit_program (attempt : Attempt) (span : Span) (items : List Item) :
    (attempt.emit span items).program = attempt.program.emit span items := by
  unfold Attempt.emit Program.emit
  induction items generalizing attempt with
  | nil => rfl
  | cons item rest ih => exact ih _

/-- Creates a call, and declares the function unless its name is known. -/
def call (attempt : Attempt) (name : String) (argTypes : List Ty) (operands : List ValueId)
    (types : List Ty) (span : Span) : Attempt :=
  (attempt.declare name argTypes types).create (.call name) operands types span

/-- Creating a call adds it to the program. -/
theorem call_program (attempt : Attempt) (name : String) (argTypes : List Ty)
    (operands : List ValueId) (types : List Ty) (span : Span) :
    (attempt.call name argTypes operands types span).program =
      attempt.program.call name argTypes operands types span := rfl

end Attempt

namespace Script

variable {α β : Type} {root : Operation} {attempt after : Attempt} {result : Option β}

/-- A finished script changes nothing. -/
theorem run_done {value : α} : (done value).run root attempt = .ok (some value, attempt) := rfl

/-- Declining changes nothing. -/
theorem run_decline : (decline : Script α).run root attempt = .ok (none, attempt) := rfl

/-- A script that declines or fails first does so also when it is continued. -/
theorem run_bind_eq_ok {script : Script α} {next : α → Script β} :
    (script >>= next).run root attempt = .ok (result, after) ↔
      (script.run root attempt = .ok (none, after) ∧ result = none) ∨
      ∃ value middle, script.run root attempt = .ok (some value, middle) ∧
        (next value).run root middle = .ok (result, after) := by
  change (script.bind next).run root attempt = _ ↔ _
  rw [run_bind]
  rcases script.run root attempt with halt | ⟨_ | value, middle⟩
  · simp
  · simp only [Except.ok.injEq, Prod.mk.injEq, true_and, reduceCtorEq, false_and, exists_false,
      or_false]
    exact ⟨fun h => ⟨h.2, h.1.symm⟩, fun h => ⟨h.2.symm, h.1⟩⟩
  · simp

/-- A computation that may meet a fault must not meet one. -/
theorem run_ofExcept_bind {x : Except Fault α} {next : α → Script β} :
    (ofExcept x >>= next).run root attempt = .ok (result, after) ↔
      ∃ value, x = .ok value ∧ (next value).run root attempt = .ok (result, after) := by
  rw [run_bind_eq_ok]
  cases x <;> simp [ofExcept, run]

/-- A computation without a result declines. -/
theorem run_ofOption_bind {x : Option α} {next : α → Script β} :
    (ofOption x >>= next).run root attempt = .ok (result, after) ↔
      (x = none ∧ result = none ∧ after = attempt) ∨
      ∃ value, x = some value ∧ (next value).run root attempt = .ok (result, after) := by
  rw [run_bind_eq_ok]
  cases x with
  | none =>
    simp only [ofOption, run, Except.ok.injEq, Prod.mk.injEq, true_and, reduceCtorEq, false_and,
      exists_false, or_false]
    exact ⟨fun h => ⟨h.2, h.1.symm⟩, fun h => ⟨h.2.symm, h.1⟩⟩
  | some value => simp [ofOption, run]

/-- The type of a value is read from the program. -/
theorem run_typeOf_bind {id : ValueId} {next : Ty → Script β} :
    (typeOf id >>= next).run root attempt = .ok (result, after) ↔
      ∃ ty, attempt.program.typeOf id = .ok ty ∧
        (next ty).run root attempt = .ok (result, after) := by
  change (ofExcept (attempt.program.typeOf id) >>= next).run root attempt = _ ↔ _
  exact run_ofExcept_bind

/-- A new operation with one result yields the next value. -/
theorem run_createValue_bind {kind : OpKind} {operands : List ValueId} {ty : Ty}
    {next : ValueId → Script β} :
    (createValue kind operands ty >>= next).run root attempt = .ok (result, after) ↔
      (next ⟨attempt.program.values.length⟩).run root
        (attempt.create kind operands [ty] root.span) = .ok (result, after) := by
  change (ofExcept (Fault.fetch (attempt.program.nextValues 1) 0) >>= next).run root
    (attempt.create kind operands [ty] root.span) = _ ↔ _
  rw [run_ofExcept_bind]
  simp [Fault.fetch_eq_ok, Program.nextValues]

/-- A call declares its function from the types of the operands. -/
theorem run_createCall_bind {callee : String} {operands : List ValueId} {types : List Ty}
    {next : List ValueId → Script β} :
    (createCall callee operands types >>= next).run root attempt = .ok (result, after) ↔
      ∃ argTypes, attempt.program.typesOf operands = .ok argTypes ∧
        (next ((attempt.program.declare callee argTypes types).nextValues types.length)).run root
          (attempt.call callee argTypes operands types root.span) = .ok (result, after) := by
  rw [run_bind_eq_ok]
  change (((ofExcept (attempt.program.typesOf operands) >>= fun argTypes =>
    declare callee argTypes types (create (.call callee) operands types done)).run root attempt = _
      ∧ _) ∨ ∃ value middle, (ofExcept (attempt.program.typesOf operands) >>= fun argTypes =>
    declare callee argTypes types (create (.call callee) operands types done)).run root attempt = _
      ∧ _) ↔ _
  simp only [run_ofExcept_bind, run, Except.ok.injEq, Prod.mk.injEq, reduceCtorEq, false_and,
    and_false, exists_false, false_or, Option.some.injEq]
  constructor
  · rintro ⟨value, middle, ⟨argTypes, hargs, rfl, rfl⟩, hnext⟩
    exact ⟨argTypes, hargs, hnext⟩
  · rintro ⟨argTypes, hargs, hnext⟩
    exact ⟨_, _, ⟨argTypes, hargs, rfl, rfl⟩, hnext⟩

/-- Replacing the root is possible once, by as many values as it has results. -/
theorem run_replace {values : List ValueId} {next : Script β} :
    (replace values next).run root attempt = .ok (result, after) ↔
      attempt.replacement = none ∧ values.length = root.results.length ∧
        next.run root { attempt with replacement := some values } = .ok (result, after) := by
  simp only [run]
  cases hreplace : attempt.replace root values with
  | ok changed =>
    obtain ⟨hnone, hlength, rfl⟩ := Attempt.replace_eq_ok.mp hreplace
    simp [hnone, hlength]
  | error fault =>
    simp only [reduceCtorEq, false_iff, not_and]
    intro hnone hlength
    have := Attempt.replace_eq_ok.mpr ⟨hnone, hlength, rfl⟩
    simp [this] at hreplace

/-- A rule that ends in a call replaces the root by the results of the call. -/
theorem run_replaceWithCall {callee : String} {operands : List ValueId} {types : List Ty}
    {result : Option Unit} :
    (do let _ ← replaceWithCall callee operands types : Script Unit).run root attempt =
        .ok (result, after) ↔
      ∃ argTypes, attempt.program.typesOf operands = .ok argTypes ∧
        attempt.replacement = none ∧ types.length = root.results.length ∧ result = some () ∧
        after = { attempt.call callee argTypes operands types root.span with
          replacement := some
            ((attempt.program.declare callee argTypes types).nextValues types.length) } := by
  rw [run_bind_eq_ok]
  change (((createCall callee operands types >>= fun results => replace results (done results)).run
    root attempt = _ ∧ _) ∨ ∃ value middle, (createCall callee operands types >>= fun results =>
      replace results (done results)).run root attempt = _ ∧ _) ↔ _
  simp only [run_createCall_bind, run_replace, run_done, Except.ok.injEq, Prod.mk.injEq,
    reduceCtorEq, false_and, and_false, exists_false, false_or, Option.some.injEq, pure]
  constructor
  · rintro ⟨value, middle, ⟨argTypes, hargs, hnone, hlength, rfl, rfl⟩, rfl, rfl⟩
    exact ⟨argTypes, hargs, hnone, by simpa [Program.nextValues] using hlength, rfl, rfl⟩
  · rintro ⟨argTypes, hargs, hnone, hlength, rfl, rfl⟩
    exact ⟨_, _, ⟨argTypes, hargs, hnone, by simpa [Program.nextValues] using hlength, rfl, rfl⟩,
      rfl, rfl⟩

/-- A rule that ends in a new operation replaces the root by its results. -/
theorem run_replaceWithNew {kind : OpKind} {operands : List ValueId} {types : List Ty}
    {result : Option Unit} :
    (do let _ ← replaceWithNew kind operands types : Script Unit).run root attempt =
        .ok (result, after) ↔
      attempt.replacement = none ∧ types.length = root.results.length ∧ result = some () ∧
        after = { attempt.create kind operands types root.span with
          replacement := some (attempt.program.nextValues types.length) } := by
  rw [run_bind_eq_ok]
  change (((replace (attempt.program.nextValues types.length)
    (done (attempt.program.nextValues types.length))).run root
      (attempt.create kind operands types root.span) = _ ∧ _) ∨ ∃ value middle,
    (replace (attempt.program.nextValues types.length)
      (done (attempt.program.nextValues types.length))).run root
        (attempt.create kind operands types root.span) = _ ∧ _) ↔ _
  simp only [run_replace, run_done, Except.ok.injEq, Prod.mk.injEq, reduceCtorEq, false_and,
    and_false, false_or, Option.some.injEq, pure]
  constructor
  · rintro ⟨value, middle, ⟨hnone, hlength, rfl, rfl⟩, rfl, rfl⟩
    exact ⟨hnone, by simpa [Program.nextValues] using hlength, rfl, rfl⟩
  · rintro ⟨hnone, hlength, rfl, rfl⟩
    exact ⟨_, _, ⟨hnone, by simpa [Program.nextValues] using hlength, rfl, rfl⟩, rfl, rfl⟩

/-- Continuing twice is continuing once by the longer rest. -/
theorem bind_assoc {γ : Type} (script : Script α) (next : α → Script β) (last : β → Script γ) :
    (script >>= next) >>= last = script >>= fun value => next value >>= last := by
  change (script.bind next).bind last = script.bind fun value => (next value).bind last
  induction script with
  | done value => rfl
  | decline => rfl
  | fail fault => rfl
  | inspect k ih => exact congrArg inspect (funext ih)
  | create kind operands types k ih => exact congrArg (create kind operands types) (funext ih)
  | declare name argTypes resultTypes k ih => exact congrArg (declare name argTypes resultTypes) ih
  | replace values k ih => exact congrArg (replace values) ih

/-- A finished script hands its result to the rest. -/
theorem pure_bind (value : α) (next : α → Script β) : pure value >>= next = next value := rfl

end Script

namespace TensorBlock

/-- The constants of a block: three arrays whose lengths are then forgotten, and four numbers. Their
results are the values from the given one on. -/
def items (block : TensorBlock) (first : Nat) : List Item :=
  [⟨.constant (.dense 8 block.levels), [], .dense [.static block.levels.length] (.int 8)⟩,
    ⟨.tensorCast, [⟨first⟩], EntryPoint.anyVector (.int 8)⟩,
    ⟨.constant (.dense 64 block.sizes), [], .dense [.static block.sizes.length] (.int 64)⟩,
    ⟨.tensorCast, [⟨first + 2⟩], EntryPoint.anyVector (.int 64)⟩,
    ⟨.constant (.dense 64 block.permutation), [],
      .dense [.static block.permutation.length] (.int 64)⟩,
    ⟨.tensorCast, [⟨first + 4⟩], EntryPoint.anyVector (.int 64)⟩,
    ⟨.constant (.int block.pointerOverhead 64), [], .int 64⟩,
    ⟨.constant (.int block.indexOverhead 64), [], .int 64⟩,
    ⟨.constant (.int block.primary 64), [], .int 64⟩,
    ⟨.constant (.int block.action.code 32), [], .int 32⟩]

/-- The arguments of the call that makes a tensor: the block, then the pointer. -/
def arguments (first : Nat) (pointer : ValueId) : List ValueId :=
  [⟨first + 1⟩, ⟨first + 3⟩, ⟨first + 5⟩, ⟨first + 6⟩, ⟨first + 7⟩, ⟨first + 8⟩, ⟨first + 9⟩, pointer]

end TensorBlock

/-- The accessor that exposes a dense buffer of this type, with the extents and the element type of
the buffer. -/
def Ty.bufferAccess? (ty : Ty) : Option (String × List Dim × Ty) :=
  ty.element?.bind fun element => (EntryPoint.bufferAccessor? element).bind fun accessor =>
    ty.shape?.map fun shape => (accessor, shape, element)

/-- A value is viewed as a buffer, whose rank is then forgotten. Their results are the values from
the given one on. -/
def viewItems (value : ValueId) (shape : List Dim) (element : Ty) (first : Nat) : List Item :=
  [⟨.bufferCast, [value], .memref shape element⟩, ⟨.memrefCast, [⟨first⟩], .unranked element⟩]

namespace Script

variable {β : Type} {root : Operation} {attempt after : Attempt} {result : Option β}

/-- A block is emitted as its ten constants. -/
theorem run_emit_bind {block : TensorBlock} {pointer : ValueId} {next : List ValueId → Script β} :
    (block.emit pointer >>= next).run root attempt = .ok (result, after) ↔
      (next (TensorBlock.arguments attempt.program.values.length pointer)).run root
        (attempt.emit root.span (block.items attempt.program.values.length)) =
          .ok (result, after) := by
  have hlength (attempt : Attempt) (kind : OpKind) (operands : List ValueId) (ty : Ty) :
      (attempt.create kind operands [ty] root.span).program.values.length =
        attempt.program.values.length + 1 := by
    simp [Attempt.create, Program.addOp]
  simp only [TensorBlock.emit, intArray, intConstant, bind_assoc, pure_bind, run_createValue_bind,
    hlength, TensorBlock.arguments, Attempt.emit, TensorBlock.items, List.foldl_cons, List.foldl_nil,
    Nat.add_assoc, Nat.reduceAdd]

/-- The type of a result is read from the program. -/
theorem run_resultType_bind {site : Site} {index : Nat} {next : Ty → Script β} :
    (site.resultType index >>= next).run root attempt = .ok (result, after) ↔
      ∃ v ty, site.root.results[index]? = some v ∧ attempt.program.typeOf v = .ok ty ∧
        (next ty).run root attempt = .ok (result, after) := by
  have hread : site.resultType index =
      ofExcept (Fault.fetch site.root.results index) >>= typeOf := rfl
  simp only [hread, bind_assoc, run_ofExcept_bind, run_typeOf_bind, Fault.fetch_eq_ok]
  constructor
  · rintro ⟨v, hv, ty, hty, hnext⟩
    exact ⟨v, ty, hv, hty, hnext⟩
  · rintro ⟨v, ty, hv, hty, hnext⟩
    exact ⟨v, hv, ty, hty, hnext⟩

/-- A renamed operand is read from the site. -/
theorem run_operand_bind {site : Site} {index : Nat} {next : ValueId → Script β} :
    (site.operand index >>= next).run root attempt = .ok (result, after) ↔
      ∃ v, site.operands[index]? = some v ∧ (next v).run root attempt = .ok (result, after) := by
  simp only [Site.operand, run_ofExcept_bind, Fault.fetch_eq_ok]

/-- An original operand is read from the root. -/
theorem run_source_bind {site : Site} {index : Nat} {next : ValueId → Script β} :
    (site.source index >>= next).run root attempt = .ok (result, after) ↔
      ∃ v, site.root.operands[index]? = some v ∧
        (next v).run root attempt = .ok (result, after) := by
  simp only [Site.source, run_ofExcept_bind, Fault.fetch_eq_ok]

/-- Making a tensor computes the block, emits it and replaces the root by a call that is given it. -/
theorem run_replaceWithNewTensor {site : Site} {sparsity : Sparsity} {action : Action}
    {pointer : ValueId} {result : Option Unit} :
    (site.replaceWithNewTensor sparsity action pointer).run root attempt = .ok (result, after) ↔
      ∃ v ty, site.root.results[0]? = some v ∧ attempt.program.typeOf v = .ok ty ∧
        ∃ block, TensorBlock.encode sparsity ty action = .ok block ∧
          (do let _ ← replaceWithCall EntryPoint.newTensor
                (TensorBlock.arguments attempt.program.values.length pointer) [.ptr] :
              Script Unit).run root
            (attempt.emit root.span (block.items attempt.program.values.length)) =
              .ok (result, after) := by
  simp only [Site.replaceWithNewTensor, run_resultType_bind, run_ofExcept_bind, run_emit_bind]

/-- Exposing a buffer declines without an accessor, and otherwise calls it on a view of the value. -/
theorem run_exposeBuffer_bind {site : Site} {value : ValueId} {next : ValueId → Script β} :
    (site.exposeBuffer value >>= next).run root attempt = .ok (result, after) ↔
      ∃ v ty, site.root.results[0]? = some v ∧ attempt.program.typeOf v = .ok ty ∧
        ((ty.bufferAccess? = none ∧ result = none ∧ after = attempt) ∨
          ∃ accessor shape element, ty.bufferAccess? = some (accessor, shape, element) ∧
            ∃ argTypes,
              (attempt.emit root.span
                (viewItems value shape element attempt.program.values.length)).program.typesOf
                  [⟨attempt.program.values.length + 1⟩] = .ok argTypes ∧
              (next ⟨((attempt.emit root.span
                (viewItems value shape element attempt.program.values.length)).program.declare
                  accessor argTypes [.ptr]).values.length⟩).run root
                ((attempt.emit root.span
                  (viewItems value shape element attempt.program.values.length)).call accessor
                    argTypes [⟨attempt.program.values.length + 1⟩] [.ptr] root.span) =
                .ok (result, after)) := by
  have hlength (attempt : Attempt) (kind : OpKind) (operands : List ValueId) (ty : Ty) :
      (attempt.create kind operands [ty] root.span).program.values.length =
        attempt.program.values.length + 1 := by
    simp [Attempt.create, Program.addOp]
  have hfirst (program : Program) : Fault.fetch (program.nextValues [Ty.ptr].length) 0 =
      .ok ⟨program.values.length⟩ := rfl
  simp only [Site.exposeBuffer, bind_assoc, run_resultType_bind, run_ofOption_bind,
    run_createValue_bind, run_createCall_bind, run_ofExcept_bind, hlength, hfirst,
    Except.ok.injEq, exists_eq_left', viewItems, Attempt.emit, List.foldl_cons, List.foldl_nil,
    Ty.bufferAccess?]
  refine exists_congr fun v => exists_congr fun ty => and_congr_right fun _ => and_congr_right
    fun _ => ?_
  cases ty.element? with
  | none => simp
  | some element =>
    simp only [Option.bind_some, Option.some.injEq, reduceCtorEq, false_and, false_or,
      exists_eq_left']
    cases EntryPoint.bufferAccessor? element with
    | none => simp
    | some accessor =>
      cases ty.shape? with
      | none => simp
      | some shape => simp

end Script

end TensorLowering
