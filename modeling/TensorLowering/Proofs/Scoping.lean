import TensorLowering.Proofs.Validity

/-!
# Definitions before uses

A list of operations is scoped over some values if each operand is one of them or a result of an
earlier operation. A program is in order if every block is scoped over the arguments of its function.
While the blocks are walked, a value is settled once no operation that is still to come produces it;
in a program that is in order the operands of the next operation are settled.
-/

namespace TensorLowering

/-- Every operand is one of the given values or the result of an earlier operation. -/
def Scoped : List ValueId → List Operation → Prop
  | _, [] => True
  | seen, op :: rest => (∀ v ∈ op.operands, v ∈ seen) ∧ Scoped (seen ++ op.results) rest

/-- Scoping can be checked. -/
instance decidableScoped : ∀ (seen : List ValueId) (ops : List Operation), Decidable (Scoped seen ops)
  | _, [] => inferInstanceAs (Decidable True)
  | seen, op :: rest =>
    have := decidableScoped (seen ++ op.results) rest
    inferInstanceAs (Decidable ((∀ v ∈ op.operands, v ∈ seen) ∧ Scoped (seen ++ op.results) rest))

/-- More known values do no harm. -/
theorem Scoped.mono {seen more : List ValueId} {ops : List Operation} (h : Scoped seen ops)
    (hmore : ∀ v ∈ seen, v ∈ more) : Scoped more ops := by
  induction ops generalizing seen more with
  | nil => trivial
  | cons op rest ih =>
    refine ⟨fun v hv => hmore v (h.1 v hv), ih h.2 fun v hv => ?_⟩
    rcases List.mem_append.mp hv with hseen | hresult
    · exact List.mem_append_left _ (hmore v hseen)
    · exact List.mem_append_right _ hresult

/-- The second part of a list may use the results of the first. -/
theorem scoped_append {seen : List ValueId} {first second : List Operation} :
    Scoped seen (first ++ second) ↔
      Scoped seen first ∧ Scoped (seen ++ first.flatMap Operation.results) second := by
  induction first generalizing seen with
  | nil => simp [Scoped]
  | cons op rest ih => simp only [List.cons_append, Scoped, ih, List.flatMap_cons,
      List.append_assoc, and_assoc]

/-- An operand is known from the start or is some result of the list. -/
theorem Scoped.mem {seen : List ValueId} {ops : List Operation} (h : Scoped seen ops)
    {op : Operation} (hop : op ∈ ops) {v : ValueId} (hv : v ∈ op.operands) :
    v ∈ seen ∨ ∃ other ∈ ops, v ∈ other.results := by
  induction ops generalizing seen with
  | nil => simp at hop
  | cons first rest ih =>
    rcases List.mem_cons.mp hop with rfl | hrest
    · exact .inl (h.1 v hv)
    · rcases ih h.2 hrest with hseen | ⟨other, hother, hv'⟩
      · rcases List.mem_append.mp hseen with hseen | hresult
        · exact .inl hseen
        · exact .inr ⟨first, List.mem_cons_self, hresult⟩
      · exact .inr ⟨other, List.mem_cons_of_mem _ hother, hv'⟩

namespace Program

variable {program : Program}

/-- The operations of the given ids. -/
def operations (program : Program) (ids : List OpId) : List Operation :=
  ids.filterMap fun id => program.ops[id.index]?

/-- Reading the operations of two lists one after the other. -/
theorem operations_append (program : Program) (first second : List OpId) :
    program.operations (first ++ second) = program.operations first ++ program.operations second :=
  List.filterMap_append

/-- An operation that is found stands first in the list that its id begins. -/
theorem operations_cons {id : OpId} {op : Operation} (hop : program.ops[id.index]? = some op)
    (rest : List OpId) : program.operations (id :: rest) = op :: program.operations rest := by
  simp [operations, hop]

/-- Every operand in a block is an argument of the function or the result of an earlier operation
of the block. -/
def DefBeforeUse (program : Program) : Prop :=
  ∀ func ∈ program.funcs, Scoped func.args (program.operations func.bodyOps)

instance : DecidablePred DefBeforeUse := fun program =>
  inferInstanceAs (Decidable (∀ func ∈ program.funcs,
    Scoped func.args (program.operations func.bodyOps)))

/-- Every operation that produces the value has been visited. -/
def Settled (program : Program) (done : List OpId) (v : ValueId) : Prop :=
  ∀ (id : OpId) (op : Operation), program.ops[id.index]? = some op → v ∈ op.results → id ∈ done

/-- What is settled stays so. -/
theorem Settled.mono {done more : List OpId} {v : ValueId} (h : program.Settled done v)
    (hmore : ∀ id ∈ done, id ∈ more) : program.Settled more v :=
  fun id op hop hv => hmore id (h id op hop hv)

/-- A value that is not the result of an operation is settled. -/
theorem Settled.of_notMem {done : List OpId} {v : ValueId}
    (h : ∀ (o : Nat) (op : Operation), program.ops[o]? = some op → v ∉ op.results) :
    program.Settled done v :=
  fun id op hop hv => absurd hv (h id.index op hop)

/-- The results of a visited operation are settled. -/
theorem Valid.settled_of_done (hvalid : program.Valid) {done : List OpId} {id : OpId}
    {op : Operation} {v : ValueId} (hid : id ∈ done) (hop : program.ops[id.index]? = some op)
    (hv : v ∈ op.results) : program.Settled done v := by
  intro other op' hop' hv'
  have hsame : id = other := by
    cases id
    cases other
    exact congrArg OpId.mk (hvalid.result_unique hop hv hop' hv')
  exact hsame ▸ hid

/-- A result that is settled comes from a visited operation. -/
theorem Settled.ne_result {done : List OpId} {id : OpId} {op : Operation} {v r : ValueId}
    (h : program.Settled done v) (hid : id ∉ done) (hop : program.ops[id.index]? = some op)
    (hr : r ∈ op.results) : v ≠ r := by
  rintro rfl
  exact hid (h id op hop hr)

/-- An operation of some block, with what stands before it in the walk. -/
theorem exists_block {pre post : List OpId} {id : OpId} (hnodup : program.allOps.Nodup)
    (hall : program.allOps = pre ++ id :: post) :
    ∃ func ∈ program.funcs, ∃ before after, func.bodyOps = before ++ id :: after ∧
      ∀ other ∈ before, other ∈ pre := by
  have hid : id ∈ program.allOps := by simp [hall]
  obtain ⟨func, hfunc, hbody⟩ := List.mem_flatMap.mp hid
  obtain ⟨before, after, hsplit⟩ := List.append_of_mem hbody
  obtain ⟨i, hi⟩ := List.mem_iff_getElem?.mp hfunc
  obtain ⟨left, right, hwhole, -⟩ := allOps_split hi
  rw [hsplit, hall, List.append_assoc, List.append_assoc, List.cons_append,
    ← List.append_assoc] at hwhole
  rw [hall] at hnodup
  have hpre : id ∉ pre := fun hin =>
    (List.nodup_append.mp hnodup).2.2 id hin id List.mem_cons_self rfl
  have hpost : id ∉ post := (List.nodup_cons.mp (List.nodup_append.mp hnodup).2.1).1
  obtain ⟨rfl, -, -⟩ := (List.append_cons_inj_of_notMem hpre hpost).mp hwhole
  exact ⟨func, hfunc, before, after, hsplit, fun other hother => List.mem_append_right _ hother⟩

/-- The operands of an operation are settled when the walk reaches it. -/
theorem DefBeforeUse.settled (hssa : program.DefBeforeUse) (hvalid : program.Valid)
    {pre post : List OpId} {id : OpId} (hall : program.allOps = pre ++ id :: post)
    {op : Operation} (hop : program.ops[id.index]? = some op) {v : ValueId}
    (hv : v ∈ op.operands) : program.Settled pre v := by
  obtain ⟨func, hfunc, before, after, hbody, hbefore⟩ := exists_block hvalid.nodup hall
  have hscoped := hssa func hfunc
  rw [hbody, operations_append, operations_cons hop, scoped_append] at hscoped
  rcases List.mem_append.mp (hscoped.2.1 v hv) with harg | hresult
  · obtain ⟨i, hi⟩ := List.mem_iff_getElem?.mp hfunc
    exact .of_notMem fun o op' hop' => hvalid.arg_notMem_results hi harg hop'
  · obtain ⟨earlier, hearlier, hv'⟩ := List.mem_flatMap.mp hresult
    obtain ⟨other, hother, hop'⟩ := List.mem_filterMap.mp hearlier
    exact hvalid.settled_of_done (hbefore other hother) hop' hv'

end Program

end TensorLowering
