import TensorLowering.Proofs.Turns

/-!
# The schedule of a walk

What a walk visits does not depend on what the patterns do. A visit replaces one operation in its
own block by new ones, and it may append declarations; blocks that were not visited yet stay as
they were. So every operation that stands in a block at the beginning is visited once, in order,
while it stands in that block, and what a visit keeps is kept by the whole walk. The induction is
done once for a walk that may stop at a fault and for one that must not.
-/

namespace TensorLowering

/-- The computation ends with the property, or it stops and that is allowed. -/
def Ensures {ε α : Type} (mayStop : Prop) (post : α → Prop) : Except ε α → Prop
  | .ok result => post result
  | .error _ => mayStop

section Ensures

variable {ε α β : Type} {mayStop : Prop} {post : α → Prop} {run : Except ε α}

/-- A computation that must not stop has a result. -/
theorem Ensures.exists_ok (h : Ensures False post run) :
    ∃ result, run = .ok result ∧ post result := by
  cases run with
  | ok result => exact ⟨result, rfl, h⟩
  | error fault => exact h.elim

/-- The result of a computation has the property. -/
theorem Ensures.of_ok (h : Ensures mayStop post run) {result : α} (hrun : run = .ok result) :
    post result := by
  subst hrun
  exact h

/-- A computation that may stop has the property if each of its results has. -/
theorem ensures_of_forall (h : ∀ result, run = .ok result → post result) :
    Ensures True post run := by
  cases run with
  | ok result => exact h result rfl
  | error fault => trivial

/-- What the first of two computations ensures can be used by the second. -/
theorem Ensures.bind {post' : β → Prop} {next : α → Except ε β} (h : Ensures mayStop post run)
    (hnext : ∀ result, run = .ok result → post result → Ensures mayStop post' (next result)) :
    Ensures mayStop post' (run >>= next) := by
  cases run with
  | ok result => exact hnext result rfl h
  | error fault => exact h

end Ensures

namespace Conversion

variable {before after : Program} {id : OpId} {new : List OpId}

/-! ### Between visits -/

/-- A walk under way: the listed operations are still to be visited. -/
structure Scheduled (start : Program) (pending : List OpId) (program : Program) : Prop where
  valid : program.Valid
  size : start.ops.length ≤ program.ops.length
  /-- The blocks of the beginning are expanded, but not at the operations still to be visited. -/
  funcs : ∃ expand decls, program.funcs = start.funcs.map (Func.expandBody expand) ++ decls ∧
    (∀ func ∈ decls, func.body = none) ∧ (∀ id ∈ pending, expand id = [id]) ∧
    ∀ id, ∀ other ∈ expand id, other = id ∨ start.ops.length ≤ other.index

variable {start program : Program} {pending : List OpId}

/-- At the beginning everything is still to be visited. -/
theorem Scheduled.begin (hvalid : start.Valid) (pending : List OpId) :
    Scheduled start pending start where
  valid := hvalid
  size := Nat.le_refl _
  funcs := by
    refine ⟨fun id => [id], [], ?_, by simp, fun _ _ => rfl, fun id other hother => ?_⟩
    · rw [List.append_nil, map_expandBody_single]
    · exact .inl (List.mem_singleton.mp hother)

/-- A visit continues a walk. -/
theorem Scheduled.visit (h : Scheduled start (id :: pending) before) (hid : id ∉ pending)
    (hreshapes : Reshapes before after id new) (hvalid : after.Valid) :
    Scheduled start pending after where
  valid := hvalid
  size := Nat.le_trans h.size hreshapes.size
  funcs := by
    obtain ⟨expand, decls, hfuncs, hdecls, hpending, hids⟩ := h.funcs
    obtain ⟨decls', hfuncs', hdecls'⟩ := hreshapes.expanded hfuncs hdecls
    refine ⟨_, decls', hfuncs', hdecls', fun other hother => ?_, fun first other hother => ?_⟩
    · have hne : other ≠ id := fun heq => hid (heq ▸ hother)
      simp [hpending other (List.mem_cons_of_mem _ hother), replacing_of_ne hne]
    · obtain ⟨middle, hmiddle, hother⟩ := List.mem_flatMap.mp hother
      by_cases heq : middle = id
      · rw [heq, replacing_self] at hother
        rcases hreshapes.fresh other hother with rfl | hfresh
        · exact heq ▸ hids first middle hmiddle
        · exact .inr (Nat.le_trans h.size hfresh)
      · rw [replacing_of_ne heq, List.mem_singleton] at hother
        exact hother ▸ hids first middle hmiddle

/-- What stands in a block stood there at the beginning or is new. -/
theorem Scheduled.origin (h : Scheduled start pending program) {other : OpId}
    (hother : other ∈ program.allOps) : other ∈ start.allOps ∨ start.ops.length ≤ other.index := by
  obtain ⟨expand, decls, hfuncs, hdecls, -, hids⟩ := h.funcs
  rw [Program.allOps_of_expanded hfuncs hdecls] at hother
  obtain ⟨first, hfirst, hmem⟩ := List.mem_flatMap.mp hother
  rcases hids first other hmem with rfl | hfresh
  · exact .inl hfirst
  · exact .inr hfresh

/-- A block, operation by operation. -/
theorem Scheduled.exists_blockOf (h : Scheduled start pending program) {funcId : FuncId}
    (hlt : funcId.index < start.funcs.length) : ∃ func expand,
      program.funcs[funcId.index]? = some func ∧
      func.bodyOps = (start.blockOf funcId).flatMap expand ∧ ∀ id ∈ pending, expand id = [id] := by
  obtain ⟨expand, decls, hfuncs, -, hpending, -⟩ := h.funcs
  have hfunc := List.getElem?_eq_getElem hlt
  refine ⟨start.funcs[funcId.index].expandBody expand, expand, ?_, ?_, hpending⟩
  · rw [hfuncs, List.getElem?_append_left (by simpa using hlt), List.getElem?_map, hfunc,
      Option.map_some]
  · rw [Program.blockOf, hfunc, Func.bodyOps_expandBody]
    rfl

/-! ### The whole walk -/

/-- A visit to an operation that is due keeps what is said of the operations still to be visited and
of the state. -/
def KeptByVisits (mayStop : Prop) (patterns : List Pattern) (start : Program)
    (kept : List OpId → Progress → Prop) : Prop :=
  ∀ (funcId : FuncId) (id : OpId) (rest : List OpId) (state : Progress) (func : Func),
    id ∈ start.allOps → id ∉ rest → Scheduled start (id :: rest) state.program →
    state.program.funcs[funcId.index]? = some func → id ∈ func.bodyOps → kept (id :: rest) state →
    Ensures mayStop (kept rest) (convertOp patterns funcId id state)

section Run

variable {mayStop : Prop} {patterns : List Pattern} {kept : List OpId → Progress → Prop}
  {state : Progress} (hvisits : KeptByVisits mayStop patterns start kept)

include hvisits

/-- The operations of a block are visited in order. -/
theorem KeptByVisits.convertOps {funcId : FuncId} (hlt : funcId.index < start.funcs.length)
    {ids rest : List OpId} (hids : ∀ id ∈ ids, id ∈ start.blockOf funcId)
    (hnodup : (ids ++ rest).Nodup) (hscheduled : Scheduled start (ids ++ rest) state.program)
    (hkept : kept (ids ++ rest) state) :
    Ensures mayStop (fun after => Scheduled start rest after.program ∧ kept rest after)
      (Conversion.convertOps patterns funcId ids state) := by
  induction ids generalizing state with
  | nil => exact ⟨hscheduled, hkept⟩
  | cons id ids ih =>
    obtain ⟨hid, hnodup⟩ := List.nodup_cons.mp hnodup
    have hblock := hids id List.mem_cons_self
    obtain ⟨original, horiginal, hmem⟩ := Program.mem_blockOf.mp hblock
    have hstart := Program.mem_allOps horiginal hmem
    obtain ⟨func, expand, hfunc, hbody, hpending⟩ := hscheduled.exists_blockOf hlt
    have hstands : id ∈ func.bodyOps := by
      rw [hbody]
      exact List.mem_flatMap.mpr ⟨id, hblock, by simp [hpending id List.mem_cons_self]⟩
    refine (hvisits funcId id (ids ++ rest) state func hstart hid hscheduled hfunc hstands
      hkept).bind fun after hafter hkept => ?_
    obtain ⟨new, hreshapes⟩ := convertOp_reshapes hscheduled.valid hafter
    have hvalid := convertOp_valid hafter hscheduled.valid
    exact ih (fun other hother => hids other (List.mem_cons_of_mem _ hother)) hnodup
      (hscheduled.visit hid hreshapes hvalid) hkept

/-- The blocks of several functions are visited in order. -/
theorem KeptByVisits.forEach {ids : List FuncId} (hids : ∀ id ∈ ids, id.index < start.funcs.length)
    (hnodup : (ids.flatMap start.blockOf).Nodup)
    (hscheduled : Scheduled start (ids.flatMap start.blockOf) state.program)
    (hkept : kept (ids.flatMap start.blockOf) state) :
    Ensures mayStop (fun after => Scheduled start [] after.program ∧ kept [] after)
      (Conversion.forEach (convertBody patterns) ids state) := by
  induction ids generalizing state with
  | nil => exact ⟨hscheduled, hkept⟩
  | cons id rest ih =>
    have hlt := hids id List.mem_cons_self
    obtain ⟨func, expand, hfunc, hbody, hpending⟩ := hscheduled.exists_blockOf hlt
    -- Nothing of this block was visited, so it is read as it was at the beginning.
    have hblock : state.program.bodyOps id = .ok (start.blockOf id) := by
      refine Program.bodyOps_eq_ok.mpr ⟨func, hfunc, ?_⟩
      rw [hbody, List.flatMap_congr fun other hother =>
        hpending other (List.mem_append_left _ hother), List.flatMap_singleton']
    have hconvert : convertBody patterns id state =
        Conversion.convertOps patterns id (start.blockOf id) state := by
      simp [convertBody, hblock, Halt.guard, bind, Except.bind]
    rw [List.flatMap_cons] at hnodup hscheduled hkept
    rw [Conversion.forEach, hconvert]
    refine (hvisits.convertOps hlt (fun _ hother => hother) hnodup hscheduled hkept).bind
      fun middle _ hmiddle => ?_
    exact ih (fun other hother => hids other (List.mem_cons_of_mem _ hother))
      (List.nodup_append.mp hnodup).2.1 hmiddle.1 hmiddle.2

end Run

end Conversion

end TensorLowering
