import TensorLowering.Proofs.Ranges
import TensorLowering.Proofs.Rejections
import TensorLowering.Proofs.Schedule

/-!
# What a successful run leaves behind

A run that reports nothing leaves a program in which nothing is left to do: every signature is
converted, every operation is legal, and every return was built again and so has no results. This
needs no order between definitions and uses; the walk is followed by its schedule alone. That the
operands are in the arena is asked of the source and holds of what is left.
-/

namespace TensorLowering

namespace Conversion

variable {types : TypeMap} {source program : Program} {start : Progress}

/-! ### Blocks that are visited -/

/-- Converting a signature keeps the block. -/
theorem bodyOps_resign (aliases : Renaming) (func : Func) :
    (resign types aliases func).bodyOps = func.bodyOps := by
  unfold resign
  split <;> rfl

/-- Converting signatures keeps the blocks. -/
theorem Resigned.blockOf (h : Resigned types source start) :
    start.program.blockOf = source.blockOf := by
  funext id
  rw [Program.blockOf, Program.blockOf, h.funcs, List.getElem?_map, Option.map_map]
  refine congrArg (fun f => (Option.map f source.funcs[id.index]?).getD []) ?_
  funext func
  exact bodyOps_resign start.aliases func

/-- Converting signatures keeps the list of all operations. -/
theorem Resigned.allOps (h : Resigned types source start) :
    start.program.allOps = source.allOps := by
  rw [Program.allOps, Program.allOps, h.funcs, List.flatMap_map]
  exact List.flatMap_congr fun func _ => bodyOps_resign start.aliases func

/-- An operation of a block stands in a function that had a block at the beginning. -/
theorem Scheduled.exists_defined {pending : List OpId} (hresigned : Resigned types source start)
    (h : Scheduled start.program pending program) {id : OpId} (hid : id ∈ program.allOps) :
    ∃ funcId ∈ source.definedFuncs, ∃ func, program.funcs[funcId.index]? = some func ∧
      id ∈ func.bodyOps := by
  obtain ⟨expand, decls, hfuncs, hdecls, -, -⟩ := h.funcs
  obtain ⟨func, hfunc, hmem⟩ := List.mem_flatMap.mp hid
  obtain ⟨i, hi⟩ := List.mem_iff_getElem?.mp hfunc
  have hnow := hi
  rw [hfuncs, hresigned.funcs, List.map_map] at hi
  rcases Nat.lt_or_ge i source.funcs.length with hlt | hge
  · rw [List.getElem?_append_left (by simpa using hlt), List.getElem?_map,
      List.getElem?_eq_getElem hlt, Option.map_some, Option.some.injEq] at hi
    refine ⟨⟨i⟩, (mem_definedFuncs (List.getElem?_eq_getElem hlt)).mpr ?_, func, hnow, hmem⟩
    rw [← hi] at hmem
    cases hbody : source.funcs[i].body with
    | none =>
      simp [Func.expandBody, resign, Func.isDeclaration, Func.bodyOps, hbody] at hmem
    | some body => simp [Func.isDeclaration, hbody]
  · rw [List.getElem?_append_right (by simpa using hge)] at hi
    simp [Func.bodyOps, hdecls func (List.mem_of_getElem? hi)] at hmem

/-- After the signatures are converted, all blocks are visited. -/
theorem KeptByVisits.walk {mayStop : Prop} {patterns : List Pattern}
    {kept : List OpId → Progress → Prop}
    (hvisits : KeptByVisits mayStop patterns start.program kept)
    (hresigned : Resigned types source start) (hvalid : start.program.Valid)
    (hkept : kept start.program.allOps start) :
    Ensures mayStop (fun after => Scheduled start.program [] after.program ∧ kept [] after)
      (Conversion.forEach (convertBody patterns) source.definedFuncs start) := by
  have hall : source.definedFuncs.flatMap start.program.blockOf = start.program.allOps := by
    rw [hresigned.blockOf, source.flatMap_blockOf, hresigned.allOps]
  refine hvisits.forEach (fun id hid => ?_) (hall ▸ hvalid.nodup) (.begin hvalid _)
    (hall.symm ▸ hkept)
  obtain ⟨func, body, hfunc, -⟩ := exists_of_mem_definedFuncs hid
  exact (List.getElem?_eq_some_iff.mp (hresigned.func hfunc)).1

/-! ### Reports that are empty -/

/-- Nothing is reported about a block exactly if its operations are legal. -/
theorem illegalOps_eq_nil {legality : Legality} {func : String} {ids : List OpId} :
    illegalOps legality program func ids = .ok [] ↔ ∀ id ∈ ids, ∃ op,
      program.ops[id.index]? = some op ∧ legality.isLegal program op = .ok true := by
  induction ids with
  | nil => simp [illegalOps]
  | cons id rest ih =>
    simp only [illegalOps, bind_eq_ok, Program.op_eq_ok, List.forall_mem_cons, ← ih]
    constructor
    · rintro ⟨op, hop, legal, hlegal, hrest⟩
      cases legal with
      | true => exact ⟨⟨op, hop, hlegal⟩, hrest⟩
      | false =>
        simp only [Bool.false_eq_true, ↓reduceIte, bind_eq_ok, pure_eq_ok] at hrest
        obtain ⟨text, -, reports, -, hcons⟩ := hrest
        simp at hcons
    · rintro ⟨⟨op, hop, hlegal⟩, hrest⟩
      exact ⟨op, hop, true, hlegal, hrest⟩

/-- Nothing is reported about several functions exactly if the operations of their blocks are
legal. -/
theorem illegalIn_eq_nil {legality : Legality} {ids : List FuncId} :
    illegalIn legality program ids = .ok [] ↔ ∀ id ∈ ids, ∃ func,
      program.funcs[id.index]? = some func ∧ ∀ other ∈ func.bodyOps, ∃ op,
        program.ops[other.index]? = some op ∧ legality.isLegal program op = .ok true := by
  induction ids with
  | nil => simp [illegalIn]
  | cons id rest ih =>
    simp only [illegalIn, bind_eq_ok, Program.func_eq_ok, pure_eq_ok, List.append_eq_nil_iff,
      List.forall_mem_cons, ← ih]
    constructor
    · rintro ⟨func, hfunc, _, hhere, _, hthere, rfl, rfl⟩
      exact ⟨⟨func, hfunc, illegalOps_eq_nil.mp hhere⟩, hthere⟩
    · rintro ⟨⟨func, hfunc, hhere⟩, hthere⟩
      exact ⟨func, hfunc, [], illegalOps_eq_nil.mpr hhere, [], hthere, rfl, rfl⟩

end Conversion

namespace Lowering

open Conversion

/-- Nothing is left to do in the program. -/
structure Finished (program : Program) : Prop where
  valid : program.Valid
  operands : program.OperandsInRange
  signatures : ∀ func ∈ program.funcs, func.isDeclaration = false →
    changesSignature handleTypes func = false
  legal : ∀ op ∈ program.operations program.allOps, legality.isLegal program op = .ok true
  rets : ∀ op ∈ program.operations program.allOps, op.kind = .ret → op.results = []

/-! ### Along the walk -/

/-- A walk under way: values are in the arena, new returns have no results, and the returns of the
source that still stand in a block are yet to be visited. -/
structure Tidy (source : Program) (pending : List OpId) (state : Progress) : Prop where
  range : InRange source state
  created : ∀ (o : Nat) (op : Operation), source.ops.length ≤ o →
    state.program.ops[o]? = some op → op.kind = .ret → op.results = []
  visited : ∀ id ∈ state.program.allOps, id.index < source.ops.length → ∀ op,
    state.program.ops[id.index]? = some op → op.kind = .ret → id ∈ pending

variable {source : Program} {start state after : Progress} {id : OpId} {root : Operation}
  {pending : List OpId}

/-- A walk begins tidy. -/
theorem Tidy.begin (hresigned : Resigned handleTypes source start)
    (hoperands : source.OperandsInRange) : Tidy source start.program.allOps start where
  range := .begin hresigned hoperands
  created o op ho hop := by
    rw [hresigned.ops, List.getElem?_eq_none ho] at hop
    simp at hop
  visited id hid _ _ _ _ := hid

/-- A replacement puts the new operations in the place of the old one. -/
theorem Replaces.reshapes {funcId : FuncId} {grown : Program} {new : List Operation}
    {values : List ValueId} (h : Replaces funcId id state after root grown new values) :
    Reshapes state.program after.program id (state.program.nextOps new.length) := by
  obtain ⟨func, pre, post, hfunc, hbody, -, hprogram⟩ := h.program
  exact hprogram ▸ reshapes_of_commit h.valid h.rewrites.grows hfunc hbody

/-- Leaving an operation alone keeps a walk tidy, since a return is never left alone. -/
theorem Tidy.keeps (h : Tidy source (id :: pending) state) (hrange : InRange source after)
    (hroot : state.program.ops[id.index]? = some root) (hkeeps : Keeps state after root) :
    Tidy source pending after where
  range := hrange
  created := hkeeps.program ▸ h.created
  visited other hother hlt op hop hkind := by
    rw [hkeeps.program] at hother hop
    rcases List.mem_cons.mp (h.visited other hother hlt op hop hkind) with rfl | hrest
    · obtain rfl := Option.some.inj (hroot.symm.trans hop)
      simpa [Declined, hkind] using hkeeps.declined
    · exact hrest

/-- Replacing an operation keeps a walk tidy. -/
theorem Tidy.replaces (h : Tidy source (id :: pending) state) (hrange : InRange source after)
    (hsize : source.ops.length ≤ state.program.ops.length) {funcId : FuncId} {grown : Program}
    {new : List Operation} {values : List ValueId}
    (hreplaces : Replaces funcId id state after root grown new values) :
    Tidy source pending after where
  range := hrange
  created o op ho hop hkind := by
    rw [hreplaces.getElem?, Option.map_eq_some_iff] at hop
    obtain ⟨built, hbuilt, rfl⟩ := hop
    have hsame (c : Prop) [Decidable c] :
        (if c then { built with erased := true } else built).kind = built.kind ∧
          (if c then { built with erased := true } else built).results = built.results := by
      split <;> exact ⟨rfl, rfl⟩
    rw [(hsame _).1] at hkind
    rw [(hsame _).2]
    rw [List.getElem?_append] at hbuilt
    split at hbuilt
    · exact h.created o built ho hbuilt hkind
    · have hmem := List.mem_of_getElem? hbuilt
      rcases hreplaces.rewrites.expansion.ret_or_plain with
        ⟨-, -, op, rfl, -, -, hresults, -⟩ | ⟨-, hplain⟩
      · rwa [List.mem_singleton.mp hmem]
      · have hnone := hplain built hmem
        simp [hkind, ruleFor] at hnone
  visited other hother hlt op hop hkind := by
    rcases hreplaces.reshapes.mem_allOps hother with ⟨hold, hne⟩ | hnew
    · have hindex : id.index ≠ other.index := fun heq => hne (OpId.eq_of_index heq.symm)
      have hbefore : other.index < state.program.ops.length := by omega
      rw [hreplaces.getElem?, List.getElem?_append_left hbefore, Option.map_eq_some_iff] at hop
      obtain ⟨built, hbuilt, rfl⟩ := hop
      rw [if_neg hindex] at hkind
      rcases List.mem_cons.mp (h.visited other hold hlt built hbuilt hkind) with rfl | hrest
      · exact absurd rfl hne
      · exact hrest
    · obtain ⟨i, -, rfl⟩ := List.mem_map.mp hnew
      simp only at hlt
      omega

/-- Visits keep a walk tidy. -/
theorem keptByVisits_tidy (hresigned : Resigned handleTypes source start) :
    KeptByVisits True rules start.program (Tidy source) := by
  intro funcId id rest state func hid hnew hscheduled hfunc hmem htidy
  refine ensures_of_forall fun after hafter => ?_
  rw [hresigned.allOps] at hid
  have hsize : source.ops.length ≤ state.program.ops.length := hresigned.ops ▸ hscheduled.size
  have hstands := Program.mem_allOps hfunc hmem
  have hrange := htidy.range.convertOp hscheduled.valid hid hstands hafter
  obtain ⟨root, hroot, -, hkeeps | ⟨grown, new, values, hreplaces⟩⟩ :=
    convertOp_cases hscheduled.valid hstands hafter
  · exact htidy.keeps hrange hroot hkeeps
  · exact htidy.replaces hrange hsize hreplaces

/-! ### At the end of a run -/

/-- Converted signatures are not converted again. -/
theorem changesSignature_resign (aliases : Renaming) {func : Func}
    (hdefined : func.isDeclaration = false) :
    changesSignature handleTypes (resign handleTypes aliases func) = false := by
  have hlegal : ∀ tys : List Ty, (tys.map handleTypes.convert).all handleTypes.isLegal = true := by
    intro tys
    simp [TypeMap.isLegal, convert_convert]
  simp [changesSignature, resign, hdefined, hlegal]

/-- A walk that comes to its end has followed its schedule and is tidy. -/
theorem exists_tidy (hsource : source.Valid) (hoperands : source.OperandsInRange)
    (hwalk : walk rules handleTypes source = .ok state) :
    ∃ start, Resigned handleTypes source start ∧ Scheduled start.program [] state.program ∧
      Tidy source [] state := by
  simp only [walk, bind_eq_ok, Halt.guard_eq_ok] at hwalk
  obtain ⟨start, hsigned, hbodies⟩ := hwalk
  have hresigned := resigned_of_forEach hsource hsigned
  have hstart := convertSignatures_valid hsigned hsource
  have hends := (keptByVisits_tidy hresigned).walk hresigned hstart (.begin hresigned hoperands)
  exact ⟨start, hresigned, hends.of_ok hbodies⟩

/-- Renaming changes the operands of an operation only. -/
theorem exists_of_renamed {aliases : Renaming} {block ids : List OpId} {before after : Program}
    (h : Renamed aliases block before after) {op : Operation} (hop : op ∈ after.operations ids) :
    ∃ id ∈ ids, ∃ built, before.ops[id.index]? = some built ∧ op.kind = built.kind ∧
      op.results = built.results ∧
      ∀ v ∈ op.operands, v ∈ built.operands ∨ v ∈ built.operands.map aliases.resolve := by
  obtain ⟨id, hid, hop⟩ := List.mem_filterMap.mp hop
  rw [h.ops, Option.map_eq_some_iff] at hop
  obtain ⟨built, hbuilt, rfl⟩ := hop
  refine ⟨id, hid, built, hbuilt, ?_⟩
  split
  · exact ⟨rfl, rfl, fun v hv => .inr hv⟩
  · exact ⟨rfl, rfl, fun v hv => .inl hv⟩

/-- A walk leaves all signatures converted. -/
theorem changesSignature_of_scheduled {program : Program}
    (hresigned : Resigned handleTypes source start) (h : Scheduled start.program pending program)
    {func : Func} (hfunc : func ∈ program.funcs) (hdefined : func.isDeclaration = false) :
    changesSignature handleTypes func = false := by
  obtain ⟨expand, decls, hfuncs, hdecls, -⟩ := h.funcs
  rw [hfuncs, hresigned.funcs, List.map_map] at hfunc
  rcases List.mem_append.mp hfunc with hold | hdecl
  · obtain ⟨original, -, rfl⟩ := List.mem_map.mp hold
    have hbefore : original.isDeclaration = false := by
      cases hbody : original.body with
      | none => simp [Func.isDeclaration, Func.expandBody, resign, hbody] at hdefined
      | some body => simp [Func.isDeclaration, hbody]
    exact changesSignature_resign start.aliases hbefore
  · simp [Func.isDeclaration, hdecls func hdecl] at hdefined

/-- At the end of a walk the operands are in the arena, and so are their final names. -/
theorem Tidy.operandsInRange {block : List OpId} {target : Program}
    (h : Tidy source [] state) (hresigned : Resigned handleTypes source start)
    (hscheduled : Scheduled start.program [] state.program)
    (hrenamed : Renamed state.aliases block state.program target) : target.OperandsInRange := by
  intro op hop v hv
  obtain ⟨id, hid, built, hbuilt, -, -, hreads⟩ := exists_of_renamed hrenamed hop
  rw [Program.allOps, hrenamed.funcs] at hid
  have horigin := hscheduled.origin hid
  rw [hresigned.allOps, hresigned.ops] at horigin
  have hhas := h.range.operands id built horigin hbuilt
  rw [Program.Has, hrenamed.values]
  rcases hreads v hv with hsame | hnew
  · exact hhas v hsame
  · obtain ⟨x, hx, rfl⟩ := List.mem_map.mp hnew
    exact h.range.resolve (hhas x hx)

/-- At the end of a walk the returns have no results. -/
theorem Tidy.results_of_ret (h : Tidy source [] state) (hid : id ∈ state.program.allOps)
    (hroot : state.program.ops[id.index]? = some root) (hkind : root.kind = .ret) :
    root.results = [] := by
  rcases Nat.lt_or_ge id.index source.ops.length with hlt | hge
  · -- A return of the source that still stands would be yet to be visited.
    simpa using h.visited id hid hlt root hroot hkind
  · exact h.created id.index root hge hroot hkind

/-- A successful run leaves nothing to do. -/
theorem finished_of_lower {outcome : Outcome} {stats : Stats} (hsource : source.Valid)
    (hoperands : source.OperandsInRange) (hrun : lower source = .ok outcome)
    (hresult : outcome.result = .ok stats) : Finished outcome.program := by
  have hvalid := run_valid hrun hsource
  obtain ⟨state, target, reports, hwalk, hrename, hreports, rfl⟩ := run_eq_ok.mp hrun
  obtain rfl : reports = [] := by
    by_contra hne
    simp [hne] at hresult
  obtain ⟨start, hresigned, hscheduled, htidy⟩ := exists_tidy hsource hoperands hwalk
  have hrenamed := renamed_of_forEach
    (hscheduled.valid.nodup_blocks (nodup_definedFuncs source)) hrename
  have hall : target.allOps = state.program.allOps := by
    rw [Program.allOps, Program.allOps, hrenamed.funcs]
  refine ⟨hvalid, htidy.operandsInRange hresigned hscheduled hrenamed, fun func hfunc =>
    changesSignature_of_scheduled hresigned hscheduled (hrenamed.funcs ▸ hfunc), fun op hop => ?_,
    fun op hop hkind => ?_⟩
  · obtain ⟨id, hid, hop⟩ := List.mem_filterMap.mp hop
    obtain ⟨funcId, hfuncId, func, hfunc, hmem⟩ :=
      hscheduled.exists_defined hresigned (hall ▸ hid)
    obtain ⟨func', hfunc', hlegal⟩ := illegalIn_eq_nil.mp hreports funcId hfuncId
    rw [hrenamed.funcs] at hfunc'
    obtain rfl := Option.some.inj (hfunc.symm.trans hfunc')
    obtain ⟨op', hop', hverdict⟩ := hlegal id hmem
    obtain rfl := Option.some.inj (hop.symm.trans hop')
    exact hverdict
  · obtain ⟨id, hid, built, hbuilt, hsameKind, hsameResults, -⟩ := exists_of_renamed hrenamed hop
    rw [hsameResults]
    exact htidy.results_of_ret (hall ▸ hid) hbuilt (hsameKind ▸ hkind)

end Lowering

end TensorLowering
