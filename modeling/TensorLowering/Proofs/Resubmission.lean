import Mathlib.Data.List.Flatten
import TensorLowering.Proofs.Completion

/-!
# Lowering again what was rejected

A run that reports errors leaves a program behind, which can be lowered again. Nearly everything in
it is declined a second time for the reason it was declined for before. There are two exceptions. A
conversion is judged by the operand that it was built with, and the first run may have put a handle in
the place of a sparse tensor there; the second run then takes the handle for a dense source. And a
tensor whose arrays were not seen to come from one handle may be folded once the calls that produced
them have their final operands. The second run rejects the same operations in the same order exactly
if neither has happened.
-/

namespace TensorLowering

namespace Lowering

open Conversion

variable {program : Program} {op : Operation}

/-- An operation that was left in a program but would be replaced if it were offered as it stands: a
conversion of something that is not a sparse tensor, or a tensor with arrays of one handle. -/
def Ripe (program : Program) (op : Operation) : Prop :=
  match op.kind with
  | .sparseConvert => ∃ old ty source sourceTy, op.results[0]? = some old ∧
      program.typeOf old = .ok ty ∧ ty.isSparse = true ∧ ty.bufferAccess? ≠ none ∧
      op.operands[0]? = some source ∧ program.typeOf source = .ok sourceTy ∧
      sourceTy.isSparse = false
  | .toTensor => ∃ handle, commonHandle program none op.operands = .ok (some handle)
  | _ => False

/-- Ripeness does not depend on when one looks. -/
theorem Ripe.mono {before after : Program} (hext : before.Extends after) (h : Ripe before op) :
    Ripe after op := by
  unfold Ripe at h ⊢
  split at h
  · obtain ⟨old, ty, source, sourceTy, hold, hty, hsparse, haccess, hsource, hsourceTy, hdense⟩ := h
    exact ⟨old, ty, source, sourceTy, hold, Program.typeOf_mono hext.values hty, hsparse, haccess,
      hsource, Program.typeOf_mono hext.values hsourceTy, hdense⟩
  · obtain ⟨handle, hhandle⟩ := h
    exact ⟨handle, commonHandle_mono hext hhandle⟩
  · exact h

/-- What is ripe is not declined. -/
theorem Ripe.not_declined (h : Ripe program op) : ¬Declined program op op.operands := by
  intro hdeclined
  unfold Ripe at h
  split at h
  · rename_i hkind
    simp only [Declined, hkind] at hdeclined
    obtain ⟨old, ty, source, sourceTy, hold, hty, hsparse, haccess, hsource, hsourceTy, hdense⟩ := h
    obtain ⟨old', ty', hold', hty', hcase⟩ := hdeclined
    obtain rfl := Option.some.inj (hold.symm.trans hold')
    obtain rfl := Except.ok.inj (hty.symm.trans hty')
    rcases hcase with hnone | ⟨built, builtTy, hbuilt, hbuiltTy, hsparse' | ⟨-, -, hnone⟩⟩
    · simp [Ty.isSparse, hnone] at hsparse
    · obtain rfl := Option.some.inj (hsource.symm.trans hbuilt)
      obtain rfl := Except.ok.inj (hsourceTy.symm.trans hbuiltTy)
      simp [hdense] at hsparse'
    · exact haccess hnone
  · rename_i hkind
    simp only [Declined, hkind] at hdeclined
    obtain ⟨handle, hhandle⟩ := h
    simp [hdeclined] at hhandle
  · exact h

/-! ### What is left is ripe or declined -/

/-- In a valid program whose definitions precede uses, every operand shows something. -/
theorem exists_shows (hvalid : program.Valid) (hssa : program.DefBeforeUse) {id : OpId}
    (hid : id ∈ program.allOps) (hop : program.ops[id.index]? = some op) {x : ValueId}
    (hx : x ∈ op.operands) : ∃ seen, Shows program x seen := by
  obtain ⟨func, hfunc, hbody⟩ := List.mem_flatMap.mp hid
  obtain ⟨i, hi⟩ := List.mem_iff_getElem?.mp hfunc
  obtain ⟨earlier, later, hsplit⟩ := List.append_of_mem hbody
  rcases (visible_of_defBeforeUse hvalid hssa hfunc hsplit hop hx).origin with
    harg | ⟨other, hother, built, hbuilt, -, hresult⟩
  · obtain ⟨k, hk⟩ := List.mem_iff_getElem?.mp harg
    obtain ⟨ty, -, hvalue⟩ := hvalid.arg_value hi hk
    exact ⟨_, .argument hvalue⟩
  · obtain ⟨k, hk⟩ := List.mem_iff_getElem?.mp hresult
    obtain ⟨ty, hvalue⟩ := hvalid.results other.index k built x hbuilt hk
    refine exists_shows_of_result hvalue hbuilt fun first hfirst => ?_
    exact exists_typeOf_operand hvalid hssa (Program.mem_allOps hi (by simp [hsplit, hother])) hbuilt
      (List.mem_of_mem_head? hfirst)

/-- Operands that show something have a common handle or none. -/
theorem exists_commonHandle {operands : List ValueId} (found : Option ValueId)
    (h : ∀ x ∈ operands, ∃ seen, Shows program x seen) :
    ∃ answer, commonHandle program found operands = .ok answer := by
  induction operands generalizing found with
  | nil => exact ⟨found, rfl⟩
  | cons x rest ih =>
    have hrest := fun y hy => h y (List.mem_cons_of_mem x hy)
    obtain ⟨seen, hseen⟩ := h x List.mem_cons_self
    simp only [commonHandle_cons]
    cases seen with
    | silent =>
      obtain ⟨answer, hanswer⟩ := ih found hrest
      exact ⟨answer, .inl ⟨hseen, hanswer⟩⟩
    | foreign => exact ⟨none, .inr (.inl ⟨hseen, rfl⟩)⟩
    | handle id =>
      by_cases hfound : found = none ∨ found = some id
      · obtain ⟨answer, hanswer⟩ := ih (some id) hrest
        exact ⟨answer, .inr (.inr ⟨id, hseen, .inl ⟨hfound, hanswer⟩⟩)⟩
      · obtain ⟨other, rfl⟩ := Option.ne_none_iff_exists'.mp fun hnone => hfound (.inl hnone)
        exact ⟨none, .inr (.inr ⟨id, hseen, .inr ⟨⟨other, rfl, fun heq => hfound (by simp [heq])⟩,
          rfl⟩⟩)⟩

variable {source target : Program} {start state : Progress} {expand : OpId → List OpId}

/-- Apart from conversions and tensors, the reason to decline is the kind of operation, its results
and its renamed operands. -/
theorem Declined.transfer {before after : Program} (hvalues : before.values <+: after.values)
    {root root' : Operation} {operands : List ValueId} (hkind : root'.kind = root.kind)
    (hresults : root'.results = root.results) (hconvert : root.kind ≠ .sparseConvert)
    (htensor : root.kind ≠ .toTensor) (h : Declined before root operands) :
    Declined after root' operands := by
  have htype {v : ValueId} {ty : Ty} (hty : before.typeOf v = .ok ty) : after.typeOf v = .ok ty :=
    Program.typeOf_mono hvalues hty
  unfold Declined at h ⊢
  rw [hkind, hresults]
  split at h
  · exact h.elim
  · obtain ⟨tensor, ty, htensor, hty, hptr⟩ := h
    exact ⟨tensor, ty, htensor, htype hty, hptr⟩
  · obtain ⟨old, ty, hold, hty, hnone⟩ := h
    exact ⟨old, ty, hold, htype hty, hnone⟩
  · contradiction
  · contradiction
  · intro accessor? harray
    obtain ⟨old, ty, hold, hty, hnone⟩ := h accessor? harray
    exact ⟨old, ty, hold, htype hty, hnone⟩

/-- An operation of the source that still stands in its place is ripe or would be declined again. -/
theorem Lowered.ripe_or_declined (htarget : target.Valid) (hordered : target.DefBeforeUse)
    (h : Lowered source start state expand target) {id : OpId} (hid : id ∈ target.allOps)
    (hop : target.ops[id.index]? = some op) (hstanding : Standing source state id op) :
    Ripe target op ∨ Declined target op op.operands := by
  obtain ⟨-, built, -, hsame, hdeclined⟩ := hstanding
  have hkinds : op.kind = built.kind := by rw [hsame]
  have hresults : op.results = built.results := by rw [hsame]
  have hoperands : op.operands = built.operands.map state.aliases.resolve := by rw [hsame]
  by_cases hconvert : built.kind = .sparseConvert
  · simp only [Declined, hconvert] at hdeclined
    simp only [Ripe, Declined, hkinds, hconvert, hresults]
    obtain ⟨old, ty, hold, hty, hcase⟩ := hdeclined
    rw [← h.typeOf] at hty
    rcases hcase with hnone | ⟨first, firstTy, hfirst, -, -⟩
    · exact .inr ⟨old, ty, hold, hty, .inl hnone⟩
    · -- The source is looked at again, and it may have been redirected.
      have hnow : op.operands[0]? = some (state.aliases.resolve first) := by
        simp [hoperands, hfirst]
      obtain ⟨nowTy, hnowTy⟩ :=
        exists_typeOf_operand htarget hordered hid hop (List.mem_of_getElem? hnow)
      cases hsparse : nowTy.isSparse with
      | true => exact .inr ⟨old, ty, hold, hty, .inr ⟨_, nowTy, hnow, hnowTy, .inl hsparse⟩⟩
      | false =>
        by_cases haccess : ty.bufferAccess? = none
        · exact .inr ⟨old, ty, hold, hty,
            .inr ⟨_, nowTy, hnow, hnowTy, .inr ⟨hsparse, ⟨_, hnow⟩, haccess⟩⟩⟩
        · cases hresult : ty.sparsity? with
          | none => exact .inr ⟨old, ty, hold, hty, .inl hresult⟩
          | some sparsity =>
            exact .inl ⟨old, ty, _, nowTy, hold, hty, by simp [Ty.isSparse, hresult], haccess, hnow,
              hnowTy, hsparse⟩
  by_cases htensor : built.kind = .toTensor
  · simp only [Ripe, Declined, hkinds, htensor]
    obtain ⟨answer, hanswer⟩ :=
      exists_commonHandle none fun x hx => exists_shows htarget hordered hid hop hx
    cases answer with
    | none => exact .inr hanswer
    | some handle => exact .inl ⟨handle, hanswer⟩
  · rw [hoperands]
    exact .inr (hdeclined.transfer (h.renamed.values ▸ List.prefix_rfl) hkinds hresults hconvert
      htensor)

/-! ### The second run -/

/-- The signatures of a lowered program are not converted again. -/
theorem Lowered.next?_resigned (hsource : source.Valid)
    (h : Lowered source start state expand target) {start' : Progress}
    (hresigned : Resigned handleTypes target start') (v : ValueId) :
    start'.aliases.next? v = none := by
  cases hnext : start'.aliases.next? v with
  | none => rfl
  | some u =>
    exfalso
    obtain ⟨i, k, func, ty, hfunc, hv, hty, hchange, -⟩ := hresigned.keys v u hnext
    obtain ⟨decls, hfuncs, hdecls⟩ := h.funcs hsource
    have hbody : func.isDeclaration = false := by
      by_contra hdecl
      rw [hresigned.defined i func v hfunc (by simpa using hdecl) (List.mem_of_getElem? hv)] at hnext
      simp at hnext
    rw [hfuncs] at hfunc
    rcases List.mem_append.mp (List.mem_of_getElem? hfunc) with hold | hdecl
    · obtain ⟨old, -, rfl⟩ := List.mem_map.mp hold
      have hdefined : old.isDeclaration = false := by
        cases hnone : old.body <;>
          simp_all [Func.isDeclaration, Func.expandBody, resign]
      simp only [Func.expandBody, resign, hdefined, Bool.false_eq_true, ↓reduceIte,
        List.getElem?_map, Option.map_eq_some_iff] at hty
      obtain ⟨oldTy, -, rfl⟩ := hty
      exact hchange (convert_convert oldTy)
    · simp [Func.isDeclaration, (hdecls func hdecl).1] at hbody

/-- The reasons for the verdict about an operation are the types of its operands. -/
theorem isLegal_congr {op op' : Operation} (hkind : op'.kind = op.kind)
    (hoperands : op'.operands = op.operands)
    (htypes : ∀ v ∈ op.operands, target.typeOf v = source.typeOf v) :
    legality.isLegal target op' = legality.isLegal source op := by
  rcases kind_cases op.kind with hret | hdim | hsparse | hplain
  · rw [isLegal_of_ret hret, isLegal_of_ret (hkind.trans hret), hoperands]
    clear hoperands
    generalize op.operands = ids at htypes
    induction ids with
    | nil => rfl
    | cons v rest ih =>
      rw [Legality.noneSparse, Legality.noneSparse, htypes v List.mem_cons_self,
        ih fun w hw => htypes w (List.mem_cons_of_mem _ hw)]
  · rw [isLegal_of_tensorDim hdim, isLegal_of_tensorDim (hkind.trans hdim), denseSource, denseSource,
      hoperands]
    cases hv : op.operands[0]? with
    | none => simp [Fault.fetch, hv, bind, Except.bind]
    | some v => simp [Fault.fetch, hv, bind, Except.bind, htypes v (List.mem_of_getElem? hv)]
  · rw [isLegal_of_sparse hsparse, isLegal_of_sparse (hkind ▸ hsparse)]
  · rw [isLegal_of_plain hplain, isLegal_of_plain (hkind ▸ hplain)]

/-- An operation of the same kind with the same operands of the same types gets the same report. -/
theorem rejections_congr {ids ids' : List OpId} {op op' : Operation}
    (hold : source.operations ids = [op]) (hnew : target.operations ids' = [op'])
    (hkind : op'.kind = op.kind) (hoperands : op'.operands = op.operands) (hspan : op'.span = op.span)
    (htypes : ∀ v ∈ op.operands, target.typeOf v = source.typeOf v) :
    rejections target ids' = rejections source ids := by
  have hverdict : rejected target op' = rejected source op := by
    unfold rejected
    rw [isLegal_congr hkind hoperands htypes]
  rw [rejections_eq hold, rejections_eq hnew, hverdict, complaint_congr hkind hspan]

/-- An operation at which a run has nothing new to do: a return without results, or one that is
declined as it stands. -/
def Quiet (program : Program) (op : Operation) : Prop :=
  (op.kind = .ret ∧ op.results = []) ∨ Declined program op op.operands

/-- What stands in the blocks of a lowered program is quiet or ripe. -/
theorem Lowered.quiet_of_not_ripe (hsource : source.Valid) (htarget : target.Valid)
    (hordered : target.DefBeforeUse) (h : Lowered source start state expand target) {id : OpId}
    (hid : id ∈ target.allOps) (hop : target.ops[id.index]? = some op) (hripe : ¬Ripe target op) :
    Quiet target op := by
  rcases h.cases_of_mem hsource hid hop with hstanding | hret | hplain
  · exact .inr ((h.ripe_or_declined htarget hordered hid hop hstanding).resolve_left hripe)
  · exact .inl hret
  · exact .inr (declined_of_plain hplain)

/-- A renaming without entries resolves every value to itself. -/
theorem map_resolve_of_next? {aliases : Renaming} (h : ∀ v, aliases.next? v = none)
    (ids : List ValueId) : ids.map aliases.resolve = ids := by
  conv_rhs => rw [← List.map_id ids]
  exact List.map_congr_left fun v _ => Renaming.resolve_of_next?_eq_none (h v)

/-- Visits to quiet operations come to their end and name nothing. -/
theorem eachVisit_of_quiet (hsource : source.Valid)
    (hresigned : Resigned handleTypes source start)
    (hquiet : ∀ id ∈ source.allOps, ∀ op, source.ops[id.index]? = some op → Quiet source op) :
    EachVisit source start fun state => ∀ v, state.aliases.next? v = none := by
  intro done post expand state id op funcId func body hall hwalk hnames hop hfunc hbody hmem
  obtain ⟨hnow, hlive, hblock, hstands⟩ := hwalk.stands hsource hall hop hbody hmem
  rcases hquiet id (by simp [hall]) op hop with ⟨hkind, hresults⟩ | hdeclined
  · obtain ⟨pre, post, hsplit, hpre⟩ := List.eq_append_cons_of_mem hstands
    obtain ⟨log, hafter⟩ := exists_convertOp_of_ret hnow hlive hkind hresults
      (hwalk.func hfunc) (hblock.trans (congrArg some hsplit)) hpre
    exact ⟨_, hafter, hnames⟩
  · have hdeclined' := hdeclined.mono (hwalk.extends hresigned)
    obtain ⟨log, hafter⟩ := exists_convertOp_of_declined hnow hlive funcId
      (by rwa [map_resolve_of_next? hnames])
    exact ⟨_, hafter, hnames⟩

/-- A program of quiet operations with converted signatures is lowered without naming anything. -/
theorem exists_lower_of_quiet (hvalid : program.Valid) (hssa : program.DefBeforeUse)
    (hsigned : ∀ start, Resigned handleTypes program start → ∀ v, start.aliases.next? v = none)
    (hquiet : ∀ id ∈ program.allOps, ∀ op, program.ops[id.index]? = some op → Quiet program op) :
    ∃ outcome start state expand, lower program = .ok outcome ∧
      Lowered program start state expand outcome.program ∧ ∀ v, state.aliases.next? v = none := by
  obtain ⟨state, hwalk, hnames⟩ := exists_walk_of_eachVisit hvalid hssa fun start hresigned =>
    ⟨hsigned start hresigned, eachVisit_of_quiet hvalid hresigned hquiet⟩
  obtain ⟨outcome, hrun⟩ := exists_lower_of_walk hvalid hssa hwalk
  obtain ⟨start, state', expand, hwalk', hlowered⟩ := exists_lowered hvalid hssa hrun
  obtain rfl := Except.ok.inj (hwalk.symm.trans hwalk')
  exact ⟨outcome, start, state, expand, hrun, hlowered, hnames⟩

/-- When nothing is named, the verdicts about quiet operations stay as they are. -/
theorem Lowered.rejections_of_quiet (hsource : source.Valid) (hssa : source.DefBeforeUse)
    (h : Lowered source start state expand target) (hnames : ∀ v, state.aliases.next? v = none)
    (hquiet : ∀ id ∈ source.allOps, ∀ op, source.ops[id.index]? = some op → Quiet source op) :
    ∀ id ∈ source.allOps, rejections target (expand id) = rejections source [id] := by
  intro id hid
  have hnow := h.renamed.eq_of_fixed fun v => Renaming.resolve_of_next?_eq_none (hnames v)
  have hext : source.Extends target := hnow ▸ h.walk.extends h.resigned
  obtain ⟨op, hop, -⟩ := hsource.live id hid
  have hold : source.operations [id] = [op] := Program.operations_cons hop []
  have htypes : ∀ v ∈ op.operands, target.typeOf v = source.typeOf v := by
    intro v hv
    obtain ⟨ty, hty⟩ := exists_typeOf_operand hsource hssa hid hop hv
    rw [hty, Program.typeOf_mono hext.values hty]
  have hbecame := h.became hsource hid hop
  generalize expand id = ids at hbecame ⊢
  cases hbecame with
  | kept hop' =>
    exact rejections_congr hold (Program.operations_cons hop' []) rfl
      (map_resolve_of_next? hnames op.operands) rfl htypes
  | replaced _ _ hexpansion =>
    rw [map_resolve_of_next? hnames] at hexpansion
    have hret := (hquiet id hid op hop).resolve_right fun hdeclined =>
      hexpansion.not_declined (hdeclined.mono hext)
    rcases hexpansion.ret_or_plain with ⟨-, -, op', hnew, hkind, hoperands, -, hspan⟩ | ⟨hkind, -⟩
    · exact rejections_congr hold hnew (hkind.trans hret.1.symm) hoperands hspan htypes
    · exact absurd hret.1 hkind

/-! ### A second run that rejects the same -/

/-- Lists that are joined from sublists to the same list have the same parts. -/
theorem eq_of_flatMap_eq {α β : Type} {parts : List α} {left right : α → List β}
    (hsub : ∀ a ∈ parts, (left a).Sublist (right a))
    (heq : parts.flatMap left = parts.flatMap right) : ∀ a ∈ parts, left a = right a := by
  induction parts with
  | nil => simp
  | cons first rest ih =>
    have hfirst := hsub first List.mem_cons_self
    have hrest := fun a ha => hsub a (List.mem_cons_of_mem first ha)
    have hlengths := congrArg List.length heq
    have hle := (List.Sublist.flatMap_right rest hrest).length_le
    have hle' := hfirst.length_le
    simp only [List.flatMap_cons, List.length_append] at hlengths
    have hhead := hfirst.eq_of_length (by omega)
    rw [List.flatMap_cons, List.flatMap_cons, hhead] at heq
    intro a ha
    rcases List.mem_cons.mp ha with rfl | htail
    · exact hhead
    · exact ih hrest (List.append_cancel_left heq) a htail

/-- An operation on sparse tensors that is still reported has not been replaced. -/
theorem Lowered.expand_of_rejections (hsource : source.Valid)
    (h : Lowered source start state expand target) {id : OpId} (hid : id ∈ source.allOps)
    (hop : source.ops[id.index]? = some op) (hkind : op.kind.dialect = .sparseTensor)
    (hsame : rejections target (expand id) = rejections source [id]) : expand id = [id] := by
  have hbecame := h.became hsource hid hop
  rw [rejections_eq (Program.operations_cons hop []),
    if_pos (by simp [rejected, isLegal_of_sparse hkind])] at hsame
  generalize expand id = ids at hbecame hsame ⊢
  cases hbecame with
  | kept => rfl
  | replaced _ _ hexpansion =>
    rcases hexpansion.ret_or_plain with ⟨hret, -⟩ | ⟨-, hplain⟩
    · simp [hret, OpKind.dialect] at hkind
    · simp [rejections_eq_nil hplain] at hsame

/-- An extent that is answered is that of a handle, and the answer has the type of the extent. -/
theorem Expansion.of_tensorDim {root : Operation} {operands : List ValueId} {new : List Operation}
    {values : List ValueId} (h : Expansion program root operands new values)
    (hkind : root.kind = .tensorDim) {old value : ValueId} (hold : old ∈ root.results)
    (hvalue : value ∈ values) :
    (∃ tensor, operands[0]? = some tensor ∧ program.typeOf tensor = .ok .ptr) ∧
      ∃ ty, program.typeOf old = .ok ty ∧ program.typeOf value = .ok ty := by
  cases h with
  | query hresults hty hquery hnew =>
    obtain rfl : old = _ := by simpa [hresults] using hold
    obtain rfl := List.mem_singleton.mp hvalue
    refine ⟨?_, _, hty, hnew⟩
    rw [hkind] at hquery
    cases hquery with
    | dim htensor hptr => exact ⟨_, htensor, hptr⟩
    | read harray => simp [arrayAccessor?] at harray
  | ret hother => simp [hkind] at hother
  | construct hother => simp [hkind] at hother
  | convert hother => simp [hkind] at hother
  | fold hother => simp [hkind] at hother

/-- If no operation on sparse tensors is replaced and no extent is asked of a handle, nothing is
named: extents alone would keep their types, and so would not come to be asked of handles. -/
theorem Lowered.next?_eq_none (h : Lowered source start state expand target)
    (hsigned : ∀ v, start.aliases.next? v = none)
    (hsparse : ∀ id ∈ source.allOps, ∀ op, source.ops[id.index]? = some op →
      op.kind.dialect = .sparseTensor → expand id = [id])
    (hdims : ∀ id ∈ source.allOps, ∀ op, source.ops[id.index]? = some op → op.kind = .tensorDim →
      ∃ v ty, op.operands[0]? = some v ∧ source.typeOf v = .ok ty ∧ ty.isPtr = false)
    (v : ValueId) : state.aliases.next? v = none := by
  have hextent : ∀ v u, state.aliases.next? v = some u →
      (∃ id ∈ source.allOps, ∃ op, source.ops[id.index]? = some op ∧ op.kind = .tensorDim ∧
        ∃ tensor, (op.operands.map state.aliases.resolve)[0]? = some tensor ∧
          state.program.typeOf tensor = .ok .ptr) ∧
      ∃ ty, state.program.typeOf v = .ok ty ∧ state.program.typeOf u = .ok ty := by
    intro v u hnext
    rcases h.walk.next?_cases hnext with
      hstart | ⟨id, hid, op, new, values, hop, hresult, hvalue, hexpansion⟩
    · simp [hsigned v] at hstart
    rcases kind_cases op.kind with hkind | hkind | hkind | hkind
    · rcases hexpansion.ret_or_plain with ⟨-, hresults, -⟩ | ⟨hother, -⟩
      · simp [hresults] at hresult
      · exact absurd hkind hother
    · obtain ⟨hhandle, htypes⟩ := hexpansion.of_tensorDim hkind hresult hvalue
      exact ⟨⟨id, hid, op, hop, hkind, hhandle⟩, htypes⟩
    · exact absurd (h.declined hid hop (hsparse id hid op hop hkind)) hexpansion.not_declined
    · exact absurd (declined_of_plain hkind) hexpansion.not_declined
  have hresolve : ∀ w ty, state.program.typeOf w = .ok ty →
      state.program.typeOf (state.aliases.resolve w) = .ok ty := by
    intro w ty hty
    obtain ⟨n, last, hchain⟩ := h.walk.acyclic w
    rw [hchain.resolve_eq]
    induction hchain with
    | stop _ => exact hty
    | step hnext _ ih =>
      obtain ⟨-, ty', hold, hnew⟩ := hextent _ _ hnext
      obtain rfl := Except.ok.inj (hty.symm.trans hold)
      exact ih hnew
  cases hnext : state.aliases.next? v with
  | none => rfl
  | some u =>
    obtain ⟨⟨id, hid, op, hop, hkind, tensor, htensor, hptr⟩, -⟩ := hextent v u hnext
    obtain ⟨w, ty, hw, hty, hdense⟩ := hdims id hid op hop hkind
    obtain rfl : state.aliases.resolve w = tensor := by simpa [hw] using htensor
    have hnow := hresolve w ty
      (Program.typeOf_mono (h.resigned.values.trans h.walk.values) hty)
    obtain rfl := Except.ok.inj (hnow.symm.trans hptr)
    simp [Ty.isPtr] at hdense

/-- A second run that rejects the same operations has met nothing ripe. -/
theorem Lowered.not_ripe (hsource : source.Valid) (htarget : target.Valid)
    (hordered : target.DefBeforeUse) (h : Lowered source start state expand target)
    {start' state' : Progress} {expand' : OpId → List OpId} {final : Program}
    (h' : Lowered target start' state' expand' final)
    (hsame : ∀ id ∈ target.allOps, rejections final (expand' id) = rejections target [id])
    {id : OpId} (hid : id ∈ target.allOps) (hop : target.ops[id.index]? = some op) :
    ¬Ripe target op := by
  intro hripe
  have hsparse : ∀ id ∈ target.allOps, ∀ op, target.ops[id.index]? = some op →
      op.kind.dialect = .sparseTensor → expand' id = [id] := fun id hid op hop hkind =>
    h'.expand_of_rejections htarget hid hop hkind (hsame id hid)
  have hdims : ∀ id ∈ target.allOps, ∀ op, target.ops[id.index]? = some op →
      op.kind = .tensorDim →
      ∃ v ty, op.operands[0]? = some v ∧ target.typeOf v = .ok ty ∧ ty.isPtr = false := by
    intro id hid op hop hkind
    rcases h.quiet_of_not_ripe hsource htarget hordered hid hop (by simp [Ripe, hkind]) with
      ⟨hret, -⟩ | hdeclined
    · simp [hkind] at hret
    · simpa only [Declined, hkind] using hdeclined
  have hnames := h'.next?_eq_none (h.next?_resigned hsource h'.resigned) hsparse hdims
  have hkind : op.kind.dialect = .sparseTensor := by
    unfold Ripe at hripe
    split at hripe
    · rename_i hkind
      rw [hkind]
      rfl
    · rename_i hkind
      rw [hkind]
      rfl
    · exact hripe.elim
  have hdeclined := h'.declined hid hop (hsparse id hid op hop hkind)
  rw [map_resolve_of_next? hnames] at hdeclined
  exact (hripe.mono (h'.walk.extends h'.resigned)).not_declined hdeclined

/-- What was rejected stays rejected, with the same reports in the same order, exactly if nothing
that was left behind is ripe. -/
theorem lower_rejected_again {outcome : Outcome} {diagnostics : List Diagnostic}
    (hreach : program.Reachable) (hssa : program.DefBeforeUse)
    (hrun : lower program = .ok outcome) (hrejected : outcome.result = .error diagnostics) :
    (∃ again diagnostics', lower outcome.program = .ok again ∧
      again.result = .error diagnostics' ∧
      diagnostics'.map Diagnostic.headline = diagnostics.map Diagnostic.headline) ↔
    ∀ op ∈ outcome.program.operations outcome.program.allOps, ¬Ripe outcome.program op := by
  have hvalid := hreach.valid
  have htarget : outcome.program.Valid := (Program.Reachable.convert hreach hrun).valid
  obtain ⟨start, state, expand, -, hlowered⟩ := exists_lowered hvalid hssa hrun
  have hordered := hlowered.defBeforeUse hvalid hssa htarget
  have hheadlines := headlines_of_error hvalid hssa hrun hrejected
  have hsplit : ∀ program : Program, rejections program program.allOps =
      program.allOps.flatMap fun id => rejections program [id] := fun program => by
    rw [← rejections_flatMap, List.flatMap_singleton']
  constructor
  · rintro ⟨again, diagnostics', hrun', hrejected', hsame⟩ op hop
    obtain ⟨id, hid, hop⟩ := List.mem_filterMap.mp hop
    obtain ⟨start', state', expand', -, hlowered'⟩ := exists_lowered htarget hordered hrun'
    have hreports := (headlines_of_error htarget hordered hrun' hrejected').2
    rw [hreports, hheadlines.2, hlowered'.allOps htarget, rejections_flatMap, hsplit] at hsame
    refine hlowered.not_ripe hvalid htarget hordered hlowered' (eq_of_flatMap_eq ?_ hsame) hid hop
    intro other hother
    obtain ⟨op', hop', -⟩ := htarget.live other hother
    exact hlowered'.rejections_sublist htarget hordered hother hop'
  · intro hnone
    have hquiet : ∀ id ∈ outcome.program.allOps, ∀ op, outcome.program.ops[id.index]? = some op →
        Quiet outcome.program op := fun id hid op hop =>
      hlowered.quiet_of_not_ripe hvalid htarget hordered hid hop
        (hnone op (List.mem_filterMap.mpr ⟨id, hid, hop⟩))
    obtain ⟨again, start', state', expand', hrun', hlowered', hnames⟩ := exists_lower_of_quiet htarget
      hordered (fun start' => hlowered.next?_resigned hvalid) hquiet
    have hsame : rejections again.program again.program.allOps =
        rejections outcome.program outcome.program.allOps := by
      rw [hlowered'.allOps htarget, rejections_flatMap, hsplit]
      exact List.flatMap_congr (hlowered'.rejections_of_quiet htarget hordered hnames hquiet)
    rcases lower_result htarget hordered hrun' with ⟨stats, -, hempty⟩ | ⟨reports, herror, -, hreports⟩
    · rw [hsame, ← hheadlines.2, List.map_eq_nil_iff] at hempty
      exact absurd hempty hheadlines.1
    · exact ⟨again, reports, hrun', herror, by rw [hreports, hsame, hheadlines.2]⟩

/-- The reports of a run and the result of a second run on what it left behind, if the first run
rejects and none of them stops. -/
def resubmitted (program : Program) : Option (List Diagnostic × Except (List Diagnostic) Stats) :=
  match lower program with
  | .error _ => none
  | .ok outcome =>
    match outcome.result, lower outcome.program with
    | .error diagnostics, .ok again => some (diagnostics, again.result)
    | _, _ => none

/-- The two runs that a resubmission consists of. -/
theorem exists_of_resubmitted {diagnostics : List Diagnostic}
    {result : Except (List Diagnostic) Stats} (h : resubmitted program = some (diagnostics, result)) :
    ∃ outcome again, lower program = .ok outcome ∧ outcome.result = .error diagnostics ∧
      lower outcome.program = .ok again ∧ again.result = result := by
  unfold resubmitted at h
  split at h
  · simp at h
  · rename_i outcome hrun
    split at h
    · rename_i reports again hresult hagain
      simp only [Option.some.injEq, Prod.mk.injEq] at h
      exact ⟨outcome, again, hrun, h.1 ▸ hresult, hagain, h.2⟩
    · simp at h

/-- A sparse vector is converted to a dense one, for which there is no rule. -/
def densified : Program := .listed
  [{ name := "densify"
     argTypes := [sparseVector]
     lines := some [
      { kind := .sparseConvert, operands := [0], types := [.dense [.dynamic] .f64] },
      { kind := .ret, operands := [] }] }]

/-- The conversion is rejected both times, since its result is not a sparse tensor. -/
theorem lower_rejected_again_densified : densified.Reachable ∧ densified.DefBeforeUse ∧
    ∃ outcome diagnostics, lower densified = .ok outcome ∧ outcome.result = .error diagnostics ∧
      (∃ again diagnostics', lower outcome.program = .ok again ∧
        again.result = .error diagnostics' ∧
        diagnostics'.map Diagnostic.headline = diagnostics.map Diagnostic.headline) ∧
      ∀ op ∈ outcome.program.operations outcome.program.allOps, ¬Ripe outcome.program op := by
  have hreach : densified.Reachable := Program.reachable_listed _
  have hssa : densified.DefBeforeUse := by decide +kernel
  have hboth : ∃ diagnostics, resubmitted densified = some (diagnostics, .error diagnostics) :=
    ⟨[{ severity := .error
        message := "failed to legalize operation 'sparse_tensor.convert'"
        span := .nowhere
        notes := ["in function @densify",
          "%1 = sparse_tensor.convert %2 : !llvm.ptr<i8> -> tensor<?xf64>"] }], by decide +kernel⟩
  obtain ⟨diagnostics, hboth⟩ := hboth
  obtain ⟨outcome, again, hrun, hresult, hagain, hresult'⟩ := exists_of_resubmitted hboth
  have hsame : ∃ again diagnostics', lower outcome.program = .ok again ∧
      again.result = .error diagnostics' ∧
      diagnostics'.map Diagnostic.headline = diagnostics.map Diagnostic.headline :=
    ⟨again, diagnostics, hagain, hresult', rfl⟩
  exact ⟨hreach, hssa, outcome, diagnostics, hrun, hresult, hsame,
    (lower_rejected_again hreach hssa hrun hresult).mp hsame⟩

/-- A sparse matrix is converted to another sparse format. -/
def recast : Program := .listed
  [{ name := "recast"
     argTypes := [.tensor [.static 4, .dynamic] .f32 (some { levels := [.compressed, .dense] })]
     lines := some [
      { kind := .sparseConvert
        operands := [0]
        types := [.tensor [.static 4, .static 4] .f32 (some { levels := [.dense, .compressed] })]
        span := ⟨0, 30, 52⟩ },
      { kind := .ret, operands := [] }] }]

/-- The conversion between sparse formats is rejected, and then accepted. -/
theorem recast_accepted_again : recast.Reachable ∧ recast.DefBeforeUse ∧
    ∃ outcome again diagnostics stats, lower recast = .ok outcome ∧
      outcome.result = .error diagnostics ∧ lower outcome.program = .ok again ∧
      again.result = .ok stats := by
  have hboth : ∃ diagnostics stats, resubmitted recast = some (diagnostics, .ok stats) :=
    ⟨[{ severity := .error
        message := "failed to legalize operation 'sparse_tensor.convert'"
        span := ⟨0, 30, 52⟩
        notes := ["in function @recast", "%1 = sparse_tensor.convert %2 : !llvm.ptr<i8> -> " ++
          "tensor<4x4xf32, #sparse<[dense, compressed], ptr = 0, idx = 0>>"] }],
      { converted := 2 }, by decide +kernel⟩
  obtain ⟨diagnostics, stats, hboth⟩ := hboth
  obtain ⟨outcome, again, hrun, hresult, hagain, hresult'⟩ := exists_of_resubmitted hboth
  exact ⟨Program.reachable_listed _, by decide +kernel, outcome, again, diagnostics, stats, hrun,
    hresult, hagain, hresult'⟩

end Lowering

end TensorLowering
