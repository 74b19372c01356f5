import TensorLowering.Proofs.Emission
import TensorLowering.Proofs.Listings
import TensorLowering.Recipe

/-!
# Attempts that are taken back

An attempt that declines may have asked for anything before: it may have created operations,
declared functions under new names and under known ones, and named a replacement of its root. Taking
it back drops the functions behind the old ones, forgets their names and marks the operations as
erased. What is left differs from the program before only by erased operations and by values that
nothing reads. The names come back exactly because a declaration adds an entry only under a name
that had none. A program that has a text keeps it; one that has none, since an operand points past
the arena, may gain one when the arena grows.
-/

namespace TensorLowering

namespace SymbolTable

/-- Forgetting the name of the newest entry gives the table before it, if the name was new. -/
theorem erase_insert {table : SymbolTable} {name : String} (hnew : table.lookup? name = none)
    (func : FuncId) : (table.insert name func).erase name = table := by
  obtain ⟨entries⟩ := table
  have hothers : entries.filter (fun entry => entry.1 ≠ name) = entries := by
    apply List.filter_eq_self.mpr
    intro entry hentry
    have hne : ¬name = entry.1 := by simpa using List.lookup_eq_none_iff.mp hnew entry hentry
    exact decide_eq_true (Ne.symm hne)
  rw [insert, erase, List.filter_cons_of_neg (by simp), hothers]

/-- The order in which names are forgotten does not matter. -/
theorem erase_comm (table : SymbolTable) (name other : String) :
    (table.erase name).erase other = (table.erase other).erase name := by
  simp only [erase, List.filter_filter, Bool.and_comm]

/-- Forgetting a name before those of several functions is forgetting it after them. -/
theorem foldl_erase_erase (table : SymbolTable) (name : String) (funcs : List Func) :
    funcs.foldl (fun table func => table.erase func.name) (table.erase name) =
      (funcs.foldl (fun table func => table.erase func.name) table).erase name := by
  induction funcs generalizing table with
  | nil => rfl
  | cons func rest ih =>
    rw [List.foldl_cons, List.foldl_cons, erase_comm, ih]

end SymbolTable

namespace Script

/-- What a script declares stands behind the old functions, and without it the names are the old
ones. -/
theorem run_forgets {α : Type} (script : Script α) (root : Operation) {attempt after : Attempt}
    {result : Option α} (hrun : script.run root attempt = .ok (result, after)) :
    ∃ decls, after.program.funcs = attempt.program.funcs ++ decls ∧
      decls.foldl (fun table func => table.erase func.name) after.program.symbols =
        attempt.program.symbols := by
  induction script generalizing attempt with
  | done value =>
    simp only [run, Except.ok.injEq, Prod.mk.injEq] at hrun
    obtain ⟨-, rfl⟩ := hrun
    exact ⟨[], by simp, rfl⟩
  | decline =>
    simp only [run, Except.ok.injEq, Prod.mk.injEq] at hrun
    obtain ⟨-, rfl⟩ := hrun
    exact ⟨[], by simp, rfl⟩
  | fail fault => simp [run] at hrun
  | inspect k ih => exact ih attempt.program hrun
  | create kind operands types k ih =>
    obtain ⟨decls, hfuncs, hsymbols⟩ := ih _ hrun
    exact ⟨decls, hfuncs, hsymbols⟩
  | declare name argTypes resultTypes k ih =>
    obtain ⟨decls, hfuncs, hsymbols⟩ := ih hrun
    simp only [Attempt.declare, Program.declare] at hfuncs hsymbols
    split at hfuncs
    · rename_i known hknown
      simp only [hknown] at hsymbols
      exact ⟨decls, hfuncs, hsymbols⟩
    · rename_i hnew
      simp only [hnew, Program.insertFunc] at hfuncs hsymbols
      refine ⟨_ :: decls, by rw [hfuncs, List.append_assoc, List.singleton_append], ?_⟩
      rw [List.foldl_cons, SymbolTable.foldl_erase_erase, hsymbols]
      exact SymbolTable.erase_insert hnew _
  | replace values k ih =>
    simp only [run] at hrun
    split at hrun
    · rename_i changed hreplace
      obtain ⟨-, -, rfl⟩ := Attempt.replace_eq_ok.mp hreplace
      obtain ⟨decls, hfuncs, hsymbols⟩ := ih hrun
      exact ⟨decls, hfuncs, hsymbols⟩
    · simp at hrun

end Script

namespace Program

/-! ### Arenas that have grown -/

/-- The later program has more values and, at the end of their arena, more operations, which are all
erased. -/
structure Padded (before after : Program) : Prop where
  values : before.values <+: after.values
  ops : ∃ new, after.ops = before.ops ++ new ∧ ∀ op ∈ new, op.erased = true
  funcs : after.funcs = before.funcs
  symbols : after.symbols = before.symbols

variable {before middle after : Program}

/-- Nothing is added. -/
theorem Padded.refl (program : Program) : program.Padded program where
  values := List.prefix_rfl
  ops := ⟨[], by simp, by simp⟩
  funcs := rfl
  symbols := rfl

/-- Additions compose. -/
theorem Padded.trans (h : before.Padded middle) (h' : middle.Padded after) :
    before.Padded after where
  values := h.values.trans h'.values
  ops := by
    obtain ⟨new, hops, herased⟩ := h.ops
    obtain ⟨more, hops', herased'⟩ := h'.ops
    refine ⟨new ++ more, by rw [hops', hops, List.append_assoc], fun op hop => ?_⟩
    rcases List.mem_append.mp hop with hnew | hmore
    · exact herased op hnew
    · exact herased' op hmore
  funcs := h'.funcs.trans h.funcs
  symbols := h'.symbols.trans h.symbols

/-- The old operations are where they were. -/
theorem Padded.old_ops (h : before.Padded after) : before.ops <+: after.ops := by
  obtain ⟨new, hops, -⟩ := h.ops
  exact ⟨new, hops.symm⟩

/-- The blocks are the same. -/
theorem Padded.allOps (h : before.Padded after) : after.allOps = before.allOps := by
  rw [Program.allOps, Program.allOps, h.funcs]

/-! ### Texts in a larger arena -/

section Texts

variable (h : before.Padded after)

include h

/-- An operation that has a text keeps it. -/
theorem Padded.renderOp {id : OpId} {text : String} (htext : before.renderOp id = .ok text) :
    after.renderOp id = .ok text := by
  simp only [Program.renderOp, bind_eq_ok, op_eq_ok, pure_eq_ok] at htext ⊢
  obtain ⟨op, hop, operandTypes, hoperands, resultTypes, hresults, rfl⟩ := htext
  exact ⟨op, getElem?_mono h.old_ops hop, operandTypes, typesOf_mono h.values hoperands,
    resultTypes, typesOf_mono h.values hresults, rfl⟩

/-- A block that has a text keeps it. -/
theorem Padded.renderBlock {ids : List OpId} {lines : List String}
    (hlines : before.renderBlock ids = .ok lines) : after.renderBlock ids = .ok lines := by
  induction ids generalizing lines with
  | nil => exact hlines
  | cons id rest ih =>
    simp only [Program.renderBlock, bind_eq_ok, pure_eq_ok] at hlines ⊢
    obtain ⟨text, htext, lines, hlines, rfl⟩ := hlines
    exact ⟨text, h.renderOp htext, lines, ih hlines, rfl⟩

/-- A function that has a text keeps it. -/
theorem Padded.renderFunc {func : Func} {text : String}
    (htext : before.renderFunc func = .ok text) : after.renderFunc func = .ok text := by
  unfold Program.renderFunc at htext ⊢
  cases hbody : func.body with
  | none => simpa only [hbody] using htext
  | some body =>
    simp only [hbody, bind_eq_ok, pure_eq_ok] at htext ⊢
    obtain ⟨lines, hlines, rfl⟩ := htext
    exact ⟨lines, h.renderBlock hlines, rfl⟩

/-- Functions that have a text keep it. -/
theorem Padded.renderFuncs {funcs : List Func} {texts : List String}
    (htexts : before.renderFuncs funcs = .ok texts) : after.renderFuncs funcs = .ok texts := by
  induction funcs generalizing texts with
  | nil => exact htexts
  | cons func rest ih =>
    simp only [Program.renderFuncs, bind_eq_ok, pure_eq_ok] at htexts ⊢
    obtain ⟨text, htext, texts, htexts, rfl⟩ := htexts
    exact ⟨text, h.renderFunc htext, texts, ih htexts, rfl⟩

/-- A program that has a text keeps it. -/
theorem Padded.render {text : String} (htext : before.render = .ok text) :
    after.render = .ok text := by
  simp only [Program.render, bind_eq_ok, pure_eq_ok] at htext ⊢
  obtain ⟨texts, htexts, rfl⟩ := htext
  exact ⟨texts, h.funcs ▸ h.renderFuncs htexts, rfl⟩

end Texts

/-- Nothing of what led from one program to another is seen: the functions, the names and the text
are the same, what was in the arenas is as it was, and what was added is erased and in no block. -/
structure NoTrace (before after : Program) : Prop where
  funcs : after.funcs = before.funcs
  symbols : after.symbols = before.symbols
  values : ∀ id value, before.value id = .ok value → after.value id = .ok value
  ops : ∀ id op, before.op id = .ok op → after.op id = .ok op
  added : ∀ id op, before.ops.length ≤ id.index → after.op id = .ok op →
    op.erased = true ∧ id ∉ after.allOps
  text : ∀ text, before.render = .ok text → after.render = .ok text

/-- Erased operations and values at the ends of their arenas leave no trace. -/
theorem Padded.noTrace (h : before.Padded after) (hvalid : before.Valid) :
    before.NoTrace after where
  funcs := h.funcs
  symbols := h.symbols
  values id value hvalue := value_eq_ok.mpr (getElem?_mono h.values (value_eq_ok.mp hvalue))
  ops id op hop := op_eq_ok.mpr (getElem?_mono h.old_ops (op_eq_ok.mp hop))
  added id op hid hop := by
    constructor
    · obtain ⟨new, hops, herased⟩ := h.ops
      rw [op_eq_ok, hops, List.getElem?_append_right hid] at hop
      exact herased op (List.mem_of_getElem? hop)
    · intro hmem
      rw [h.allOps] at hmem
      exact absurd (hvalid.lt_length hmem) (Nat.not_lt.mpr hid)
  text text htext := h.render htext

end Program

namespace Conversion

/-! ### What is left of an attempt -/

/-- Erasing several operations, looked at one by one. -/
theorem foldl_eraseOp_getElem? (ids : List OpId) (program : Program) (o : Nat) :
    (ids.foldl Program.eraseOp program).ops[o]? = program.ops[o]?.map fun op =>
      if (⟨o⟩ : OpId) ∈ ids then { op with erased := true } else op := by
  induction ids generalizing program with
  | nil => simp
  | cons id rest ih =>
    have hfirst : (program.eraseOp id).ops[o]? = program.ops[o]?.map fun op =>
        if id = ⟨o⟩ then { op with erased := true } else op := by
      have hindex : id.index = o ↔ id = ⟨o⟩ := ⟨fun h => OpId.eq_of_index h, fun h => h ▸ rfl⟩
      simp only [Program.eraseOp, Program.modifyOp, List.getElem?_modify, hindex, Option.map_eq_map]
    rw [List.foldl_cons, ih, hfirst, Option.map_map]
    refine congrArg (fun change => Option.map change program.ops[o]?) (funext fun op => ?_)
    by_cases hid : id = ⟨o⟩
    · simp [hid]
    · simp [hid, Ne.symm hid]

/-- Erasing operations keeps the values and the names. -/
theorem foldl_eraseOp_frame (ids : List OpId) (program : Program) :
    (ids.foldl Program.eraseOp program).values = program.values ∧
      (ids.foldl Program.eraseOp program).symbols = program.symbols := by
  induction ids generalizing program with
  | nil => exact ⟨rfl, rfl⟩
  | cons id rest ih => exact ih (program.eraseOp id)

/-- What is left of an attempt that is taken back is the program before it, with more values and
with the operations of the attempt, erased, at the end of their arena. -/
theorem rollBack_padded {α : Type} {script : Script α} {root : Operation} {program : Program}
    {log : List Event} {result : Option α} {attempt : Attempt}
    (hrun : script.run root { program, log } = .ok (result, attempt)) :
    program.Padded (rollBack program.funcs.length attempt) := by
  obtain ⟨new, hgrows, hinserted⟩ := Script.run_grows _ _ hrun
  obtain ⟨decls, hfuncs, hsymbols⟩ := Script.run_forgets _ _ hrun
  obtain ⟨hvalues, htable⟩ := foldl_eraseOp_frame attempt.inserted attempt.program
  have hkept := foldl_eraseOp_funcs attempt.inserted attempt.program
  refine ⟨?_, ?_, ?_, ?_⟩
  · change program.values <+: (attempt.inserted.foldl Program.eraseOp attempt.program).values
    rw [hvalues]
    exact hgrows.values
  · refine ⟨new.map fun op => { op with erased := true }, List.ext_getElem? fun o => ?_, by simp⟩
    -- The ids of the attempt are those from the end of the old arena on.
    have hmem : (⟨o⟩ : OpId) ∈ attempt.inserted ↔
        program.ops.length ≤ o ∧ o < program.ops.length + new.length := by
      rw [hinserted, List.nil_append]
      simp only [Program.nextOps, List.mem_map, List.mem_range, OpId.mk.injEq]
      constructor
      · rintro ⟨i, hi, rfl⟩
        omega
      · intro ho
        exact ⟨o - program.ops.length, by omega, by omega⟩
    change (attempt.inserted.foldl Program.eraseOp attempt.program).ops[o]? = _
    rw [foldl_eraseOp_getElem?, hgrows.ops, List.getElem?_append, List.getElem?_append]
    by_cases hold : o < program.ops.length
    · simp [hold, hmem, Nat.not_le.mpr hold]
    · rw [if_neg hold, if_neg hold, List.getElem?_map]
      cases hnew : new[o - program.ops.length]? with
      | none => rfl
      | some op =>
        have hlt := (List.getElem?_eq_some_iff.mp hnew).1
        have hin : (⟨o⟩ : OpId) ∈ attempt.inserted := hmem.mpr ⟨by omega, by omega⟩
        simp [hin]
  · simp only [rollBack, Program.truncateFuncs, hkept, hfuncs, List.take_left]
  · simp only [rollBack, Program.truncateFuncs, hkept, htable, hfuncs, List.drop_left, hsymbols]

/-! ### Going on after a decline -/

/-- The state in which the next pattern is tried, after the attempt of one was taken back. -/
def Progress.passOver (state : Progress) (site : Site) (pattern : Pattern) (attempt : Attempt) :
    Progress :=
  { state with
    program := rollBack state.program.funcs.length attempt
    log := attempt.log ++ [.declined site.root.name pattern.label]
    stats := { state.stats with declined := state.stats.declined + 1 } }

/-- The states in which a conversion of a reachable program can be: at its beginning, after
signatures were converted or operations were visited, and after an attempt was taken back. -/
inductive Underway (patterns : List Pattern) (types : TypeMap) : Progress → Prop
  | begin {program : Program} : program.Reachable → Underway patterns types { program }
  | signature {state after : Progress} {id : FuncId} : Underway patterns types state →
      convertSignature types id state = .ok after → Underway patterns types after
  | visit {state after : Progress} {funcId : FuncId} {opId : OpId} :
      Underway patterns types state → convertOp patterns funcId opId state = .ok after →
      Underway patterns types after
  | declined {state : Progress} {site : Site} {pattern : Pattern} {attempt : Attempt} :
      Underway patterns types state →
      (pattern.attempt site).run site.root { program := state.program, log := state.log } =
        .ok (none, attempt) →
      Underway patterns types (state.passOver site pattern attempt)

variable {patterns : List Pattern} {types : TypeMap} {state : Progress} {site : Site}
  {pattern : Pattern} {attempt : Attempt}

/-- Taking an attempt back keeps a program valid. -/
theorem passOver_valid (hvalid : state.program.Valid)
    (hrun : (pattern.attempt site).run site.root { program := state.program, log := state.log } =
      .ok (none, attempt)) : (state.passOver site pattern attempt).program.Valid := by
  obtain ⟨new, hgrows, hinserted⟩ := Script.run_grows _ _ hrun
  exact rollBack_valid hvalid (Script.run_valid _ _ hrun hvalid) hgrows (by simpa using hinserted)

/-- Programs are valid at every point of a conversion. -/
theorem Underway.valid (h : Underway patterns types state) : state.program.Valid := by
  induction h with
  | begin hreach => exact hreach.valid
  | signature _ hstep ih => exact convertSignature_valid hstep ih
  | visit _ hstep ih => exact convertOp_valid hstep ih
  | declined _ hrun ih => exact passOver_valid ih hrun

/-- A declined attempt leaves no trace. At any point of a conversion, whatever a pattern asks for
before it declines, the conversion goes on with the other patterns as if nothing had been asked: the
functions, the names, the renaming and the text are the same, all values and operations that were
there are as they were, and the operations that the attempt created are erased and in no block. -/
theorem declined_leaves_no_trace (hstate : Underway patterns types state)
    (hrun : (pattern.attempt site).run site.root { program := state.program, log := state.log } =
      .ok (none, attempt)) (funcId : FuncId) (rest : List Pattern) :
    offer funcId site.id site (pattern :: rest) state =
        offer funcId site.id site rest (state.passOver site pattern attempt) ∧
      (state.passOver site pattern attempt).aliases = state.aliases ∧
      state.program.NoTrace (state.passOver site pattern attempt).program := by
  refine ⟨?_, rfl, ?_⟩
  · simp only [offer, hrun, bind, Except.bind]
    rfl
  · exact (rollBack_padded hrun).noTrace hstate.valid

/-- A pattern for extents that calls a new function, declares a known one and another new one, names
a replacement of its root and then declines. -/
def hesitant : Pattern := Recipe.pattern "Hesitant" OpKind.tensorDim.name
  [.intConstant 8 3,
   .call "scale" (.list [.product 0 0, .operand 0]) [.literal .index],
   .declare "known" [] [],
   .declare "spare" [.literal .index] [],
   .replace (.list [.product 1 0]),
   .decline]

/-- The extent of a vector, beside a declaration. -/
def measured : Program := .listed
  [{ name := "known", argTypes := [.index], lines := none },
   { name := "measure"
     argTypes := [.dense [.dynamic] .f64, .index]
     resultTypes := [.index]
     lines := some [
      { kind := .tensorDim, operands := [1, 2], types := [.index] },
      { kind := .ret, operands := [3] }] }]

/-- The extent as it is offered. -/
def measuredSite : Site where
  id := ⟨0⟩
  root := { kind := .tensorDim, operands := [⟨1⟩, ⟨2⟩], results := [⟨3⟩], span := .nowhere }
  operands := [⟨1⟩, ⟨2⟩]

/-- The attempt has declared two functions and named a replacement, and nothing is left of it. -/
theorem declined_leaves_no_trace_hesitant :
    Underway [hesitant] {} { program := measured } ∧ measuredSite.id ∈ measured.allOps ∧
    measured.op measuredSite.id = .ok measuredSite.root ∧
    ∃ attempt, (hesitant.attempt measuredSite).run measuredSite.root { program := measured } =
        .ok (none, attempt) ∧
      attempt.program.funcs.length = 4 ∧ attempt.replacement = some [⟨7⟩] ∧
      offer ⟨1⟩ measuredSite.id measuredSite [hesitant] { program := measured } =
        offer ⟨1⟩ measuredSite.id measuredSite []
          (Progress.passOver { program := measured } measuredSite hesitant attempt) ∧
      (Progress.passOver { program := measured } measuredSite hesitant attempt).aliases = {} ∧
      measured.NoTrace
        (Progress.passOver { program := measured } measuredSite hesitant attempt).program := by
  have hstate : Underway [hesitant] {} { program := measured } :=
    .begin (Program.reachable_listed _)
  refine ⟨hstate, by decide +kernel, by decide +kernel, _, rfl, by decide +kernel,
    by decide +kernel, ?_⟩
  exact declined_leaves_no_trace hstate rfl ⟨1⟩ []

end Conversion

end TensorLowering
