import TensorLowering.Proofs.ScriptSteps

/-!
# What emitted operations add to a program

Operations with one result take consecutive values, and their types can be read back. A call comes
with a declaration if its function has no name yet, and the declaration is typed by that call; so
after any sequence of emissions each new declaration has a call with exactly its types, and each new
call has a function of its name.
-/

namespace TensorLowering

namespace Program

variable {program before after : Program}

/-- Types are not forgotten when values are added. -/
theorem typeOf_mono (hvalues : before.values <+: after.values) {v : ValueId} {ty : Ty}
    (hty : before.typeOf v = .ok ty) : after.typeOf v = .ok ty := by
  obtain ⟨origin, hvalue⟩ := typeOf_eq_ok.mp hty
  exact typeOf_eq_ok.mpr ⟨origin, getElem?_mono hvalues hvalue⟩

/-- Lists of types are not forgotten when values are added. -/
theorem typesOf_mono (hvalues : before.values <+: after.values) {ids : List ValueId}
    {types : List Ty} (htypes : before.typesOf ids = .ok types) : after.typesOf ids = .ok types :=
  typesOf_eq_ok.mpr ((typesOf_eq_ok.mp htypes).imp fun _ _ hty => typeOf_mono hvalues hty)

/-- A new operation with one result has the type it was created with. -/
theorem typeOf_addOp (kind : OpKind) (operands : List ValueId) (ty : Ty) (span : Span) :
    (program.addOp kind operands [ty] span).typeOf ⟨program.values.length⟩ = .ok ty :=
  typeOf_eq_ok.mpr ⟨.result program.nextOp 0, by simp [addOp]⟩

end Program

/-- The operations of a list of items whose results are the values from the given one on. -/
def emitted (span : Span) : Nat → List Item → List Operation
  | _, [] => []
  | first, item :: rest =>
    { kind := item.kind, operands := item.operands, results := [⟨first⟩], span } ::
      emitted span (first + 1) rest

/-- A call with one result. -/
def callOp (name : String) (operands : List ValueId) (result : ValueId) (span : Span) :
    Operation := { kind := .call name, operands, results := [result], span }

namespace Program

variable {program before after : Program}

/-- The values from the given one on have the types of the items. -/
def Carries (program : Program) (first : Nat) (items : List Item) : Prop :=
  ∀ (i : Nat) (item : Item), items[i]? = some item → program.typeOf ⟨first + i⟩ = .ok item.ty

/-- Types that are carried stay so when values are added. -/
theorem Carries.mono (hvalues : before.values <+: after.values) {first : Nat} {items : List Item}
    (h : before.Carries first items) : after.Carries first items :=
  fun i item hitem => typeOf_mono hvalues (h i item hitem)

/-- Emitting items continues a program by their operations. -/
theorem emit_grows (program : Program) (span : Span) (items : List Item) :
    program.Grows (program.emit span items) (emitted span program.values.length items) := by
  induction items generalizing program with
  | nil => exact .refl program
  | cons item rest ih =>
    have hrest := ih (program.addOp item.kind item.operands [item.ty] span)
    have hlength : (program.addOp item.kind item.operands [item.ty] span).values.length =
        program.values.length + 1 := by simp [addOp]
    rw [hlength] at hrest
    exact (Grows.addOp program item.kind item.operands [item.ty] span).trans hrest

/-- Emitting items keeps a program valid. -/
theorem emit_valid (hvalid : program.Valid) (span : Span) (items : List Item) :
    (program.emit span items).Valid := by
  induction items generalizing program with
  | nil => exact hvalid
  | cons item rest ih => exact ih (hvalid.addOp item.kind item.operands [item.ty] span)

/-- Emitted items can be read back with their types. -/
theorem emit_carries (program : Program) (span : Span) (items : List Item) :
    (program.emit span items).Carries program.values.length items := by
  induction items generalizing program with
  | nil => intro i item hitem; simp at hitem
  | cons item rest ih =>
    intro i other hother
    have hrest := ih (program.addOp item.kind item.operands [item.ty] span)
    have hlength : (program.addOp item.kind item.operands [item.ty] span).values.length =
        program.values.length + 1 := by simp [addOp]
    rw [hlength] at hrest
    cases i with
    | zero =>
      obtain rfl := Option.some.inj hother
      exact typeOf_mono (emit_grows _ span rest).values
        (typeOf_addOp item.kind item.operands item.ty span)
    | succ i =>
      have := hrest i other hother
      rwa [Nat.add_right_comm] at this

/-- The declarations that calls need, in the order of the calls: a name that is not known is declared
where it is called first, privately and with the types of that call. -/
inductive Introduces (program : Program) : List String → List Operation → List Func → Prop
  | nil {known : List String} : Introduces program known [] []
  | skip {known : List String} {op : Operation} {ops : List Operation} {decls : List Func}
      (hknown : ∀ name, op.kind = .call name → name ∈ known)
      (hrest : Introduces program known ops decls) : Introduces program known (op :: ops) decls
  | first {known : List String} {op : Operation} {ops : List Operation} {func : Func}
      {decls : List Func} (hcall : op.kind = .call func.name) (hnew : func.name ∉ known)
      (hprivate : func.body = none ∧ func.isPublic = false)
      (htypes : program.typesOf op.operands = .ok func.argTypes ∧
        program.typesOf op.results = .ok func.resultTypes)
      (hrest : Introduces program (func.name :: known) ops decls) :
      Introduces program known (op :: ops) (func :: decls)

section Introduces

variable {known : List String} {ops : List Operation} {decls : List Func}

/-- Declarations keep their types when values are added. -/
theorem Introduces.mono (hvalues : before.values <+: after.values)
    (h : before.Introduces known ops decls) : after.Introduces known ops decls := by
  induction h with
  | nil => exact .nil
  | skip hknown _ ih => exact .skip hknown ih
  | first hcall hnew hprivate htypes _ ih =>
    exact .first hcall hnew hprivate
      ⟨typesOf_mono hvalues htypes.1, typesOf_mono hvalues htypes.2⟩ ih

/-- It does not matter how the known names are listed. -/
theorem Introduces.congr (h : program.Introduces known ops decls) {known' : List String}
    (hknown : ∀ name, name ∈ known' ↔ name ∈ known) : program.Introduces known' ops decls := by
  induction h generalizing known' with
  | nil => exact .nil
  | skip hskip _ ih => exact .skip (fun name hname => (hknown name).mpr (hskip name hname)) (ih hknown)
  | first hcall hnew hprivate htypes _ ih =>
    refine .first hcall (fun hmem => hnew ((hknown _).mp hmem)) hprivate htypes (ih fun name => ?_)
    rw [List.mem_cons, List.mem_cons, hknown]

/-- Further calls are declared as what is known by then demands. -/
theorem Introduces.append (h : program.Introduces known ops decls) {more : List Operation}
    {decls' : List Func}
    (h' : program.Introduces (known ++ decls.map Func.name) more decls') :
    program.Introduces known (ops ++ more) (decls ++ decls') := by
  induction h with
  | nil => exact h'.congr (by simp)
  | skip hskip _ ih => exact .skip hskip (ih h')
  | first hcall hnew hprivate htypes _ ih =>
    refine .first hcall hnew hprivate htypes (ih (h'.congr fun name => ?_))
    simp only [List.map_cons, List.mem_append, List.mem_cons]
    tauto

/-- Every new function is a private declaration with the types of a new call. -/
theorem Introduces.exists_call (h : program.Introduces known ops decls) {func : Func}
    (hfunc : func ∈ decls) : func.body = none ∧ func.isPublic = false ∧
      ∃ op ∈ ops, op.kind = .call func.name ∧ program.typesOf op.operands = .ok func.argTypes ∧
        program.typesOf op.results = .ok func.resultTypes := by
  induction h with
  | nil => simp at hfunc
  | skip _ _ ih =>
    obtain ⟨hbody, hprivate, op, hop, hcall⟩ := ih hfunc
    exact ⟨hbody, hprivate, op, List.mem_cons_of_mem _ hop, hcall⟩
  | first hcall _ hprivate htypes _ ih =>
    rcases List.mem_cons.mp hfunc with rfl | hrest
    · exact ⟨hprivate.1, hprivate.2, _, List.mem_cons_self, hcall, htypes⟩
    · obtain ⟨hbody, hprivate, op, hop, hcall⟩ := ih hrest
      exact ⟨hbody, hprivate, op, List.mem_cons_of_mem _ hop, hcall⟩

/-- Every call names a function that was known or is declared. -/
theorem Introduces.known_or_declared (h : program.Introduces known ops decls) {op : Operation}
    (hop : op ∈ ops) {name : String} (hname : op.kind = .call name) :
    name ∈ known ∨ ∃ func ∈ decls, func.name = name := by
  induction h with
  | nil => simp at hop
  | skip hskip _ ih =>
    rcases List.mem_cons.mp hop with rfl | hrest
    · exact .inl (hskip name hname)
    · exact ih hrest
  | first hcall _ _ _ _ ih =>
    rcases List.mem_cons.mp hop with rfl | hrest
    · exact .inr ⟨_, List.mem_cons_self, OpKind.call.inj (hcall.symm.trans hname)⟩
    · rcases ih hrest with hknown | ⟨func, hfunc, hname⟩
      · rcases List.mem_cons.mp hknown with rfl | hknown
        · exact .inr ⟨_, List.mem_cons_self, rfl⟩
        · exact .inl hknown
      · exact .inr ⟨func, List.mem_cons_of_mem _ hfunc, hname⟩

/-- Operations that are not calls need no declaration. -/
theorem Introduces.of_plain (hplain : ∀ op ∈ ops, op.kind.callee? = none) :
    program.Introduces known ops [] := by
  induction ops with
  | nil => exact .nil
  | cons op rest ih =>
    refine .skip (fun name hname => ?_) (ih fun other hother =>
      hplain other (List.mem_cons_of_mem _ hother))
    simpa [hname, OpKind.callee?] using hplain op List.mem_cons_self

end Introduces

/-- The new functions are the declarations that the new operations need. -/
def Declares (before after : Program) (new : List Operation) : Prop :=
  ∃ decls, after.funcs = before.funcs ++ decls ∧
    after.Introduces (before.funcs.map Func.name) new decls

/-- Every new function is a private declaration with the types of a new call. -/
theorem Declares.funcs {new : List Operation} (h : before.Declares after new) :
    ∃ decls, after.funcs = before.funcs ++ decls ∧ ∀ func ∈ decls, func.body = none ∧
      func.isPublic = false ∧ ∃ op ∈ new, op.kind = .call func.name ∧
        after.typesOf op.operands = .ok func.argTypes ∧
        after.typesOf op.results = .ok func.resultTypes := by
  obtain ⟨decls, hfuncs, hdecls⟩ := h
  exact ⟨decls, hfuncs, fun func hfunc => hdecls.exists_call hfunc⟩

/-- Every new call names a function. -/
theorem Declares.known {new : List Operation} (h : before.Declares after new) :
    ∀ op ∈ new, ∀ name, op.kind = .call name → ∃ func ∈ after.funcs, func.name = name := by
  obtain ⟨decls, hfuncs, hdecls⟩ := h
  intro op hop name hname
  rw [hfuncs]
  rcases hdecls.known_or_declared hop hname with hknown | ⟨func, hfunc, hname⟩
  · obtain ⟨func, hfunc, hname⟩ := List.mem_map.mp hknown
    exact ⟨func, List.mem_append_left _ hfunc, hname⟩
  · exact ⟨func, List.mem_append_right _ hfunc, hname⟩

/-- Operations that are not calls declare nothing. -/
theorem Declares.of_plain {new : List Operation} (hfuncs : after.funcs = before.funcs)
    (hplain : ∀ op ∈ new, op.kind.callee? = none) : before.Declares after new :=
  ⟨[], by rw [hfuncs, List.append_nil], .of_plain hplain⟩

/-- Declarations compose. -/
theorem Declares.trans {first second third : Program} {new more : List Operation}
    (h : first.Declares second new) (h' : second.Declares third more)
    (hvalues : second.values <+: third.values) : first.Declares third (new ++ more) := by
  obtain ⟨decls, hfuncs, hdecls⟩ := h
  obtain ⟨decls', hfuncs', hdecls'⟩ := h'
  refine ⟨decls ++ decls', by rw [hfuncs', hfuncs, List.append_assoc], ?_⟩
  rw [hfuncs, List.map_append] at hdecls'
  exact (hdecls.mono hvalues).append hdecls'

/-- Items are not calls here, so they declare nothing. -/
theorem emit_declares (program : Program) (span : Span) {items : List Item}
    (hcall : ∀ item ∈ items, item.kind.callee? = none) :
    program.Declares (program.emit span items) (emitted span program.values.length items) := by
  refine .of_plain ?_ ?_
  · clear hcall
    induction items generalizing program with
    | nil => rfl
    | cons item rest ih => exact ih (program.addOp item.kind item.operands [item.ty] span)
  · generalize program.values.length = first
    induction items generalizing first with
    | nil => simp [emitted]
    | cons item rest ih =>
      intro op hop
      rcases List.mem_cons.mp hop with rfl | hrest
      · exact hcall item List.mem_cons_self
      · exact ih (fun other hother => hcall other (List.mem_cons_of_mem _ hother)) _ op hrest

/-- The result of a call that is added next. -/
def callResult (program : Program) (name : String) (argTypes types : List Ty) : ValueId :=
  ⟨(program.declare name argTypes types).values.length⟩

/-- A call continues a program by one operation. -/
theorem call_grows (program : Program) (name : String) (argTypes : List Ty)
    (operands : List ValueId) (ty : Ty) (span : Span) :
    program.Grows (program.call name argTypes operands [ty] span)
      [callOp name operands (program.callResult name argTypes [ty]) span] :=
  (Grows.declare program name argTypes [ty]).trans
    (Grows.addOp (program.declare name argTypes [ty]) (.call name) operands [ty] span)

/-- A call keeps a program valid. -/
theorem call_valid (hvalid : program.Valid) (name : String) (argTypes : List Ty)
    (operands : List ValueId) (types : List Ty) (span : Span) :
    (program.call name argTypes operands types span).Valid :=
  (hvalid.declare name argTypes types).addOp (.call name) operands types span

/-- A call can be read back with its type. -/
theorem typeOf_call (program : Program) (name : String) (argTypes : List Ty)
    (operands : List ValueId) (ty : Ty) (span : Span) :
    (program.call name argTypes operands [ty] span).typeOf
      (program.callResult name argTypes [ty]) = .ok ty :=
  typeOf_addOp (.call name) operands ty span

/-- A call declares its function, from its own types, unless the name is known. -/
theorem call_declares (hvalid : program.Valid) {name : String} {argTypes : List Ty}
    {operands : List ValueId} (hargs : program.typesOf operands = .ok argTypes) (ty : Ty)
    (span : Span) :
    program.Declares (program.call name argTypes operands [ty] span)
      [callOp name operands (program.callResult name argTypes [ty]) span] := by
  have hresult := typeOf_call program name argTypes operands ty span
  have hsame := typesOf_mono (call_grows program name argTypes operands ty span).values hargs
  cases hlookup : program.lookupFunc? name with
  | some id =>
    have hdeclare : program.declare name argTypes [ty] = program := by
      simp [Program.declare, hlookup]
    obtain ⟨func, hfunc, hname⟩ := (hvalid.symbols name id).mp hlookup
    refine ⟨[], by simp [call, addOp, hdeclare], .skip (fun other hother => ?_) .nil⟩
    obtain rfl := OpKind.call.inj hother
    exact List.mem_map.mpr ⟨func, List.mem_of_getElem? hfunc, hname⟩
  | none =>
    have hfuncs : (program.call name argTypes operands [ty] span).funcs = program.funcs ++
        [{ name, args := program.nextValues argTypes.length, argTypes, resultTypes := [ty],
           body := none, isPublic := false }] := by
      simp [call, addOp, Program.declare, hlookup, insertFunc]
    refine ⟨_, hfuncs, .first rfl (fun hknown => ?_) ⟨rfl, rfl⟩
      ⟨hsame, typesOf_eq_ok.mpr (.cons hresult .nil)⟩ .nil⟩
    obtain ⟨func, hfunc, hname⟩ := List.mem_map.mp hknown
    obtain ⟨i, hi⟩ := List.mem_iff_getElem?.mp hfunc
    have hfound := (hvalid.symbols name ⟨i⟩).mpr ⟨func, hi, hname⟩
    simp [hlookup] at hfound

end Program

end TensorLowering
