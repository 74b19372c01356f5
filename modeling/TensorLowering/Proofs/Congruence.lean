import TensorLowering.Proofs.Matching

/-!
# The same decision on both sides

Whether an operation is declined, and what it is expanded into, depends on the types of what it reads
and on nothing else. So under a sound matching of two programs, operations that are the same are
declined on both sides or on neither, and their expansions are the same operations one by one, up to
the names of the values that they produce.
-/

namespace TensorLowering

open Matching

/-- Values of one type. -/
def SameType (program program' : Program) (v v' : ValueId) : Prop :=
  ∃ ty, program.typeOf v = .ok ty ∧ program'.typeOf v' = .ok ty

/-- Operations that a rule sees in the same way. The results are only asked for their types. -/
structure SameRoot (m : Matching) (program program' : Program) (root root' : Operation) : Prop where
  kind : root'.kind = root.kind
  operands : List.Forall₂ m.values root.operands root'.operands
  results : List.Forall₂ (SameType program program') root.results root'.results
  span : root'.span = root.span

/-- Values at the same place of two lists of operations. -/
def SameSpot (new new' : List Operation) (v v' : ValueId) : Prop :=
  ∃ (j k : Nat) (op op' : Operation), new[j]? = some op ∧ new'[j]? = some op' ∧
    op.results[k]? = some v ∧ op'.results[k]? = some v'

variable {m : Matching} {program program' : Program} {root root' : Operation}
  {operands operands' : List ValueId}

/-- The type of a result is known on both sides. -/
theorem SameRoot.result (h : SameRoot m program program' root root') {k : Nat} {old : ValueId}
    {ty : Ty} (hold : root.results[k]? = some old) (hty : program.typeOf old = .ok ty) :
    ∃ old', root'.results[k]? = some old' ∧ program'.typeOf old' = .ok ty := by
  obtain ⟨old', hold', ty', hty', hsame⟩ := exists_getElem?_of_forall₂ h.results hold
  obtain rfl := Except.ok.inj (hty.symm.trans hty')
  exact ⟨old', hold', hsame⟩

/-- The only result of a root is the only result on the other side too. -/
theorem SameRoot.single (h : SameRoot m program program' root root') {old : ValueId} {ty : Ty}
    (hold : root.results = [old]) (hty : program.typeOf old = .ok ty) :
    ∃ old', root'.results = [old'] ∧ program'.typeOf old' = .ok ty := by
  have hresults := h.results
  rw [hold] at hresults
  obtain ⟨old', rest, ⟨ty', hty', hsame⟩, hrest, heq⟩ := List.forall₂_cons_left_iff.mp hresults
  obtain rfl := List.forall₂_nil_left_iff.mp hrest
  obtain rfl := Except.ok.inj (hty.symm.trans hty')
  exact ⟨old', heq, hsame⟩

/-- The type of a matched value is known on both sides. -/
theorem Matching.Sound.typeOf_eq (h : m.Sound program program') {v v' : ValueId} {ty : Ty}
    (hv : m.values v v') (hty : program.typeOf v = .ok ty) : program'.typeOf v' = .ok ty := by
  obtain ⟨ty', hty', hsame⟩ := h.typeOf hv
  obtain rfl := Except.ok.inj (hty.symm.trans hty')
  exact hsame

namespace Lowering

/-! ### Declines -/

/-- An operation that is declined is declined on the other side. -/
theorem Declined.matched (h : m.Sound program program')
    (hroot : SameRoot m program program' root root')
    (hoperands : List.Forall₂ m.values operands operands')
    (hdeclined : Declined program root operands) : Declined program' root' operands' := by
  have hread : ∀ accessor?, arrayAccessor? root.kind = some accessor? →
      (∃ old ty, root.results[0]? = some old ∧ program.typeOf old = .ok ty ∧
        ty.element?.bind accessor? = none) →
      ∃ old ty, root'.results[0]? = some old ∧ program'.typeOf old = .ok ty ∧
        ty.element?.bind accessor? = none := by
    rintro accessor? - ⟨old, ty, hold, hty, hnone⟩
    obtain ⟨old', hold', hty'⟩ := hroot.result hold hty
    exact ⟨old', ty, hold', hty', hnone⟩
  unfold Declined at hdeclined ⊢
  rw [hroot.kind]
  cases hkind : root.kind with
  | ret => simp only [hkind] at hdeclined
  | tensorDim =>
    simp only [hkind] at hdeclined ⊢
    obtain ⟨tensor, ty, htensor, hty, hdense⟩ := hdeclined
    obtain ⟨tensor', htensor', hv⟩ := exists_getElem?_of_forall₂ hoperands htensor
    exact ⟨tensor', ty, htensor', h.typeOf_eq hv hty, hdense⟩
  | sparseNew =>
    simp only [hkind] at hdeclined ⊢
    obtain ⟨old, ty, hold, hty, hnone⟩ := hdeclined
    obtain ⟨old', hold', hty'⟩ := hroot.result hold hty
    exact ⟨old', ty, hold', hty', hnone⟩
  | sparseConvert =>
    simp only [hkind] at hdeclined ⊢
    obtain ⟨old, ty, hold, hty, hcase⟩ := hdeclined
    obtain ⟨old', hold', hty'⟩ := hroot.result hold hty
    refine ⟨old', ty, hold', hty', hcase.imp_right ?_⟩
    rintro ⟨built, sourceTy, hbuilt, hsourceTy, hcase⟩
    obtain ⟨built', hbuilt', hv⟩ := exists_getElem?_of_forall₂ hroot.operands hbuilt
    refine ⟨built', sourceTy, hbuilt', h.typeOf_eq hv hsourceTy, hcase.imp_right ?_⟩
    rintro ⟨hdense, ⟨source, hsource⟩, hnone⟩
    obtain ⟨source', hsource', -⟩ := exists_getElem?_of_forall₂ hoperands hsource
    exact ⟨hdense, ⟨source', hsource'⟩, hnone⟩
  | toTensor =>
    simp only [hkind] at hdeclined ⊢
    obtain ⟨answer, answer', hanswer, hanswer', hrel⟩ := h.commonHandle hoperands .none
    obtain rfl := Except.ok.inj (hanswer.symm.trans hdeclined)
    cases hrel
    exact hanswer'
  | _ =>
    simp only [hkind] at hdeclined hread ⊢
    exact fun accessor? haccessor => hread accessor? haccessor (hdeclined accessor? haccessor)

/-! ### Expansions -/

/-- A query is answered by the same entry point on the other side. -/
theorem Query.matched (h : m.Sound program program')
    (hoperands : List.Forall₂ m.values operands operands') {ty : Ty} {kind : OpKind} {name : String}
    (hquery : Query program operands ty kind name) : Query program' operands' ty kind name := by
  cases hquery with
  | dim htensor hptr =>
    obtain ⟨tensor', htensor', hv⟩ := exists_getElem?_of_forall₂ hoperands htensor
    exact .dim htensor' (h.typeOf_eq hv hptr)
  | read haccessor hname => exact .read haccessor hname

/-- Queries ask for extents or read arrays. -/
theorem Query.kind_cases {ty : Ty} {kind : OpKind} {name : String}
    (hquery : Query program operands ty kind name) :
    (kind = .tensorDim ∧ name = EntryPoint.dimSize) ∨ ∃ accessor?,
      arrayAccessor? kind = some accessor? ∧ ty.element?.bind accessor? = some name := by
  cases hquery with
  | dim => exact .inl ⟨rfl, rfl⟩
  | read haccessor hname => exact .inr ⟨_, haccessor, hname⟩

/-- A query has one answer. -/
theorem Query.unique {ty : Ty} {kind : OpKind} {name name' : String}
    (hquery : Query program operands ty kind name) (hquery' : Query program operands ty kind name') :
    name = name' := by
  rcases hquery.kind_cases with ⟨hkind, rfl⟩ | ⟨accessor?, haccessor, hname⟩ <;>
  rcases hquery'.kind_cases with ⟨hkind', rfl⟩ | ⟨accessor?', haccessor', hname'⟩
  · rfl
  · simp [hkind, arrayAccessor?] at haccessor'
  · simp [hkind', arrayAccessor?] at haccessor
  · obtain rfl := Option.some.inj (haccessor.symm.trans haccessor')
    exact Option.some.inj (hname.symm.trans hname')

/-- A result is encoded by the same block on the other side. -/
theorem Encodes.matched (hroot : SameRoot m program program' root root') {action : Action}
    {block : TensorBlock} (hencodes : Encodes program root action block) :
    Encodes program' root' action block := by
  obtain ⟨old, ty, sparsity, hold, hty, hsparse, hblock⟩ := hencodes
  obtain ⟨old', hold', hty'⟩ := hroot.single hold hty
  exact ⟨old', ty, sparsity, hold', hty', hsparse, hblock⟩

/-- A result is encoded by one block. -/
theorem Encodes.unique {action : Action} {block block' : TensorBlock}
    (h : Encodes program root action block) (h' : Encodes program root action block') :
    block = block' := by
  obtain ⟨old, ty, sparsity, hold, hty, hsparse, hblock⟩ := h
  obtain ⟨old', ty', sparsity', hold', hty', hsparse', hblock'⟩ := h'
  obtain rfl : old = old' := by simpa [hold] using hold'
  obtain rfl := Except.ok.inj (hty.symm.trans hty')
  obtain rfl := Option.some.inj (hsparse.symm.trans hsparse')
  exact Except.ok.inj (hblock.symm.trans hblock')

section Inversion

variable {new : List Operation} {values : List ValueId}
  (h : Expansion program root operands new values)

include h

/-- A query expands into its call. -/
theorem Expansion.of_query {old : ValueId} {ty : Ty} {name : String} (hold : root.results = [old])
    (hty : program.typeOf old = .ok ty) (hquery : Query program operands ty root.kind name) :
    ∃ value, new = [callOp name operands value root.span] ∧ values = [value] ∧
      program.typeOf value = .ok ty := by
  have hkind := hquery.kind_cases
  cases h with
  | query hold' hty' hquery' hnew =>
    obtain rfl : old = _ := by simpa [hold] using hold'
    obtain rfl := Except.ok.inj (hty.symm.trans hty')
    obtain rfl := hquery.unique hquery'
    exact ⟨_, rfl, rfl, hnew⟩
  | ret hkind' => simp [hkind', arrayAccessor?] at hkind
  | construct hkind' => simp [hkind', arrayAccessor?] at hkind
  | convert hkind' => simp [hkind', arrayAccessor?] at hkind
  | fold hkind' => simp [hkind', arrayAccessor?] at hkind

/-- A return expands into a return. -/
theorem Expansion.of_ret (hkind : root.kind = .ret) :
    new = [{ kind := .ret, operands, results := [], span := root.span }] ∧ values = [] := by
  cases h with
  | ret => exact ⟨rfl, rfl⟩
  | query _ _ hquery =>
    have := hquery.kind_cases
    simp [hkind, arrayAccessor?] at this
  | construct hkind' => simp [hkind] at hkind'
  | convert hkind' => simp [hkind] at hkind'
  | fold hkind' => simp [hkind] at hkind'

/-- A construction expands into its constants and its call. -/
theorem Expansion.of_construct {block : TensorBlock} {source : ValueId}
    (hkind : root.kind = .sparseNew) (hencodes : Encodes program root .fromMetadata block)
    (hsource : operands[0]? = some source) : ∃ first handle,
      new = creation root.span block first source handle ∧ values = [handle] ∧
      Created program block first handle := by
  cases h with
  | construct _ hencodes' hsource' hcreated =>
    obtain rfl := hencodes.unique hencodes'
    obtain rfl := Option.some.inj (hsource.symm.trans hsource')
    exact ⟨_, _, rfl, rfl, hcreated⟩
  | ret hkind' => simp [hkind] at hkind'
  | query _ _ hquery =>
    have := hquery.kind_cases
    simp [hkind, arrayAccessor?] at this
  | convert hkind' => simp [hkind] at hkind'
  | fold hkind' => simp [hkind] at hkind'

/-- A conversion expands into the exposure of its source and a construction. -/
theorem Expansion.of_convert {block : TensorBlock} {source old : ValueId} {ty element : Ty}
    {shape : List Dim} {accessor : String} (hkind : root.kind = .sparseConvert)
    (hencodes : Encodes program root .fromData block) (hsource : operands[0]? = some source)
    (hold : root.results = [old]) (hty : program.typeOf old = .ok ty)
    (haccess : ty.bufferAccess? = some (accessor, shape, element)) :
    ∃ view first pointer handle, new =
        exposure root.span accessor shape element view source pointer ++
          creation root.span block first pointer handle ∧ values = [handle] ∧
      program.Carries view (viewItems source shape element view) ∧
      program.typeOf pointer = .ok .ptr ∧ Created program block first handle := by
  cases h with
  | convert _ hencodes' _ _ _ hsource' hold' hty' haccess' hview hpointer hcreated =>
    obtain rfl := hencodes.unique hencodes'
    obtain rfl := Option.some.inj (hsource.symm.trans hsource')
    obtain rfl : old = _ := by simpa [hold] using hold'
    obtain rfl := Except.ok.inj (hty.symm.trans hty')
    obtain ⟨rfl, rfl, rfl⟩ : accessor = _ ∧ shape = _ ∧ element = _ := by
      simpa using haccess.symm.trans haccess'
    exact ⟨_, _, _, _, rfl, rfl, hview, hpointer, hcreated⟩
  | ret hkind' => simp [hkind] at hkind'
  | query _ _ hquery =>
    have := hquery.kind_cases
    simp [hkind, arrayAccessor?] at this
  | construct hkind' => simp [hkind] at hkind'
  | fold hkind' => simp [hkind] at hkind'

/-- A tensor that is put together expands into nothing. -/
theorem Expansion.of_fold {handle : ValueId} (hkind : root.kind = .toTensor)
    (hhandle : commonHandle program none operands = .ok (some handle)) :
    new = [] ∧ values = [handle] := by
  cases h with
  | fold _ _ hhandle' =>
    obtain rfl := Option.some.inj (Except.ok.inj (hhandle.symm.trans hhandle'))
    exact ⟨rfl, rfl⟩
  | ret hkind' => simp [hkind] at hkind'
  | query _ _ hquery =>
    have := hquery.kind_cases
    simp [hkind, arrayAccessor?] at this
  | construct hkind' => simp [hkind] at hkind'
  | convert hkind' => simp [hkind] at hkind'

end Inversion

/-! ### Places in expansions -/

/-- Values in the first parts of two lists. -/
theorem sameSpot_left {new new' more more' : List Operation} {v v' : ValueId}
    (h : SameSpot new new' v v') : SameSpot (new ++ more) (new' ++ more') v v' := by
  obtain ⟨j, k, op, op', hop, hop', hv, hv'⟩ := h
  exact ⟨j, k, op, op', getElem?_mono (List.prefix_append _ _) hop,
    getElem?_mono (List.prefix_append _ _) hop', hv, hv'⟩

/-- Values in the second parts of two lists. -/
theorem sameSpot_right {new new' more more' : List Operation} (hlength : new.length = new'.length)
    {v v' : ValueId} (h : SameSpot more more' v v') :
    SameSpot (new ++ more) (new' ++ more') v v' := by
  obtain ⟨j, k, op, op', hop, hop', hv, hv'⟩ := h
  refine ⟨new.length + j, k, op, op', ?_, ?_, hv, hv'⟩
  · rwa [List.getElem?_append_right (by omega), Nat.add_sub_cancel_left]
  · rwa [List.getElem?_append_right (by omega), hlength, Nat.add_sub_cancel_left]

/-- Values in two lists are in the first parts or in the second parts. -/
theorem sameSpot_append {new new' more more' : List Operation} (hlength : new.length = new'.length)
    {v v' : ValueId} (h : SameSpot (new ++ more) (new' ++ more') v v') :
    SameSpot new new' v v' ∨ SameSpot more more' v v' := by
  obtain ⟨j, k, op, op', hop, hop', hv, hv'⟩ := h
  rcases Nat.lt_or_ge j new.length with hlt | hge
  · rw [List.getElem?_append_left hlt] at hop
    rw [List.getElem?_append_left (hlength ▸ hlt)] at hop'
    exact .inl ⟨j, k, op, op', hop, hop', hv, hv'⟩
  · rw [List.getElem?_append_right hge] at hop
    rw [List.getElem?_append_right (hlength ▸ hge), ← hlength] at hop'
    exact .inr ⟨_, k, op, op', hop, hop', hv, hv'⟩

/-- The results of two calls are at the same place. -/
theorem sameSpot_callOp {name name' : String} {operands operands' : List ValueId}
    {result result' v v' : ValueId} {span span' : Span} :
    SameSpot [callOp name operands result span] [callOp name' operands' result' span'] v v' ↔
      v = result ∧ v' = result' := by
  constructor
  · rintro ⟨j, k, op, op', hop, hop', hv, hv'⟩
    obtain rfl := List.mem_singleton.mp (List.mem_of_getElem? hop)
    obtain rfl := List.mem_singleton.mp (List.mem_of_getElem? hop')
    exact ⟨List.mem_singleton.mp (List.mem_of_getElem? hv),
      List.mem_singleton.mp (List.mem_of_getElem? hv')⟩
  · rintro ⟨rfl, rfl⟩
    exact ⟨0, 0, _, _, rfl, rfl, rfl, rfl⟩

/-- Emitted operations, one by one. -/
theorem getElem?_emitted (span : Span) (first : Nat) (items : List Item) (i : Nat) :
    (emitted span first items)[i]? = items[i]?.map fun item =>
      { kind := item.kind, operands := item.operands, results := [⟨first + i⟩], span } := by
  induction items generalizing first i with
  | nil => simp [emitted]
  | cons item rest ih =>
    cases i with
    | zero => rfl
    | succ i =>
      rw [emitted, List.getElem?_cons_succ, List.getElem?_cons_succ, ih, Nat.add_right_comm,
        Nat.add_assoc]

/-- There are as many emitted operations as items. -/
theorem length_emitted (span : Span) (first : Nat) (items : List Item) :
    (emitted span first items).length = items.length := by
  induction items generalizing first with
  | nil => rfl
  | cons item rest ih => rw [emitted, List.length_cons, List.length_cons, ih]

/-- Items that are the same up to the names of values. -/
structure SameItem (m : Matching) (item item' : Item) : Prop where
  kind : item'.kind = item.kind
  ty : item'.ty = item.ty
  operands : List.Forall₂ m.values item.operands item'.operands

section Emitted

variable {span : Span} {first first' : Nat} {items items' : List Item}

/-- The results of items at the same position are at the same place. -/
theorem sameSpot_emitted {i : Nat} {item item' : Item} (hitem : items[i]? = some item)
    (hitem' : items'[i]? = some item') :
    SameSpot (emitted span first items) (emitted span first' items') ⟨first + i⟩ ⟨first' + i⟩ := by
  have hop := getElem?_emitted span first items i
  have hop' := getElem?_emitted span first' items' i
  rw [hitem, Option.map_some] at hop
  rw [hitem', Option.map_some] at hop'
  exact ⟨i, 0, _, _, hop, hop', rfl, rfl⟩

/-- Items that are the same are emitted as operations that are the same. -/
theorem emitted_matched (hitems : List.Forall₂ (SameItem m) items items')
    (hvalues : ∀ v v', SameSpot (emitted span first items) (emitted span first' items') v v' →
      m.values v v') :
    List.Forall₂ m.SameOp (emitted span first items) (emitted span first' items') := by
  have hlength := hitems.length_eq
  refine List.forall₂_iff_get.mpr ⟨by rw [length_emitted, length_emitted, hlength], ?_⟩
  intro i hi hi'
  rw [length_emitted] at hi hi'
  obtain ⟨item', hitem', hsame⟩ := exists_getElem?_of_forall₂ hitems (List.getElem?_eq_getElem hi)
  have hop := getElem?_emitted span first items i
  have hop' := getElem?_emitted span first' items' i
  rw [List.getElem?_eq_getElem hi, Option.map_some] at hop
  rw [hitem', Option.map_some] at hop'
  obtain ⟨_, hget⟩ := List.getElem?_eq_some_iff.mp hop
  obtain ⟨_, hget'⟩ := List.getElem?_eq_some_iff.mp hop'
  rw [List.get_eq_getElem, List.get_eq_getElem, hget, hget']
  have hvalue := hvalues _ _ (sameSpot_emitted (List.getElem?_eq_getElem hi) hitem')
  exact ⟨hsame.kind, hsame.operands, .cons hvalue .nil, rfl⟩

/-- Items of the same types are emitted as operations whose results have the same types. -/
theorem emitted_types (htypes : items.map Item.ty = items'.map Item.ty)
    (hcarries : program.Carries first items) (hcarries' : program'.Carries first' items')
    {v v' : ValueId} (hspot : SameSpot (emitted span first items) (emitted span first' items') v v') :
    SameType program program' v v' := by
  obtain ⟨j, k, op, op', hop, hop', hv, hv'⟩ := hspot
  rw [getElem?_emitted, Option.map_eq_some_iff] at hop hop'
  obtain ⟨item, hitem, rfl⟩ := hop
  obtain ⟨item', hitem', rfl⟩ := hop'
  obtain rfl := List.mem_singleton.mp (List.mem_of_getElem? hv)
  obtain rfl := List.mem_singleton.mp (List.mem_of_getElem? hv')
  have hty : item.ty = item'.ty := by
    have hmap := congrArg (fun types => types[j]?) htypes
    simpa [hitem, hitem'] using hmap
  exact ⟨item.ty, hcarries j item hitem, hty ▸ hcarries' j item' hitem'⟩

end Emitted

section Parts

variable {span : Span} {block : TensorBlock} {first first' : Nat}
  {source source' handle handle' : ValueId}

/-- Constructions from matched sources are the same. -/
theorem creation_matched (hsource : m.values source source')
    (hvalues : ∀ v v', SameSpot (creation span block first source handle)
      (creation span block first' source' handle') v v' → m.values v v') :
    List.Forall₂ m.SameOp (creation span block first source handle)
        (creation span block first' source' handle') ∧ m.values handle handle' := by
  have hlength : (emitted span first (block.items first)).length =
      (emitted span first' (block.items first')).length := by
    rw [length_emitted, length_emitted]
    rfl
  have hhandle : m.values handle handle' :=
    hvalues _ _ (sameSpot_right hlength (sameSpot_callOp.mpr ⟨rfl, rfl⟩))
  have hconst (i : Nat) (item item' : Item) (hitem : (block.items first)[i]? = some item)
      (hitem' : (block.items first')[i]? = some item') : m.values ⟨first + i⟩ ⟨first' + i⟩ :=
    hvalues _ _ (sameSpot_left (sameSpot_emitted hitem hitem'))
  have hitems : List.Forall₂ (SameItem m) (block.items first) (block.items first') := by
    refine .cons ⟨rfl, rfl, .nil⟩ (.cons ⟨rfl, rfl, .cons (hconst 0 _ _ rfl rfl) .nil⟩
      (.cons ⟨rfl, rfl, .nil⟩ (.cons ⟨rfl, rfl, .cons (hconst 2 _ _ rfl rfl) .nil⟩
        (.cons ⟨rfl, rfl, .nil⟩ (.cons ⟨rfl, rfl, .cons (hconst 4 _ _ rfl rfl) .nil⟩ ?_)))))
    exact .cons ⟨rfl, rfl, .nil⟩ (.cons ⟨rfl, rfl, .nil⟩ (.cons ⟨rfl, rfl, .nil⟩
      (.cons ⟨rfl, rfl, .nil⟩ .nil)))
  have harguments : List.Forall₂ m.values (TensorBlock.arguments first source)
      (TensorBlock.arguments first' source') :=
    .cons (hconst 1 _ _ rfl rfl) (.cons (hconst 3 _ _ rfl rfl) (.cons (hconst 5 _ _ rfl rfl)
      (.cons (hconst 6 _ _ rfl rfl) (.cons (hconst 7 _ _ rfl rfl) (.cons (hconst 8 _ _ rfl rfl)
        (.cons (hconst 9 _ _ rfl rfl) (.cons hsource .nil)))))))
  refine ⟨List.rel_append (emitted_matched hitems fun v v' hspot =>
    hvalues v v' (sameSpot_left hspot)) (.cons ?_ .nil), hhandle⟩
  exact ⟨rfl, harguments, .cons hhandle .nil, rfl⟩

/-- Constructions by one block have results of the same types. -/
theorem creation_types (hcreated : Created program block first handle)
    (hcreated' : Created program' block first' handle') {v v' : ValueId}
    (hspot : SameSpot (creation span block first source handle)
      (creation span block first' source' handle') v v') : SameType program program' v v' := by
  have hlength : (emitted span first (block.items first)).length =
      (emitted span first' (block.items first')).length := by
    rw [length_emitted, length_emitted]
    rfl
  rcases sameSpot_append hlength hspot with hspot | hspot
  · exact emitted_types (by rfl) hcreated.1 hcreated'.1 hspot
  · obtain ⟨rfl, rfl⟩ := sameSpot_callOp.mp hspot
    exact ⟨.ptr, hcreated.2, hcreated'.2⟩

variable {accessor : String} {shape : List Dim} {element : Ty} {pointer pointer' : ValueId}

/-- Exposures of matched sources are the same. -/
theorem exposure_matched (hsource : m.values source source')
    (hvalues : ∀ v v', SameSpot (exposure span accessor shape element first source pointer)
      (exposure span accessor shape element first' source' pointer') v v' → m.values v v') :
    List.Forall₂ m.SameOp (exposure span accessor shape element first source pointer)
        (exposure span accessor shape element first' source' pointer') ∧
      m.values pointer pointer' := by
  have hbuffer : m.values ⟨first⟩ ⟨first'⟩ := hvalues _ _ ⟨0, 0, _, _, rfl, rfl, rfl, rfl⟩
  have hview : m.values ⟨first + 1⟩ ⟨first' + 1⟩ := hvalues _ _ ⟨1, 0, _, _, rfl, rfl, rfl, rfl⟩
  have hpointer : m.values pointer pointer' := hvalues _ _ ⟨2, 0, _, _, rfl, rfl, rfl, rfl⟩
  refine ⟨?_, hpointer⟩
  exact .cons ⟨rfl, .cons hsource .nil, .cons hbuffer .nil, rfl⟩
    (.cons ⟨rfl, .cons hbuffer .nil, .cons hview .nil, rfl⟩
      (.cons ⟨rfl, .cons hview .nil, .cons hpointer .nil, rfl⟩ .nil))

/-- Exposures have results of the same types. -/
theorem exposure_types (hview : program.Carries first (viewItems source shape element first))
    (hview' : program'.Carries first' (viewItems source' shape element first'))
    (hpointer : program.typeOf pointer = .ok .ptr) (hpointer' : program'.typeOf pointer' = .ok .ptr)
    {v v' : ValueId} (hspot : SameSpot (exposure span accessor shape element first source pointer)
      (exposure span accessor shape element first' source' pointer') v v') :
    SameType program program' v v' := by
  rcases sameSpot_append (by rfl) hspot with hspot | hspot
  · exact emitted_types (by rfl) hview hview' hspot
  · obtain ⟨rfl, rfl⟩ := sameSpot_callOp.mp hspot
    exact ⟨.ptr, hpointer, hpointer'⟩

end Parts

/-- Two expansions are the same: their results have the same types, and wherever these are matched,
the operations are the same and the values that replace the root are matched. -/
structure SameExpansion (m : Matching) (program program' : Program) (new new' : List Operation)
    (values values' : List ValueId) : Prop where
  types : ∀ v v', SameSpot new new' v v' → SameType program program' v v'
  ops : ∀ m', m ≤ m' → (∀ v v', SameSpot new new' v v' → m'.values v v') →
    List.Forall₂ m'.SameOp new new' ∧ List.Forall₂ m'.values values values'

/-- Operations that are the same have expansions that are the same. -/
theorem Expansion.matched (h : m.Sound program program')
    (hroot : SameRoot m program program' root root')
    (hoperands : List.Forall₂ m.values operands operands') {new new' : List Operation}
    {values values' : List ValueId} (hexpansion : Expansion program root operands new values)
    (hexpansion' : Expansion program' root' operands' new' values') :
    SameExpansion m program program' new new' values values' := by
  have hspan := hroot.span
  -- The first expansion decides the case, and what it read is read on the other side too.
  cases hexpansion with
  | ret hkind =>
    obtain ⟨rfl, rfl⟩ := hexpansion'.of_ret (hroot.kind.trans hkind)
    refine ⟨?_, fun m' hle _ => ⟨.cons ⟨rfl, forall₂_mono hle hoperands, .nil, hspan⟩ .nil, .nil⟩⟩
    rintro v v' ⟨j, k, op, op', hop, -, hv, -⟩
    obtain rfl := List.mem_singleton.mp (List.mem_of_getElem? hop)
    simp at hv
  | query hold hty hquery hnew =>
    obtain ⟨old', hold', hty'⟩ := hroot.single hold hty
    obtain ⟨value', rfl, rfl, hnew'⟩ :=
      hexpansion'.of_query hold' hty' (hroot.kind ▸ hquery.matched h hoperands)
    refine ⟨fun v v' hspot => ?_, fun m' hle hvalues => ?_⟩
    · obtain ⟨rfl, rfl⟩ := sameSpot_callOp.mp hspot
      exact ⟨_, hnew, hnew'⟩
    · have hvalue := hvalues _ _ (sameSpot_callOp.mpr ⟨rfl, rfl⟩)
      exact ⟨.cons ⟨rfl, forall₂_mono hle hoperands, .cons hvalue .nil, hspan⟩ .nil,
        .cons hvalue .nil⟩
  | construct hkind hencodes hsource hcreated =>
    obtain ⟨source', hsource', hv⟩ := exists_getElem?_of_forall₂ hoperands hsource
    obtain ⟨first', handle', rfl, rfl, hcreated'⟩ :=
      hexpansion'.of_construct (hroot.kind.trans hkind) (hencodes.matched hroot) hsource'
    rw [hspan]
    refine ⟨fun v v' => creation_types hcreated hcreated', fun m' hle hvalues => ?_⟩
    obtain ⟨hops, hhandle⟩ := creation_matched (hle.1 _ _ hv) hvalues
    exact ⟨hops, .cons hhandle .nil⟩
  | convert hkind hencodes _ _ _ hsource hold hty haccess hview hpointer hcreated =>
    obtain ⟨source', hsource', hv⟩ := exists_getElem?_of_forall₂ hoperands hsource
    obtain ⟨old', hold', hty'⟩ := hroot.single hold hty
    obtain ⟨view', first', pointer', handle', rfl, rfl, hview', hpointer', hcreated'⟩ :=
      hexpansion'.of_convert (hroot.kind.trans hkind) (hencodes.matched hroot) hsource' hold' hty'
        haccess
    rw [hspan]
    refine ⟨fun v v' hspot => ?_, fun m' hle hvalues => ?_⟩
    · rcases sameSpot_append (by rfl) hspot with hspot | hspot
      · exact exposure_types hview hview' hpointer hpointer' hspot
      · exact creation_types hcreated hcreated' hspot
    · obtain ⟨hexposed, hpointers⟩ := exposure_matched (hle.1 _ _ hv) fun v v' hspot =>
        hvalues v v' (sameSpot_left hspot)
      obtain ⟨hmade, hhandle⟩ := creation_matched hpointers fun v v' hspot =>
        hvalues v v' (sameSpot_right (by rfl) hspot)
      exact ⟨List.rel_append hexposed hmade, .cons hhandle .nil⟩
  | fold hkind _ hhandle =>
    obtain ⟨answer, answer', hanswer, hanswer', hrel⟩ := h.commonHandle hoperands .none
    obtain rfl := Except.ok.inj (hanswer.symm.trans hhandle)
    cases hrel with
    | some hv =>
      obtain ⟨rfl, rfl⟩ := hexpansion'.of_fold (hroot.kind.trans hkind) hanswer'
      refine ⟨?_, fun m' hle _ => ⟨.nil, .cons (hle.1 _ _ hv) .nil⟩⟩
      rintro v v' ⟨j, k, op, op', hop, -⟩
      simp at hop

end Lowering

end TensorLowering
