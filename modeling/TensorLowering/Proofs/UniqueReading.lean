import Mathlib.Logic.Function.Basic
import TensorLowering.Ty.Basic

/-!
# Printed types can be read back

The texts of types are nested in each other and hold the same separators at every depth. They can
be told apart because each part, read from the front of a text, ends where it is seen to end: a
number where no digit follows, a shape where no extent follows, a list at its closing bracket. This
is shown printer by printer, together with what is left of the text, and for types by induction on
what they are made of. It follows that different types have different texts, and so do different
lists of result types. Nothing is assumed about annotations, which need not fit the tensor.
-/

namespace TensorLowering

namespace Text

/-! ### Reading from the front -/

/-- The text does not go on with a character of the class. -/
def Stops (more : Char → Bool) (rest : List Char) : Prop := ∀ c ∈ rest.head?, more c = false

/-- What was printed can be told from the front of a text, and where it ends, if the text does not
go on there with a character of the class. -/
def Readable {α : Type} (more : Char → Bool) (write : α → String) : Prop :=
  ∀ ⦃a b : α⦄ ⦃rest rest' : List Char⦄, Stops more rest → Stops more rest' →
    (write a).toList ++ rest = (write b).toList ++ rest' → a = b ∧ rest = rest'

variable {α : Type} {more : Char → Bool} {write : α → String}

/-- The end of a text goes on with nothing. -/
theorem stops_nil (more : Char → Bool) : Stops more [] := by simp [Stops]

/-- A text goes on with its first character. -/
@[simp] theorem stops_cons {c : Char} {rest : List Char} :
    Stops more (c :: rest) ↔ more c = false := by
  simp [Stops]

/-- Texts that can be read back are different for different things. -/
theorem Readable.injective (h : Readable more write) : Function.Injective write := fun _ _ heq =>
  (h (stops_nil more) (stops_nil more) (congrArg (·.toList ++ []) heq)).1

/-- A run of characters of a class ends where the text does not go on with one. -/
theorem append_inj_of_stops {run run' rest rest' : List Char} (hrun : ∀ c ∈ run, more c = true)
    (hrun' : ∀ c ∈ run', more c = true) (hrest : Stops more rest) (hrest' : Stops more rest')
    (h : run ++ rest = run' ++ rest') : run = run' ∧ rest = rest' := by
  have hnone : ∀ {rest : List Char}, Stops more rest → rest.takeWhile more = [] := by
    intro rest hrest
    cases rest with
    | nil => rfl
    | cons c rest => simp [stops_cons.mp hrest]
  have hruns := congrArg (List.takeWhile more) h
  rw [List.takeWhile_append_of_pos hrun, List.takeWhile_append_of_pos hrun', hnone hrest,
    hnone hrest', List.append_nil, List.append_nil] at hruns
  subst hruns
  exact ⟨rfl, List.append_cancel_left h⟩

/-- Numbers end where no digit follows. -/
theorem readable_toString : Readable Char.isDigit (fun n : Nat => toString n) := by
  intro n m rest rest' hrest hrest' h
  simp only [Nat.toString_eq_repr, Nat.toList_repr] at h
  have hdigits : ∀ n, ∀ c ∈ Nat.toDigits 10 n, c.isDigit = true := fun n c hc =>
    Nat.isDigit_of_mem_toDigits (by decide) (by decide) hc
  obtain ⟨hsame, hrests⟩ := append_inj_of_stops (hdigits n) (hdigits m) hrest hrest' h
  have hvalue : ∀ n, Nat.ofDigitChars 10 (Nat.toDigits 10 n) 0 = n := fun n =>
    Nat.ofDigitChars_toDigits (by decide) (by decide)
  exact ⟨by rw [← hvalue n, hsame, hvalue m], hrests⟩

/-- A number begins with a digit. -/
theorem exists_toList_toString (n : Nat) :
    ∃ c digits, (toString n).toList = c :: digits ∧ c.isDigit = true := by
  rw [Nat.toString_eq_repr, Nat.toList_repr]
  cases hdigits : Nat.toDigits 10 n with
  | nil => exact absurd hdigits Nat.toDigits_ne_nil
  | cons c digits =>
    have hmem : c ∈ Nat.toDigits 10 n := hdigits ▸ List.mem_cons_self
    exact ⟨c, digits, rfl, Nat.isDigit_of_mem_toDigits (by decide) (by decide) hmem⟩

/-- A number is not taken for something that begins with another character. -/
theorem toString_append_ne {c : Char} (hc : c.isDigit = false) (n : Nat) (rest rest' : List Char) :
    (toString n).toList ++ rest ≠ c :: rest' := by
  obtain ⟨d, digits, htext, hd⟩ := exists_toList_toString n
  intro h
  rw [htext, List.cons_append, List.cons.injEq] at h
  simp [h.1, hc] at hd

/-- A part that may be missing is told from what comes next by the words it is announced with. -/
theorem optional_append_inj {printed : Option α → String} {words next : String}
    (hnone : printed none = "") (hsome : ∀ a, printed (some a) = words ++ write a)
    (hwrite : Readable (fun _ => false) write)
    (hdiffer : ∀ rest rest', words.toList ++ rest ≠ next.toList ++ rest')
    {part part' : Option α} {rest rest' : List Char}
    (h : (printed part).toList ++ (next.toList ++ rest) =
      (printed part').toList ++ (next.toList ++ rest')) :
    part = part' ∧ rest = rest' := by
  have hempty : (printed none).toList = [] := by rw [hnone, String.toList_empty]
  have hpart : ∀ a, (printed (some a)).toList = words.toList ++ (write a).toList := fun a => by
    rw [hsome, String.toList_append]
  cases part with
  | none =>
    cases part' with
    | none =>
      rw [hempty] at h
      exact ⟨rfl, List.append_cancel_left h⟩
    | some b =>
      rw [hempty, hpart, List.append_assoc] at h
      exact absurd h.symm (hdiffer _ _)
  | some a =>
    cases part' with
    | none =>
      rw [hempty, hpart, List.append_assoc] at h
      exact absurd h (hdiffer _ _)
    | some b =>
      rw [hpart, hpart, List.append_assoc, List.append_assoc] at h
      obtain ⟨rfl, hrest⟩ := hwrite (by simp [Stops]) (by simp [Stops]) (List.append_cancel_left h)
      exact ⟨rfl, List.append_cancel_left hrest⟩

/-! ### Lists -/

/-- The items after the first one are each preceded by a comma. -/
theorem toList_commaSep_cons (first : String) (items : List String) :
    (commaSep (first :: items)).toList =
      first.toList ++ items.flatMap fun item => ',' :: ' ' :: item.toList := by
  induction items generalizing first with
  | nil => simp [commaSep]
  | cons second items ih => simp [commaSep, ih]

section Lists

variable {close : Char} (hcomma : more ',' = false) (hclose : more close = false)

include hcomma hclose

/-- After an item comes a comma or the end of the list. -/
theorem stops_items (items : List String) (rest : List Char) :
    Stops more (items.flatMap (fun item => ',' :: ' ' :: item.toList) ++ close :: rest) := by
  cases items <;> simp [hcomma, hclose]

variable {items items' : List α} {rest rest' : List Char} (hwrite : Readable more write)
  (hdiffer : close ≠ ',')

include hwrite hdiffer

/-- Items that are each preceded by a comma end with the list. -/
theorem items_append_inj
    (h : (items.map write).flatMap (fun item => ',' :: ' ' :: item.toList) ++ close :: rest =
      (items'.map write).flatMap (fun item => ',' :: ' ' :: item.toList) ++ close :: rest') :
    items = items' ∧ rest = rest' := by
  induction items generalizing items' with
  | nil =>
    cases items' with
    | nil => simpa using h
    | cons item' items' => simp [hdiffer] at h
  | cons item items ih =>
    cases items' with
    | nil => simp [hdiffer.symm] at h
    | cons item' items' =>
      simp only [List.map_cons, List.flatMap_cons, List.cons_append, List.cons.injEq, true_and,
        List.append_assoc] at h
      obtain ⟨rfl, hitems⟩ := hwrite (stops_items hcomma hclose _ rest)
        (stops_items hcomma hclose _ rest') h
      obtain ⟨rfl, hrest⟩ := ih hitems
      exact ⟨rfl, hrest⟩

/-- A list can be read up to the bracket that closes it, if no item begins with that bracket. -/
theorem commaSep_append_inj (hbegin : ∀ a, ∃ c, c ≠ close ∧ ∃ chars, (write a).toList = c :: chars)
    (h : (commaSep (items.map write)).toList ++ close :: rest =
      (commaSep (items'.map write)).toList ++ close :: rest') :
    items = items' ∧ rest = rest' := by
  have hnonempty : ∀ item (items : List α) (rest rest' : List Char),
      (commaSep ((item :: items).map write)).toList ++ rest ≠ close :: rest' := by
    intro item items rest rest' heq
    obtain ⟨c, hne, chars, htext⟩ := hbegin item
    rw [List.map_cons, toList_commaSep_cons, htext] at heq
    exact hne (List.cons.inj heq).1
  cases items with
  | nil =>
    cases items' with
    | nil => simpa [commaSep] using h
    | cons item' items' => exact absurd h.symm (hnonempty item' items' _ _)
  | cons item items =>
    cases items' with
    | nil => exact absurd h (hnonempty item items _ _)
    | cons item' items' =>
      rw [List.map_cons, List.map_cons, toList_commaSep_cons, toList_commaSep_cons,
        List.append_assoc, List.append_assoc] at h
      obtain ⟨rfl, hitems⟩ := hwrite (stops_items hcomma hclose _ rest)
        (stops_items hcomma hclose _ rest') h
      obtain ⟨rfl, hrest⟩ := items_append_inj hcomma hclose hwrite hdiffer hitems
      exact ⟨rfl, hrest⟩

end Lists

end Text

open Text

/-! ### Annotations -/

/-- The word for a level is told from the other words by its first letter. -/
theorem Level.readable_name (more : Char → Bool) : Readable more Level.name := by
  intro level level' rest rest' _ _ h
  cases level <;> cases level' <;> simp_all [Level.name]

/-- A dimension ends where no digit follows. -/
theorem LevelOrder.readable_dimName : Readable Char.isDigit LevelOrder.dimName := by
  intro dim dim' rest rest' hrest hrest' h
  exact readable_toString hrest hrest' (by simpa [LevelOrder.dimName] using h)

/-- Dimensions in parentheses can be read up to the closing one. -/
theorem LevelOrder.dimNames_append_inj {dims dims' : List Nat} {rest rest' : List Char}
    (h : (commaSep (dims.map dimName)).toList ++ ')' :: rest =
      (commaSep (dims'.map dimName)).toList ++ ')' :: rest') : dims = dims' ∧ rest = rest' := by
  refine commaSep_append_inj rfl rfl readable_dimName (by decide) (fun dim => ?_) h
  exact ⟨'d', by decide, (toString dim).toList, by simp [dimName]⟩

/-- An order ends with its second parenthesis. -/
theorem LevelOrder.readable_render (more : Char → Bool) : Readable more LevelOrder.render := by
  rintro ⟨dims⟩ ⟨dims'⟩ rest rest' _ _ h
  simp only [LevelOrder.render, String.toList_append, String.reduceToList, List.cons_append,
    List.nil_append, List.append_assoc, List.cons.injEq, true_and] at h
  have hlevels := (dimNames_append_inj h).2
  simp only [List.cons.injEq, true_and] at hlevels
  obtain ⟨rfl, hrest⟩ := dimNames_append_inj hlevels
  exact ⟨rfl, hrest⟩

namespace Sparsity

/-- An order that is given is told from the widths by what it is announced with. -/
theorem renderOrder_append_inj {order order' : Option LevelOrder} {rest rest' : List Char}
    (h : (renderOrder order).toList ++ (", ptr = ".toList ++ rest) =
      (renderOrder order').toList ++ (", ptr = ".toList ++ rest')) :
    order = order' ∧ rest = rest' :=
  optional_append_inj rfl (fun _ => rfl) (LevelOrder.readable_render _) (by simp) h

/-- The words for levels can be read up to the bracket after them. -/
theorem levels_append_inj {levels levels' : List Level} {rest rest' : List Char}
    (h : (commaSep (levels.map Level.name)).toList ++ ("]".toList ++ rest) =
      (commaSep (levels'.map Level.name)).toList ++ ("]".toList ++ rest')) :
    levels = levels' ∧ rest = rest' := by
  have hbegin : ∀ level : Level, ∃ c, c ≠ ']' ∧ ∃ chars, level.name.toList = c :: chars := by
    intro level
    cases level <;> simp [Level.name]
  exact commaSep_append_inj rfl rfl (Level.readable_name fun _ => false) (by decide) hbegin h

/-- An annotation ends with its bracket. -/
theorem readable_render (more : Char → Bool) : Readable more Sparsity.render := by
  rintro ⟨levels, order, pointerWidth, indexWidth⟩ ⟨levels', order', pointerWidth', indexWidth'⟩
    rest rest' _ _ h
  -- The equation of the printer is not used here: deriving it evaluates the words.
  delta render at h
  simp only [String.toList_append, List.append_assoc] at h
  obtain ⟨rfl, horder⟩ := levels_append_inj (List.append_cancel_left h)
  obtain ⟨rfl, hpointer⟩ := renderOrder_append_inj horder
  obtain ⟨rfl, hindex⟩ := readable_toString (by simp) (by simp) hpointer
  obtain ⟨rfl, hclose⟩ := readable_toString (by simp) (by simp) (List.append_cancel_left hindex)
  exact ⟨rfl, List.append_cancel_left hclose⟩

end Sparsity

/-! ### Types -/

/-- The characters that an extent can begin with. -/
def Dim.begins (c : Char) : Bool := c.isDigit || c == '?'

/-- An extent begins with a digit or a question mark. -/
theorem Dim.exists_toList_render (dim : Dim) :
    ∃ c chars, dim.render.toList = c :: chars ∧ begins c = true := by
  cases dim with
  | static size =>
    obtain ⟨c, digits, htext, hc⟩ := exists_toList_toString size
    exact ⟨c, digits, htext, by simp [begins, hc]⟩
  | dynamic => exact ⟨'?', [], by simp [render], by decide⟩

/-- An extent ends where no digit follows. -/
theorem Dim.readable_render : Readable Char.isDigit Dim.render := by
  intro dim dim' rest rest' hrest hrest' h
  cases dim with
  | static size =>
    cases dim' with
    | static size' =>
      obtain ⟨rfl, hsame⟩ := readable_toString hrest hrest' h
      exact ⟨rfl, hsame⟩
    | dynamic => exact absurd h (toString_append_ne (by decide) size _ _)
  | dynamic =>
    cases dim' with
    | static size' => exact absurd h.symm (toString_append_ne (by decide) size' _ _)
    | dynamic => exact ⟨rfl, List.append_cancel_left h⟩

namespace Ty

/-- A shape ends where no extent follows. -/
theorem readable_renderShape : Readable Dim.begins renderShape := by
  have hnonempty : ∀ {dim : Dim} {shape : List Dim} {rest rest' : List Char},
      Stops Dim.begins rest' → (renderShape (dim :: shape)).toList ++ rest ≠ rest' := by
    intro dim shape rest rest' hstops heq
    obtain ⟨c, chars, htext, hc⟩ := dim.exists_toList_render
    simp only [renderShape, String.toList_append, htext, List.cons_append] at heq
    simp [← heq, hc] at hstops
  intro shape
  induction shape with
  | nil =>
    intro shape' rest rest' hrest hrest' h
    cases shape' with
    | nil => exact ⟨rfl, h⟩
    | cons dim' shape' => exact absurd h.symm (hnonempty hrest)
  | cons dim shape ih =>
    intro shape' rest rest' hrest hrest' h
    cases shape' with
    | nil => exact absurd h (hnonempty hrest')
    | cons dim' shape' =>
      simp only [renderShape, String.toList_append, List.append_assoc] at h
      obtain ⟨rfl, hshape⟩ := Dim.readable_render (by simp) (by simp) h
      obtain ⟨rfl, hsame⟩ := ih hrest hrest' (List.append_cancel_left hshape)
      exact ⟨rfl, hsame⟩

/-- The characters that a type can begin with. -/
def begins : List Char := ['i', 'f', 'b', '!', 't', 'm']

/-- A type begins with one of these characters. -/
theorem exists_toList_render (ty : Ty) : ∃ c ∈ begins, ∃ chars, ty.render.toList = c :: chars := by
  cases ty <;> simp [render, begins]

/-- A type is not taken for an extent. -/
theorem stops_render (ty : Ty) (rest : List Char) :
    Stops Dim.begins (ty.render.toList ++ rest) := by
  obtain ⟨c, hc, chars, htext⟩ := ty.exists_toList_render
  have hnone : ∀ c ∈ begins, Dim.begins c = false := by simp [begins, Dim.begins]
  rw [htext, List.cons_append, stops_cons]
  exact hnone c hc

/-- What comes after the elements of a tensor is an annotation or the end. -/
theorem renderSparsity_append_inj {sparsity sparsity' : Option Sparsity} {rest rest' : List Char}
    (h : (renderSparsity sparsity).toList ++ (">".toList ++ rest) =
      (renderSparsity sparsity').toList ++ (">".toList ++ rest')) :
    sparsity = sparsity' ∧ rest = rest' :=
  optional_append_inj rfl (fun _ => rfl) (Sparsity.readable_render _) (by simp) h

/-- What comes after the elements of a tensor is not taken for a part of them. -/
theorem stops_renderSparsity (sparsity : Option Sparsity) (rest : List Char) :
    Stops Char.isDigit ((renderSparsity sparsity).toList ++ (">".toList ++ rest)) := by
  cases sparsity <;> simp [renderSparsity]

/-- A buffer of known rank is told from one of unknown rank by what follows the bracket. -/
theorem memref_append_ne (shape : List Dim) (element element' : Ty) (rest rest' : List Char) :
    (memref shape element).render.toList ++ rest ≠ (unranked element').render.toList ++ rest' := by
  intro h
  simp only [render, String.toList_append, String.reduceToList, List.cons_append, List.nil_append,
    List.append_assoc, List.cons.injEq, true_and] at h
  cases shape with
  | nil =>
    obtain ⟨c, hc, chars, htext⟩ := element.exists_toList_render
    simp only [renderShape, String.reduceToList, List.nil_append, htext, List.cons_append,
      List.cons.injEq] at h
    simp [h.1, begins] at hc
  | cons dim shape =>
    obtain ⟨c, chars, htext, hc⟩ := dim.exists_toList_render
    simp only [renderShape, String.toList_append, htext, List.cons_append, List.cons.injEq] at h
    simp [h.1, Dim.begins] at hc

/-- A type ends where no digit follows. -/
theorem readable_render : Readable Char.isDigit render := by
  intro ty
  -- Most kinds of types differ in their first letters. Integers share theirs with the index type,
  -- and the two kinds of buffers share a whole word.
  induction ty with
  | index =>
    intro ty' rest rest' _ _ h
    cases ty' with
    | index => exact ⟨rfl, List.append_cancel_left h⟩
    | int width' =>
      simp only [render, String.toList_append, String.reduceToList, List.cons_append,
        List.nil_append, List.cons.injEq, true_and] at h
      exact absurd h.symm (toString_append_ne rfl width' _ _)
    | _ => simp [render] at h
  | int width =>
    intro ty' rest rest' hrest hrest' h
    cases ty' with
    | index =>
      simp only [render, String.toList_append, String.reduceToList, List.cons_append,
        List.nil_append, List.cons.injEq, true_and] at h
      exact absurd h (toString_append_ne rfl width _ _)
    | int width' =>
      simp only [render, String.toList_append, List.append_assoc] at h
      obtain ⟨rfl, hsame⟩ := readable_toString hrest hrest' (List.append_cancel_left h)
      exact ⟨rfl, hsame⟩
    | _ => simp [render] at h
  | tensor shape element sparsity ih =>
    intro ty' rest rest' _ _ h
    cases ty' with
    | tensor shape' element' sparsity' =>
      simp only [render, String.toList_append, List.append_assoc] at h
      obtain ⟨rfl, helement⟩ := readable_renderShape (stops_render element _)
        (stops_render element' _) (List.append_cancel_left h)
      obtain ⟨rfl, hsparsity⟩ := ih (stops_renderSparsity _ _) (stops_renderSparsity _ _) helement
      obtain ⟨rfl, hsame⟩ := renderSparsity_append_inj hsparsity
      exact ⟨rfl, hsame⟩
    | _ => simp [render] at h
  | memref shape element ih =>
    intro ty' rest rest' _ _ h
    cases ty' with
    | memref shape' element' =>
      simp only [render, String.toList_append, List.append_assoc] at h
      obtain ⟨rfl, helement⟩ := readable_renderShape (stops_render element _)
        (stops_render element' _) (List.append_cancel_left h)
      obtain ⟨rfl, hsame⟩ := ih (by simp) (by simp) helement
      exact ⟨rfl, List.append_cancel_left hsame⟩
    | unranked element' => exact absurd h (memref_append_ne shape element element' rest rest')
    | _ => simp [render] at h
  | unranked element ih =>
    intro ty' rest rest' _ _ h
    cases ty' with
    | memref shape' element' =>
      exact absurd h.symm (memref_append_ne shape' element' element rest' rest)
    | unranked element' =>
      simp only [render, String.toList_append, List.append_assoc] at h
      obtain ⟨rfl, hsame⟩ := ih (by simp) (by simp) (List.append_cancel_left h)
      exact ⟨rfl, List.append_cancel_left hsame⟩
    | _ => simp [render] at h
  | _ =>
    intro ty' rest rest' _ _ h
    cases ty' <;> simp_all [render]

/-- Result types stand alone or in parentheses. -/
theorem renderResults_cases (types : List Ty) :
    (∃ ty, types = [ty] ∧ (renderResults types).toList = ty.render.toList) ∨
      (renderResults types).toList = '(' :: ((commaSep (types.map render)).toList ++ [')']) := by
  match types with
  | [] => exact .inr (by simp [renderResults, renderAll])
  | [ty] => exact .inl ⟨ty, rfl, rfl⟩
  | first :: second :: rest => exact .inr (by simp [renderResults, renderAll])

/-- Lists of result types have different texts: a type does not begin with a parenthesis, and lists
in parentheses are read up to the closing one. -/
theorem renderResults_injective : Function.Injective renderResults := by
  intro types types' heq
  have htext := congrArg String.toList heq
  have hbegin : ∀ p ∉ begins, ∀ ty : Ty, ∃ c, c ≠ p ∧ ∃ chars, ty.render.toList = c :: chars := by
    intro p hp ty
    obtain ⟨c, hc, hchars⟩ := ty.exists_toList_render
    exact ⟨c, fun hsame => hp (hsame ▸ hc), hchars⟩
  have halone : ∀ (ty : Ty) (chars : List Char), ty.render.toList ≠ '(' :: chars := by
    intro ty chars hty
    obtain ⟨c, hne, chars', hty'⟩ := hbegin '(' (by decide) ty
    exact hne (List.cons.inj (hty'.symm.trans hty)).1
  rcases renderResults_cases types with ⟨ty, rfl, hone⟩ | hmany
  · rcases renderResults_cases types' with ⟨ty', rfl, hone'⟩ | hmany'
    · rw [hone, hone'] at htext
      rw [readable_render.injective (String.toList_inj.mp htext)]
    · exact absurd (hone.symm.trans (htext.trans hmany')) (halone ty _)
  · rcases renderResults_cases types' with ⟨ty', rfl, hone'⟩ | hmany'
    · exact absurd (hone'.symm.trans (htext.symm.trans hmany)) (halone ty' _)
    · rw [hmany, hmany', List.cons.injEq] at htext
      exact (commaSep_append_inj rfl rfl readable_render (by decide) (hbegin ')' (by decide))
        htext.2).1

/-- Printed types are unambiguous: different types have different texts, whatever is nested in them
and whether or not their annotations fit, and different lists of result types do too. -/
theorem render_unambiguous : Function.Injective render ∧ Function.Injective renderResults :=
  ⟨readable_render.injective, renderResults_injective⟩

end Ty

end TensorLowering
