import Mathlib.Data.List.Induction
import Mathlib.Logic.Function.Basic
import TensorLowering.Proofs.FileGrammar

/-!
# The meaning of description files

A file means the last value that it gives to each place. While a file is read, the draft agrees with
the last values in the lines so far, and every line so far may stand where it does; reading ends at
the first line for which this fails. The machine that a complete draft describes is then a function
of the last values, and of the built-in machine that they name. The order in which single address
spaces are changed does not show, because a change of one space leaves the others as they are.
-/

namespace TensorLowering

namespace Description

/-! ### Last values -/

/-- The line at a position gives a value to a place, a key under the heading that holds there. -/
def Sets (lines : List (List Char)) (i : Nat) (place : String × String)
    (value : List Char) : Prop :=
  ∃ line, lines[i]? = some line ∧ titleAfter (lines.take i) = place.1 ∧ Assigns line place.2 value

/-- The line at a position gives a value to a place, and no later line does. -/
def SetsLast (lines : List (List Char)) (i : Nat) (place : String × String)
    (value : List Char) : Prop :=
  Sets lines i place value ∧ ∀ (j : Nat) (later : List Char), i < j → ¬Sets lines j place later

/-- The last value that the lines give to a place, none if they give it no value. -/
def LastValue (lines : List (List Char)) (place : String × String) : Option (List Char) → Prop
  | none => ∀ (i : Nat) (value : List Char), ¬Sets lines i place value
  | some value => ∃ i, SetsLast lines i place value

section LastValues

variable {lines : List (List Char)} {line value : List Char} {place : String × String} {i : Nat}

/-- Only positions inside a file give values. -/
theorem Sets.lt_length (h : Sets lines i place value) : i < lines.length := by
  obtain ⟨line, hline, -⟩ := h
  exact (List.getElem?_eq_some_iff.mp hline).1

/-- A position gives one value to a place. -/
theorem Sets.unique {value' : List Char} (h : Sets lines i place value)
    (h' : Sets lines i place value') : value = value' := by
  obtain ⟨line, hline, -, hassigns⟩ := h
  obtain ⟨line', hline', -, hassigns'⟩ := h'
  obtain rfl := Option.some.inj (hline.symm.trans hline')
  exact (hassigns.unique hassigns').2

/-- Another line gives a value as the lines before it did, or at its own position. -/
theorem sets_append : Sets (lines ++ [line]) i place value ↔ Sets lines i place value ∨
    (i = lines.length ∧ titleAfter lines = place.1 ∧ Assigns line place.2 value) := by
  unfold Sets
  rcases Nat.lt_trichotomy i lines.length with hlt | rfl | hgt
  · rw [List.getElem?_append_left hlt, List.take_append_of_le_length (Nat.le_of_lt hlt)]
    simp [Nat.ne_of_lt hlt]
  · simp
  · have hout : (lines ++ [line])[i]? = none := by
      rw [List.getElem?_eq_none_iff, List.length_append, List.length_singleton]
      omega
    have hout' : lines[i]? = none := List.getElem?_eq_none_iff.mpr (Nat.le_of_lt hgt)
    simp [hout, hout', Nat.ne_of_gt hgt]

/-- A line that gives a value to a place is the last to do so. -/
theorem setsLast_append (htitle : titleAfter lines = place.1) (h : Assigns line place.2 value) :
    SetsLast (lines ++ [line]) lines.length place value := by
  refine ⟨sets_append.mpr (Or.inr ⟨rfl, htitle, h⟩), fun j later hlt hsets => ?_⟩
  have hbound := hsets.lt_length
  simp only [List.length_append, List.length_singleton] at hbound
  omega

/-- A line that gives no value to a place leaves what the lines before it gave. -/
theorem LastValue.append {found : Option (List Char)} (h : LastValue lines place found)
    (hother : ∀ later, titleAfter lines = place.1 → ¬Assigns line place.2 later) :
    LastValue (lines ++ [line]) place found := by
  have hsame : ∀ (j : Nat) (later : List Char),
      Sets (lines ++ [line]) j place later ↔ Sets lines j place later := by
    intro j later
    rw [sets_append, or_iff_left]
    exact fun hnew => hother later hnew.2.1 hnew.2.2
  cases found with
  | none => exact fun j later hsets => h j later ((hsame j later).mp hsets)
  | some value =>
    obtain ⟨j, hsets, hlast⟩ := h
    refine ⟨j, (hsame j value).mpr hsets, fun k later hlt hlater => ?_⟩
    exact hlast k later hlt ((hsame k later).mp hlater)

/-- The last values after one more setting. -/
theorem lastValue_update {last : String × String → Option (List Char)} {key : String}
    (h : ∀ place, LastValue lines place (last place)) (hassigns : Assigns line key value)
    (place : String × String) : LastValue (lines ++ [line]) place
      (Function.update last (titleAfter lines, key) (some value) place) := by
  by_cases hplace : place = (titleAfter lines, key)
  · subst hplace
    rw [Function.update_self]
    exact ⟨lines.length, setsLast_append rfl hassigns⟩
  · rw [Function.update_of_ne hplace]
    refine (h place).append fun later htitle hlater => hplace ?_
    exact Prod.ext htitle.symm (hlater.unique hassigns).1

end LastValues

/-! ### The machine of the last values -/

/-- The text that a value stands for, empty if there is none. -/
def textOf (value : Option (List Char)) : String := (value.map textValue).getD ""

/-- The text that a value stands for is the value without the quotation marks around it. -/
theorem unquoted_textOf {found : Option (List Char)} {value : List Char} (h : found = some value) :
    Text.Unquoted value (textOf found).toList := by
  rw [h, textOf, Option.map_some, Option.getD_some, textValue, String.toList_ofList]
  exact Text.unquoted_unquote value

/-- The flag that a value stands for. -/
def isTrue (value : List Char) : Bool := decide (value = flagText true)

/-- The number that a value stands for. -/
def numberOf (value : List Char) : Nat := Nat.ofDigitChars 10 (Text.afterPlus value) 0

/-- The switches of the built-in machine; those that are not set are off. -/
def variantOf (last : String × String → Option (List Char)) : Variant where
  syclDevice := (last ("options", "sycl_device")).any isTrue
  xilinxFpga := (last ("options", "xilinx_fpga")).any isTrue
  windows := (last ("options", "windows")).any isTrue

/-- The whole address map that is chosen, that of the built-in machine if none is. -/
def modeMap (last : String × String → Option (List Char)) (base : Machine) : AddressMap :=
  match last ("address_space", "default_is_generic") with
  | some value => .ofMode (isTrue value)
  | none => base.addressMap

/-- The built-in machine with what the last values replace. -/
def describe (last : String × String → Option (List Char)) (base : Machine) : Machine :=
  { base with
    name := textOf (last ("target", "name"))
    dataLayout := ((last ("layout", "data_layout")).map textValue).getD base.dataLayout
    longWidth := ((last ("layout", "long_width")).map numberOf).getD base.longWidth
    maxAtomicInlineWidth :=
      ((last ("layout", "max_atomic_inline_width")).map numberOf).getD base.maxAtomicInlineWidth
    addressMap.get := fun space =>
      ((last ("address_space", space.name)).map numberOf).getD ((modeMap last base).get space) }

/-! ### Drafts -/

/-- The settings of a draft are those of the given values. -/
structure Draft.Records (draft : Draft) (last : String × String → Option (List Char)) : Prop where
  name : draft.name = textOf (last ("target", "name"))
  base : draft.base = textOf (last ("target", "base"))
  variant : draft.variant = variantOf last
  dataLayout : draft.dataLayout = (last ("layout", "data_layout")).map textValue
  longWidth : draft.longWidth = (last ("layout", "long_width")).map numberOf
  maxAtomicInlineWidth :
    draft.maxAtomicInlineWidth = (last ("layout", "max_atomic_inline_width")).map numberOf
  defaultIsGeneric :
    draft.defaultIsGeneric = (last ("address_space", "default_is_generic")).map isTrue
  spaces : ∀ (map : AddressMap) (space : AddressSpace),
    (draft.spaces.foldl (fun map entry => map.set entry.1 entry.2) map).get space =
      ((last ("address_space", space.name)).map numberOf).getD (map.get space)

/-- Address spaces differ by their names. -/
theorem name_injective : Function.Injective AddressSpace.name := by
  intro left right h
  exact Option.some.inj ((ofName?_eq_some.mpr h).symm.trans (ofName?_eq_some.mpr rfl))

/-- A change of one address space is seen at that space only. -/
theorem get_set (map : AddressMap) (space other : AddressSpace) (number : Nat) :
    (map.set space number).get other = if other = space then number else map.get other := rfl

/-- A flag is found in its text. -/
@[simp]
theorem isTrue_flagText (flag : Bool) : isTrue (flagText flag) = flag := by
  cases flag <;> rfl

namespace Draft.Records

variable {draft : Draft} {last : String × String → Option (List Char)}

/-- A draft without settings agrees with a file that gives no values. -/
theorem empty : Draft.Records {} fun _ => none := by
  constructor <;> simp [textOf, variantOf]

/-- A setting that is taken into account is the last one of its place. -/
theorem apply {setting : Setting} {value : List Char} (h : draft.Records last)
    (hwritten : setting.WrittenAs value) (span : Span) :
    (draft.apply span setting).Records (Function.update last setting.place (some value)) := by
  obtain ⟨hname, hbase, hvariant, hlayout, hlong, hatomic, hgeneric, hspaces⟩ := h
  cases setting with
  | name _ | base _ | dataLayout _ | syclDevice _ | xilinxFpga _ | windows _ =>
    constructor <;> simp_all [Draft.apply, Setting.place, Setting.WrittenAs, variantOf, textOf]
  | defaultIsGeneric flag =>
    constructor <;> simp_all [Draft.apply, Setting.place, Setting.WrittenAs, variantOf,
      name_ne_defaultIsGeneric]
  | longWidth number | maxAtomicInlineWidth number =>
    have hnumber : number = numberOf value := hwritten.eq
    constructor <;> simp_all [Draft.apply, Setting.place, variantOf]
  | space which number =>
    have hnumber : number = numberOf value := hwritten.eq
    constructor
    case spaces =>
      intro map space
      simp only [Draft.apply, List.foldl_append, List.foldl_cons, List.foldl_nil]
      by_cases hsame : space = which
      · simp [hsame, hnumber, Setting.place, get_set]
      · have hplace : ("address_space", space.name) ≠ (Setting.space which number).place := by
          simpa [Setting.place] using name_injective.ne hsame
        rw [get_set, if_neg hsame, Function.update_of_ne hplace, hspaces]
    case defaultIsGeneric =>
      rw [Function.update_of_ne, Draft.apply, hgeneric]
      simpa [Setting.place] using (name_ne_defaultIsGeneric which).symm
    all_goals simp_all [Draft.apply, Setting.place, variantOf]

/-- Only the places of settings matter. -/
theorem congr {last' : String × String → Option (List Char)} (h : draft.Records last)
    (hsame : ∀ setting : Setting, last' setting.place = last setting.place) :
    draft.Records last' where
  name := h.name.trans (congrArg textOf (hsame (.name "")).symm)
  base := h.base.trans (congrArg textOf (hsame (.base "")).symm)
  variant := by
    have hsycl : last' ("options", "sycl_device") = _ := hsame (.syclDevice true)
    have hfpga : last' ("options", "xilinx_fpga") = _ := hsame (.xilinxFpga true)
    have hwindows : last' ("options", "windows") = _ := hsame (.windows true)
    rw [h.variant, variantOf, variantOf, hsycl, hfpga, hwindows]
    rfl
  dataLayout := h.dataLayout.trans (congrArg _ (hsame (.dataLayout "")).symm)
  longWidth := h.longWidth.trans (congrArg _ (hsame (.longWidth 0)).symm)
  maxAtomicInlineWidth :=
    h.maxAtomicInlineWidth.trans (congrArg _ (hsame (.maxAtomicInlineWidth 0)).symm)
  defaultIsGeneric := h.defaultIsGeneric.trans (congrArg _ (hsame (.defaultIsGeneric true)).symm)
  spaces map space := by
    have hspace : last' ("address_space", space.name) = _ := hsame (.space space 0)
    rw [h.spaces, hspace]
    rfl

/-- Which settings were ignored and the title do not matter. -/
theorem frame (h : draft.Records last) (title : String) (ignored : List (String × String)) :
    Draft.Records { draft with title, ignored } last := by
  obtain ⟨hname, hbase, hvariant, hlayout, hlong, hatomic, hgeneric, hspaces⟩ := h
  exact ⟨hname, hbase, hvariant, hlayout, hlong, hatomic, hgeneric, hspaces⟩

/-- The address map after all changes of single address spaces. -/
theorem foldl_set (h : draft.Records last) (map : AddressMap) :
    draft.spaces.foldl (fun map entry => map.set entry.1 entry.2) map =
      ⟨fun space => ((last ("address_space", space.name)).map numberOf).getD (map.get space)⟩ :=
  congrArg AddressMap.mk (funext (h.spaces map))

end Draft.Records

/-! ### Reading line by line -/

/-- The draft that the given lines lead to, with the last values that they give. -/
structure Follows (lines : List (List Char)) (last : String × String → Option (List Char))
    (draft : Draft) : Prop where
  acceptable : AllAcceptable lines
  title : draft.title = titleAfter lines
  values : ∀ place, LastValue lines place (last place)
  records : draft.Records last
  /-- The name of the built-in machine is found where it was last given. -/
  baseSpan : ∀ (i : Nat) (line value : List Char), lines[i]? = some line →
    SetsLast lines i ("target", "base") value →
      draft.baseSpan = lineSpan (Text.byteSize (lines.take i).flatten) line

/-- A file of which no line was read. -/
theorem follows_nil : Follows [] (fun _ => none) {} where
  acceptable i line hline := by simp at hline
  title := rfl
  values place i value hsets := by simpa using hsets.lt_length
  records := .empty
  baseSpan i line value hline := by simp at hline

/-- All lines of a longer file may stand where they do if the last one may. -/
theorem AllAcceptable.append {lines : List (List Char)} {line : List Char} (h : AllAcceptable lines)
    (hline : Acceptable lines line) : AllAcceptable (lines ++ [line]) := by
  intro i found hfound
  rcases Nat.lt_or_ge i lines.length with hlt | hge
  · rw [List.getElem?_append_left hlt] at hfound
    rw [List.take_append_of_le_length (Nat.le_of_lt hlt)]
    exact h i found hfound
  · have hi : i = lines.length := by
      have hbound := (List.getElem?_eq_some_iff.mp hfound).1
      simp only [List.length_append, List.length_singleton] at hbound
      omega
    subst hi
    simp only [List.getElem?_concat_length, Option.some.injEq] at hfound
    rw [List.take_left, ← hfound]
    exact hline

/-- Settings stay under the title. -/
theorem title_apply (draft : Draft) (span : Span) (setting : Setting) :
    (draft.apply span setting).title = draft.title := by
  cases setting <;> rfl

/-- Only the name of the built-in machine is remembered with its place. -/
theorem baseSpan_apply (draft : Draft) (span : Span) (setting : Setting) :
    (draft.apply span setting).baseSpan =
      if setting.place = ("target", "base") then span else draft.baseSpan := by
  cases setting <;> simp [Draft.apply, Setting.place]

namespace Follows

variable {lines : List (List Char)} {last : String × String → Option (List Char)} {draft : Draft}

/-- The place of the base is kept by a line that does not give it. -/
theorem baseSpan_append {line : List Char} (h : Follows lines last draft)
    (hother : ∀ value, titleAfter lines = "target" → ¬Assigns line "base" value) (i : Nat)
    (found value : List Char) (hfound : (lines ++ [line])[i]? = some found)
    (hsets : SetsLast (lines ++ [line]) i ("target", "base") value) :
    draft.baseSpan = lineSpan (Text.byteSize ((lines ++ [line]).take i).flatten) found := by
  rcases sets_append.mp hsets.1 with hold | ⟨-, htitle, hassigns⟩
  · have hlt := hold.lt_length
    rw [List.getElem?_append_left hlt] at hfound
    rw [List.take_append_of_le_length (Nat.le_of_lt hlt)]
    refine h.baseSpan i found value hfound ⟨hold, fun j later hj hlater => ?_⟩
    exact hsets.2 j later hj (sets_append.mpr (Or.inl hlater))
  · exact absurd hassigns (hother value htitle)

/-- A setting that is taken into account. -/
theorem apply {line value : List Char} {key : String} {setting : Setting}
    (h : Follows lines last draft) (hacceptable : Acceptable lines line)
    (hassigns : Assigns line key value) (hplace : setting.place = (titleAfter lines, key))
    (hwritten : setting.WrittenAs value) :
    Follows (lines ++ [line]) (Function.update last (titleAfter lines, key) (some value))
      (draft.apply (lineSpan (Text.byteSize lines.flatten) line) setting) where
  acceptable := h.acceptable.append hacceptable
  title := by rw [title_apply, titleAfter_append, if_neg hassigns.2.1, h.title]
  values := lastValue_update h.values hassigns
  records := hplace ▸ h.records.apply hwritten _
  baseSpan := by
    rw [baseSpan_apply]
    by_cases hbase : setting.place = ("target", "base")
    · intro i found later hfound hsets
      -- the position is the new one, since a position before it would not be the last
      rw [hbase, Prod.mk.injEq] at hplace
      have hnew : Sets (lines ++ [line]) lines.length ("target", "base") value :=
        sets_append.mpr (Or.inr ⟨rfl, hplace.1.symm, hplace.2 ▸ hassigns⟩)
      have hi : i = lines.length := by
        have hbound := hsets.1.lt_length
        have hlast : ¬i < lines.length := fun hlt => hsets.2 _ value hlt hnew
        simp only [List.length_append, List.length_singleton] at hbound
        omega
      subst hi
      simp only [List.getElem?_concat_length, Option.some.injEq] at hfound
      rw [if_pos hbase, List.take_left, hfound]
    · rw [if_neg hbase]
      refine h.baseSpan_append fun later htitle hlater => hbase ?_
      rw [hplace, htitle, (hlater.unique hassigns).1]

/-- A setting that is not known. -/
theorem ignore {line value : List Char} {key : String} (h : Follows lines last draft)
    (hacceptable : Acceptable lines line) (hassigns : Assigns line key value)
    (hunknown : ∀ setting : Setting, setting.place ≠ (titleAfter lines, key))
    (ignored : List (String × String)) :
    Follows (lines ++ [line]) (Function.update last (titleAfter lines, key) (some value))
      { draft with ignored } where
  acceptable := h.acceptable.append hacceptable
  title := by rw [titleAfter_append, if_neg hassigns.2.1, ← h.title]
  values := lastValue_update h.values hassigns
  records := (h.records.frame _ _).congr fun setting =>
    Function.update_of_ne (hunknown setting) _ _
  baseSpan := h.baseSpan_append fun later htitle hlater => hunknown (.base "") (by
    rw [htitle, ← (hlater.unique hassigns).1]
    rfl)

/-- A line that gives no value. -/
theorem skip {line : List Char} (h : Follows lines last draft) (hacceptable : Acceptable lines line)
    (hother : ∀ key value, ¬Assigns line key value) :
    Follows (lines ++ [line]) last { draft with title := titleAfter (lines ++ [line]) } where
  acceptable := h.acceptable.append hacceptable
  title := rfl
  values place := (h.values place).append fun later _ => hother _ later
  records := h.records.frame _ _
  baseSpan := h.baseSpan_append fun later _ => hother _ later

/-- A line that is read extends the lines so far. -/
theorem readLine {line : List Char} {after : Draft} (h : Follows lines last draft)
    (hread : draft.readLine (Text.trim line)
      (lineSpan (Text.byteSize lines.flatten) line) = .ok after) :
    ∃ last', Follows (lines ++ [line]) last' after := by
  have hacceptable := (readLine_isOk h.title).mp ⟨after, hread⟩
  have htitle := titleAfter_append lines line
  rcases readLine_cases hread with
    ⟨hskipped, rfl⟩ | ⟨hheading, rfl⟩ | ⟨key, value, hassigns, hsetting⟩
  · have hskip := h.skip hacceptable fun key value hassigns => hassigns.1 hskipped
    rw [htitle, if_neg fun hheading => hheading.not_skipped hskipped, ← h.title] at hskip
    exact ⟨last, hskip⟩
  · have hskip := h.skip hacceptable fun key value hassigns => hassigns.2.1 hheading
    rw [htitle, if_pos hheading] at hskip
    exact ⟨last, hskip⟩
  · rcases hsetting with ⟨setting, hplace, hwritten, rfl⟩ | ⟨hunknown, rfl⟩
    · rw [h.title] at hplace
      exact ⟨_, h.apply hacceptable hassigns hplace hwritten⟩
    · have hunknown' : ∀ setting : Setting, setting.place ≠ (titleAfter lines, key) :=
        h.title ▸ hunknown
      exact ⟨_, h.ignore hacceptable hassigns hunknown' _⟩

/-- Reading goes through all lines, or it ends at the first that may not stand where it does,
whatever follows that line. -/
theorem readLines (h : Follows lines last draft) (rest : List (List Char)) :
    (∃ last' after, draft.readLines (Text.byteSize lines.flatten) rest = (after, none) ∧
      Follows (lines ++ rest) last' after) ∨
    ∃ fine line more last' after defect, rest = fine ++ line :: more ∧
      Follows (lines ++ fine) last' after ∧ ¬Acceptable (lines ++ fine) line ∧
      after.readLine (Text.trim line)
        (lineSpan (Text.byteSize (lines ++ fine).flatten) line) = .error defect ∧
      ∀ other, draft.readLines (Text.byteSize lines.flatten) (fine ++ line :: other) =
        (after, some (defect, lineSpan (Text.byteSize (lines ++ fine).flatten) line)) := by
  induction rest generalizing lines last draft with
  | nil => exact Or.inl ⟨last, draft, rfl, by rwa [List.append_nil]⟩
  | cons line rest ih =>
    cases hread : draft.readLine (Text.trim line)
      (lineSpan (Text.byteSize lines.flatten) line) with
    | error defect =>
      have hbad : ¬Acceptable lines line := by
        rw [← readLine_isOk h.title, hread]
        simp
      refine Or.inr ⟨[], line, rest, last, draft, defect, rfl, ?_⟩
      rw [List.append_nil]
      exact ⟨h, hbad, hread, fun other => by rw [List.nil_append, Draft.readLines, hread]⟩
    | ok after =>
      obtain ⟨last', hafter⟩ := h.readLine hread
      have hnext : ∀ other, after.readLines (Text.byteSize (lines ++ [line]).flatten) other =
          draft.readLines (Text.byteSize lines.flatten) (line :: other) := by
        intro other
        rw [Draft.readLines, hread, List.flatten_concat, Text.byteSize_append]
      have hlines : ∀ fine, (lines ++ [line]) ++ fine = lines ++ line :: fine := by simp
      have ih := ih hafter
      simp only [hnext, hlines] at ih
      rcases ih with hdone | ⟨fine, bad, more, last'', final, defect, rfl, hstopped⟩
      · exact Or.inl hdone
      · exact Or.inr ⟨line :: fine, bad, more, last'', final, defect, rfl, hstopped⟩

end Follows

/-! ### The machine of a file -/

/-- Changes of single address spaces are changes of the address map. -/
theorem foldl_setSpace (spaces : List (AddressSpace × Nat)) (machine : Machine) :
    spaces.foldl (fun machine entry => machine.setSpace entry.1 entry.2) machine =
      { machine with
        addressMap := spaces.foldl (fun map entry => map.set entry.1 entry.2)
          machine.addressMap } := by
  induction spaces generalizing machine with
  | nil => rfl
  | cons entry rest ih =>
    rw [List.foldl_cons, ih, List.foldl_cons]
    rfl

/-- The names of the built-in machines. -/
theorem builtin?_isSome {name : String} {variant : Variant} :
    (∃ base, Machine.builtin? name variant = some base) ↔ name = "spir" ∨ name = "spir64" := by
  unfold Machine.builtin?
  split
  · simp [*]
  · split <;> simp [*]

/-- The draft describes the machine of its values, derived from the built-in machine that they
name. -/
theorem machine_eq_ok {draft : Draft} {last : String × String → Option (List Char)}
    {machine : Machine} (h : draft.Records last) : draft.machine = .ok machine ↔
      textOf (last ("target", "name")) ≠ "" ∧ textOf (last ("target", "base")) ≠ "" ∧
      ∃ base, Machine.builtin? (textOf (last ("target", "base"))) (variantOf last) = some base ∧
        machine = describe last base := by
  rw [← h.name, ← h.base, ← h.variant]
  unfold Draft.machine
  by_cases hname : draft.name = ""
  · simp [hname]
  by_cases hbase : draft.base = ""
  · simp [hname, hbase]
  cases hbuiltin : Machine.builtin? draft.base draft.variant with
  | none => simp [hname, hbase]
  | some base =>
    simp only [hname, hbase, String.isEmpty_iff, if_false, ne_eq, not_false_eq_true, true_and,
      Option.some.injEq, Except.ok.injEq, exists_eq_left', foldl_setSpace]
    rw [h.defaultIsGeneric, h.dataLayout, h.longWidth, h.maxAtomicInlineWidth, h.name,
      h.foldl_set, eq_comm, describe, modeMap]
    cases last ("address_space", "default_is_generic") with
    | none => rfl
    | some value => rfl

/-- The last value of a place is determined by the lines. -/
theorem LastValue.unique {lines : List (List Char)} {place : String × String}
    {found found' : Option (List Char)} (h : LastValue lines place found)
    (h' : LastValue lines place found') : found = found' := by
  cases found with
  | none =>
    cases found' with
    | none => rfl
    | some value' =>
      obtain ⟨i, hsets, -⟩ := h'
      exact absurd hsets (h i value')
  | some value =>
    obtain ⟨i, hsets, hlast⟩ := h
    cases found' with
    | none => exact absurd hsets (h' i value)
    | some value' =>
      obtain ⟨j, hsets', hlast'⟩ := h'
      rcases Nat.lt_trichotomy i j with hlt | rfl | hgt
      · exact absurd hsets' (hlast j value' hlt)
      · rw [hsets.unique hsets']
      · exact absurd hsets (hlast' i value hgt)

/-- Every place has a last value or none. -/
theorem exists_lastValue (lines : List (List Char)) :
    ∃ last : String × String → Option (List Char), ∀ place, LastValue lines place (last place) := by
  induction lines using List.reverseRecOn with
  | nil => exact ⟨fun _ => none, follows_nil.values⟩
  | append_singleton lines line ih =>
    obtain ⟨last, hlast⟩ := ih
    by_cases hassigns : ∃ key value, Assigns line key value
    · obtain ⟨key, value, hassigns⟩ := hassigns
      exact ⟨_, lastValue_update hlast hassigns⟩
    · refine ⟨last, fun place => (hlast place).append fun later _ hlater => hassigns ?_⟩
      exact ⟨place.2, later, hlater⟩

section Parse

variable {content : String} {draft : Draft}

/-- A file whose lines were all read is judged by its draft. -/
theorem parse_of_read (h : Draft.readLines {} 0 (Text.lines content.toList) = (draft, none))
    (path : String) : (parse path content).result =
      draft.machine.mapError fun stop => stop.1.diagnostic path stop.2 := by
  simp only [parse, h]
  cases draft.machine <;> rfl

/-- A file is rejected for the line at which reading ended. -/
theorem parse_of_stopped {defect : Defect} {span : Span}
    (h : Draft.readLines {} 0 (Text.lines content.toList) = (draft, some (defect, span)))
    (path : String) : (parse path content).result = .error (defect.diagnostic path span) := by
  rw [parse, h]

end Parse

/-- A file describes a machine exactly if each of its lines may stand where it does, and the last
values name the machine and the built-in one that it derives from. That machine is then the built-in
one, in the variant of the last flags, with the last values of name, data layout and widths in place
of its own. Its address spaces have the numbers that were last given to them, and otherwise those of
the map that was last chosen. The text of a value is what stands between the quotation marks around
it, however many there are. -/
theorem parse_describes (path content : String) :
    ∃ last : String × String → Option (List Char),
      (∀ place, LastValue (Text.lines content.toList) place (last place)) ∧
      (∀ place value, last place = some value →
        Text.Unquoted value (textOf (last place)).toList) ∧
      ((∃ machine, (parse path content).result = .ok machine) ↔
        AllAcceptable (Text.lines content.toList) ∧
        textOf (last ("target", "name")) ≠ "" ∧ textOf (last ("target", "base")) ≠ "" ∧
        (textOf (last ("target", "base")) = "spir" ∨
          textOf (last ("target", "base")) = "spir64")) ∧
      ∀ machine, (parse path content).result = .ok machine →
        ∃ base, Machine.builtin? (textOf (last ("target", "base"))) (variantOf last) = some base ∧
          machine = describe last base := by
  obtain ⟨last, hlast⟩ := exists_lastValue (Text.lines content.toList)
  refine ⟨last, hlast, fun place value => unquoted_textOf, ?_⟩
  rcases follows_nil.readLines (Text.lines content.toList) with
    ⟨last', draft, hread, hfollows⟩ |
      ⟨fine, line, more, -, draft, defect, hlines, -, hbad, -, hread⟩
  · -- the values that were recorded are the last ones
    rw [List.nil_append] at hfollows
    obtain rfl : last = last' := funext fun place => (hlast place).unique (hfollows.values place)
    have hparse : ∀ machine, (parse path content).result = .ok machine ↔
        draft.machine = .ok machine := by
      intro machine
      rw [parse_of_read hread]
      cases draft.machine <;> simp [Except.mapError]
    simp only [hparse, machine_eq_ok hfollows.records]
    refine ⟨?_, fun machine h => h.2.2⟩
    constructor
    · intro h
      obtain ⟨machine, hname, hbase, base, hbuiltin, -⟩ := h
      exact ⟨hfollows.acceptable, hname, hbase, builtin?_isSome.mp ⟨base, hbuiltin⟩⟩
    · intro h
      obtain ⟨-, hname, hbase, hknown⟩ := h
      obtain ⟨base, hbuiltin⟩ := builtin?_isSome.mpr hknown
      exact ⟨describe last base, hname, hbase, base, hbuiltin, rfl⟩
  · -- the line at which reading ended may not stand where it does
    rw [parse_of_stopped (hlines ▸ hread more)]
    refine ⟨⟨fun h => ?_, fun h => ?_⟩, fun machine h => ?_⟩
    · simp at h
    · have hline := h.1 fine.length line (by simp [hlines])
      rw [hlines, List.take_left] at hline
      exact absurd hline hbad
    · simp at h

example : ((parse "tiny.target" ("[target]\nname = \"\"tiny\"\nbase = \"spir64\"\n" ++
    "[layout]\nlong_width = 32\n# once more\nlong_width = 16\n")).result.toOption.map
      fun machine => (machine.name, machine.longWidth)) = some ("tiny", 16) := by
  decide +kernel

end Description

end TensorLowering
