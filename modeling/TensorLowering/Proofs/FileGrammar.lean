import TensorLowering.Machine.Description
import TensorLowering.Proofs.Faults
import TensorLowering.Proofs.TextPlaces

/-!
# The grammar of description files

Which lines a file may have is said here without reading it. A line is judged by its own text and by
the last heading before it, so acceptance is a statement about each position of the file. What a
setting asks for is determined by its place, a heading and a key, and by the text of its value.
Reading a line succeeds exactly if the line is acceptable, and it records the setting that the line
makes, under the heading that holds there.
-/

namespace TensorLowering

namespace Description

/-! ### Lines and their headings -/

/-- A line without text, or with a text that starts with a hash. -/
def Skipped (line : List Char) : Prop :=
  Text.trim line = [] ∨ (Text.trim line).head? = some '#'

/-- A line whose text is put in brackets. -/
def IsHeading (line : List Char) : Prop :=
  (Text.trim line).head? = some '[' ∧ (Text.trim line).getLast? = some ']'

instance : DecidablePred Skipped := fun line =>
  inferInstanceAs (Decidable (Text.trim line = [] ∨ (Text.trim line).head? = some '#'))

instance : DecidablePred IsHeading := fun line => inferInstanceAs (Decidable
  ((Text.trim line).head? = some '[' ∧ (Text.trim line).getLast? = some ']'))

/-- What stands inside the brackets of a heading. -/
def titleOf (line : List Char) : String :=
  String.ofList (Text.trim (Text.trim line).tail.dropLast)

/-- The title that holds after some lines: that of the last heading, empty if there is none. -/
def titleAfter (lines : List (List Char)) : String :=
  ((lines.filter fun line => decide (IsHeading line)).getLast?.map titleOf).getD ""

/-- A line that gives a value to a key: the texts before and after its first equals sign. -/
def Assigns (line : List Char) (key : String) (value : List Char) : Prop :=
  ¬Skipped line ∧ ¬IsHeading line ∧ ∃ left right, Text.trim line = left ++ '=' :: right ∧
    '=' ∉ left ∧ key = String.ofList (Text.trim left) ∧ value = Text.trim right

/-! ### Values -/

/-- The two texts of a flag. -/
def flagText : Bool → List Char
  | true => "true".toList
  | false => "false".toList

/-- The decimal digits of a number below 2³², after an optional plus sign. -/
def Numeral (value : List Char) (number : Nat) : Prop :=
  ∃ digits, (value = digits ∨ value = '+' :: digits) ∧ digits ≠ [] ∧
    (∀ c ∈ digits, c.isDigit = true) ∧ Nat.ofDigitChars 10 digits 0 = number ∧
    number < UInt32.size

/-- The keys, under their headings, that take a flag. -/
def flagKeys : List (String × String) :=
  [("options", "sycl_device"), ("options", "xilinx_fpga"), ("options", "windows"),
    ("address_space", "default_is_generic")]

/-- The keys of the layout that take a number. -/
def numberKeys : List (String × String) :=
  [("layout", "long_width"), ("layout", "max_atomic_inline_width")]

/-- The value is one that its key can take. Any other key under the heading of address spaces must
name one, and takes a number; keys that are not mentioned take any value. -/
structure Admits (title key : String) (value : List Char) : Prop where
  flag : (title, key) ∈ flagKeys → ∃ flag, value = flagText flag
  number : (title, key) ∈ numberKeys → ∃ number, Numeral value number
  space : title = "address_space" → key ≠ "default_is_generic" →
    (∃ space : AddressSpace, space.name = key) ∧ ∃ number, Numeral value number

/-- After the given lines, this one may stand. -/
def Acceptable (before : List (List Char)) (line : List Char) : Prop :=
  Skipped line ∨ IsHeading line ∨
    ∃ key value, Assigns line key value ∧ Admits (titleAfter before) key value

/-- Every line of a file may stand where it does. -/
def AllAcceptable (lines : List (List Char)) : Prop :=
  ∀ (i : Nat) (line : List Char), lines[i]? = some line → Acceptable (lines.take i) line

/-! ### The class of a line -/

/-- Headings are not skipped. -/
theorem IsHeading.not_skipped {line : List Char} (h : IsHeading line) : ¬Skipped line := by
  intro hskipped
  rcases hskipped with hempty | hhash
  · simp [IsHeading, hempty] at h
  · simp [IsHeading, hhash] at h

section Classes

variable {line : List Char}

/-- Lines that are skipped. -/
theorem ofTrimmed_of_skipped (h : Skipped line) : Line.ofTrimmed (Text.trim line) = .skipped := by
  have hcase : ((Text.trim line).isEmpty || (Text.trim line).head? == some '#') = true := by
    rcases h with hempty | hhash
    · simp [hempty]
    · simp [hhash]
  simp [Line.ofTrimmed, hcase]

/-- What is read from a line that is not skipped. -/
theorem ofTrimmed_of_not_skipped (h : ¬Skipped line) : Line.ofTrimmed (Text.trim line) =
    if IsHeading line then .heading (Text.trim (Text.trim line).tail.dropLast)
    else match Text.splitFirst? '=' (Text.trim line) with
      | none => .malformed
      | some (key, value) => .setting (Text.trim key) (Text.trim value) := by
  obtain ⟨hempty, hhash⟩ := not_or.mp h
  by_cases hheading : IsHeading line
  · simp [Line.ofTrimmed, hempty, hheading, hheading.1, hheading.2]
  · have hbrackets : ¬((Text.trim line).head? = some '[' ∧ (Text.trim line).getLast? = some ']') :=
      hheading
    cases hsplit : Text.splitFirst? '=' (Text.trim line) with
    | none => simp [Line.ofTrimmed, hempty, hhash, hheading, hbrackets, hsplit]
    | some pair => simp [Line.ofTrimmed, hempty, hhash, hheading, hbrackets, hsplit]

/-- Headings are read with their titles. -/
theorem ofTrimmed_of_heading (h : IsHeading line) :
    Line.ofTrimmed (Text.trim line) = .heading (Text.trim (Text.trim line).tail.dropLast) := by
  rw [ofTrimmed_of_not_skipped h.not_skipped, if_pos h]

/-- Settings are read with the texts around the first equals sign. -/
theorem ofTrimmed_of_assigns {key : String} {value : List Char} (h : Assigns line key value) :
    ∃ text, Line.ofTrimmed (Text.trim line) = .setting text value ∧ key = String.ofList text := by
  obtain ⟨hskipped, hheading, left, right, hline, hleft, rfl, rfl⟩ := h
  refine ⟨Text.trim left, ?_, rfl⟩
  rw [ofTrimmed_of_not_skipped hskipped, if_neg hheading,
    Text.splitFirst?_eq_some.mpr ⟨hline, hleft⟩]

/-- A line is skipped, a heading or a setting, or it is malformed for want of an equals sign. -/
theorem line_cases (line : List Char) : Skipped line ∨ IsHeading line ∨
    (∃ key value, Assigns line key value) ∨
    (¬Skipped line ∧ ¬IsHeading line ∧ '=' ∉ Text.trim line ∧
      Line.ofTrimmed (Text.trim line) = .malformed) := by
  by_cases hskipped : Skipped line
  · exact Or.inl hskipped
  by_cases hheading : IsHeading line
  · exact Or.inr (Or.inl hheading)
  cases hsplit : Text.splitFirst? '=' (Text.trim line) with
  | some parts =>
    obtain ⟨hline, hleft⟩ := Text.splitFirst?_eq_some.mp hsplit
    exact Or.inr (Or.inr (Or.inl
      ⟨_, _, hskipped, hheading, parts.1, parts.2, hline, hleft, rfl, rfl⟩))
  | none =>
    refine Or.inr (Or.inr (Or.inr
      ⟨hskipped, hheading, Text.splitFirst?_eq_none.mp hsplit, ?_⟩))
    rw [ofTrimmed_of_not_skipped hskipped, if_neg hheading, hsplit]

/-- A line gives a value to one key only. -/
theorem Assigns.unique {key key' : String} {value value' : List Char} (h : Assigns line key value)
    (h' : Assigns line key' value') : key = key' ∧ value = value' := by
  obtain ⟨text, hread, rfl⟩ := ofTrimmed_of_assigns h
  obtain ⟨text', hread', rfl⟩ := ofTrimmed_of_assigns h'
  rw [hread, Line.setting.injEq] at hread'
  exact ⟨congrArg String.ofList hread'.1, hread'.2⟩

end Classes

/-- The title that holds after one more line. -/
theorem titleAfter_append (lines : List (List Char)) (line : List Char) :
    titleAfter (lines ++ [line]) = if IsHeading line then titleOf line else titleAfter lines := by
  by_cases hheading : IsHeading line
  · simp [titleAfter, List.filter_append, hheading]
  · simp [titleAfter, List.filter_append, hheading]

/-! ### Settings and their places -/

/-- The heading and the key of a setting. -/
def Setting.place : Setting → String × String
  | .name _ => ("target", "name")
  | .base _ => ("target", "base")
  | .syclDevice _ => ("options", "sycl_device")
  | .xilinxFpga _ => ("options", "xilinx_fpga")
  | .windows _ => ("options", "windows")
  | .dataLayout _ => ("layout", "data_layout")
  | .longWidth _ => ("layout", "long_width")
  | .maxAtomicInlineWidth _ => ("layout", "max_atomic_inline_width")
  | .defaultIsGeneric _ => ("address_space", "default_is_generic")
  | .space which _ => ("address_space", which.name)

/-- The text of a value stands for what the setting asks for. -/
def Setting.WrittenAs : Setting → List Char → Prop
  | .name text, value | .base text, value | .dataLayout text, value => text = textValue value
  | .syclDevice flag, value | .xilinxFpga flag, value | .windows flag, value
  | .defaultIsGeneric flag, value => value = flagText flag
  | .longWidth number, value | .maxAtomicInlineWidth number, value | .space _ number, value =>
    Numeral value number

/-- A plus sign is dropped, or there is none. -/
theorem afterPlus_cases (text : List Char) :
    text = Text.afterPlus text ∨ text = '+' :: Text.afterPlus text := by
  unfold Text.afterPlus
  split
  · exact Or.inr rfl
  · exact Or.inl rfl

/-- Digits have no plus sign in front. -/
theorem afterPlus_of_digits {text : List Char} (h : ∀ c ∈ text, c.isDigit = true) :
    Text.afterPlus text = text := by
  unfold Text.afterPlus
  split
  · have hplus := h '+' List.mem_cons_self
    contradiction
  · rfl

/-- The digits of a numeral follow its plus sign, and they denote its number. -/
theorem Numeral.eq {value : List Char} {number : Nat} (h : Numeral value number) :
    number = Nat.ofDigitChars 10 (Text.afterPlus value) 0 := by
  obtain ⟨digits, rfl | rfl, -, hdigits, rfl, -⟩ := h
  · rw [afterPlus_of_digits hdigits]
  · rfl

/-- Numbers are read from their numerals. -/
theorem word32?_eq_some {value : List Char} {number : Nat} :
    Text.word32? value = some number ↔ Numeral value number := by
  constructor
  · intro h
    simp only [Text.word32?] at h
    split at h
    · contradiction
    · rename_i hdigits
      simp only [Bool.or_eq_true, List.isEmpty_iff, Bool.not_eq_true', not_or, Bool.not_eq_false,
        List.all_eq_true] at hdigits
      split at h
      · rename_i hlt
        obtain rfl := Option.some.inj h
        exact ⟨_, afterPlus_cases value, hdigits.1, hdigits.2, rfl, hlt⟩
      · contradiction
  · intro h
    have hnumber := h.eq
    obtain ⟨digits, hvalue, hne, hdigits, -, hlt⟩ := h
    have hafter : Text.afterPlus value = digits := by
      rcases hvalue with rfl | rfl
      · exact afterPlus_of_digits hdigits
      · rfl
    have hall : (digits.isEmpty || !digits.all Char.isDigit) = false := by simpa [hne] using hdigits
    rw [hafter] at hnumber
    subst hnumber
    simp only [Text.word32?, hafter, hall]
    exact if_pos hlt

/-- A number is read from its numeral. -/
theorem numberValue_eq_ok {what : String} {value : List Char} {number : Nat} :
    numberValue what value = .ok number ↔ Numeral value number := by
  rw [← word32?_eq_some, numberValue]
  cases Text.word32? value <;> simp

/-- A flag is read from its text. -/
theorem flagValue_eq_ok {what : String} {value : List Char} {flag : Bool} :
    flagValue what value = .ok flag ↔ value = flagText flag := by
  constructor
  · intro h
    unfold flagValue at h
    split at h
    · obtain rfl := Except.ok.inj h
      assumption
    · split at h
      · obtain rfl := Except.ok.inj h
        assumption
      · contradiction
  · intro h
    subst h
    cases flag <;> rfl

/-- Address spaces are found by their names. -/
theorem ofName?_eq_some {key : String} {space : AddressSpace} :
    AddressSpace.ofName? key = some space ↔ space.name = key := by
  constructor
  · intro h
    simpa using List.find?_some h
  · intro h
    subst h
    cases space <;> decide

/-- The number of an address space is read from a numeral. -/
theorem spaceValue_eq_ok {key : String} {value : List Char} {setting : Setting} :
    spaceValue key value = .ok setting ↔
      ∃ space number, setting = .space space number ∧ space.name = key ∧ Numeral value number := by
  unfold spaceValue
  cases hname : AddressSpace.ofName? key with
  | none =>
    simp only [reduceCtorEq, false_iff, not_exists]
    intro space number h
    simp [ofName?_eq_some.mpr h.2.1] at hname
  | some space =>
    simp only [bind_eq_ok, numberValue_eq_ok, pure_eq_ok]
    constructor
    · intro h
      obtain ⟨number, hnumber, rfl⟩ := h
      exact ⟨space, number, rfl, ofName?_eq_some.mp hname, hnumber⟩
    · intro h
      obtain ⟨other, number, rfl, hother, hnumber⟩ := h
      obtain rfl := Option.some.inj (hname.symm.trans (ofName?_eq_some.mpr hother))
      exact ⟨number, hnumber, rfl⟩

/-- No address space has the name of the key that chooses the whole map. -/
theorem name_ne_defaultIsGeneric (space : AddressSpace) : space.name ≠ "default_is_generic" := by
  cases space <;> decide

/-- What comes of a setting: it is recorded as its value is written, or its key is not known. -/
theorem Setting.read_cases {title key : String} {value : List Char} {found : Option Setting}
    (h : Setting.read title key value = .ok found) :
    (∃ setting, found = some setting ∧ setting.place = (title, key) ∧ setting.WrittenAs value) ∨
      (found = none ∧ title ≠ "address_space" ∧
        ∀ setting : Setting, setting.place ≠ (title, key)) := by
  unfold Setting.read at h
  split at h
  -- texts
  case h_1 | h_2 | h_6 =>
    obtain rfl := Except.ok.inj h
    exact Or.inl ⟨_, rfl, rfl, rfl⟩
  -- flags and numbers
  case h_3 | h_4 | h_5 | h_7 | h_8 | h_9 =>
    simp only [bind_eq_ok, pure_eq_ok, flagValue_eq_ok, numberValue_eq_ok] at h
    obtain ⟨read, hread, rfl⟩ := h
    exact Or.inl ⟨_, rfl, rfl, hread⟩
  case h_10 =>
    simp only [bind_eq_ok, pure_eq_ok, spaceValue_eq_ok] at h
    obtain ⟨_, ⟨space, number, rfl, rfl, hnumber⟩, rfl⟩ := h
    exact Or.inl ⟨_, rfl, rfl, hnumber⟩
  -- anything else
  case h_11 =>
    refine Or.inr ⟨(Except.ok.inj h).symm, by assumption, fun setting hplace => ?_⟩
    obtain ⟨rfl, rfl⟩ := Prod.mk.inj hplace
    cases setting <;> simp at *

/-- The text of a setting is one that its key can take. -/
theorem Setting.WrittenAs.admits {setting : Setting} {value : List Char}
    (h : setting.WrittenAs value) : Admits setting.place.1 setting.place.2 value := by
  cases setting with
  | name _ | base _ | dataLayout _ =>
    constructor <;> simp [place, flagKeys, numberKeys]
  | syclDevice flag | xilinxFpga flag | windows flag | defaultIsGeneric flag =>
    exact ⟨fun _ => ⟨flag, h⟩, by simp [place, numberKeys], by simp [place]⟩
  | longWidth number | maxAtomicInlineWidth number =>
    exact ⟨by simp [place, flagKeys], fun _ => ⟨number, h⟩, by simp [place]⟩
  | space space number =>
    refine ⟨?_, by simp [place, numberKeys], fun _ _ => ⟨⟨space, rfl⟩, number, h⟩⟩
    simp [place, flagKeys, name_ne_defaultIsGeneric]

/-- Every key that takes a flag or a number is known. -/
theorem exists_place_eq {place : String × String} (h : place ∈ flagKeys ++ numberKeys) :
    ∃ setting : Setting, setting.place = place := by
  simp only [flagKeys, numberKeys, List.cons_append, List.nil_append, List.mem_cons,
    List.not_mem_nil, or_false] at h
  rcases h with rfl | rfl | rfl | rfl | rfl | rfl
  · exact ⟨.syclDevice true, rfl⟩
  · exact ⟨.xilinxFpga true, rfl⟩
  · exact ⟨.windows true, rfl⟩
  · exact ⟨.defaultIsGeneric true, rfl⟩
  · exact ⟨.longWidth 0, rfl⟩
  · exact ⟨.maxAtomicInlineWidth 0, rfl⟩

/-- A setting is read exactly if its key can take its value. -/
theorem Setting.read_isOk {title key : String} {value : List Char} :
    (∃ found, Setting.read title key value = .ok found) ↔ Admits title key value := by
  constructor
  · intro h
    obtain ⟨found, hfound⟩ := h
    rcases Setting.read_cases hfound with ⟨setting, -, hplace, hwritten⟩ | ⟨-, htitle, hunknown⟩
    · have hadmits := hwritten.admits
      rw [hplace] at hadmits
      exact hadmits
    · refine ⟨fun hflag => ?_, fun hnumber => ?_, fun hspace => absurd hspace htitle⟩
      · obtain ⟨setting, hplace⟩ := exists_place_eq (List.mem_append_left _ hflag)
        exact absurd hplace (hunknown setting)
      · obtain ⟨setting, hplace⟩ := exists_place_eq (List.mem_append_right _ hnumber)
        exact absurd hplace (hunknown setting)
  · intro h
    unfold Setting.read
    split
    case h_1 | h_2 | h_6 | h_11 => exact ⟨_, rfl⟩
    case h_3 | h_4 | h_5 | h_9 =>
      obtain ⟨flag, hflag⟩ := h.flag (by simp [flagKeys])
      exact ⟨_, bind_eq_ok.mpr ⟨flag, flagValue_eq_ok.mpr hflag, rfl⟩⟩
    case h_7 | h_8 =>
      obtain ⟨number, hnumber⟩ := h.number (by simp [numberKeys])
      exact ⟨_, bind_eq_ok.mpr ⟨number, numberValue_eq_ok.mpr hnumber, rfl⟩⟩
    case h_10 hkey =>
      obtain ⟨⟨space, hspace⟩, number, hnumber⟩ := h.space rfl hkey
      exact ⟨_, bind_eq_ok.mpr ⟨.space space number,
        spaceValue_eq_ok.mpr ⟨space, number, rfl, hspace, hnumber⟩, rfl⟩⟩

/-! ### Reading a line -/

section ReadLine

variable {draft after : Draft} {line : List Char} {span : Span}

/-- What a setting leads to is what reading its value leads to. -/
theorem readLine_of_assigns {key : String} {value : List Char} (h : Assigns line key value) :
    draft.readLine (Text.trim line) span = (do
      match ← Setting.read draft.title key value with
      | some setting => return draft.apply span setting
      | none => return { draft with ignored := draft.ignored ++ [(draft.title, key)] }) := by
  obtain ⟨text, hread, rfl⟩ := ofTrimmed_of_assigns h
  cases hfound : Setting.read draft.title (String.ofList text) value with
  | error defect => simp [Draft.readLine, hread, hfound, bind, Except.bind]
  | ok found => cases found <;> simp [Draft.readLine, hread, hfound, bind, Except.bind]

/-- What reading a line does: nothing, a change of the title, or a setting that is taken into
account or put on the list of those that are not known. -/
theorem readLine_cases (h : draft.readLine (Text.trim line) span = .ok after) :
    (Skipped line ∧ after = draft) ∨
    (IsHeading line ∧ after = { draft with title := titleOf line }) ∨
    ∃ key value, Assigns line key value ∧
      ((∃ setting : Setting, setting.place = (draft.title, key) ∧ setting.WrittenAs value ∧
          after = draft.apply span setting) ∨
        ((∀ setting : Setting, setting.place ≠ (draft.title, key)) ∧
          after = { draft with ignored := draft.ignored ++ [(draft.title, key)] })) := by
  rcases line_cases line with hskipped | hheading | ⟨key, value, hassigns⟩ | ⟨-, -, -, hmalformed⟩
  · rw [Draft.readLine, ofTrimmed_of_skipped hskipped] at h
    exact Or.inl ⟨hskipped, (Except.ok.inj h).symm⟩
  · rw [Draft.readLine, ofTrimmed_of_heading hheading] at h
    exact Or.inr (Or.inl ⟨hheading, (Except.ok.inj h).symm⟩)
  · rw [readLine_of_assigns hassigns, bind_eq_ok] at h
    obtain ⟨found, hread, hafter⟩ := h
    refine Or.inr (Or.inr ⟨key, value, hassigns, ?_⟩)
    rcases Setting.read_cases hread with ⟨setting, rfl, hplace, hwritten⟩ | ⟨rfl, -, hunknown⟩
    · exact Or.inl ⟨setting, hplace, hwritten, (Except.ok.inj hafter).symm⟩
    · exact Or.inr ⟨hunknown, (Except.ok.inj hafter).symm⟩
  · rw [Draft.readLine, hmalformed] at h
    contradiction

/-- A line is read exactly if it may stand after the lines that gave the title. -/
theorem readLine_isOk {before : List (List Char)} (htitle : draft.title = titleAfter before) :
    (∃ after, draft.readLine (Text.trim line) span = .ok after) ↔ Acceptable before line := by
  constructor
  · intro h
    obtain ⟨after, hread⟩ := h
    rcases readLine_cases hread with ⟨hskipped, -⟩ | ⟨hheading, -⟩ | ⟨key, value, hassigns, -⟩
    · exact Or.inl hskipped
    · exact Or.inr (Or.inl hheading)
    · rw [readLine_of_assigns hassigns, bind_eq_ok] at hread
      obtain ⟨found, hfound, -⟩ := hread
      rw [htitle] at hfound
      exact Or.inr (Or.inr ⟨key, value, hassigns, Setting.read_isOk.mp ⟨found, hfound⟩⟩)
  · intro h
    rcases h with hskipped | hheading | ⟨key, value, hassigns, hadmits⟩
    · exact ⟨draft, by rw [Draft.readLine, ofTrimmed_of_skipped hskipped]⟩
    · exact ⟨_, by rw [Draft.readLine, ofTrimmed_of_heading hheading]⟩
    · obtain ⟨found, hfound⟩ := Setting.read_isOk.mpr hadmits
      rw [readLine_of_assigns hassigns, htitle, hfound]
      cases found with
      | none => exact ⟨_, rfl⟩
      | some setting => exact ⟨_, rfl⟩

end ReadLine

end Description

end TensorLowering
