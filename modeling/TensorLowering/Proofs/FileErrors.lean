import TensorLowering.Proofs.FileMeaning

/-!
# Where description files are rejected

A rejected file has a line that may not stand where it does, or its last values do not describe a
machine. In the first case the report is about the first such line, says what is wrong with it and
marks its trimmed text, and nothing that follows a complete line changes the report. In the second
case it marks the line that named an unknown built-in machine, or there is no line to mark. Offsets
are words of 32 bits and do not overflow in a content that has fewer bytes.
-/

namespace TensorLowering

namespace Description

/-! ### Marked texts -/

/-- The span is the byte range of a part of a text that starts at the given offset. -/
def Marks (span : Span) (offset : Nat) (text part : List Char) : Prop :=
  ∃ before after, text = before ++ part ++ after ∧
    span.start = offset + Text.byteSize before ∧
    span.stop = offset + Text.byteSize before + Text.byteSize part

/-- What is marked in a part is marked in the whole. -/
theorem Marks.of_part {span : Span} {offset : Nat} {before text part : List Char}
    (h : Marks span (offset + Text.byteSize before) text part) (after : List Char) :
    Marks span offset (before ++ text ++ after) part := by
  obtain ⟨left, right, rfl, hstart, hstop⟩ := h
  refine ⟨before ++ left, right ++ after, by simp, ?_, ?_⟩
  · rw [hstart, Text.byteSize_append, Nat.add_assoc]
  · rw [hstop, Text.byteSize_append, Nat.add_assoc offset]

/-- The span of a line marks its trimmed text. -/
theorem marks_lineSpan {offset : Nat} {line : List Char}
    (h : offset + Text.byteSize line < UInt32.size) :
    Marks (lineSpan offset line) offset line (Text.trim line) := by
  obtain ⟨after, hline, -⟩ := Text.exists_strip Text.isBlank line
  have hsize := congrArg Text.byteSize hline
  rw [Text.byteSize_append, Text.byteSize_append] at hsize
  refine ⟨line.takeWhile Text.isBlank, after, hline, ?_, ?_⟩
  · apply Nat.mod_eq_of_lt
    omega
  · apply Nat.mod_eq_of_lt
    rw [Text.trim]
    omega

/-- A marked text that is not empty lies somewhere. -/
theorem Marks.not_isNowhere {span : Span} {offset : Nat} {text part : List Char}
    (h : Marks span offset text part) (hpart : part ≠ []) : span.isNowhere = false := by
  obtain ⟨before, after, -, -, hstop⟩ := h
  have hpos := Text.byteSize_pos hpart
  have hne : span.stop ≠ 0 := by omega
  simp [Span.isNowhere, hne]

/-- The span is the byte range, in a content and inside the line at a position of it, of the trimmed
text of that line. -/
structure MarksLine (span : Span) (content : List Char) (i : Nat) (line : List Char) : Prop where
  getElem? : (Text.lines content)[i]? = some line
  within : Marks span (Text.byteSize ((Text.lines content).take i).flatten) line (Text.trim line)
  slice : Marks span 0 content (Text.trim line)

/-- The span of a line of a content marks it. -/
theorem marksLine_lineSpan {content line : List Char} {i : Nat}
    (hline : (Text.lines content)[i]? = some line) (hsize : Text.byteSize content < UInt32.size) :
    MarksLine (lineSpan (Text.byteSize ((Text.lines content).take i).flatten) line) content i
      line := by
  have hcontent := Text.eq_append_line hline
  have hfits := congrArg Text.byteSize hcontent
  rw [Text.byteSize_append, Text.byteSize_append] at hfits
  have hwithin : Marks (lineSpan (Text.byteSize ((Text.lines content).take i).flatten) line)
      (Text.byteSize ((Text.lines content).take i).flatten) line (Text.trim line) := by
    apply marks_lineSpan
    omega
  refine ⟨hline, hwithin, ?_⟩
  rw [← Nat.zero_add (Text.byteSize ((Text.lines content).take i).flatten)] at hwithin
  have hwhole := hwithin.of_part ((Text.lines content).drop (i + 1)).flatten
  rwa [← hcontent, Nat.zero_add] at hwhole

/-! ### Defects of lines -/

/-- What is wrong with a line under a title. -/
def Defect.Blames (title : String) (line : List Char) : Defect → Prop
  | malformed text => '=' ∉ Text.trim line ∧ text = String.ofList (Text.trim line)
  | badNumber what text => ∃ key value, Assigns line key value ∧
    ((title, key) ∈ numberKeys ∨
      title = "address_space" ∧ ∃ space : AddressSpace, space.name = key) ∧
    (∀ number, ¬Numeral value number) ∧ what = title ++ "." ++ key ∧ text = String.ofList value
  | badFlag what text => ∃ key value, Assigns line key value ∧ (title, key) ∈ flagKeys ∧
    (∀ flag, value ≠ flagText flag) ∧ what = title ++ "." ++ key ∧ text = String.ofList value
  | unknownSpace name => title = "address_space" ∧ (∃ value, Assigns line name value) ∧
    ∀ space : AddressSpace, space.name ≠ name
  | missingName | missingBase | unknownBase _ => False

/-- What follows a computation and cannot fail does not change its failures. -/
theorem bind_pure_eq_error {α β : Type} {found : Except Defect α} {next : α → β}
    {defect : Defect} : (do let a ← found; pure (next a)) = Except.error defect ↔
      found = .error defect := by
  cases found with
  | error other => simp [bind, Except.bind]
  | ok a => simp [bind, Except.bind, pure, Except.pure]

/-- A value that is no numeral is reported with its key. -/
theorem numberValue_eq_error {what : String} {value : List Char} {defect : Defect}
    (h : numberValue what value = .error defect) :
    (∀ number, ¬Numeral value number) ∧ defect = .badNumber what (String.ofList value) := by
  refine ⟨fun number hnumber => ?_, ?_⟩
  · rw [numberValue_eq_ok.mpr hnumber] at h
    contradiction
  · unfold numberValue at h
    split at h
    · contradiction
    · exact (Except.error.inj h).symm

/-- A value that is no flag is reported with its key. -/
theorem flagValue_eq_error {what : String} {value : List Char} {defect : Defect}
    (h : flagValue what value = .error defect) :
    (∀ flag, value ≠ flagText flag) ∧ defect = .badFlag what (String.ofList value) := by
  refine ⟨fun flag hflag => ?_, ?_⟩
  · rw [flagValue_eq_ok.mpr hflag] at h
    contradiction
  · unfold flagValue at h
    split at h
    · contradiction
    · split at h
      · contradiction
      · exact (Except.error.inj h).symm

/-- A setting that is not read is at fault as reported. -/
theorem Setting.read_blames {title key : String} {line value : List Char} {defect : Defect}
    (hassigns : Assigns line key value) (h : Setting.read title key value = .error defect) :
    defect.Blames title line := by
  unfold Setting.read at h
  split at h
  case h_1 | h_2 | h_6 | h_11 => contradiction
  case h_3 | h_4 | h_5 | h_9 =>
    rw [bind_pure_eq_error] at h
    obtain ⟨hflag, rfl⟩ := flagValue_eq_error h
    exact ⟨_, value, hassigns, by simp [flagKeys], hflag, rfl, rfl⟩
  case h_7 | h_8 =>
    rw [bind_pure_eq_error] at h
    obtain ⟨hnumber, rfl⟩ := numberValue_eq_error h
    exact ⟨_, value, hassigns, Or.inl (by simp [numberKeys]), hnumber, rfl, rfl⟩
  case h_10 =>
    rw [bind_pure_eq_error] at h
    unfold spaceValue at h
    cases hname : AddressSpace.ofName? key with
    | none =>
      rw [hname] at h
      obtain rfl := Except.error.inj h
      refine ⟨rfl, ⟨value, hassigns⟩, fun space hspace => ?_⟩
      rw [ofName?_eq_some.mpr hspace] at hname
      contradiction
    | some space =>
      simp only [hname, bind_pure_eq_error] at h
      obtain ⟨hnumber, rfl⟩ := numberValue_eq_error h
      have hspace := ofName?_eq_some.mp hname
      exact ⟨key, value, hassigns, Or.inr ⟨rfl, space, hspace⟩, hnumber, by rw [hspace]; rfl, rfl⟩

/-- A line that is not read is at fault as reported. -/
theorem readLine_blames {draft : Draft} {line : List Char} {span : Span} {defect : Defect}
    (h : draft.readLine (Text.trim line) span = .error defect) :
    defect.Blames draft.title line := by
  rcases line_cases line with
    hskipped | hheading | ⟨key, value, hassigns⟩ | ⟨-, -, hmark, hmalformed⟩
  · rw [Draft.readLine, ofTrimmed_of_skipped hskipped] at h
    contradiction
  · rw [Draft.readLine, ofTrimmed_of_heading hheading] at h
    contradiction
  · rw [readLine_of_assigns hassigns] at h
    cases hread : Setting.read draft.title key value with
    | error other =>
      rw [hread] at h
      obtain rfl := Except.error.inj h
      exact Setting.read_blames hassigns hread
    | ok found =>
      rw [hread] at h
      cases found <;> contradiction
  · rw [Draft.readLine, hmalformed] at h
    obtain rfl := Except.error.inj h
    exact ⟨hmark, rfl⟩

/-! ### Rejected files -/

/-- Why a draft does not describe a machine. -/
theorem machine_eq_error {draft : Draft} {defect : Defect} {span : Span}
    (h : draft.machine = .error (defect, span)) :
    ((defect = .missingName ∨ defect = .missingBase) ∧ span = .nowhere) ∨
      (defect = .unknownBase draft.base ∧ draft.base ≠ "" ∧ span = draft.baseSpan) := by
  unfold Draft.machine at h
  split at h
  · obtain ⟨rfl, rfl⟩ := Prod.mk.inj (Except.error.inj h)
    exact Or.inl ⟨Or.inl rfl, rfl⟩
  · split at h
    · obtain ⟨rfl, rfl⟩ := Prod.mk.inj (Except.error.inj h)
      exact Or.inl ⟨Or.inr rfl, rfl⟩
    · rename_i hbase
      split at h
      · obtain ⟨rfl, rfl⟩ := Prod.mk.inj (Except.error.inj h)
        exact Or.inr ⟨rfl, by simpa using hbase, rfl⟩
      · contradiction

/-- The lines of a content that was cut after a complete line and continued otherwise. -/
theorem lines_continued {content : String} {line : List Char} {before after : List (List Char)}
    (h : Text.lines content.toList = before ++ line :: after) (hend : line.getLast? = some '\n')
    (more : String) :
    Text.lines (String.ofList ((Text.lines content.toList).take (before.length + 1)).flatten ++
      more).toList = before ++ line :: Text.lines more.toList := by
  have htake : (Text.lines content.toList).take (before.length + 1) = before ++ [line] := by
    rw [h, List.take_length_add_append, List.take_succ_cons, List.take_zero]
  rw [htake, String.toList_append, String.toList_ofList, List.flatten_concat]
  exact Text.lines_of_complete h hend more.toList

/-- Lines that may all stand where they do, and last values that describe no machine. -/
theorem error_of_machine {path content : String} {draft : Draft} {diagnostic : Diagnostic}
    {last : String × String → Option (List Char)}
    (hsize : Text.byteSize content.toList < UInt32.size)
    (hfollows : Follows (Text.lines content.toList) last draft)
    (h : draft.machine.mapError (fun stop => stop.1.diagnostic path stop.2) = .error diagnostic) :
    diagnostic = Defect.missingName.diagnostic path .nowhere ∨
    diagnostic = Defect.missingBase.diagnostic path .nowhere ∨
    ∃ i line value, SetsLast (Text.lines content.toList) i ("target", "base") value ∧
      diagnostic = (Defect.unknownBase (textValue value)).diagnostic path diagnostic.span ∧
      MarksLine diagnostic.span content.toList i line := by
  cases hmachine : draft.machine with
  | ok machine =>
    rw [hmachine] at h
    contradiction
  | error stop =>
    obtain ⟨defect, span⟩ := stop
    rw [hmachine] at h
    obtain rfl := Except.error.inj h
    rcases machine_eq_error hmachine with ⟨rfl | rfl, rfl⟩ | ⟨rfl, hbase, rfl⟩
    · exact Or.inl rfl
    · exact Or.inr (Or.inl rfl)
    · -- the name of the base is not empty, so it was given somewhere
      refine Or.inr (Or.inr ?_)
      have hlast := hfollows.values ("target", "base")
      rw [hfollows.records.base] at hbase ⊢
      cases hvalue : last ("target", "base") with
      | none => simp [hvalue, textOf] at hbase
      | some value =>
        rw [hvalue] at hlast
        obtain ⟨i, hsets⟩ := hlast
        obtain ⟨line, hline, -⟩ := hsets.1
        refine ⟨i, line, value, hsets, rfl, ?_⟩
        have hspan := hfollows.baseSpan i line value hline hsets
        exact hspan ▸ marksLine_lineSpan hline hsize

/-- A rejected content has lines that may all stand where they do, and its last values lack a name
or name no built-in machine; or its first line that may not stand where it does is at fault. In
turn, the report has no place, it marks the trimmed text of the last line that names the built-in
machine, or it marks that of the line at fault. If this line is complete, nothing that follows it
changes the report. -/
theorem parse_error_marks_line (path content : String) (diagnostic : Diagnostic)
    (hsize : Text.byteSize content.toList < UInt32.size)
    (h : (parse path content).result = .error diagnostic) :
    (AllAcceptable (Text.lines content.toList) ∧
      (diagnostic = Defect.missingName.diagnostic path .nowhere ∨
        diagnostic = Defect.missingBase.diagnostic path .nowhere ∨
        ∃ i line value, SetsLast (Text.lines content.toList) i ("target", "base") value ∧
          diagnostic = (Defect.unknownBase (textValue value)).diagnostic path diagnostic.span ∧
          MarksLine diagnostic.span content.toList i line)) ∨
    ∃ (i : Nat) (line : List Char) (defect : Defect),
      AllAcceptable ((Text.lines content.toList).take i) ∧
      ¬Acceptable ((Text.lines content.toList).take i) line ∧
      defect.Blames (titleAfter ((Text.lines content.toList).take i)) line ∧
      diagnostic = defect.diagnostic path diagnostic.span ∧
      MarksLine diagnostic.span content.toList i line ∧ diagnostic.span.isNowhere = false ∧
      (line.getLast? = some '\n' → ∀ more : String,
        (parse path (String.ofList ((Text.lines content.toList).take (i + 1)).flatten ++
          more)).result = .error diagnostic) := by
  rcases follows_nil.readLines (Text.lines content.toList) with
    ⟨last, draft, hread, hfollows⟩ |
      ⟨fine, line, more, last, draft, defect, hlines, hfollows, hbad, hline, hread⟩
  · rw [List.nil_append] at hfollows
    rw [parse_of_read hread] at h
    exact Or.inl ⟨hfollows.acceptable, error_of_machine hsize hfollows h⟩
  · rw [parse_of_stopped (hlines ▸ hread more)] at h
    obtain rfl := Except.error.inj h
    rw [List.nil_append] at *
    have hget : (Text.lines content.toList)[fine.length]? = some line := by simp [hlines]
    have htake : (Text.lines content.toList).take fine.length = fine := by simp [hlines]
    have hmarks := marksLine_lineSpan hget hsize
    refine Or.inr ⟨fine.length, line, defect, ?_⟩
    rw [htake] at hmarks ⊢
    have hblames := readLine_blames hline
    rw [hfollows.title] at hblames
    have htext : Text.trim line ≠ [] := fun hempty => hbad (Or.inl (Or.inl hempty))
    refine ⟨hfollows.acceptable, hbad, hblames, rfl, hmarks, hmarks.slice.not_isNowhere htext, ?_⟩
    intro hend other
    have hstopped := hread (Text.lines other.toList)
    rw [← lines_continued hlines hend other] at hstopped
    exact parse_of_stopped hstopped path

/-- A file with an indented line whose value is no number, after characters of two bytes. -/
def wideFile : String := "# ünïcode\n[layout]\r\n\t long_width = wide \n[target]\n"

/-- The report on that file. -/
def wideReport : Diagnostic :=
  (Defect.badNumber "layout.long_width" "wide").diagnostic "wide.toml" ⟨0, 24, 41⟩

/-- The report on the indented line marks its text, without the blanks around it. -/
theorem parse_error_marks_line_wide :
    Text.byteSize wideFile.toList < UInt32.size ∧
      (parse "wide.toml" wideFile).result = .error wideReport ∧
      ∃ (i : Nat) (line : List Char), ¬Acceptable ((Text.lines wideFile.toList).take i) line ∧
        MarksLine wideReport.span wideFile.toList i line ∧
        (line.getLast? = some '\n' → ∀ more : String,
          (parse "wide.toml" (String.ofList ((Text.lines wideFile.toList).take (i + 1)).flatten ++
            more)).result = .error wideReport) := by
  have hsize : Text.byteSize wideFile.toList < UInt32.size := by decide
  have hparse : (parse "wide.toml" wideFile).result = .error wideReport := by rfl
  refine ⟨hsize, hparse, ?_⟩
  rcases parse_error_marks_line "wide.toml" wideFile wideReport hsize hparse with
    ⟨-, hmissing | hmissing | ⟨_, _, value, -, hunknown, -⟩⟩ |
      ⟨i, line, _, -, hbad, -, -, hmarks, -, hstable⟩
  · exact absurd (congrArg Diagnostic.span hmissing) (by decide)
  · exact absurd (congrArg Diagnostic.span hmissing) (by decide)
  · have hhelp : none = some "a target file derives from a built-in target" :=
      congrArg Diagnostic.help hunknown
    contradiction
  · exact ⟨i, line, hbad, hmarks, hstable⟩

end Description

end TensorLowering
