import Mathlib.Data.List.DropRight
import Mathlib.Logic.Relation
import TensorLowering.Proofs.FileMeaning

/-!
# The layout of description files

Blanks around the parts of a line, blank lines and comments carry no meaning. Each line says one
thing at most: it is a heading, it is a setting, or its text is malformed. Reading a file factors
through what its lines say one after the other, and only the places of reports are lost on the way.
An edit of the layout adds blanks or lines that say nothing, so it keeps what the lines say, and by
induction so does any number of edits.
-/

namespace TensorLowering

namespace Text

/-! ### Blanks around texts -/

/-- Blanks that stay on one line. -/
def Blanks (text : List Char) : Prop := ∀ c ∈ text, isBlank c = true ∧ c ≠ '\n'

instance : DecidablePred Blanks := fun text =>
  List.decidableBAll (fun c => isBlank c = true ∧ c ≠ '\n') text

section Trim

variable {blanks : List Char}

/-- All of them are blank. -/
theorem Blanks.isBlank (h : Blanks blanks) : ∀ c ∈ blanks, isBlank c = true :=
  fun c hc => (h c hc).1

/-- Blanks in front are trimmed. -/
theorem trim_blanks_append (h : ∀ c ∈ blanks, isBlank c = true) (text : List Char) :
    trim (blanks ++ text) = trim text := by
  rw [trim, trim, strip, strip, List.dropWhile_append_of_pos h]

/-- Blanks at the end are trimmed. -/
theorem trim_append_blanks (h : ∀ c ∈ blanks, isBlank c = true) (text : List Char) :
    trim (text ++ blanks) = trim text := by
  have hreverse : ∀ c ∈ blanks.reverse, isBlank c = true := by simpa using h
  have hnone : blanks.dropWhile isBlank = [] := List.dropWhile_eq_nil_iff.mpr h
  rw [trim, trim, strip, strip, List.dropWhile_append]
  split
  · rename_i hempty
    rw [List.isEmpty_iff.mp hempty, hnone]
  · rw [List.reverse_append, List.dropWhile_append_of_pos hreverse]

/-- Dropping ends at a character that is kept. -/
theorem dropWhile_append_cons {drop : Char → Bool} {c : Char} (h : drop c = false)
    (left right : List Char) :
    (left ++ c :: right).dropWhile drop = left.dropWhile drop ++ c :: right := by
  rw [List.dropWhile_append]
  split
  · rename_i hempty
    simp [List.isEmpty_iff.mp hempty, h]
  · rfl

/-- On both sides of a character that is kept, the blanks away from it are trimmed. -/
theorem trim_append_cons {c : Char} (h : isBlank c = false) (left right : List Char) :
    trim (left ++ c :: right) = left.dropWhile isBlank ++ c :: right.rdropWhile isBlank := by
  rw [trim, strip, dropWhile_append_cons h, List.reverse_append, List.reverse_cons,
    List.append_assoc, List.singleton_append, dropWhile_append_cons h, List.reverse_append,
    List.reverse_cons, List.reverse_reverse, List.append_assoc, List.singleton_append,
    List.rdropWhile]

/-- A text with its blanks in front dropped is trimmed as before. -/
theorem trim_dropWhile (text : List Char) : trim (text.dropWhile isBlank) = trim text := by
  rw [trim, trim, strip, strip, List.dropWhile_idempotent]

/-- A text with its blanks at the end dropped is trimmed as before. -/
theorem trim_rdropWhile (text : List Char) : trim (text.rdropWhile isBlank) = trim text := by
  have hblank : ∀ c ∈ text.rtakeWhile isBlank, isBlank c = true :=
    fun c hc => List.mem_rtakeWhile_imp hc
  calc
    trim (text.rdropWhile isBlank) =
        trim (text.rdropWhile isBlank ++ text.rtakeWhile isBlank) :=
      (trim_append_blanks hblank _).symm
    _ = trim text := by rw [List.rdropWhile_append_rtakeWhile]

/-- Blanks on both sides of a character that is kept leave the first character as it is. -/
theorem head?_trim_spread {before : List Char} {c : Char} (hc : isBlank c = false)
    (hbefore : ∀ c ∈ before, isBlank c = true) (left after right : List Char) :
    (trim (left ++ before ++ c :: (after ++ right))).head? = (trim (left ++ c :: right)).head? := by
  have hnone : before.find? (fun c => !isBlank c) = none := by simpa using hbefore
  rw [trim_append_cons hc, trim_append_cons hc, List.head?_append, List.head?_append,
    ← List.find?_not_eq_head?_dropWhile, ← List.find?_not_eq_head?_dropWhile, List.find?_append,
    hnone, Option.or_none, List.head?_cons, List.head?_cons]

/-- They leave the last character as it is, too. -/
theorem getLast?_trim_spread {after : List Char} {c : Char} (hc : isBlank c = false)
    (hafter : ∀ c ∈ after, isBlank c = true) (left before right : List Char) :
    (trim (left ++ before ++ c :: (after ++ right))).getLast? =
      (trim (left ++ c :: right)).getLast? := by
  have hnone : after.reverse.find? (fun c => !isBlank c) = none := by simpa using hafter
  have hlast : ((after ++ right).rdropWhile isBlank).getLast? =
      (right.rdropWhile isBlank).getLast? := by
    rw [List.rdropWhile, List.rdropWhile, List.getLast?_reverse, List.getLast?_reverse,
      ← List.find?_not_eq_head?_dropWhile, ← List.find?_not_eq_head?_dropWhile,
      List.reverse_append, List.find?_append, hnone, Option.or_none]
  rw [trim_append_cons hc, trim_append_cons hc, List.getLast?_append, List.getLast?_append,
    List.getLast?_cons, List.getLast?_cons, hlast, Option.some_or, Option.some_or]

end Trim

/-! ### Where lines start and end -/

/-- A line starts after this text. -/
def LineStart (before : List Char) : Prop := before = [] ∨ before.getLast? = some '\n'

/-- A line ends before this text. -/
def LineEnd (after : List Char) : Prop := after = [] ∨ after.head? = some '\n'

instance : DecidablePred LineStart := fun before =>
  inferInstanceAs (Decidable (before = [] ∨ before.getLast? = some '\n'))

instance : DecidablePred LineEnd := fun after =>
  inferInstanceAs (Decidable (after = [] ∨ after.head? = some '\n'))

/-- The lines of a text are those up to a newline and those after it. -/
theorem lines_append_newline (before rest : List Char) :
    lines (before ++ '\n' :: rest) = lines (before ++ ['\n']) ++ lines rest := by
  induction before with
  | nil => simp [lines]
  | cons c before ih =>
    by_cases hc : c = '\n'
    · simp [lines, hc, ih]
    · cases hlines : lines (before ++ ['\n']) with
      | nil =>
        have hflat := flatten_lines (before ++ ['\n'])
        simp [hlines] at hflat
      | cons line more =>
        rw [hlines] at ih
        simp [lines, hc, ih, hlines]

/-- The lines of two texts, the second of which starts a line. -/
theorem lines_append {before : List Char} (h : LineStart before) (rest : List Char) :
    lines (before ++ rest) = lines before ++ lines rest := by
  rcases h with rfl | hnewline
  · rfl
  · obtain ⟨init, rfl⟩ := List.getLast?_eq_some_iff.mp hnewline
    rw [List.append_assoc, List.singleton_append, lines_append_newline]

/-- A text ends with a line that may still be continued. -/
theorem exists_lastLine (text : List Char) :
    ∃ before line, text = before ++ line ∧ LineStart before ∧ '\n' ∉ line := by
  induction text with
  | nil => exact ⟨[], [], rfl, Or.inl rfl, List.not_mem_nil⟩
  | cons c text ih =>
    obtain ⟨before, line, rfl, hstart, hline⟩ := ih
    rcases hstart with rfl | hnewline
    · by_cases hc : c = '\n'
      · exact ⟨['\n'], line, by simp [hc], Or.inr rfl, hline⟩
      · exact ⟨[], c :: line, rfl, Or.inl rfl, by simp [hline, Ne.symm hc]⟩
    · refine ⟨c :: before, line, rfl, Or.inr ?_, hline⟩
      simp [List.getLast?_cons, hnewline]

end Text

namespace Description

open Text (Blanks LineStart LineEnd)

/-! ### Edits of the layout -/

/-- A line before and after blanks are added to it: among those at its start or end, on both sides
of the first equals sign of a setting, or inside the brackets of a heading. -/
inductive Respaced : List Char → List Char → Prop
  | atStart (lead blanks text : List Char) (hlead : Blanks lead) (h : Blanks blanks) :
    Respaced (lead ++ text) (lead ++ blanks ++ text)
  | atEnd (text blanks tail : List Char) (h : Blanks blanks) (htail : Blanks tail) :
    Respaced (text ++ tail) (text ++ blanks ++ tail)
  | aroundEquals (left before after right : List Char) (hleft : '=' ∉ left)
    (hskipped : ¬Skipped (left ++ '=' :: right)) (hheading : ¬IsHeading (left ++ '=' :: right))
    (hbefore : Blanks before) (hafter : Blanks after) :
    Respaced (left ++ '=' :: right) (left ++ before ++ '=' :: (after ++ right))
  | insideBrackets (lead before title after tail : List Char) (hlead : Blanks lead)
    (hbefore : Blanks before) (hafter : Blanks after) (htail : Blanks tail) :
    Respaced (lead ++ '[' :: title ++ ']' :: tail)
      (lead ++ '[' :: (before ++ title ++ after) ++ ']' :: tail)

/-- A content before and after one edit of its layout. Blanks are added to one of its lines; a line
that is skipped is put before a line, after a line, or at the end of the content; or a carriage
return is put before a newline. -/
inductive Edit : List Char → List Char → Prop
  | respace (before : List Char) {line line' : List Char} (after : List Char)
    (hbefore : LineStart before) (hafter : LineEnd after) (hline : '\n' ∉ line)
    (h : Respaced line line') : Edit (before ++ line ++ after) (before ++ line' ++ after)
  | insertBefore (before line after : List Char) (hbefore : LineStart before)
    (hline : '\n' ∉ line) (h : Skipped line) :
    Edit (before ++ after) (before ++ line ++ '\n' :: after)
  | insertAfter (before line after : List Char) (hafter : LineEnd after)
    (hline : '\n' ∉ line) (h : Skipped line) :
    Edit (before ++ after) (before ++ '\n' :: line ++ after)
  | insertLast (before line : List Char) (hbefore : LineStart before)
    (hline : '\n' ∉ line) (h : Skipped line) : Edit before (before ++ line)
  | carriageReturn (before after : List Char) :
    Edit (before ++ '\n' :: after) (before ++ '\r' :: '\n' :: after)

/-! ### What lines say -/

/-- What a line says that is not skipped. -/
inductive Saying where
  | heading (title : List Char)
  | setting (key value : List Char)
  | malformed (text : List Char)
deriving DecidableEq

/-- What a line says, if it says anything. -/
def saying? (line : List Char) : Option Saying :=
  match Line.ofTrimmed (Text.trim line) with
  | .skipped => none
  | .heading title => some (.heading title)
  | .setting key value => some (.setting key value)
  | .malformed => some (.malformed (Text.trim line))

/-- What the lines of a content say, in order. -/
def sayings (content : List Char) : List Saying := (Text.lines content).filterMap saying?

section Sayings

variable {line line' : List Char}

/-- Only the trimmed text of a line counts. -/
theorem saying?_congr (h : Text.trim line = Text.trim line') : saying? line = saying? line' := by
  rw [saying?, saying?, h]

/-- Lines that are skipped say nothing. -/
theorem saying?_of_skipped (h : Skipped line) : saying? line = none := by
  rw [saying?, ofTrimmed_of_skipped h]

/-- The newline of a line says nothing. -/
theorem saying?_newline (line : List Char) : saying? (line ++ ['\n']) = saying? line :=
  saying?_congr (Text.trim_append_blanks (List.forall_mem_singleton.mpr rfl) line)

/-- A heading says its title, without the blanks around it. -/
theorem saying?_heading {lead title tail : List Char} (hlead : Blanks lead) (htail : Blanks tail) :
    saying? (lead ++ '[' :: title ++ ']' :: tail) = some (.heading (Text.trim title)) := by
  have htrim : Text.trim (lead ++ '[' :: title ++ ']' :: tail) = '[' :: title ++ [']'] := by
    have hsplit : lead ++ '[' :: title ++ ']' :: tail =
        lead ++ ('[' :: title ++ [']'] ++ tail) := by simp
    rw [hsplit, Text.trim_blanks_append hlead.isBlank, Text.trim_append_blanks htail.isBlank]
    have hkeep : ¬Text.isBlank ']' = true := by decide
    have hbrackets := Text.trim_append_cons (c := '[') rfl [] (title ++ [']'])
    rwa [List.rdropWhile_concat_neg _ _ _ hkeep] at hbrackets
  have hheading : IsHeading (lead ++ '[' :: title ++ ']' :: tail) := by
    rw [IsHeading, htrim]
    exact ⟨rfl, List.getLast?_concat⟩
  rw [saying?, ofTrimmed_of_heading hheading, htrim]
  simp

/-- A setting says what stands before and after its first equals sign, without the blanks. -/
theorem saying?_setting {left right : List Char} (hleft : '=' ∉ left)
    (hskipped : ¬Skipped (left ++ '=' :: right)) (hheading : ¬IsHeading (left ++ '=' :: right)) :
    saying? (left ++ '=' :: right) = some (.setting (Text.trim left) (Text.trim right)) := by
  have hdrop : '=' ∉ left.dropWhile Text.isBlank :=
    fun hmem => hleft ((List.dropWhile_sublist _).subset hmem)
  have hsplit := Text.splitFirst?_eq_some.mpr
    ⟨Text.trim_append_cons (c := '=') rfl left right, hdrop⟩
  rw [saying?, ofTrimmed_of_not_skipped hskipped, if_neg hheading, hsplit]
  simp only [Text.trim_dropWhile, Text.trim_rdropWhile]

/-- Whether a line is skipped shows in the first character of its text. -/
theorem skipped_congr (h : (Text.trim line).head? = (Text.trim line').head?) :
    Skipped line ↔ Skipped line' := by
  rw [Skipped, Skipped, ← List.head?_eq_none_iff, ← List.head?_eq_none_iff, h]

/-- Blanks that are added to a line do not change what it says. -/
theorem Respaced.saying?_eq (h : Respaced line line') : saying? line' = saying? line := by
  cases h with
  | atStart lead blanks text hlead h =>
    apply saying?_congr
    rw [List.append_assoc, Text.trim_blanks_append hlead.isBlank,
      Text.trim_blanks_append hlead.isBlank, Text.trim_blanks_append h.isBlank]
  | atEnd text blanks tail h htail =>
    apply saying?_congr
    rw [Text.trim_append_blanks htail.isBlank, Text.trim_append_blanks htail.isBlank,
      Text.trim_append_blanks h.isBlank]
  | aroundEquals left before after right hleft hskipped hheading hbefore hafter =>
    -- the line stays a setting, because its text starts and ends as before
    have hhead := Text.head?_trim_spread (c := '=') rfl hbefore.isBlank left after right
    have hlast := Text.getLast?_trim_spread (c := '=') rfl hafter.isBlank left before right
    have hleft' : '=' ∉ left ++ before := by
      intro hmem
      rcases List.mem_append.mp hmem with hmem | hmem
      · exact hleft hmem
      · exact absurd (hbefore.isBlank '=' hmem) (by decide)
    rw [saying?_setting hleft hskipped hheading, saying?_setting hleft'
      (mt (skipped_congr hhead).mp hskipped) (by rwa [IsHeading, hhead, hlast]),
      Text.trim_append_blanks hbefore.isBlank, Text.trim_blanks_append hafter.isBlank]
  | insideBrackets lead before title after tail hlead hbefore hafter htail =>
    rw [saying?_heading hlead htail, saying?_heading hlead htail, List.append_assoc,
      Text.trim_blanks_append hbefore.isBlank, Text.trim_append_blanks hafter.isBlank]

end Sayings

section Contents

variable {before line after content content' : List Char}

/-- An empty content says nothing. -/
theorem sayings_nil : sayings [] = [] := rfl

/-- What is said before a line starts, and from there on. -/
theorem sayings_append (h : LineStart before) (rest : List Char) :
    sayings (before ++ rest) = sayings before ++ sayings rest := by
  rw [sayings, Text.lines_append h, List.filterMap_append, sayings, sayings]

/-- A newline says nothing. -/
theorem sayings_newline (rest : List Char) : sayings ('\n' :: rest) = sayings rest := by
  have hnone : saying? ['\n'] = none := saying?_of_skipped (Or.inl rfl)
  have hlines : Text.lines ('\n' :: rest) = ['\n'] :: Text.lines rest :=
    Text.lines_newline List.not_mem_nil rest
  rw [sayings, hlines, List.filterMap_cons_none hnone, sayings]

/-- What is said by a first line and after it. -/
theorem sayings_line (hline : '\n' ∉ line) (hafter : LineEnd after) :
    sayings (line ++ after) = (saying? line).toList ++ sayings after := by
  rcases hafter with rfl | hnewline
  · by_cases hnil : line = []
    · subst hnil
      rfl
    · rw [List.append_nil, sayings, Text.lines_of_notMem hline hnil]
      cases hsaying : saying? line <;> simp [hsaying, sayings, Text.lines]
  · obtain ⟨rest, rfl⟩ := List.head?_eq_some_iff.mp hnewline
    rw [sayings_newline, sayings, Text.lines_newline hline, sayings]
    cases hsaying : saying? line <;> simp [saying?_newline, hsaying]

/-- What is said before, by and after a line. -/
theorem sayings_middle (hbefore : LineStart before) (hline : '\n' ∉ line)
    (hafter : LineEnd after) : sayings (before ++ line ++ after) =
      sayings before ++ (saying? line).toList ++ sayings after := by
  rw [List.append_assoc, sayings_append hbefore, sayings_line hline hafter, List.append_assoc]

/-- A line that is skipped adds nothing to what follows it. -/
theorem sayings_skipped (hline : '\n' ∉ line) (h : Skipped line) (hafter : LineEnd after) :
    sayings (line ++ after) = sayings after := by
  rw [sayings_line hline hafter, saying?_of_skipped h, Option.toList_none, List.nil_append]

/-- What is said before and after the end of a line. -/
theorem sayings_append_end (before : List Char) (hafter : LineEnd after) :
    sayings (before ++ after) = sayings before ++ sayings after := by
  obtain ⟨start, line, rfl, hstart, hline⟩ := Text.exists_lastLine before
  have hbefore := sayings_middle hstart hline (Or.inl rfl : LineEnd [])
  rw [List.append_nil] at hbefore
  rw [sayings_middle hstart hline hafter, hbefore, sayings_nil, List.append_nil]

/-- Respaced lines stay lines. -/
theorem Respaced.newline_notMem {line' : List Char} (h : Respaced line line')
    (hline : '\n' ∉ line) : '\n' ∉ line' := by
  cases h <;> grind [Text.Blanks]

/-- Blanks that are added to one line do not change what is said. -/
theorem sayings_respaced {line' : List Char} (hbefore : LineStart before) (hafter : LineEnd after)
    (hline : '\n' ∉ line) (h : Respaced line line') :
    sayings (before ++ line' ++ after) = sayings (before ++ line ++ after) := by
  rw [sayings_middle hbefore (h.newline_notMem hline) hafter, sayings_middle hbefore hline hafter,
    h.saying?_eq]

/-- An edit of the layout keeps what the lines say. -/
theorem Edit.sayings_eq (h : Edit content content') : sayings content' = sayings content := by
  cases h with
  | respace before after hbefore hafter hline h =>
    exact sayings_respaced hbefore hafter hline h
  | insertBefore before line after hbefore hline h =>
    rw [List.append_assoc, sayings_append hbefore, sayings_append hbefore,
      sayings_skipped hline h (Or.inr rfl), sayings_newline]
  | insertAfter before line after hafter hline h =>
    rw [List.append_assoc, List.cons_append, sayings_append_end before hafter,
      sayings_append_end before (Or.inr rfl), sayings_newline, sayings_skipped hline h hafter]
  | insertLast before line hbefore hline h =>
    have hnothing := sayings_skipped hline h (Or.inl rfl : LineEnd [])
    rw [List.append_nil] at hnothing
    rw [sayings_append hbefore, hnothing, sayings_nil, List.append_nil]
  | carriageReturn before after =>
    -- the carriage return is a blank at the end of the line before the newline
    obtain ⟨start, line, rfl, hstart, hline⟩ := Text.exists_lastLine before
    have hreturn : Respaced line (line ++ ['\r']) := by
      simpa using Respaced.atEnd line ['\r'] [] (by decide) (by decide)
    have hrespaced : sayings (start ++ (line ++ ['\r']) ++ '\n' :: after) =
        sayings (start ++ line ++ '\n' :: after) :=
      sayings_respaced hstart (Or.inr rfl) hline hreturn
    simpa using hrespaced

end Contents

/-! ### Reading what lines say -/

/-- The draft without the place where it names the built-in machine. -/
def Draft.unplaced (draft : Draft) : Draft := { draft with baseSpan := .nowhere }

/-- Takes into account what one line says. -/
def Draft.hear (draft : Draft) : Saying → Except Defect Draft
  | .malformed text => .error (.malformed (String.ofList text))
  | .heading title => .ok { draft with title := String.ofList title }
  | .setting key value => do
    let key := String.ofList key
    match ← Setting.read draft.title key value with
    | some setting => return draft.apply .nowhere setting
    | none => return { draft with ignored := draft.ignored ++ [(draft.title, key)] }

/-- Takes into account what lines say, in order. The draft so far comes with the defect that ended
the reading, if one did. -/
def Draft.hearAll (draft : Draft) : List Saying → Draft × Option Defect
  | [] => (draft, none)
  | saying :: rest =>
    match draft.hear saying with
    | .error defect => (draft, some defect)
    | .ok draft => draft.hearAll rest

/-- Where a setting stands shows in the place of the built-in machine only. -/
theorem unplaced_apply (draft : Draft) (span : Span) (setting : Setting) :
    (draft.apply span setting).unplaced = draft.unplaced.apply .nowhere setting := by
  cases setting <;> rfl

/-- Reading a line takes into account what it says. -/
theorem readLine_unplaced (draft : Draft) (line : List Char) (span : Span) :
    (draft.readLine (Text.trim line) span).map Draft.unplaced =
      (saying? line).elim (.ok draft.unplaced) draft.unplaced.hear := by
  rw [Draft.readLine, saying?]
  cases Line.ofTrimmed (Text.trim line) with
  | skipped | malformed | heading title => rfl
  | setting key value =>
    have htitle : draft.unplaced.title = draft.title := rfl
    simp only [Option.elim_some, Draft.hear, htitle]
    cases Setting.read draft.title (String.ofList key) value with
    | error defect => rfl
    | ok found =>
      cases found with
      | none => rfl
      | some setting => exact congrArg Except.ok (unplaced_apply draft span setting)

/-- Reading lines takes into account what they say, in order. -/
theorem readLines_unplaced (lines : List (List Char)) (draft : Draft) (offset : Nat) :
    (draft.readLines offset lines).map Draft.unplaced (Option.map Prod.fst) =
      draft.unplaced.hearAll (lines.filterMap saying?) := by
  induction lines generalizing draft offset with
  | nil => rfl
  | cons line rest ih =>
    have hline := readLine_unplaced draft line (lineSpan offset line)
    rw [Draft.readLines]
    cases hread : draft.readLine (Text.trim line) (lineSpan offset line) with
    | error defect =>
      rw [hread] at hline
      cases hsaying : saying? line with
      | none =>
        rw [hsaying] at hline
        contradiction
      | some saying =>
        rw [hsaying] at hline
        have hhear : draft.unplaced.hear saying = .error defect := hline.symm
        simp [hsaying, Draft.hearAll, hhear]
    | ok after =>
      rw [hread] at hline
      cases hsaying : saying? line with
      | none =>
        -- nothing is said, and the lines that follow are read at a later offset only
        rw [hsaying] at hline
        have hsame : after.unplaced = draft.unplaced := Except.ok.inj hline
        simp [hsaying, ih, hsame]
      | some saying =>
        rw [hsaying] at hline
        have hhear : draft.unplaced.hear saying = .ok after.unplaced := hline.symm
        simp [hsaying, Draft.hearAll, hhear, ih]

/-- The place where a draft names the built-in machine shows in the place of a report only. -/
theorem machine_unplaced (draft : Draft) :
    draft.unplaced.machine.mapError Prod.fst = draft.machine.mapError Prod.fst := by
  by_cases hname : draft.name.isEmpty
  · simp [Draft.machine, Draft.unplaced, hname, Except.mapError]
  by_cases hbase : draft.base.isEmpty
  · simp [Draft.machine, Draft.unplaced, hname, hbase, Except.mapError]
  cases hbuiltin : Machine.builtin? draft.base draft.variant <;>
    simp [Draft.machine, Draft.unplaced, hname, hbase, hbuiltin, Except.mapError]

/-- The finding without the place of its report. -/
def Finding.unplaced (finding : Finding) : Finding :=
  { finding with result := finding.result.mapError fun report => { report with span := .nowhere } }

/-- What comes of a content, but for the place of a report, from what its lines say. -/
def findingOf (path : String) (sayings : List Saying) : Finding :=
  let (draft, stopped) := Draft.hearAll {} sayings
  let result : Except Defect Machine := match stopped with
    | some defect => .error defect
    | none => draft.machine.mapError Prod.fst
  { result := result.mapError fun defect => defect.diagnostic path .nowhere
    notices := draft.ignored.map fun entry => .ignored entry.1 entry.2 }

/-- Reading a content factors through what its lines say, but for the place of a report. -/
theorem parse_unplaced (path content : String) :
    (parse path content).unplaced = findingOf path (sayings content.toList) := by
  have hread := readLines_unplaced (Text.lines content.toList) {} 0
  have hstart : Draft.unplaced {} = {} := rfl
  rw [hstart] at hread
  rw [findingOf, sayings, ← hread, parse]
  obtain ⟨draft, stopped⟩ := Draft.readLines {} 0 (Text.lines content.toList)
  cases stopped with
  | some stop => rfl
  | none =>
    simp only [Prod.map_apply, Option.map_none, machine_unplaced]
    cases draft.machine with
    | ok machine => rfl
    | error stop => rfl

/-- Findings that differ in the place of their reports at most. -/
theorem Finding.cases_of_unplaced_eq {finding other : Finding}
    (h : finding.unplaced = other.unplaced) :
    ((∃ machine, finding.result = .ok machine ∧ other.result = .ok machine) ∨
      ∃ report span, finding.result = .error report ∧
        other.result = .error { report with span }) ∧
    other.notices = finding.notices := by
  have hresult := congrArg Finding.result h
  refine ⟨?_, (congrArg Finding.notices h).symm⟩
  rw [unplaced, unplaced] at hresult
  cases hleft : finding.result with
  | ok machine =>
    cases hright : other.result with
    | ok machine' =>
      rw [hleft, hright] at hresult
      obtain rfl := Except.ok.inj hresult
      exact Or.inl ⟨machine, rfl, rfl⟩
    | error report' =>
      rw [hleft, hright] at hresult
      contradiction
  | error report =>
    cases hright : other.result with
    | ok machine' =>
      rw [hleft, hright] at hresult
      contradiction
    | error report' =>
      rw [hleft, hright] at hresult
      have hplaced := congrArg (fun r : Diagnostic => { r with span := report'.span })
        (Except.error.inj hresult)
      exact Or.inr ⟨report, report'.span, rfl, congrArg Except.error hplaced.symm⟩

/-- Edits of the layout keep what the lines of a content say. -/
theorem sayings_eq_of_edits {content content' : List Char}
    (h : Relation.ReflTransGen Edit content content') : sayings content' = sayings content := by
  induction h with
  | refl => rfl
  | tail _ hedit ih => rw [hedit.sayings_eq, ih]

/-- Description files are insensitive to their layout. After any number of edits that add blanks
around the parts of lines, lines that are skipped, or carriage returns, a file describes the same
machine, or it is rejected with a report that differs in its place at most. The settings that are
ignored are the same, too. -/
theorem parse_relaid (path content content' : String)
    (h : Relation.ReflTransGen Edit content.toList content'.toList) :
    ((∃ machine, (parse path content).result = .ok machine ∧
        (parse path content').result = .ok machine) ∨
      ∃ report span, (parse path content).result = .error report ∧
        (parse path content').result = .error { report with span }) ∧
    (parse path content').notices = (parse path content).notices := by
  apply Finding.cases_of_unplaced_eq
  rw [parse_unplaced, parse_unplaced, sayings_eq_of_edits h]

/-- A file with a setting that is not known and a malformed line, with as few blanks as possible. -/
def tightFile : String := "[a]\nb=c\nd"

/-- The same lines after a comment, with blanks everywhere. -/
def airyFile : String := "#\r\n[ a\t]\n\tb = c \nd\n"

/-- The layout of the first file is edited step by step. -/
theorem edits_airyFile : Relation.ReflTransGen Edit tightFile.toList airyFile.toList := by
  have hcomment : Edit tightFile.toList "#\n[a]\nb=c\nd".toList :=
    .insertBefore [] ['#'] tightFile.toList (by decide) (by decide) (by decide)
  have hreturn : Edit "#\n[a]\nb=c\nd".toList "#\r\n[a]\nb=c\nd".toList :=
    .carriageReturn ['#'] "[a]\nb=c\nd".toList
  have hbrackets : Edit "#\r\n[a]\nb=c\nd".toList "#\r\n[ a\t]\nb=c\nd".toList :=
    .respace "#\r\n".toList "\nb=c\nd".toList (by decide) (by decide) (by decide)
      (.insideBrackets [] [' '] ['a'] ['\t'] [] (by decide) (by decide) (by decide) (by decide))
  have hequals : Edit "#\r\n[ a\t]\nb=c\nd".toList "#\r\n[ a\t]\nb = c\nd".toList :=
    .respace "#\r\n[ a\t]\n".toList "\nd".toList (by decide) (by decide) (by decide)
      (.aroundEquals ['b'] [' '] [' '] ['c'] (by decide) (by decide) (by decide) (by decide)
        (by decide))
  have hindent : Edit "#\r\n[ a\t]\nb = c\nd".toList "#\r\n[ a\t]\n\tb = c\nd".toList :=
    .respace "#\r\n[ a\t]\n".toList "\nd".toList (by decide) (by decide) (by decide)
      (.atStart [] ['\t'] "b = c".toList (by decide) (by decide))
  have htrail : Edit "#\r\n[ a\t]\n\tb = c\nd".toList "#\r\n[ a\t]\n\tb = c \nd".toList :=
    .respace "#\r\n[ a\t]\n".toList "\nd".toList (by decide) (by decide) (by decide)
      (.atEnd "\tb = c".toList [' '] [] (by decide) (by decide))
  have hlast : Edit "#\r\n[ a\t]\n\tb = c \nd".toList airyFile.toList :=
    .insertAfter "#\r\n[ a\t]\n\tb = c \nd".toList [] [] (by decide) (by decide) (by decide)
  exact .head hcomment (.head hreturn (.head hbrackets (.head hequals (.head hindent
    (.head htrail (.single hlast))))))

/-- The report on the first file. -/
def tightReport : Diagnostic := (Defect.malformed "d").diagnostic "a.toml" ⟨0, 8, 9⟩

/-- The second file is rejected with the same report, but for its place, and the same setting is
ignored. -/
theorem parse_relaid_airy : Relation.ReflTransGen Edit tightFile.toList airyFile.toList ∧
    (parse "a.toml" tightFile).result = .error tightReport ∧
    (∃ span, (parse "a.toml" airyFile).result = .error { tightReport with span }) ∧
    (parse "a.toml" airyFile).notices = [.ignored "a" "b"] := by
  have htight : (parse "a.toml" tightFile).result = .error tightReport := by rfl
  obtain ⟨hresult, hnotices⟩ := parse_relaid "a.toml" tightFile airyFile edits_airyFile
  refine ⟨edits_airyFile, htight, ?_, hnotices⟩
  rcases hresult with ⟨machine, hmachine, -⟩ | ⟨report, span, hreport, hairy⟩
  · rw [htight] at hmachine
    contradiction
  · rw [htight] at hreport
    obtain rfl := Except.error.inj hreport
    exact ⟨span, hairy⟩

end Description

end TensorLowering
