import Mathlib.Data.List.Basic
import TensorLowering.Text.Blank
import TensorLowering.Text.Lines

/-!
# Lines, trimmed texts and their places

A text is its lines one after the other, and the lines after a newline do not depend on what stands
before it. The trimmed text of a line is a part of the line, and what is dropped in front of it are
exactly the blanks at the start. So the place of a trimmed text can be counted in bytes, line by
line, whatever characters the lines are made of. In the same way an unquoted text is what is left of
a text between quotation marks.
-/

namespace TensorLowering.Text

/-! ### Bytes -/

/-- The bytes of two texts are counted one after the other. -/
theorem byteSize_append (first second : List Char) :
    byteSize (first ++ second) = byteSize first + byteSize second := by
  induction first with
  | nil => simp [byteSize]
  | cons c rest ih =>
    simp only [List.cons_append, byteSize, ih]
    omega

/-- A text that is not empty has a byte. -/
theorem byteSize_pos {text : List Char} (h : text ≠ []) : 0 < byteSize text := by
  cases text with
  | nil => contradiction
  | cons c rest =>
    have hpos := c.utf8Size_pos
    simp only [byteSize]
    omega

/-! ### Trimming -/

/-- A text is what is dropped in front of the kept part, that part, and what is dropped after it. -/
theorem exists_strip (drop : Char → Bool) (text : List Char) :
    ∃ after, text = text.takeWhile drop ++ strip drop text ++ after ∧
      ∀ c ∈ after, drop c = true := by
  refine ⟨((text.dropWhile drop).reverse.takeWhile drop).reverse, ?_, fun c hc => ?_⟩
  · rw [List.append_assoc, strip, ← List.reverse_append, List.takeWhile_append_dropWhile,
      List.reverse_reverse, List.takeWhile_append_dropWhile]
  · exact List.all_eq_true.mp List.all_takeWhile c (List.mem_reverse.mp hc)

/-- The kept part does not begin with a character of the class. -/
theorem head?_strip {drop : Char → Bool} {text : List Char} {c : Char}
    (h : (strip drop text).head? = some c) : drop c = false := by
  obtain ⟨after, hfront⟩ : strip drop text <+: text.dropWhile drop := by
    rw [← List.reverse_suffix, strip, List.reverse_reverse]
    exact List.dropWhile_suffix drop
  have hhead : (text.dropWhile drop).head? = some c := by
    rw [← hfront, List.head?_append, h, Option.some_or]
  have hfails := List.head?_dropWhile_not drop text
  simpa [hhead] using hfails

/-- The kept part does not end with a character of the class. -/
theorem getLast?_strip {drop : Char → Bool} {text : List Char} {c : Char}
    (h : (strip drop text).getLast? = some c) : drop c = false := by
  rw [strip, List.getLast?_reverse] at h
  have hfails := List.head?_dropWhile_not drop (text.dropWhile drop).reverse
  simpa [h] using hfails

/-- A text is another one between quotation marks, which has none at either end. -/
structure Unquoted (text kept : List Char) : Prop where
  between : ∃ before after, text = before ++ kept ++ after ∧ ∀ c ∈ before ++ after, c = '"'
  head : kept.head? ≠ some '"'
  last : kept.getLast? ≠ some '"'

/-- Unquoting drops nothing but quotation marks, and all of them that are at an end. -/
theorem unquoted_unquote (text : List Char) : Unquoted text (unquote text) where
  between := by
    obtain ⟨after, htext, hafter⟩ := exists_strip (· == '"') text
    refine ⟨_, after, htext, fun c hc => ?_⟩
    rcases List.mem_append.mp hc with hc | hc
    · exact eq_of_beq (List.all_eq_true.mp List.all_takeWhile c hc)
    · exact eq_of_beq (hafter c hc)
  head h := by simpa using head?_strip h
  last h := by simpa using getLast?_strip h

/-- The parts before and after the first mark. -/
theorem splitFirst?_eq_some {mark : Char} {text left right : List Char} :
    splitFirst? mark text = some (left, right) ↔ text = left ++ mark :: right ∧ mark ∉ left := by
  constructor
  · intro hsplit
    unfold splitFirst? at hsplit
    split at hsplit
    · contradiction
    · rename_i c rest hdrop
      simp only [Option.some.injEq, Prod.mk.injEq] at hsplit
      obtain ⟨rfl, rfl⟩ := hsplit
      have hstop : c = mark := by
        have hfails := List.head?_dropWhile_not (· != mark) text
        simpa [hdrop] using hfails
      rw [hstop] at hdrop
      refine ⟨?_, fun hmem => ?_⟩
      · rw [← hdrop, List.takeWhile_append_dropWhile]
      · simpa using List.all_eq_true.mp List.all_takeWhile mark hmem
  · intro h
    obtain ⟨rfl, hmark⟩ := h
    have hkeep : ∀ c ∈ left, (c != mark) = true := by
      intro c hc
      simpa using fun heq : c = mark => hmark (heq ▸ hc)
    simp [splitFirst?, List.dropWhile_append_of_pos hkeep, List.takeWhile_append_of_pos hkeep]

/-- A text without the mark has no parts. -/
theorem splitFirst?_eq_none {mark : Char} {text : List Char} :
    splitFirst? mark text = none ↔ mark ∉ text := by
  constructor
  · intro hnone hmem
    obtain ⟨left, right, rfl, hmark⟩ := List.eq_append_cons_of_mem hmem
    rw [splitFirst?_eq_some.mpr ⟨rfl, hmark⟩] at hnone
    contradiction
  · intro hmark
    cases hsplit : splitFirst? mark text with
    | none => rfl
    | some parts =>
      obtain ⟨rfl, -⟩ := splitFirst?_eq_some.mp hsplit
      simp at hmark

/-! ### Lines -/

/-- A text is its lines one after the other. -/
theorem flatten_lines (text : List Char) : (lines text).flatten = text := by
  induction text with
  | nil => rfl
  | cons c rest ih =>
    simp only [lines]
    split
    · simp [ih]
    · split <;> simp_all

/-- A text is the lines before one of its lines, that line, and the lines after it. -/
theorem eq_append_line {text line : List Char} {i : Nat} (h : (lines text)[i]? = some line) :
    text = ((lines text).take i).flatten ++ line ++ ((lines text).drop (i + 1)).flatten := by
  obtain ⟨hlt, hget⟩ := List.getElem?_eq_some_iff.mp h
  calc
    text = (lines text).flatten := (flatten_lines text).symm
    _ = ((lines text).take i ++ (lines text).drop i).flatten := by rw [List.take_append_drop]
    _ = _ := by
      rw [List.drop_eq_getElem_cons hlt, hget, List.flatten_append, List.flatten_cons,
        List.append_assoc]

/-- The first line ends with the first newline. -/
theorem lines_newline {body : List Char} (hbody : '\n' ∉ body) (rest : List Char) :
    lines (body ++ '\n' :: rest) = (body ++ ['\n']) :: lines rest := by
  induction body with
  | nil => simp [lines]
  | cons c body ih =>
    obtain ⟨hne, hbody⟩ := not_or.mp (mt List.mem_cons.mpr hbody)
    have hc : (c == '\n') = false := by simpa using Ne.symm hne
    simp [lines, hc, ih hbody]

/-- A text without a newline is one line, unless it is empty. -/
theorem lines_of_notMem {text : List Char} (htext : '\n' ∉ text) (hne : text ≠ []) :
    lines text = [text] := by
  induction text with
  | nil => contradiction
  | cons c rest ih =>
    obtain ⟨hc, hrest⟩ := not_or.mp (mt List.mem_cons.mpr htext)
    have hc : (c == '\n') = false := by simpa using Ne.symm hc
    by_cases hnil : rest = []
    · subst hnil
      simp [lines, hc]
    · simp [lines, hc, ih hrest hnil]

/-- The first line of a text is complete, or it is the whole text. -/
theorem lines_cons {text line : List Char} {rest : List (List Char)}
    (h : lines text = line :: rest) :
    (∃ body more, '\n' ∉ body ∧ line = body ++ ['\n'] ∧ lines more = rest) ∨
      (rest = [] ∧ '\n' ∉ line) := by
  by_cases hmem : '\n' ∈ text
  · obtain ⟨body, more, rfl, hbody⟩ := List.eq_append_cons_of_mem hmem
    rw [lines_newline hbody] at h
    obtain ⟨rfl, rfl⟩ := List.cons.inj h
    exact Or.inl ⟨body, more, hbody, rfl, rfl⟩
  · have hne : text ≠ [] := by
      intro hnil
      simp [hnil, lines] at h
    rw [lines_of_notMem hmem hne] at h
    obtain ⟨rfl, rfl⟩ := List.cons.inj h
    exact Or.inr ⟨rfl, hmem⟩

/-- The lines up to a newline stay when something else follows it. -/
theorem lines_of_complete {text line : List Char} {before after : List (List Char)}
    (h : lines text = before ++ line :: after) (hend : line.getLast? = some '\n')
    (more : List Char) :
    lines (before.flatten ++ line ++ more) = before ++ line :: lines more := by
  induction before generalizing text with
  | nil =>
    rcases lines_cons h with ⟨body, rest, hbody, rfl, -⟩ | ⟨-, hline⟩
    · simpa using lines_newline hbody more
    · exact absurd (List.mem_of_getLast? hend) hline
  | cons first before ih =>
    rcases lines_cons h with ⟨body, rest, hbody, rfl, hrest⟩ | ⟨hnil, -⟩
    · have htail := lines_newline hbody (before.flatten ++ line ++ more)
      rw [ih hrest] at htail
      simpa using htail
    · simp at hnil

end TensorLowering.Text
