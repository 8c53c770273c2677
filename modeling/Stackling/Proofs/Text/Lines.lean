import Mathlib.Data.List.Basic
import Stackling.Bytes

/-!
# Lines of a text

How a text is split into lines: a line goes up to the first newline and with it,
and the lines after it are those of the rest of the text (`Bytes.allLines_cases`).
The bytes of any class are cut from the front of a text in one way (`Bytes.cut`,
`Bytes.Cut.takeWhile_eq`).
-/

namespace Stackling.Bytes

/-! ## Cutting -/

/-- A text in two parts: bytes of a class, as many of them as there are, and the rest. -/
structure Cut (p : UInt8 → Bool) (text front rest : Bytes) : Prop where
  eq : text = front ++ rest
  front : ∀ b ∈ front, p b = true
  rest : ∀ b ∈ rest.head?, p b = false

theorem cut (p : UInt8 → Bool) (text : Bytes) :
    Cut p text (text.takeWhile p) (text.dropWhile p) := by
  refine ⟨List.takeWhile_append_dropWhile.symm, List.all_eq_true.mp List.all_takeWhile, ?_⟩
  intro b hb
  have hnot := List.head?_dropWhile_not p text
  rw [Option.mem_def.mp hb] at hnot
  exact hnot

section Cut

variable {p : UInt8 → Bool} {text front rest : Bytes}

theorem Cut.takeWhile_eq (h : Cut p text front rest) : text.takeWhile p = front := by
  rw [h.eq, List.takeWhile_append_of_pos h.front]
  cases rest with
  | nil => simp
  | cons b rest => simp [h.rest b rfl]

theorem Cut.dropWhile_eq (h : Cut p text front rest) : text.dropWhile p = rest := by
  rw [h.eq, List.dropWhile_append_of_pos h.front]
  cases rest with
  | nil => rfl
  | cons b rest => simp [h.rest b rfl]

theorem Cut.append (h : Cut p text front rest) (more : Bytes)
    (hmore : rest = [] → ∀ b ∈ more.head?, p b = false) :
    Cut p (text ++ more) front (rest ++ more) := by
  refine ⟨by rw [h.eq, List.append_assoc], h.front, ?_⟩
  cases rest with
  | nil => exact hmore rfl
  | cons b rest => exact h.rest

theorem Cut.prepend (h : Cut p text front rest) {word : Bytes} (hword : ∀ b ∈ word, p b = true) :
    Cut p (word ++ text) (word ++ front) rest := by
  refine ⟨by rw [h.eq, List.append_assoc], ?_, h.rest⟩
  intro b hb
  rcases List.mem_append.mp hb with hb | hb
  · exact hword b hb
  · exact h.front b hb

end Cut

/-! ## Lines -/

theorem splitLines_newline (text : Bytes) :
    splitLines (newline :: text) = ([newline] :: (splitLines text).1, (splitLines text).2) := rfl

/-- A byte that is no newline starts the first line. -/
theorem splitLines_cons {b : UInt8} {text line last : Bytes} {lines : List Bytes}
    (hb : b ≠ newline) (h : splitLines text = (line :: lines, last)) :
    splitLines (b :: text) = ((b :: line) :: lines, last) := by
  unfold splitLines at h ⊢
  rw [List.foldr_cons, h, if_neg hb]

theorem splitLines_cons_last {b : UInt8} {text last : Bytes} (hb : b ≠ newline)
    (h : splitLines text = ([], last)) : splitLines (b :: text) = ([], b :: last) := by
  unfold splitLines at h ⊢
  rw [List.foldr_cons, h, if_neg hb]

/-- A line is split off as a whole. -/
theorem splitLines_append {line : Bytes} (h : newline ∉ line) (rest : Bytes) :
    splitLines (line ++ newline :: rest)
      = ((line ++ [newline]) :: (splitLines rest).1, (splitLines rest).2) := by
  induction line with
  | nil => exact splitLines_newline rest
  | cons b line ih =>
    rw [List.mem_cons, not_or] at h
    exact splitLines_cons (Ne.symm h.1) (ih h.2)

/-- A newline stands only at the end of a line. -/
theorem mem_splitLines (text : Bytes) :
    (∀ line ∈ (splitLines text).1, ∃ front, line = front ++ [newline] ∧ newline ∉ front) ∧
      newline ∉ (splitLines text).2 := by
  induction text with
  | nil => exact ⟨by simp [splitLines], by simp [splitLines]⟩
  | cons b rest ih =>
    obtain ⟨hlines, hlast⟩ := ih
    by_cases hb : b = newline
    · rw [hb, splitLines_newline]
      exact ⟨List.forall_mem_cons.mpr ⟨⟨[], rfl, by simp⟩, hlines⟩, hlast⟩
    · cases hrest : splitLines rest with
      | mk lines last =>
        rw [hrest] at hlines hlast
        cases lines with
        | nil =>
          rw [splitLines_cons_last hb hrest]
          exact ⟨by simp, by simp [Ne.symm hb, hlast]⟩
        | cons line lines =>
          rw [splitLines_cons hb hrest]
          obtain ⟨⟨front, hfront, hnot⟩, hlines⟩ := List.forall_mem_cons.mp hlines
          refine ⟨List.forall_mem_cons.mpr ⟨⟨b :: front, ?_, ?_⟩, hlines⟩, hlast⟩
          · rw [hfront, List.cons_append]
          · simp [Ne.symm hb, hnot]

/-- All lines of a text, the last of which has no newline and may be empty. -/
def allLines (text : Bytes) : List Bytes := (splitLines text).1 ++ [(splitLines text).2]

theorem allLines_append_newline {line : Bytes} (h : newline ∉ line) (rest : Bytes) :
    allLines (line ++ newline :: rest) = (line ++ [newline]) :: allLines rest := by
  rw [allLines, splitLines_append h]
  rfl

theorem allLines_of_not_mem {text : Bytes} (h : newline ∉ text) : allLines text = [text] := by
  have hsplit : splitLines text = ([], text) := by
    induction text with
    | nil => rfl
    | cons b text ih =>
      rw [List.mem_cons, not_or] at h
      exact splitLines_cons_last (Ne.symm h.1) (ih h.2)
  rw [allLines, hsplit]
  rfl

/-- A text is its last line, or starts with a line that a newline ends. -/
theorem allLines_cases (text : Bytes) :
    (newline ∉ text ∧ allLines text = [text]) ∨
      ∃ front rest, text = front ++ newline :: rest ∧ newline ∉ front ∧
        allLines text = (front ++ [newline]) :: allLines rest := by
  by_cases h : newline ∈ text
  · obtain ⟨front, rest, rfl, hfront⟩ := List.eq_append_cons_of_mem h
    exact .inr ⟨front, rest, rfl, hfront, allLines_append_newline hfront rest⟩
  · exact .inl ⟨h, allLines_of_not_mem h⟩

/-- What comes before the first newline belongs to the first line. -/
theorem allLines_append {front text first : Bytes} {lines : List Bytes} (h : newline ∉ front)
    (htext : allLines text = first :: lines) :
    allLines (front ++ text) = (front ++ first) :: lines := by
  rcases allLines_cases text with ⟨hnot, hall⟩ | ⟨line, rest, rfl, hline, hall⟩
  · rw [hall] at htext
    obtain ⟨rfl, rfl⟩ := List.cons.inj htext
    exact allLines_of_not_mem (by simp [h, hnot])
  · rw [hall] at htext
    obtain ⟨rfl, rfl⟩ := List.cons.inj htext
    rw [← List.append_assoc, allLines_append_newline (by simp [h, hline]), List.append_assoc]

/-- A line of a text that stands between what comes before and after it: at the start of
the text or after a newline, and up to the next newline or to the end. -/
structure IsLine (before line after : Bytes) : Prop where
  start : before = [] ∨ ∃ front, before = front ++ [newline]
  one_line : newline ∉ line
  stop : after = [] ∨ ∃ rest, after = newline :: rest

/-- The lines up to a newline do not depend on what follows it. -/
theorem exists_allLines_append (front : Bytes) : ∃ first lines, ∀ text,
    allLines (front ++ newline :: text) = first :: lines ++ allLines text := by
  induction front with
  | nil => exact ⟨[newline], [], fun text => @allLines_append_newline [] (by simp) text⟩
  | cons b front ih =>
    obtain ⟨first, lines, hlines⟩ := ih
    by_cases hb : b = newline
    · subst hb
      refine ⟨[newline], first :: lines, fun text => ?_⟩
      rw [List.cons_append, List.cons_append, ← hlines text]
      exact @allLines_append_newline [] (by simp) _
    · exact ⟨b :: first, lines, fun text => @allLines_append [b] _ _ _ (by simp [Ne.symm hb])
        (hlines text)⟩

/-- The lines of a text around one of them do not depend on it. -/
theorem IsLine.exists_allLines {before line after : Bytes} (h : IsLine before line after) :
    ∃ lines back rest, back.all isSpace = true ∧ ∀ line', newline ∉ line' →
      allLines (before ++ line' ++ after) = lines ++ (line' ++ back) :: rest := by
  obtain ⟨lines, hlines⟩ : ∃ lines, ∀ text, allLines (before ++ text) = lines ++ allLines text := by
    rcases h.start with rfl | ⟨front, rfl⟩
    · exact ⟨[], fun text => rfl⟩
    · obtain ⟨first, lines, hlines⟩ := exists_allLines_append front
      refine ⟨first :: lines, fun text => ?_⟩
      rw [List.append_assoc]
      exact hlines text
  rcases h.stop with rfl | ⟨rest, rfl⟩
  · refine ⟨lines, [], [], rfl, fun line' hline' => ?_⟩
    rw [List.append_nil, hlines, allLines_of_not_mem hline', List.append_nil]
  · refine ⟨lines, [newline], allLines rest, by decide, fun line' hline' => ?_⟩
    rw [List.append_assoc, hlines, allLines_append_newline hline']

end Stackling.Bytes
