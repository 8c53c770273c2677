import Mathlib.Tactic.Common
import Stackling.Machine.Scan
import Stackling.Proofs.Text.Decimal
import Stackling.Proofs.Text.Lines

/-!
# What a read takes

Which bytes a read takes from the front of an input, which value they stand for,
and what has to follow them, all said without a scanner:

* **integer** — white space and then a word that spells the integer, where the
  word goes on to the next white space or to the end (`IsInteger`);
* **line** — everything up to a newline and with it, or to the end, and not
  nothing (`IsLine`).

A scanner that reads a shape succeeds on the inputs that start with such bytes and
on no others, and takes just these bytes; even if it fails, it takes bytes from the
front only (`Reads`). Both scanners are of this kind (`reads_integer`,
`reads_line`).
-/

namespace Stackling

/-- Nothing is left to read, and no failure is to come. -/
def Input.AtEnd (input : Input) : Prop := input.unread = [] ∧ input.failure = none

namespace Scan

/-! ## Shapes -/

/-- A word ends here: white space comes next, unless the input has come to its end. -/
def Delimits (after : Input) : Prop :=
  (∀ b ∈ after.unread.head?, Bytes.isSpace b = true) ∧ (after.unread = [] → after.failure = none)

/-- The bytes that reading the integer `n` takes. -/
def IsInteger (segment : Bytes) (after : Input) (n : Int32) : Prop :=
  ∃ blanks token, segment = blanks ++ token ∧ (∀ b ∈ blanks, Bytes.isSpace b = true) ∧
    (∀ b ∈ token, Bytes.isSpace b = false) ∧ Decimal.Spells token n.toInt ∧ Delimits after

/-- A text, and the text with one carriage return taken from its end if it has one. -/
def Chomped (body text : Bytes) : Prop :=
  body = text ++ [13] ∨ (body = text ∧ body.getLast? ≠ some 13)

/-- The bytes that reading the line `text` takes. -/
def IsLine (segment : Bytes) (after : Input) (text : Bytes) : Prop :=
  ∃ body, Bytes.newline ∉ body ∧ Chomped body text ∧
    (segment = body ++ [Bytes.newline] ∨ (segment = body ∧ body ≠ [] ∧ after.AtEnd))

/-- A scanner takes bytes from the front of the input, and gets a value from just
those that have a certain shape. -/
structure Reads {α : Type} (scan : Input → Input × Except Fault α)
    (shape : Bytes → Input → α → Prop) : Prop where
  ok_iff : ∀ (input after : Input) (a : α), scan input = (after, .ok a) ↔
    after.failure = input.failure ∧
      ∃ segment, input.unread = segment ++ after.unread ∧ shape segment after a
  suffix : ∀ input, (scan input).1.unread <:+ input.unread

/-- An input starts with a shape that a scanner reads in one way only. -/
theorem Reads.unique {α : Type} {scan : Input → Input × Except Fault α}
    {shape : Bytes → Input → α → Prop} (h : Reads scan shape) {segment segment' : Bytes}
    {after after' : Input} {a a' : α} (hshape : shape segment after a)
    (hshape' : shape segment' after' a')
    (heq : segment ++ after.unread = segment' ++ after'.unread)
    (hfailure : after.failure = after'.failure) : after = after' ∧ a = a' := by
  have hscan := (h.ok_iff ⟨segment ++ after.unread, after.failure⟩ after a).mpr
    ⟨rfl, segment, rfl, hshape⟩
  have hscan' := (h.ok_iff ⟨segment ++ after.unread, after.failure⟩ after' a').mpr
    ⟨hfailure.symm, segment', heq, hshape'⟩
  rw [hscan] at hscan'
  cases hscan'
  exact ⟨rfl, rfl⟩

/-! ## Words and integers -/

theorem isWordByte_eq_true {b : UInt8} : isWordByte b = true ↔ Bytes.isSpace b = false := by
  simp [isWordByte]

theorem suffix_word (input : Input) : (word input).1.unread <:+ input.unread := by
  have hsuffix := (List.dropWhile_suffix (l := input.unread.dropWhile Bytes.isSpace)
    isWordByte).trans (List.dropWhile_suffix Bytes.isSpace)
  unfold word
  dsimp only
  split <;> exact hsuffix

/-- A word is all that stands between white space. -/
theorem word_eq_ok_iff {input after : Input} {token : Bytes} : word input = (after, .ok token) ↔
    after.failure = input.failure ∧ ∃ blanks, input.unread = blanks ++ (token ++ after.unread) ∧
      (∀ b ∈ blanks, Bytes.isSpace b = true) ∧ (∀ b ∈ token, Bytes.isSpace b = false) ∧
      token ≠ [] ∧ Delimits after := by
  constructor
  · intro h
    have hblanks := Bytes.cut Bytes.isSpace input.unread
    have htoken := Bytes.cut isWordByte (input.unread.dropWhile Bytes.isSpace)
    unfold word at h
    dsimp only at h
    split_ifs at h with hended
    · cases h
    · cases h
      rw [not_or] at hended
      refine ⟨rfl, _, ?_, hblanks.front, ?_, hended.1, ?_, ?_⟩
      · rw [← htoken.eq]
        exact hblanks.eq
      · intro b hb
        exact isWordByte_eq_true.mp (htoken.front b hb)
      · intro b hb
        simpa [isWordByte] using htoken.rest b hb
      · intro hnil
        by_contra hfails
        exact hended.2 ⟨hnil, Option.isSome_iff_ne_none.mpr hfails⟩
  · rintro ⟨hfailure, blanks, hinput, hblanks, htoken, hne, hdelimits, hend⟩
    have hcut : Bytes.Cut Bytes.isSpace input.unread blanks (token ++ after.unread) := by
      refine ⟨hinput, hblanks, ?_⟩
      intro b hb
      obtain ⟨first, token, rfl⟩ := List.exists_cons_of_ne_nil hne
      obtain rfl : first = b := by simpa using hb
      exact htoken first List.mem_cons_self
    have hword : Bytes.Cut isWordByte (token ++ after.unread) token after.unread := by
      refine ⟨rfl, fun b hb => isWordByte_eq_true.mpr (htoken b hb), ?_⟩
      intro b hb
      simpa [isWordByte] using hdelimits b hb
    have hgoes : ¬(token = [] ∨ (after.unread = [] ∧ input.failure.isSome = true)) := by
      rintro (hnil | ⟨hnil, hfails⟩)
      · exact hne hnil
      · rw [← hfailure, hend hnil] at hfails
        cases hfails
    simp only [word, hcut.dropWhile_eq, hword.takeWhile_eq, hword.dropWhile_eq, if_neg hgoes]
    rw [← hfailure]

theorem suffix_integer (input : Input) : (integer input).1.unread <:+ input.unread := by
  have hsuffix := suffix_word input
  unfold integer
  split
  · rename_i after fault hword
    rwa [hword] at hsuffix
  · rename_i after token hword
    rw [hword] at hsuffix
    split <;> exact hsuffix

theorem integer_eq_ok_iff {input after : Input} {n : Int32} : integer input = (after, .ok n) ↔
    ∃ token, word input = (after, .ok token) ∧ Decimal.Spells token n.toInt := by
  unfold integer
  rcases word input with ⟨there, fault | token⟩
  · constructor
    · intro h
      cases h
    · rintro ⟨token, h, _⟩
      cases h
  · constructor
    · intro h
      dsimp only at h
      split at h
      · rename_i k hk
        cases h
        exact ⟨token, rfl, Decimal.toInt32?_eq_some_iff.mp hk⟩
      · cases h
    · rintro ⟨token', h, hspells⟩
      cases h
      simp only [Decimal.toInt32?_eq_some_iff.mpr hspells]

theorem reads_integer : Reads integer IsInteger := by
  refine ⟨?_, suffix_integer⟩
  intro input after n
  rw [integer_eq_ok_iff]
  constructor
  · rintro ⟨token, hword, hspells⟩
    obtain ⟨hfailure, blanks, hinput, hblanks, htoken, _, hdelimits⟩ := word_eq_ok_iff.mp hword
    refine ⟨hfailure, blanks ++ token, ?_, blanks, token, rfl, hblanks, htoken, hspells, hdelimits⟩
    rw [hinput, List.append_assoc]
  · rintro ⟨hfailure, segment, hinput, blanks, token, rfl, hblanks, htoken, hspells, hdelimits⟩
    refine ⟨token, word_eq_ok_iff.mpr ⟨hfailure, blanks, ?_, hblanks, htoken, hspells.ne_nil,
      hdelimits⟩, hspells⟩
    rw [hinput, List.append_assoc]

/-! ## Lines -/

theorem dropReturn_eq_iff {body text : Bytes} : dropReturn body = text ↔ Chomped body text := by
  unfold dropReturn Chomped
  constructor
  · intro h
    split_ifs at h with hreturn
    · left
      rw [← h]
      exact (List.dropLast_append_getLast? 13 hreturn).symm
    · exact .inr ⟨h, hreturn⟩
  · rintro (rfl | ⟨rfl, hreturn⟩)
    · simp
    · exact if_neg hreturn

theorem isLineByte_eq_true {b : UInt8} : isLineByte b = true ↔ b ≠ Bytes.newline := by
  simp [isLineByte]

/-- A line without its newline is cut from the front of the input. -/
theorem cut_line {input after body : Bytes} (hbody : Bytes.newline ∉ body)
    (hinput : input = body ++ after) (hafter : ∀ b ∈ after.head?, b = Bytes.newline) :
    Bytes.Cut isLineByte input body after := by
  refine ⟨hinput, ?_, ?_⟩
  · intro b hb
    rw [isLineByte_eq_true]
    rintro rfl
    exact hbody hb
  · intro b hb
    rw [hafter b hb]
    rfl

theorem suffix_line (input : Input) : (line input).1.unread <:+ input.unread := by
  have hsuffix := List.dropWhile_suffix (l := input.unread) isLineByte
  unfold line
  dsimp only
  cases hdrop : input.unread.dropWhile isLineByte with
  | nil =>
    dsimp only
    split <;> exact List.nil_suffix
  | cons b rest =>
    rw [hdrop] at hsuffix
    exact (List.suffix_cons b rest).trans hsuffix

theorem isLine_of_line {input after : Input} {text : Bytes} (h : line input = (after, .ok text)) :
    after.failure = input.failure ∧
      ∃ segment, input.unread = segment ++ after.unread ∧ IsLine segment after text := by
  have hcut := Bytes.cut isLineByte input.unread
  have hbody : Bytes.newline ∉ input.unread.takeWhile isLineByte := by
    intro hmem
    exact isLineByte_eq_true.mp (hcut.front _ hmem) rfl
  unfold line at h
  dsimp only at h
  cases hdrop : input.unread.dropWhile isLineByte with
  | nil =>
    rw [hdrop] at h hcut
    dsimp only at h
    split_ifs at h with hended
    · cases h
    · cases h
      rw [not_or, Option.not_isSome_iff_eq_none] at hended
      refine ⟨rfl, _, hcut.eq, _, hbody, dropReturn_eq_iff.mp rfl, ?_⟩
      exact .inr ⟨rfl, hended.1, rfl, hended.2⟩
  | cons b rest =>
    rw [hdrop] at h hcut
    have hb : b = Bytes.newline := by simpa [isLineByte] using hcut.rest b rfl
    cases h
    refine ⟨rfl, _, ?_, _, hbody, dropReturn_eq_iff.mp rfl, .inl rfl⟩
    rw [List.append_assoc, List.singleton_append, ← hb]
    exact hcut.eq

theorem line_of_isLine {input after : Input} {segment text : Bytes}
    (hfailure : after.failure = input.failure) (hinput : input.unread = segment ++ after.unread)
    (h : IsLine segment after text) : line input = (after, .ok text) := by
  obtain ⟨body, hbody, hchomped, rfl | ⟨rfl, hne, hnil, hends⟩⟩ := h
  · rw [List.append_assoc, List.singleton_append] at hinput
    have hcut := cut_line hbody hinput (by simp)
    simp only [line, hcut.takeWhile_eq, hcut.dropWhile_eq, dropReturn_eq_iff.mpr hchomped]
    rw [← hfailure]
  · rw [hnil] at hinput
    have hcut := cut_line hbody hinput (by simp)
    have hgoes : ¬(segment = [] ∨ input.failure.isSome = true) := by
      rw [← hfailure, hends]
      simpa using hne
    simp only [line, hcut.takeWhile_eq, hcut.dropWhile_eq, if_neg hgoes,
      dropReturn_eq_iff.mpr hchomped]
    rw [← hfailure, ← hnil]

theorem reads_line : Reads line IsLine := by
  refine ⟨?_, suffix_line⟩
  intro input after text
  constructor
  · exact isLine_of_line
  · rintro ⟨hfailure, segment, hinput, hline⟩
    exact line_of_isLine hfailure hinput hline

end Scan

end Stackling
