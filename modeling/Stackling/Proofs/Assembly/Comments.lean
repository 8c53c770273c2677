import Mathlib.Tactic.Common
import Stackling.Proofs.Assembly.Stable

/-!
# Comments in text assembly

What happens when a comment is put after a line of a text that can be read.

* **words** — the words before the comment are those of the line, but the last one takes
  in the white space after it, up to a space or a tab (`Assembly.takeWords_annotate`);
* **lines** — so an instruction is read as before, unless there is such white space
  (`Assembly.readLine_kept`). Then a keyword, a kind or a number is no longer recognised,
  and a label is another label (`Assembly.Spells.padLast`);
* **texts** — the other lines do not change (`Assembly.exists_replace`), so what holds of
  the line holds of the unit (`Assembly.read_commented`).

Comments are looked for after the words of an instruction only. The headers and text
constants take none, and a line that is refused with a comment may be read without it
(`Assembly.comment_is_refused`).
-/

namespace Stackling

namespace Assembly

open Blank (IsBlankText Tight Fore Aft trim trimLeft trimRight)

/-! ## Words before a comment -/

/-- White space and a comment, which may stand after a text with a space between them. -/
structure IsNote (blanks note : Bytes) : Prop where
  blank : IsBlankText blanks
  tight : Tight note
  comment : isComment note = true

/-- A text with white space, a space and a comment after it. -/
def annotate (blanks note text : Bytes) : Bytes :=
  if text = [] then note else text ++ blanks ++ 32 :: note

theorem annotate_of_ne_nil {blanks note text : Bytes} (h : text ≠ []) :
    annotate blanks note text = text ++ (blanks ++ 32 :: note) := by
  rw [annotate, if_neg h, List.append_assoc]

/-- The white space that counts as a part of the word before it. -/
def padding (blanks : Bytes) : Bytes := blanks.takeWhile (!isSeparator ·)

section Annotate

variable {blanks note text : Bytes} (hnote : IsNote blanks note)

include hnote

theorem tight_annotate (htext : text = [] ∨ Tight text) : Tight (annotate blanks note text) := by
  rcases htext with rfl | htext
  · exact hnote.tight
  · rw [annotate, if_neg htext.fore.ne_nil]
    exact ⟨(htext.fore.append_blank hnote.blank).append (by decide) note,
      hnote.tight.aft.append (by decide) _⟩

/-- White space splits where a word ends. -/
theorem IsNote.split : IsBlankText (padding blanks) ∧
    IsBlankText (blanks.dropWhile (!isSeparator ·)) := by
  have hcut := Bytes.cut (!isSeparator ·) blanks
  refine IsBlankText.cut (hcut.eq ▸ hnote.blank) ?_
  intro b hb
  exact Blank.lt_of_one (one_of_isSeparator (by simpa using hcut.rest b hb))

/-- The last word of a text takes the white space after it up to a space or a tab. All
other words stay as they are. -/
theorem nextWord_annotate (htext : Tight text) :
    nextWord (annotate blanks note text) =
      ((nextWord text).1 ++ (if (nextWord text).2 = [] then padding blanks else []),
        annotate blanks note (nextWord text).2) := by
  have hwhole := (tight_annotate hnote (.inr htext)).trim_eq
  have hcut := Bytes.cut (!isSeparator ·) text
  generalize text.takeWhile (!isSeparator ·) = word at hcut
  generalize text.dropWhile (!isSeparator ·) = rest at hcut
  have hword : nextWord text = (word, trim rest) := nextWord_of_cut (htext.trim_eq.symm ▸ hcut)
  rw [annotate, if_neg htext.fore.ne_nil] at hwhole ⊢
  rw [hword]
  by_cases hnil : rest = []
  · -- the word is all of the text, and goes on into the white space
    obtain rfl : word = text := by rw [hcut.eq, hnil, List.append_nil]
    have hlast := ((Bytes.cut (!isSeparator ·) blanks).append (32 :: note)
      fun _ => by simp [isSeparator]).prepend hcut.front
    have hrest : trim (blanks.dropWhile (!isSeparator ·) ++ 32 :: note) = note := by
      have hblanks := hnote.split.2.append (.one (by decide) .nil : IsBlankText [32])
      simpa using hnote.tight.trim_blank_append hblanks
    rw [← List.append_assoc] at hlast
    rw [nextWord_of_cut (hwhole.symm ▸ hlast), hrest, hnil]
    rfl
  · have haft : Aft rest := Aft.of_append (hcut.eq ▸ htext.aft) hnil
    obtain ⟨htrim, hne⟩ := haft.trim_eq
    have hstrip := Blank.trimLeft_append_blank hne hnote.blank
    have hother := hcut.append (blanks ++ 32 :: note) fun h => absurd h hnil
    rw [← List.append_assoc, ← List.append_assoc] at hother
    rw [nextWord_of_cut (hwhole.symm ▸ hother),
      hnote.tight.fore.trim_append (by simp [hstrip, hne]), hnote.tight.aft.trimmed, hstrip, htrim,
      if_neg hne, List.append_nil, annotate, if_neg hne]

theorem takeWords_annotate {n : Nat} (htext : trim text = text)
    (hwords : ∀ w ∈ (takeWords n text).1, w ≠ []) :
    takeWords n (annotate blanks note text) =
      (padLast (if (takeWords n text).2 = [] then padding blanks else []) (takeWords n text).1,
        annotate blanks note (takeWords n text).2) := by
  induction n generalizing text with
  | zero =>
    have htight := tight_annotate hnote (eq_nil_or_tight htext)
    simp only [takeWords, padLast, htext, htight.trim_eq]
  | succ n ih =>
    obtain ⟨hfirst, hothers⟩ := List.forall_mem_cons.mp hwords
    have hnext := nextWord_annotate hnote (tight_of_nextWord htext hfirst)
    have hrest := trim_nextWord text
    simp only [takeWords, hnext, ih hrest hothers]
    cases n with
    | zero => simp only [takeWords, padLast, hrest]
    | succ n =>
      -- another word follows, so there is a rest
      have hne : (nextWord text).2 ≠ [] :=
        (tight_of_nextWord hrest (List.forall_mem_cons.mp hothers).1).fore.ne_nil
      rw [if_neg hne, List.append_nil]
      rfl

theorem ends_annotate {rest : Bytes} (h : Ends rest) : Ends (annotate blanks note rest) := by
  rw [annotate]
  split
  · exact .inr hnote.comment
  · rename_i hne
    obtain ⟨s, rfl⟩ := isComment_iff.mp (h.resolve_left hne)
    exact .inr (isComment_iff.mpr ⟨_, rfl⟩)

theorem annotate_ne_nil : annotate blanks note text ≠ [] := by
  rw [annotate]
  split
  · exact hnote.tight.fore.ne_nil
  · simp

/-- What is put after a text constant does not belong to it. -/
theorem not_quotes_annotate {keyword : Keyword} {i i' : Instruction} (htext : trim text = text)
    (h : Quotes keyword text i) : readInstruction keyword (annotate blanks note text) ≠ .ok i' := by
  obtain ⟨rfl, hkind, constant, hconstant, _⟩ := h
  have hword : (nextWord text).1 ≠ [] := by
    intro hnil
    rw [hnil] at hkind
    exact absurd hkind (by decide)
  have hrest : (nextWord text).2 ≠ [] := by
    intro hnil
    rw [hnil] at hconstant
    cases hconstant
  have hnext := nextWord_annotate hnote (tight_of_nextWord htext hword)
  rw [if_neg hrest, List.append_nil, annotate_of_ne_nil hrest] at hnext
  intro hread
  rcases readInstruction_eq_ok_iff.mp hread with hspelled | ⟨_, _, other, hother, _⟩
  · exact hspelled.upper_ne ⟨rfl, by rw [hnext]; exact hkind⟩
  · rw [hnext, Quoted.unquote?_append_eq_none hconstant (by simp)] at hother
    cases hother

/-- Where words spell an instruction, the words before the comment do so, if any
instruction is read. -/
theorem readInstruction_annotate {keyword : Keyword} {i i' : Instruction} (htext : trim text = text)
    (h : Spelled keyword text i) :
    readInstruction keyword (annotate blanks note text) = .ok i' ↔
      Spells keyword (padLast (if (takeWords keyword.arity text).2 = [] then padding blanks else [])
        (takeWords keyword.arity text).1) i' := by
  have hwords := takeWords_annotate hnote htext h.1.ne_nil
  have hquotes : ¬Quotes keyword (annotate blanks note text) i' := by
    rintro ⟨rfl, hkind, _⟩
    -- the word after the keyword is not the last one, so it stays as it is
    have hfirst := congrArg (fun taken => taken.1.head?) hwords
    simp only [Keyword.arity, takeWords, padLast, List.head?_cons, Option.some.injEq] at hfirst
    rw [hfirst] at hkind
    exact h.upper_ne ⟨rfl, hkind⟩
  rw [readInstruction_eq_ok_iff, or_iff_left hquotes, Spelled, hwords]
  exact and_iff_left (ends_annotate hnote h.2)

/-- The headers must end where they do. -/
theorem readItem_annotate_header {keyword : Keyword} {it it' : Item} (htext : trim text = text)
    (hkeyword : keyword = .unit ∨ keyword = .routine) (h : readItem keyword text = .ok it) :
    readItem keyword (annotate blanks note text) ≠ .ok it' := by
  intro h'
  have hrest := (words_of_header hkeyword h').2
  rw [takeWords_annotate hnote htext (words_of_header hkeyword h).1] at hrest
  exact annotate_ne_nil hnote hrest

end Annotate

/-! ## Lines before a comment -/

/-- White space at the end of a line that its last word takes in as soon as something
follows: up to the first space or tab. -/
def overhang (line : Bytes) : Bytes := padding ((trimLeft line).drop (trim line).length)

/-- Whether a comment may follow what a keyword announces, if `rest` follows the keyword
and the line ends with the white space `overhang`. A header takes no comment, and neither
does a text constant. Other instructions do, unless they end with white space that their
last word would take in. -/
def Keyword.takesComment (keyword : Keyword) (rest overhang : Bytes) : Bool :=
  match keyword with
  | unit | routine => false
  | _ =>
    !(keyword == push && LetterCase.upper (nextWord rest).1 == ascii "TEXT") &&
      (overhang == [] || (takeWords keyword.arity rest).2 != [])

/-- Whether a comment may be put after a line. -/
def takesComment (line : Bytes) : Bool :=
  let (word, rest) := nextWord line
  word == [] || isComment word || (keyword? word).any (·.takesComment rest (overhang line))

theorem Keyword.takesComment_iff {keyword : Keyword} {rest overhang : Bytes}
    (hunit : keyword ≠ .unit) (hroutine : keyword ≠ .routine) :
    keyword.takesComment rest overhang = true ↔
      ¬(keyword = .push ∧ LetterCase.upper (nextWord rest).1 = ascii "TEXT") ∧
        (overhang = [] ∨ (takeWords keyword.arity rest).2 ≠ []) := by
  cases keyword <;> simp_all [takesComment]

theorem Keyword.takesComment_nil {keyword : Keyword} {overhang : Bytes}
    (h : keyword.takesComment [] overhang = true) : overhang = [] := by
  cases keyword <;> simp_all [takesComment, takeWords_nil]

/-- Whatever follows the slashes, they are kept. -/
theorem isComment_trimRight (comment : Bytes) :
    isComment (trimRight (47 :: 47 :: comment)) = true := by
  have hfore : Fore (47 :: 47 :: comment) := Blank.fore_of_stops (by decide) _
  obtain ⟨blanks, hblanks, hsplit⟩ := Blank.trimRight_spec (47 :: 47 :: comment)
  have hne := hfore.trimRight_ne_nil
  generalize trimRight (47 :: 47 :: comment) = note at hsplit hne ⊢
  rcases note with _ | ⟨a, _ | ⟨b, s⟩⟩
  · exact absurd rfl hne
  · -- white space does not start with a slash
    obtain ⟨_, rfl⟩ := List.cons.inj hsplit
    exact absurd (hblanks.not_stops 47 List.mem_cons_self) (by decide)
  · simp only [List.cons_append, List.cons.injEq] at hsplit
    obtain ⟨rfl, rfl, _⟩ := hsplit
    exact isComment_iff.mpr ⟨s, rfl⟩

theorem exists_note (line comment : Bytes) : ∃ blanks note, IsNote blanks note ∧
    overhang line = padding blanks ∧
    trim (line ++ ascii " //" ++ comment) = annotate blanks note (trim line) := by
  obtain ⟨blanks, hblanks, hline⟩ := Blank.trimRight_spec (trimLeft line)
  have hfore : Fore (47 :: 47 :: comment) := Blank.fore_of_stops (by decide) _
  have hslashes : line ++ ascii " //" ++ comment = line ++ 32 :: 47 :: 47 :: comment := by
    rw [List.append_assoc]
    rfl
  refine ⟨blanks, trimRight (47 :: 47 :: comment), ⟨hblanks,
    ⟨hfore.fore_trimRight, hfore.aft_trimRight⟩, isComment_trimRight comment⟩, ?_, ?_⟩
  · rw [overhang, hline, trim, List.drop_left]
  · rw [hslashes]
    by_cases hnil : trimLeft line = []
    · obtain ⟨front, hfront, hfront'⟩ := Blank.trimLeft_spec line
      have hspace := hfront.append (.one (by decide) .nil : IsBlankText [32])
      rw [hnil, List.append_nil] at hfront'
      have htrim : trim (front ++ [32] ++ 47 :: 47 :: comment)
          = trimRight (47 :: 47 :: comment) := by
        rw [trim, Blank.trimLeft_append hspace, hfore.trimmed]
      rw [List.append_assoc, List.singleton_append, ← hfront'] at htrim
      rw [htrim, trim, hnil]
      rfl
    · have hne : trim line ≠ [] := Fore.trimRight_ne_nil ⟨hnil, Blank.trimLeft_trimLeft line⟩
      rw [hfore.trim_append hnil, annotate, if_neg hne, trim, ← hline]

theorem readLine_congr {line line' : Bytes} (h : trim line = trim line') (progress : Progress) :
    readLine progress line = readLine progress line' := by
  rw [readLine, readLine, nextWord_congr h]

/-- Something that is read as a given value if a condition holds, and only then. If it is
read at all, then as a value with the same view. -/
structure KeptIf {ε α β : Type} (view : α → β) (condition : Prop) (a : α) (x : Except ε α) :
    Prop where
  same : x = .ok a ↔ condition
  alike : ∀ b, x = .ok b → view b = view a

section KeptIf

variable {ε α β : Type} {view : α → β} {condition : Prop} {a : α} {x : Except ε α}

theorem KeptIf.of_ok (h : x = .ok a) (hcondition : condition) : KeptIf view condition a x := by
  refine ⟨iff_of_true h hcondition, fun b hb => ?_⟩
  rw [Except.ok.inj (h.symm.trans hb)]

theorem KeptIf.of_refused (h : ∀ b, x ≠ .ok b) (hcondition : ¬condition) :
    KeptIf view condition a x :=
  ⟨iff_of_false (h a) hcondition, fun b hb => absurd hb (h b)⟩

theorem KeptIf.map {γ δ : Type} {f : α → γ} {view' : γ → δ} (h : KeptIf view condition a x)
    (hf : Function.Injective f) (hview : ∀ b, view b = view a → view' (f b) = view' (f a)) :
    KeptIf view' condition (f a) (f <$> x) := by
  constructor
  · rw [map_eq_ok, ← h.same]
    constructor
    · rintro ⟨b, hb, hfb⟩
      rwa [← hf hfb]
    · exact fun ha => ⟨a, ha, rfl⟩
  · intro c hc
    obtain ⟨b, hb, rfl⟩ := map_eq_ok.mp hc
    exact hview b (h.alike b hb)

end KeptIf

section Lines

variable {blanks note text : Bytes} (hnote : IsNote blanks note)

include hnote

theorem readInstruction_kept {keyword : Keyword} {i : Instruction} (htext : trim text = text)
    (hedge : text ≠ [] ∨ padding blanks = []) (h : readInstruction keyword text = .ok i) :
    KeptIf Instruction.trimmed (keyword.takesComment text (padding blanks) = true) i
      (readInstruction keyword (annotate blanks note text)) := by
  have hunit : keyword ≠ .unit := by
    rintro rfl
    cases h
  have hroutine : keyword ≠ .routine := by
    rintro rfl
    cases h
  have htakes := @Keyword.takesComment_iff keyword text (padding blanks) hunit hroutine
  rcases readInstruction_eq_ok_iff.mp h with hspelled | hquotes
  · have hread := fun i' => @readInstruction_annotate _ _ _ hnote keyword i i' htext hspelled
    by_cases hrest : (takeWords keyword.arity text).2 = []
    · simp only [if_pos hrest] at hread
      by_cases hpad : padding blanks = []
      · refine .of_ok ((hread i).mpr ?_) (htakes.mpr ⟨hspelled.upper_ne, .inl hpad⟩)
        rw [hpad, padLast_nil]
        exact hspelled.1
      · have hws : (takeWords keyword.arity text).1 ≠ [] := by
          intro hnil
          have harity : keyword.arity = 0 := by rw [← hspelled.1.length_eq, hnil, List.length_nil]
          rw [harity, takeWords, htext] at hrest
          exact hedge.resolve_right hpad hrest
        have hother := fun i' hok => hspelled.1.padLast hws hnote.split.1 hpad ((hread i').mp hok)
        refine ⟨iff_of_false (fun hok => (hother i hok).1 rfl) ?_, fun i' hok => (hother i' hok).2⟩
        exact fun h => (htakes.mp h).2.elim hpad fun hne => hne hrest
    · simp only [if_neg hrest, padLast_nil] at hread
      exact .of_ok ((hread i).mpr hspelled.1) (htakes.mpr ⟨hspelled.upper_ne, .inr hrest⟩)
  · refine .of_refused (fun i' => not_quotes_annotate hnote htext hquotes) ?_
    exact fun h => (htakes.mp h).1 ⟨hquotes.1, hquotes.2.1⟩

theorem readItem_kept {keyword : Keyword} {it : Item} (htext : trim text = text)
    (hedge : text ≠ [] ∨ padding blanks = []) (h : readItem keyword text = .ok it) :
    KeptIf Item.trimmed (keyword.takesComment text (padding blanks) = true) it
      (readItem keyword (annotate blanks note text)) := by
  by_cases hheader : keyword = .unit ∨ keyword = .routine
  · refine .of_refused (fun it' => readItem_annotate_header hnote htext hheader h) ?_
    rcases hheader with rfl | rfl <;> exact Bool.false_ne_true
  · rw [not_or] at hheader
    rw [readItem_instruction hheader.1 hheader.2] at h ⊢
    obtain ⟨i, hi, rfl⟩ := map_eq_ok.mp h
    exact (readInstruction_kept hnote htext hedge hi).map (fun _ _ => Item.code.inj)
      fun _ => congrArg Item.code

theorem isIdle_annotate (htext : trim text = text) (h : IsIdle text) :
    IsIdle (annotate blanks note text) := by
  rcases eq_nil_or_tight htext with rfl | htight
  · obtain ⟨s, hs⟩ := isComment_iff.mp hnote.comment
    refine .inr (isComment_iff.mpr ⟨s.takeWhile (!isSeparator ·), ?_⟩)
    show (trim note).takeWhile _ = _
    rw [hnote.tight.trim_eq, hs]
    rfl
  · obtain ⟨s, hs⟩ := isComment_iff.mp (h.resolve_left (nextWord_ne_nil htight))
    rw [IsIdle, nextWord_annotate hnote htight, hs]
    exact .inr (isComment_iff.mpr ⟨_, rfl⟩)

end Lines

theorem readLine_kept_of_item {progress : Progress} {line : Bytes} {keyword : Keyword} {it : Item}
    {condition : Prop} (hkeyword : keyword? (nextWord line).1 = some keyword)
    (hallows : progress.Allows it)
    (h : KeptIf Item.trimmed condition it (readItem keyword (nextWord line).2)) :
    KeptIf (Option.map Item.trimmed) condition (some it) (readLine progress line) := by
  constructor
  · rw [readLine_of_keyword? hkeyword, ← h.same]
    constructor
    · rintro ⟨it', hit', _, heq⟩
      rwa [Option.some.inj heq]
    · exact fun hsame => ⟨it, hsame, hallows, rfl⟩
  · intro item hitem
    obtain ⟨it', hit', _, rfl⟩ := (readLine_of_keyword? hkeyword).mp hitem
    exact congrArg some (h.alike it' hit')

/-- A line is refused if white space belongs to its keyword. -/
theorem readLine_padded {progress : Progress} {line word pad : Bytes} {keyword : Keyword}
    (hkeyword : keyword? word = some keyword) (hpad : IsBlankText pad) (hne : pad ≠ [])
    (h : (nextWord line).1 = word ++ pad) (item : Option Item) :
    readLine progress line ≠ .ok item := by
  obtain ⟨hword, hslash⟩ := keyword?_eq_some hkeyword
  intro hitem
  rcases isIdle_or_keyword? hitem with hidle | ⟨other, hother⟩
  · rw [IsIdle, h] at hidle
    obtain ⟨a, s, rfl⟩ := List.exists_cons_of_ne_nil hword
    obtain ⟨t, ht⟩ := isComment_iff.mp (hidle.resolve_left (by simp))
    obtain ⟨rfl, _⟩ := List.cons.inj ht
    exact hslash List.mem_cons_self
  · rw [h, keyword?_append hpad hne] at hother
    cases hother

/-- A line is read as before if it takes a comment. If it is read at all, it is read as
before but for white space at the end of a label. -/
theorem readLine_kept {progress : Progress} {line : Bytes} {item : Option Item}
    (h : readLine progress line = .ok item) (comment : Bytes) :
    KeptIf (Option.map Item.trimmed) (takesComment line = true) item
      (readLine progress (line ++ ascii " //" ++ comment)) := by
  obtain ⟨blanks, note, hnote, hoverhang, htrim⟩ := exists_note line comment
  have htext : trim (trim line) = trim line := Blank.trim_trim line
  have hwords : nextWord (trim line) = nextWord line := nextWord_congr htext
  have htrim' : trim (line ++ ascii " //" ++ comment)
      = trim (annotate blanks note (trim line)) := by
    rw [htrim, (tight_annotate hnote (eq_nil_or_tight htext)).trim_eq]
  rw [readLine_congr htrim']
  rcases isIdle_or_keyword? h with hidle | ⟨keyword, hkeyword⟩
  · obtain rfl := Except.ok.inj (h.symm.trans (hidle.readLine progress))
    have hidle' : IsIdle (trim line) := by rwa [IsIdle, hwords]
    refine .of_ok ((isIdle_annotate hnote htext hidle').readLine progress) ?_
    rcases hidle with hnil | hcomment
    · simp [takesComment, hnil]
    · simp [takesComment, hcomment]
  · obtain ⟨it, hit, hallows, rfl⟩ := (readLine_of_keyword? hkeyword).mp h
    have hne := (keyword?_eq_some hkeyword).1
    have hnext := nextWord_annotate hnote (tight_of_nextWord htext (by rwa [hwords]))
    rw [hwords] at hnext
    have htakes : takesComment line = keyword.takesComment (nextWord line).2 (padding blanks) := by
      have hbusy := not_isIdle_of_keyword? hkeyword
      simp only [IsIdle, not_or, Bool.not_eq_true] at hbusy
      simp [takesComment, hkeyword, hoverhang, hbusy]
    rw [htakes]
    by_cases hedge : (nextWord line).2 ≠ [] ∨ padding blanks = []
    · have hpad : (if (nextWord line).2 = [] then padding blanks else []) = [] := by
        split
        · exact hedge.resolve_left (not_not.mpr ‹_›)
        · rfl
      rw [hpad, List.append_nil] at hnext
      refine readLine_kept_of_item (by rw [hnext]; exact hkeyword) hallows ?_
      rw [hnext]
      exact readItem_kept hnote (trim_nextWord line) hedge hit
    · -- the keyword is all of the line
      rw [not_or, not_not] at hedge
      rw [if_pos hedge.1] at hnext
      refine .of_refused (readLine_padded hkeyword hnote.split.1 hedge.2 (by rw [hnext])) ?_
      rw [hedge.1]
      exact fun htakes => hedge.2 (Keyword.takesComment_nil htakes)

/-! ## Texts with a comment -/

theorem foldl_after_of_trimmed {progress : Progress} {item item' : Option Item}
    (h : item'.map Item.trimmed = item.map Item.trimmed) :
    item'.toList.foldl Progress.after progress = item.toList.foldl Progress.after progress := by
  have hafter : ∀ item : Option Item, item.toList.foldl Progress.after progress
      = (item.map Item.trimmed).toList.foldl Progress.after progress := by
    intro item
    cases item with
    | none => rfl
    | some it => exact (progress.after_trimmed it).symm
  rw [hafter, h, ← hafter]

theorem eq_of_items_eq {unit unit' : AsmUnit} (hunit : unit.IsLegible) (hunit' : unit'.IsLegible)
    (h : unit.items = unit'.items) : unit = unit' := by
  have hgroup := group_items hunit
  rw [h, group_items hunit'] at hgroup
  obtain ⟨hname, _⟩ := List.cons.inj h
  cases unit
  cases unit'
  simp_all

/-- One line of a text that was read can be replaced by another one that is read alike: the
items of all other lines stay. -/
theorem exists_replace {before line after : Bytes} {unit : AsmUnit}
    (hline : Bytes.IsLine before line after)
    (h : read (.ofBytes (before ++ line ++ after)) = .ok unit) :
    ∃ progress item front back, readLine progress line = .ok item ∧
      unit.items = front ++ (item.toList ++ back) ∧
      ∀ line', Bytes.newline ∉ line' →
        (∀ item', readLine progress line' = .ok item' →
          item'.map Item.trimmed = item.map Item.trimmed) →
        ∀ items,
          readLines .start 1 (Input.lines (.ofBytes (before ++ line' ++ after))) = .ok items ↔
            ∃ item', readLine progress line' = .ok item' ∧
              items = front ++ (item'.toList ++ back) := by
  obtain ⟨lines, ending, rest, hending, hall⟩ := hline.exists_allLines
  have hblank : ∀ progress text, readLine progress (text ++ ending) = readLine progress text :=
    fun progress text => readLine_congr (Blank.trim_append hending text) progress
  have hitems := items_of_read h
  rw [readLines_allLines, hall line hline.one_line] at hitems
  obtain ⟨front, _, hfront, htail, hunit⟩ := readLines_append.mp hitems
  obtain ⟨item, back, hitem, hback, rfl⟩ := readLines_cons.mp htail
  rw [hblank] at hitem
  refine ⟨_, item, front, back, hitem, hunit, fun line' hline' halike items => ?_⟩
  rw [readLines_allLines, hall line' hline', readLines_append]
  constructor
  · rintro ⟨front', _, hfront', htail', rfl⟩
    obtain rfl := Except.ok.inj (hfront.symm.trans hfront')
    obtain ⟨item', back', hitem', hback', rfl⟩ := readLines_cons.mp htail'
    rw [hblank] at hitem'
    rw [foldl_after_of_trimmed (halike item' hitem'), hback] at hback'
    obtain rfl := Except.ok.inj hback'
    exact ⟨item', hitem', rfl⟩
  · rintro ⟨item', hitem', rfl⟩
    refine ⟨front, _, hfront, readLines_cons.mpr ⟨item', back, ?_, ?_, rfl⟩, rfl⟩
    · rwa [hblank]
    · rwa [foldl_after_of_trimmed (halike item' hitem')]

/-- A comment after a line of a text that was read. The text is read as the same unit if
and only if the line takes a comment. If it is read at all, then as a unit with the same
name, routines and instructions but for white space at the ends of labels. -/
theorem read_commented {before line after comment : Bytes} {unit : AsmUnit}
    (hline : Bytes.IsLine before line after) (hcomment : Bytes.newline ∉ comment)
    (h : read (.ofBytes (before ++ line ++ after)) = .ok unit) :
    (read (.ofBytes (before ++ (line ++ ascii " //" ++ comment) ++ after)) = .ok unit ↔
        takesComment line = true) ∧
      ∀ unit', read (.ofBytes (before ++ (line ++ ascii " //" ++ comment) ++ after)) = .ok unit' →
        unit'.trimmed = unit.trimmed := by
  obtain ⟨progress, item, front, back, hitem, hunit, hreplace⟩ := exists_replace hline h
  have hkept := readLine_kept hitem comment
  have hnewline : Bytes.newline ∉ line ++ ascii " //" ++ comment := by
    simp only [List.mem_append, not_or]
    exact ⟨⟨hline.one_line, by decide⟩, hcomment⟩
  have hitems := hreplace _ hnewline hkept.alike
  constructor
  · rw [← hkept.same]
    constructor
    · intro hread
      obtain ⟨item', hitem', heq⟩ := (hitems _).mp (items_of_read hread)
      rw [hunit] at heq
      have hlist := List.append_cancel_right (List.append_cancel_left heq)
      have hsame : item = item' := by simpa using congrArg List.head? hlist
      rwa [hsame]
    · intro hsame
      exact read_of_items (legible_of_read h) rfl ((hitems _).mpr ⟨item, hsame, hunit⟩)
  · intro unit' hread
    obtain ⟨item', hitem', heq⟩ := (hitems _).mp (items_of_read hread)
    refine eq_of_items_eq (legible_of_read hread).trimmed (legible_of_read h).trimmed ?_
    rw [AsmUnit.items_trimmed, AsmUnit.items_trimmed, heq, hunit]
    simp only [List.map_append, ← Option.toList_map, hkept.alike item' hitem']

/-- The headers of a unit with one routine. -/
def header : Bytes := ascii "UNIT u\nROUTINE main 0\n"

/-- The unit with these headers and one instruction. -/
def lone (i : Instruction) : AsmUnit where
  name := ascii "u"
  routines := [{ name := ascii "main", locals := 0, code := [i] }]

/-- A jump between spaces and tabs takes a comment. -/
theorem read_commented_jump :
    read (.ofBytes (header ++ ascii "\tgoto L\t" ++ ascii "\n")) = .ok (lone (.jump (ascii "L"))) ∧
      read (.ofBytes
          (header ++ (ascii "\tgoto L\t" ++ ascii " //" ++ ascii " \"c\"") ++ ascii "\n"))
        = .ok (lone (.jump (ascii "L"))) := by
  have hline : Bytes.IsLine header (ascii "\tgoto L\t") (ascii "\n") :=
    ⟨.inr ⟨ascii "UNIT u\nROUTINE main 0", by decide⟩, by decide, .inr ⟨[], rfl⟩⟩
  have hread : read (.ofBytes (header ++ ascii "\tgoto L\t" ++ ascii "\n"))
      = .ok (lone (.jump (ascii "L"))) := by
    decide +kernel
  exact ⟨hread, (read_commented hline (by decide) hread).1.mpr (by decide +kernel)⟩

/-- A text constant takes no comment, and the headers take none. -/
theorem comment_is_refused :
    read (.ofBytes (header ++ ascii "\tPUSH TEXT \"a\"\n")) = .ok (lone (.pushText (ascii "a"))) ∧
      read (.ofBytes (header ++ ascii "\tPUSH TEXT \"a\" // c\n"))
        = .error (.line 3 (.textConstant (ascii "\"a\" // c"))) ∧
      read (.ofBytes (ascii "UNIT u // c\n")) = .error (.line 1 .unitName) ∧
      read (.ofBytes (ascii "UNIT u\nROUTINE main 0 // c\n"))
        = .error (.line 2 (.unexpected (ascii "// c"))) := by
  decide +kernel

end Assembly

end Stackling
