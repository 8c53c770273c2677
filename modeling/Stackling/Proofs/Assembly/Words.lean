import Mathlib.Tactic.Common
import Stackling.Proofs.Assembly.RoundTrip
import Stackling.Proofs.Program.Emits

/-!
# What is read from words

When text assembly can be read, and what from: the conditions, one for each part of the
reader, without the way it takes.

* **instructions** — words spell an instruction after its keyword (`Assembly.Spells`). An
  instruction is read from the words that spell it, if nothing or a comment follows them,
  and otherwise it is the push of a text constant (`Assembly.readInstruction_eq_ok_iff`);
* **lines** — a line that does not start with a keyword is idle
  (`Assembly.isIdle_or_keyword?`). Other lines are read as what the keyword announces,
  where that is allowed (`Assembly.readLine_of_keyword?`);
* **units** — lines are read one after the other (`Assembly.readLines_append`), and what is
  read are the items of the unit (`Assembly.items_of_read`).
-/

namespace Stackling

/-! ## Words from a table -/

/-- Bytes that are no small letter, and no part of a character with an ASCII capital,
are kept. -/
theorem LetterCase.mem_upper {b : UInt8} {s : Bytes}
    (hb : b.toNat < 97 ∨ b.toNat = 0xC2 ∨ 0xE1 ≤ b.toNat) (h : b ∈ s) : b ∈ upper s := by
  have hbyte : upperByte b = b := by
    refine if_neg ?_
    simp only [Bool.and_eq_true, decide_eq_true_eq, UInt8.le_iff_toNat_le, UInt8.reduceToNat]
    omega
  -- the bytes of the long s and of the dotless i
  have hne : b ≠ 0xC5 ∧ b ≠ 0xBF ∧ b ≠ 0xC4 ∧ b ≠ 0xB1 := by
    refine ⟨?_, ?_, ?_, ?_⟩ <;> rintro rfl <;> exact absurd hb (by decide)
  fun_induction upper s with
  | case1 => exact h
  | case2 a =>
    obtain rfl := List.mem_singleton.mp h
    exact List.mem_singleton.mpr hbyte.symm
  | case3 a c s hac ih =>
    simp only [Bool.and_eq_true, beq_iff_eq] at hac
    obtain ⟨rfl, rfl⟩ := hac
    simp only [List.mem_cons, hne, false_or] at h
    exact List.mem_cons_of_mem _ (ih h)
  | case4 a c s _ hac ih =>
    simp only [Bool.and_eq_true, beq_iff_eq] at hac
    obtain ⟨rfl, rfl⟩ := hac
    simp only [List.mem_cons, hne, false_or] at h
    exact List.mem_cons_of_mem _ (ih h)
  | case5 a c s _ _ ih =>
    rcases List.mem_cons.mp h with rfl | h
    · rw [hbyte]
      exact List.mem_cons_self
    · exact List.mem_cons_of_mem _ (ih h)

namespace Assembly

theorem mem_of_lookup {β : Type} {entries : List (Bytes × β)} {word : Bytes} {b : β}
    (h : entries.lookup word = some b) : (word, b) ∈ entries := by
  obtain ⟨first, rest, rfl, _⟩ := List.lookup_eq_some_iff.mp h
  simp

/-- A capital letter of ASCII. -/
def isCapital (b : UInt8) : Bool := 65 ≤ b && b ≤ 90

/-- A table of words in capitals has no word with other letters or marks. -/
theorem isCapital_of_lookup {β : Type} {entries : List (Bytes × β)} {word : Bytes} {b : β}
    (hall : entries.all (fun entry => entry.1.all isCapital) = true)
    (h : entries.lookup (LetterCase.upper word) = some b) {a : UInt8}
    (ha : a.toNat < 97 ∨ a.toNat = 0xC2 ∨ 0xE1 ≤ a.toNat) (hmem : a ∈ word) :
    65 ≤ a.toNat ∧ a.toNat ≤ 90 := by
  have hcapital : isCapital a = true :=
    List.all_eq_true.mp (List.all_eq_true.mp hall _ (mem_of_lookup h)) a
      (LetterCase.mem_upper ha hmem)
  simpa [isCapital, UInt8.le_iff_toNat_le] using hcapital

/-- So white space ends no word of it. -/
theorem lookup_upper_append {β : Type} {entries : List (Bytes × β)} {word pad : Bytes}
    (hall : entries.all (fun entry => entry.1.all isCapital) = true)
    (hpad : Blank.IsBlankText pad) (hne : pad ≠ []) :
    entries.lookup (LetterCase.upper (word ++ pad)) = none := by
  obtain ⟨a, s, rfl⟩ := List.exists_cons_of_ne_nil hne
  have hrange := hpad.head_range
  by_contra hsome
  obtain ⟨b, hb⟩ := Option.ne_none_iff_exists'.mp hsome
  have hcapital := @isCapital_of_lookup _ _ _ _ hall hb a (by omega) (by simp)
  omega

theorem keyword?_append {word pad : Bytes} (hpad : Blank.IsBlankText pad) (hne : pad ≠ []) :
    keyword? (word ++ pad) = none :=
  lookup_upper_append (by decide) hpad hne

theorem kind?_append {word pad : Bytes} (hpad : Blank.IsBlankText pad) (hne : pad ≠ []) :
    kind? (word ++ pad) = none :=
  lookup_upper_append (by decide) hpad hne

/-- White space ends no integer. -/
theorem toInt32?_append {word pad : Bytes} (hpad : Blank.IsBlankText pad) (hne : pad ≠ []) :
    Decimal.toInt32? (word ++ pad) = none := by
  obtain ⟨a, s, rfl⟩ := List.exists_cons_of_ne_nil hne
  have hrange := hpad.head_range
  by_contra hsome
  obtain ⟨n, hn⟩ := Option.ne_none_iff_exists'.mp hsome
  have hbyte := (Decimal.toInt32?_eq_some_iff.mp hn).mem_range (b := a) (by simp)
  omega

theorem isComment_iff {text : Bytes} :
    isComment text = true ↔ ∃ s, text = 47 :: 47 :: s := by
  rw [isComment, List.isPrefixOf_iff_prefix]
  exact ⟨fun ⟨s, hs⟩ => ⟨s, hs.symm⟩, fun ⟨s, hs⟩ => ⟨s, hs.symm⟩⟩

/-- A keyword is a word, and starts no comment. -/
theorem keyword?_eq_some {word : Bytes} {keyword : Keyword} (h : keyword? word = some keyword) :
    word ≠ [] ∧ 47 ∉ word := by
  refine ⟨?_, fun hmem => ?_⟩
  · rintro rfl
    cases h
  · exact absurd (isCapital_of_lookup (by decide) h (by decide) hmem) (by decide)

/-! ## Words of a line -/

theorem nextWord_of_cut {line word rest : Bytes}
    (h : Bytes.Cut (!isSeparator ·) (Blank.trim line) word rest) :
    nextWord line = (word, Blank.trim rest) := by
  rw [nextWord, h.takeWhile_eq, h.dropWhile_eq]

theorem eq_nil_or_tight {text : Bytes} (h : Blank.trim text = text) :
    text = [] ∨ Blank.Tight text := by
  by_cases hnil : text = []
  · exact .inl hnil
  · exact .inr (h ▸ Blank.tight_trim (h.symm ▸ hnil))

theorem tight_of_nextWord {text : Bytes} (h : Blank.trim text = text)
    (hword : (nextWord text).1 ≠ []) : Blank.Tight text := by
  refine (eq_nil_or_tight h).resolve_left ?_
  rintro rfl
  exact hword rfl

theorem trim_nextWord (line : Bytes) : Blank.trim (nextWord line).2 = (nextWord line).2 :=
  Blank.trim_trim _

theorem one_of_isSeparator {b : UInt8} (h : isSeparator b = true) : Blank.one b = true := by
  simp only [isSeparator, Bool.or_eq_true, beq_iff_eq] at h
  rcases h with rfl | rfl <;> rfl

/-- Text that does not start with white space starts with a word. -/
theorem nextWord_ne_nil {text : Bytes} (h : Blank.Tight text) : (nextWord text).1 ≠ [] := by
  have hstarts := Blank.not_starts_iff.mpr h.fore.trimmed
  obtain ⟨a, s, rfl⟩ := List.exists_cons_of_ne_nil h.fore.ne_nil
  intro hnil
  have hone : Blank.one a = true := by
    apply one_of_isSeparator
    simpa [nextWord, h.trim_eq, List.takeWhile_cons] using hnil
  rcases s with _ | ⟨b, _ | ⟨c, s⟩⟩ <;> simp [Blank.starts, hone] at hstarts

/-! ## Instructions as words -/

/-- The first words of a line, and the rest of the line without white space at its
ends. -/
def takeWords : Nat → Bytes → List Bytes × Bytes
  | 0, line => ([], Blank.trim line)
  | n + 1, line =>
    ((nextWord line).1 :: (takeWords n (nextWord line).2).1, (takeWords n (nextWord line).2).2)

theorem takeWords_nil (n : Nat) : (takeWords n []).2 = [] := by
  induction n with
  | zero => rfl
  | succ n ih => exact ih

/-- How many words follow a keyword. -/
def Keyword.arity : Keyword → Nat
  | push | load | store | branch | routine => 2
  | jump | label | print | unit => 1
  | plain _ => 0

/-- The words that spell an instruction after its keyword. A text constant is no word,
since there may be spaces in it. -/
inductive Spells : Keyword → List Bytes → Instruction → Prop
  | pushInt {kind value : Bytes} {n : Int32} (hkind : LetterCase.upper kind = ascii "INT")
      (hvalue : Decimal.toInt32? value = some n) : Spells .push [kind, value] (.pushInt n)
  | load {kind slot : Bytes} {k : Kind} {n : Int32} (hkind : kind? kind = some k)
      (hslot : Decimal.toInt32? slot = some n) (hnonneg : ¬n < 0) :
      Spells .load [kind, slot] (.load k n)
  | store {kind slot : Bytes} {k : Kind} {n : Int32} (hkind : kind? kind = some k)
      (hslot : Decimal.toInt32? slot = some n) (hnonneg : ¬n < 0) :
      Spells .store [kind, slot] (.store k n)
  | branch {relation target : Bytes} {r : Relation} (hrelation : relation? relation = some r)
      (hne : target ≠ []) : Spells .branch [relation, target] (.branch r target)
  | jump {target : Bytes} (hne : target ≠ []) : Spells .jump [target] (.jump target)
  | label {target : Bytes} (hne : target ≠ []) : Spells .label [target] (.label target)
  | print {kind : Bytes} {k : Kind} (hkind : kind? kind = some k) :
      Spells .print [kind] (.print k)
  | plain (i : Instruction) : Spells (.plain i) [] i

theorem Spells.length_eq {keyword : Keyword} {ws : List Bytes} {i : Instruction}
    (h : Spells keyword ws i) : ws.length = keyword.arity := by
  cases h <;> rfl

theorem Spells.ne_nil {keyword : Keyword} {ws : List Bytes} {i : Instruction}
    (h : Spells keyword ws i) : ∀ w ∈ ws, w ≠ [] := by
  have hupper : LetterCase.upper [] ≠ ascii "INT" := by decide
  have hkind : kind? [] = none := rfl
  have hrelation : relation? [] = none := rfl
  have hinteger : Decimal.toInt32? [] = none := rfl
  cases h <;> grind

/-- Words, the last of which goes on with white space. -/
def padLast (pad : Bytes) : List Bytes → List Bytes
  | [] => []
  | [w] => [w ++ pad]
  | w :: ws => w :: padLast pad ws

theorem padLast_nil (ws : List Bytes) : padLast [] ws = ws := by
  fun_induction padLast [] ws <;> simp_all

/-- Only a label may end with white space, and then it is another label. -/
theorem Spells.padLast {keyword : Keyword} {ws : List Bytes} {i i' : Instruction} {pad : Bytes}
    (h : Spells keyword ws i) (hws : ws ≠ []) (hpad : Blank.IsBlankText pad) (hne : pad ≠ [])
    (h' : Spells keyword (padLast pad ws) i') : i' ≠ i ∧ i'.trimmed = i.trimmed := by
  have hlabel : ∀ target : Label, target ++ pad ≠ target ∧
      Blank.trimRight (target ++ pad) = Blank.trimRight target := by
    intro target
    exact ⟨by simpa using hne, Blank.trimRight_append hpad target⟩
  cases h with
  | pushInt | load | store =>
    cases h'
    exact absurd ‹Decimal.toInt32? (_ ++ pad) = some _› (by simp [toInt32?_append hpad hne])
  | print =>
    cases h'
    exact absurd ‹kind? (_ ++ pad) = some _› (by simp [kind?_append hpad hne])
  | @branch _ target _ hrelation =>
    cases h' with
    | branch hrelation' =>
      obtain rfl := Option.some.inj (hrelation.symm.trans hrelation')
      simp [Instruction.trimmed, hlabel target]
  | @jump target =>
    cases h' with
    | jump => simp [Instruction.trimmed, hlabel target]
  | @label target =>
    cases h' with
    | label => simp [Instruction.trimmed, hlabel target]
  | plain => exact absurd rfl hws

/-- What may follow the words of an instruction. -/
def Ends (rest : Bytes) : Prop := rest = [] ∨ isComment rest = true

/-- A push of the text constant that a line holds. -/
def Quotes (keyword : Keyword) (line : Bytes) (i : Instruction) : Prop :=
  keyword = .push ∧ LetterCase.upper (nextWord line).1 = ascii "TEXT" ∧
    ∃ text, Quoted.unquote? (nextWord line).2 = some text ∧ i = .pushText text

theorem finish_eq_ok_iff {i j : Instruction} {rest : Bytes} :
    finish i rest = .ok j ↔ i = j ∧ Ends (Blank.trim rest) := by
  simp only [finish, Ends]
  split
  · simp_all
  · simp_all

theorem readInteger_eq_ok_iff {line rest : Bytes} {n : Int32} :
    readInteger line = .ok (n, rest) ↔
      Decimal.toInt32? (nextWord line).1 = some n ∧ (nextWord line).2 = rest := by
  simp only [readInteger]
  split
  · rename_i hn
    simp [hn]
  · rename_i hnone
    simp [hnone]

/-- A line whose first words spell an instruction, and which then ends. -/
def Spelled (keyword : Keyword) (line : Bytes) (i : Instruction) : Prop :=
  Spells keyword (takeWords keyword.arity line).1 i ∧ Ends (takeWords keyword.arity line).2

/-- Words spell no push of a text constant. -/
theorem Spelled.upper_ne {keyword : Keyword} {line : Bytes} {i : Instruction}
    (h : Spelled keyword line i) :
    ¬(keyword = .push ∧ LetterCase.upper (nextWord line).1 = ascii "TEXT") := by
  rintro ⟨rfl, htext⟩
  obtain ⟨hspells, _⟩ := h
  simp only [Keyword.arity, takeWords] at hspells
  cases hspells with
  | pushInt hkind =>
    rw [hkind] at htext
    exact absurd htext (by decide)

theorem readPush_eq_ok_iff {line : Bytes} {i : Instruction} :
    readPush line = .ok i ↔ Spelled .push line i ∨ Quotes .push line i := by
  simp only [Spelled, Keyword.arity, takeWords]
  constructor
  · intro h
    simp only [readPush] at h
    split at h
    · rename_i hkind
      obtain ⟨⟨value, rest⟩, hinteger, h⟩ := bind_eq_ok.mp h
      dsimp only at h
      obtain ⟨hvalue, rfl⟩ := readInteger_eq_ok_iff.mp hinteger
      obtain ⟨rfl, hends⟩ := finish_eq_ok_iff.mp h
      exact .inl ⟨.pushInt hkind hvalue, hends⟩
    · split at h
      · rename_i htext
        split at h
        · exact .inr ⟨rfl, htext, _, ‹_›, (Except.ok.inj h).symm⟩
        · cases h
      · cases h
  · rintro (⟨hspells, hends⟩ | ⟨_, htext, text, hquoted, rfl⟩)
    · cases hspells with
      | pushInt hkind hvalue =>
        simp only [readPush, if_pos hkind]
        refine bind_eq_ok.mpr ⟨_, readInteger_eq_ok_iff.mpr ⟨hvalue, rfl⟩, ?_⟩
        dsimp only
        exact finish_eq_ok_iff.mpr ⟨rfl, hends⟩
    · have hint : ¬LetterCase.upper (nextWord line).1 = ascii "INT" := by
        rw [htext]
        decide
      simp only [readPush, if_neg hint, if_pos htext, hquoted]

theorem readSlot_eq_ok_iff {make : Kind → Int32 → Instruction} {line : Bytes} {i : Instruction} :
    readSlot make line = .ok i ↔ ∃ kind slot, kind? (nextWord line).1 = some kind ∧
      Decimal.toInt32? (nextWord (nextWord line).2).1 = some slot ∧ ¬slot < 0 ∧
      i = make kind slot ∧ Ends (Blank.trim (nextWord (nextWord line).2).2) := by
  constructor
  · intro h
    simp only [readSlot] at h
    split at h
    · cases h
    · rename_i kind hkind
      obtain ⟨⟨slot, rest⟩, hinteger, h⟩ := bind_eq_ok.mp h
      dsimp only at h
      obtain ⟨hslot, rfl⟩ := readInteger_eq_ok_iff.mp hinteger
      split at h
      · cases h
      · rename_i hnonneg
        obtain ⟨rfl, hends⟩ := finish_eq_ok_iff.mp h
        exact ⟨kind, slot, hkind, hslot, hnonneg, rfl, hends⟩
  · rintro ⟨kind, slot, hkind, hslot, hnonneg, rfl, hends⟩
    simp only [readSlot, hkind]
    refine bind_eq_ok.mpr ⟨_, readInteger_eq_ok_iff.mpr ⟨hslot, rfl⟩, ?_⟩
    simp only [if_neg hnonneg]
    exact finish_eq_ok_iff.mpr ⟨rfl, hends⟩

theorem readBranch_eq_ok_iff {line : Bytes} {i : Instruction} :
    readBranch line = .ok i ↔ Spelled .branch line i := by
  simp only [Spelled, Keyword.arity, takeWords]
  constructor
  · intro h
    simp only [readBranch] at h
    split at h
    · cases h
    · rename_i hrelation
      split at h
      · cases h
      · rename_i hne
        obtain ⟨rfl, hends⟩ := finish_eq_ok_iff.mp h
        exact ⟨.branch hrelation hne, hends⟩
  · rintro ⟨hspells, hends⟩
    cases hspells with
    | branch hrelation hne =>
      simp only [readBranch, hrelation, if_neg hne]
      exact finish_eq_ok_iff.mpr ⟨rfl, hends⟩

theorem readTarget_eq_ok_iff {op : Opcode} {make : Label → Instruction} {line : Bytes}
    {i : Instruction} : readTarget op make line = .ok i ↔
      (nextWord line).1 ≠ [] ∧ i = make (nextWord line).1 ∧
        Ends (Blank.trim (nextWord line).2) := by
  simp only [readTarget]
  split
  · simp_all
  · rename_i hne
    rw [finish_eq_ok_iff]
    simp [hne, eq_comm]

theorem readPrint_eq_ok_iff {line : Bytes} {i : Instruction} :
    readPrint line = .ok i ↔ Spelled .print line i := by
  simp only [Spelled, Keyword.arity, takeWords]
  constructor
  · intro h
    simp only [readPrint] at h
    split at h
    · cases h
    · rename_i hkind
      obtain ⟨rfl, hends⟩ := finish_eq_ok_iff.mp h
      exact ⟨.print hkind, hends⟩
  · rintro ⟨hspells, hends⟩
    cases hspells with
    | print hkind =>
      simp only [readPrint, hkind]
      exact finish_eq_ok_iff.mpr ⟨rfl, hends⟩

/-- An instruction is read from the words that spell it, or is the push of a text
constant. -/
theorem readInstruction_eq_ok_iff {keyword : Keyword} {line : Bytes} {i : Instruction} :
    readInstruction keyword line = .ok i ↔ Spelled keyword line i ∨ Quotes keyword line i := by
  have hspelled : keyword ≠ .push →
      (Spelled keyword line i ∨ Quotes keyword line i ↔ Spelled keyword line i) :=
    fun hne => or_iff_left fun h => hne h.1
  cases keyword with
  | push => exact readPush_eq_ok_iff
  | load | store =>
    rw [hspelled (by simp)]
    simp only [Spelled, Keyword.arity, takeWords]
    refine readSlot_eq_ok_iff.trans ⟨?_, ?_⟩
    · rintro ⟨kind, slot, hkind, hslot, hnonneg, rfl, hends⟩
      exact ⟨by constructor <;> assumption, hends⟩
    · rintro ⟨hspells, hends⟩
      cases hspells
      exact ⟨_, _, ‹_›, ‹_›, ‹_›, rfl, hends⟩
  | branch =>
    rw [hspelled (by simp)]
    exact readBranch_eq_ok_iff
  | jump | label =>
    rw [hspelled (by simp)]
    simp only [Spelled, Keyword.arity, takeWords]
    refine readTarget_eq_ok_iff.trans ⟨?_, ?_⟩
    · rintro ⟨hne, rfl, hends⟩
      exact ⟨by constructor; assumption, hends⟩
    · rintro ⟨hspells, hends⟩
      cases hspells
      exact ⟨‹_›, rfl, hends⟩
  | print =>
    rw [hspelled (by simp)]
    exact readPrint_eq_ok_iff
  | plain j =>
    rw [hspelled (by simp)]
    simp only [Spelled, Keyword.arity, takeWords]
    refine finish_eq_ok_iff.trans ⟨?_, ?_⟩
    · rintro ⟨rfl, hends⟩
      exact ⟨.plain j, hends⟩
    · rintro ⟨hspells, hends⟩
      cases hspells with
      | plain => exact ⟨rfl, hends⟩
  | unit | routine =>
    rw [hspelled (by simp)]
    constructor
    · intro h
      cases h
    · rintro ⟨hspells, _⟩
      cases hspells

/-! ## Lines as words -/

theorem map_eq_ok {ε α β : Type} {f : α → β} {x : Except ε α} {b : β} :
    f <$> x = .ok b ↔ ∃ a, x = .ok a ∧ f a = b := by
  cases x <;> simp [Functor.map, Except.map]

theorem readUnit_eq_ok {line : Bytes} {item : Item} (h : readUnit line = .ok item) :
    (nextWord line).1 ≠ [] ∧ (nextWord line).2 = [] ∧ item = .unit (nextWord line).1 := by
  simp only [readUnit] at h
  split at h
  · cases h
  · rename_i hname
    rw [not_or, ne_eq, not_not] at hname
    exact ⟨hname.1, hname.2, (Except.ok.inj h).symm⟩

theorem readRoutine_eq_ok {line : Bytes} {item : Item} (h : readRoutine line = .ok item) :
    ∃ locals : Int32, 0 ≤ locals.toInt ∧ (nextWord line).1 ≠ [] ∧
      Decimal.toInt32? (nextWord (nextWord line).2).1 = some locals ∧
      (nextWord (nextWord line).2).2 = [] ∧ item = .routine (nextWord line).1 locals := by
  simp only [readRoutine] at h
  split at h
  · cases h
  · rename_i hname
    obtain ⟨⟨locals, rest⟩, hinteger, h⟩ := bind_eq_ok.mp h
    dsimp only at h
    obtain ⟨hlocals, rfl⟩ := readInteger_eq_ok_iff.mp hinteger
    split at h
    · cases h
    · rename_i hnonneg
      split at h
      · cases h
      · rename_i hrest
        refine ⟨locals, ?_, hname, hlocals, not_not.mp hrest, (Except.ok.inj h).symm⟩
        simpa [Int32.lt_iff_toInt_lt] using hnonneg

/-- A line that holds nothing, or nothing but a comment. -/
def IsIdle (line : Bytes) : Prop := (nextWord line).1 = [] ∨ isComment (nextWord line).1 = true

theorem IsIdle.readLine {line : Bytes} (h : IsIdle line) (progress : Progress) :
    readLine progress line = .ok none :=
  if_pos h

theorem not_isIdle_of_keyword? {line : Bytes} {keyword : Keyword}
    (h : keyword? (nextWord line).1 = some keyword) : ¬IsIdle line := by
  obtain ⟨hne, hslash⟩ := keyword?_eq_some h
  rintro (hnil | hcomment)
  · exact hne hnil
  · obtain ⟨s, hs⟩ := isComment_iff.mp hcomment
    exact hslash (by simp [hs])

/-- The item that a keyword announces and the rest of its line spells. -/
def readItem (keyword : Keyword) (line : Bytes) : Except Cause Item :=
  match keyword with
  | .unit => readUnit line
  | .routine => readRoutine line
  | _ => .code <$> readInstruction keyword line

/-- The headers hold as many words as they need, and nothing else. -/
theorem words_of_header {keyword : Keyword} {line : Bytes} {it : Item}
    (hkeyword : keyword = .unit ∨ keyword = .routine) (h : readItem keyword line = .ok it) :
    (∀ w ∈ (takeWords keyword.arity line).1, w ≠ []) ∧ (takeWords keyword.arity line).2 = [] := by
  rcases hkeyword with rfl | rfl
  · obtain ⟨hname, hrest, _⟩ := readUnit_eq_ok h
    simp only [Keyword.arity, takeWords, hrest]
    exact ⟨List.forall_mem_singleton.mpr hname, rfl⟩
  · obtain ⟨locals, _, hname, hlocals, hrest, _⟩ := readRoutine_eq_ok h
    have hnumber := (Decimal.toInt32?_eq_some_iff.mp hlocals).ne_nil
    simp only [Keyword.arity, takeWords, hrest]
    exact ⟨by simp [hname, hnumber], rfl⟩

theorem readItem_instruction {keyword : Keyword} (hunit : keyword ≠ .unit)
    (hroutine : keyword ≠ .routine) (line : Bytes) :
    readItem keyword line = .code <$> readInstruction keyword line := by
  cases keyword with
  | unit => exact absurd rfl hunit
  | routine => exact absurd rfl hroutine
  | _ => rfl

/-- An item that is read only where it is allowed. -/
theorem guard_eq_ok {c : Prop} {allowed : Item → Prop} {x : Except Cause Item}
    {result : Except Cause (Option Item)} {item : Option Item}
    (hallowed : ∀ it, x = .ok it → (allowed it ↔ c)) (hread : c → result = some <$> x)
    (hrefused : ¬c → ∃ cause, result = .error cause) :
    result = .ok item ↔ ∃ it, x = .ok it ∧ allowed it ∧ item = some it := by
  by_cases hc : c
  · rw [hread hc, map_eq_ok]
    constructor
    · rintro ⟨it, hit, rfl⟩
      exact ⟨it, hit, (hallowed it hit).mpr hc, rfl⟩
    · rintro ⟨it, hit, _, rfl⟩
      exact ⟨it, hit, rfl⟩
  · obtain ⟨cause, hcause⟩ := hrefused hc
    rw [hcause]
    constructor
    · intro h
      cases h
    · rintro ⟨it, hit, hit', _⟩
      exact absurd ((hallowed it hit).mp hit') hc

theorem readLine_of_keyword? {progress : Progress} {line : Bytes} {item : Option Item}
    {keyword : Keyword} (h : keyword? (nextWord line).1 = some keyword) :
    readLine progress line = .ok item ↔
      ∃ it, readItem keyword (nextWord line).2 = .ok it ∧ progress.Allows it ∧ item = some it := by
  have hbusy := not_isIdle_of_keyword? h
  rw [IsIdle] at hbusy
  simp only [readLine, if_neg hbusy, h]
  cases keyword with
  | unit =>
    refine @guard_eq_ok (progress = .start) _ _ _ _ ?_
      (fun hfirst => if_pos hfirst) fun hlate => ⟨_, if_neg hlate⟩
    intro it hit
    obtain ⟨_, _, rfl⟩ := readUnit_eq_ok hit
    exact Iff.rfl
  | routine =>
    refine @guard_eq_ok (progress ≠ .start) _ _ _ _ ?_
      (fun hlate => if_neg hlate) fun hearly => ⟨_, if_pos (not_not.mp hearly)⟩
    intro it hit
    obtain ⟨_, _, _, _, _, rfl⟩ := readRoutine_eq_ok hit
    exact Iff.rfl
  | _ =>
    refine @guard_eq_ok (progress = .inRoutine) _ _ _ _ ?_ ?_ ?_
    · intro it hit
      obtain ⟨i, _, rfl⟩ := map_eq_ok.mp hit
      exact Iff.rfl
    · rintro rfl
      exact comp_map _ _ _
    · intro houtside
      cases progress with
      | inRoutine => exact absurd rfl houtside
      | _ => exact ⟨_, rfl⟩

/-- A line that can be read is idle, or starts with a keyword. -/
theorem isIdle_or_keyword? {progress : Progress} {line : Bytes} {item : Option Item}
    (h : readLine progress line = .ok item) :
    IsIdle line ∨ ∃ keyword, keyword? (nextWord line).1 = some keyword := by
  by_cases hidle : IsIdle line
  · exact .inl hidle
  · refine .inr (Option.ne_none_iff_exists'.mp fun hnone => ?_)
    rw [IsIdle] at hidle
    simp only [readLine, if_neg hidle, hnone] at h
    cases h

/-- What a line gives was read after a keyword: the name of the unit, a routine, or
an instruction. -/
theorem readLine_cases {progress : Progress} {line : Bytes} {item : Item}
    (h : readLine progress line = .ok (some item)) :
    ∃ keyword, keyword? (nextWord line).1 = some keyword ∧ progress.Allows item ∧
      (readUnit (nextWord line).2 = .ok item ∨ readRoutine (nextWord line).2 = .ok item ∨
        ∃ i, item = .code i ∧ readInstruction keyword (nextWord line).2 = .ok i) := by
  rcases isIdle_or_keyword? h with hidle | ⟨keyword, hkeyword⟩
  · rw [hidle.readLine] at h
    cases h
  · obtain ⟨it, hit, hallows, heq⟩ := (readLine_of_keyword? hkeyword).mp h
    obtain rfl := Option.some.inj heq
    refine ⟨keyword, hkeyword, hallows, ?_⟩
    cases keyword with
    | unit => exact .inl hit
    | routine => exact .inr (.inl hit)
    | _ =>
      obtain ⟨i, hi, hcode⟩ := map_eq_ok.mp hit
      exact .inr (.inr ⟨i, hcode.symm, hi⟩)

/-! ## Units as items -/

theorem readLines_cons {progress : Progress} {number : Nat} {line : Bytes} {lines : List Bytes}
    {items : List Item} : readLines progress number (line :: lines) = .ok items ↔
      ∃ item rest, readLine progress line = .ok item ∧
        readLines (item.toList.foldl Progress.after progress) (number + 1) lines = .ok rest ∧
        items = item.toList ++ rest := by
  rw [readLines]
  cases hline : readLine progress line with
  | error cause => simp
  | ok item =>
    cases item with
    | none => simp
    | some item =>
      constructor
      · intro h
        obtain ⟨rest, hrest, h⟩ := bind_eq_ok.mp h
        exact ⟨some item, rest, rfl, hrest, (Except.ok.inj h).symm⟩
      · rintro ⟨_, rest, heq, hrest, rfl⟩
        obtain rfl := Except.ok.inj heq
        exact bind_eq_ok.mpr ⟨rest, hrest, rfl⟩

/-- Every item was read from one of the lines. -/
theorem mem_readLines {progress : Progress} {number : Nat} {lines : List Bytes}
    {items : List Item} (h : readLines progress number lines = .ok items) :
    ∀ item ∈ items, ∃ before, ∃ line ∈ lines, readLine before line = .ok (some item) := by
  induction lines generalizing progress number items with
  | nil =>
    obtain rfl := Except.ok.inj h
    exact List.forall_mem_nil _
  | cons line lines ih =>
    obtain ⟨first, rest, hfirst, hrest, rfl⟩ := readLines_cons.mp h
    intro item hitem
    rcases List.mem_append.mp hitem with hitem | hitem
    · obtain rfl := Option.mem_toList.mp hitem
      exact ⟨progress, line, List.mem_cons_self, hfirst⟩
    · obtain ⟨before, l, hl, hread⟩ := ih hrest item hitem
      exact ⟨before, l, List.mem_cons_of_mem _ hl, hread⟩

/-- Lines are read one after the other. -/
theorem readLines_append {progress : Progress} {number : Nat} {lines more : List Bytes}
    {items : List Item} : readLines progress number (lines ++ more) = .ok items ↔
      ∃ front back, readLines progress number lines = .ok front ∧
        readLines (front.foldl Progress.after progress) (number + lines.length) more = .ok back ∧
        items = front ++ back := by
  induction lines generalizing progress number items with
  | nil =>
    constructor
    · exact fun h => ⟨[], items, rfl, h, rfl⟩
    · rintro ⟨_, back, hfront, h, rfl⟩
      obtain rfl := Except.ok.inj hfront
      exact h
  | cons line lines ih =>
    have hnumber : number + (line :: lines).length = number + 1 + lines.length := by
      rw [List.length_cons]
      omega
    rw [List.cons_append, readLines_cons, hnumber]
    constructor
    · rintro ⟨item, rest, hitem, hrest, rfl⟩
      obtain ⟨front, back, hfront, hback, rfl⟩ := ih.mp hrest
      refine ⟨item.toList ++ front, back, readLines_cons.mpr ⟨item, front, hitem, hfront, rfl⟩,
        ?_, (List.append_assoc _ _ _).symm⟩
      rwa [List.foldl_append]
    · rintro ⟨_, back, hlines, hback, rfl⟩
      obtain ⟨item, front, hitem, hfront, rfl⟩ := readLines_cons.mp hlines
      rw [List.foldl_append] at hback
      exact ⟨item, front ++ back, hitem, ih.mpr ⟨front, back, hfront, hback, rfl⟩,
        List.append_assoc _ _ _⟩

/-- An empty line at the end adds nothing. -/
theorem readLines_concat_nil (progress : Progress) (number : Nat) (lines : List Bytes) :
    readLines progress number (lines ++ [[]]) = readLines progress number lines := by
  induction lines generalizing progress number with
  | nil => rfl
  | cons line lines ih => simp only [List.cons_append, readLines, ih]

theorem readLines_allLines (progress : Progress) (number : Nat) (text : Bytes) :
    readLines progress number (Input.ofBytes text).lines
      = readLines progress number (Bytes.allLines text) := by
  by_cases hlast : (Bytes.splitLines text).2 = []
  · have hlines : (Input.ofBytes text).lines = (Bytes.splitLines text).1 := by
      simp [Input.lines, Input.ofBytes, hlast]
    rw [hlines, Bytes.allLines, hlast, readLines_concat_nil]
  · have hlines : (Input.ofBytes text).lines = Bytes.allLines text := by
      simp [Input.lines, Input.ofBytes, Bytes.allLines, hlast]
    rw [hlines]

theorem ordered_of_readLines {progress : Progress} {number : Nat} {lines : List Bytes}
    {items : List Item} (h : readLines progress number lines = .ok items) :
    Ordered progress items := by
  induction lines generalizing progress number items with
  | nil =>
    obtain rfl := Except.ok.inj h
    trivial
  | cons line lines ih =>
    obtain ⟨item, rest, hitem, hrest, rfl⟩ := readLines_cons.mp h
    cases item with
    | none => exact ih hrest
    | some it =>
      obtain ⟨_, _, hallows, _⟩ := readLine_cases hitem
      exact ⟨hallows, ih hrest⟩

/-- Items in order are the instructions before the first routine, of which there are none
outside a routine, and the items of the routines. -/
theorem items_eq_group {progress : Progress} {items : List Item} (hstarted : progress ≠ .start)
    (h : Ordered progress items) :
    items = (group items).1.map .code ++ (group items).2.flatMap Routine.items ∧
      (progress = .named → (group items).1 = []) := by
  induction items generalizing progress with
  | nil => exact ⟨rfl, fun _ => rfl⟩
  | cons item items ih =>
    obtain ⟨hallows, hrest⟩ := h
    cases item with
    | unit name => exact absurd hallows hstarted
    | routine name locals =>
      obtain ⟨hitems, _⟩ := ih (by simp [Progress.after]) hrest
      refine ⟨?_, fun _ => rfl⟩
      show _ = Item.routine name (Int32.ofInt locals.toInt) ::
        ((group items).1.map .code ++ (group items).2.flatMap Routine.items)
      rw [Int32.ofInt_toInt, ← hitems]
    | code i =>
      obtain ⟨hitems, _⟩ := ih hstarted hrest
      refine ⟨congrArg (Item.code i :: ·) hitems, ?_⟩
      rintro rfl
      cases hallows

theorem read_eq_ok {input : Input} {unit : AsmUnit} (h : read input = .ok unit) :
    ∃ items, readLines .start 1 input.lines = .ok items ∧ unitName? items = some unit.name ∧
      unit.routines = (group items).2 := by
  obtain ⟨items, hitems, h⟩ := bind_eq_ok.mp h
  split at h
  · simp at h
  · split at h
    · rename_i name hname
      obtain rfl := Except.ok.inj h
      exact ⟨items, hitems, hname, rfl⟩
    · simp at h

/-- What was read are the items of the unit. -/
theorem items_of_read {input : Input} {unit : AsmUnit} (h : read input = .ok unit) :
    readLines .start 1 input.lines = .ok unit.items := by
  obtain ⟨items, hitems, hname, hroutines⟩ := read_eq_ok h
  have hordered := ordered_of_readLines hitems
  rw [hitems, AsmUnit.items, hroutines]
  cases items with
  | nil => cases hname
  | cons item items =>
    cases item with
    | unit name =>
      obtain ⟨hrest, hnone⟩ := items_eq_group (by simp [Progress.after]) hordered.2
      rw [hnone rfl, List.map_nil, List.nil_append] at hrest
      rw [← Option.some.inj hname]
      exact congrArg (fun rest => Except.ok (Item.unit name :: rest)) hrest
    | routine => exact absurd rfl hordered.1
    | code => cases hordered.1

end Assembly

end Stackling
