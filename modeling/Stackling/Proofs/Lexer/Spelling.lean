import Mathlib.Data.List.TakeWhile
import Stackling.Proofs.Lexer
import Stackling.Proofs.Text.Lines

/-!
# How tokens are spelled

`Lexeme.Spells` says how each kind of token is spelled, and `Lexeme.EndsBefore`
what must not follow it. On a line these two describe what is read at a place:

* **read** — a token that is spelled at a place and ends there is read
  (`Lexeme.read_of_spells`);
* **spelled** — a token that is read, other than a comment, is spelled at that
  place and ends there (`Lexeme.spells_of_read`).
-/

namespace Stackling.Lexeme

/-- The signs, and how they are spelled. -/
def signs : List (TokenKind × Bytes) :=
  [(.assign, ascii ":="), (.leftParen, ascii "("), (.rightParen, ascii ")"), (.plus, ascii "+"),
    (.minus, ascii "-"), (.times, ascii "*"), (.divide, ascii "/"), (.greater, ascii ">"),
    (.less, ascii "<"), (.equal, ascii "="), (.notEqual, ascii "<>")]

/-- A letter, and then letters, underscores and digits. -/
def IsWord : Bytes → Prop
  | [] => False
  | a :: tail => Bytes.isLetter a = true ∧ tail.all Bytes.isWordByte = true

instance (word : Bytes) : Decidable (IsWord word) :=
  match word with
  | [] => isFalse id
  | _ :: _ => inferInstanceAs (Decidable (_ ∧ _))

/-- What may stand between the quotes of a text: bytes other than quotes,
backslashes and newlines, and backslashes with the byte that follows. -/
inductive Body : Bytes → Prop
  | nil : Body []
  | byte {b : UInt8} {s : Bytes} (quote : b ≠ 34) (backslash : b ≠ 92) (newline : b ≠ Bytes.newline)
      (rest : Body s) : Body (b :: s)
  | escape {b : UInt8} {s : Bytes} (newline : b ≠ Bytes.newline) (rest : Body s) :
      Body (92 :: b :: s)

/-- How a token of a kind is spelled. A word that is not reserved is a name. -/
inductive Spells : TokenKind → Bytes → Prop
  | keyword (k : Keyword) : Spells (.keyword k) k.spelling
  | name {word : Bytes} (shape : IsWord word) (free : ∀ k : Keyword, k.spelling ≠ word) :
      Spells .name word
  | number {digits : Bytes} (shape : digits.IsDigits) : Spells .number digits
  | text {body : Bytes} (shape : Body body) : Spells .text (34 :: (body ++ [34]))
  | sign {kind : TokenKind} {content : Bytes} (mem : (kind, content) ∈ signs) :
      Spells kind content

/-- Words and numbers. -/
def isWordy : TokenKind → Bool
  | .keyword _ | .name | .number => true
  | _ => false

/-- What follows a token does not make it longer. -/
structure EndsBefore (kind : TokenKind) (s : Bytes) : Prop where
  word : isWordy kind = true → ∀ b ∈ s.head?, Bytes.isWordByte b = false
  less : kind = .less → s.head? ≠ some 62

/-- Only the first byte that follows matters. -/
theorem EndsBefore.of_head? {kind : TokenKind} {s s' : Bytes} (h : EndsBefore kind s)
    (hhead : s'.head? = s.head?) : EndsBefore kind s' where
  word hkind := hhead ▸ h.word hkind
  less hkind := hhead ▸ h.less hkind

/-! ## Words -/

theorem isWordByte_of_isLetter {b : UInt8} (h : Bytes.isLetter b = true) :
    Bytes.isWordByte b = true := by
  simp [Bytes.isWordByte, h]

theorem isWordByte_of_isDigit {b : UInt8} (h : Bytes.isDigit b = true) :
    Bytes.isWordByte b = true := by
  simp [Bytes.isWordByte, h]

theorem isWord_spelling (k : Keyword) : IsWord k.spelling := by
  cases k <;> decide

theorem IsWord.all {w : Bytes} (h : IsWord w) : ∀ b ∈ w, Bytes.isWordByte b = true := by
  cases w with
  | nil => exact h.elim
  | cons a tail =>
    exact List.forall_mem_cons.mpr ⟨isWordByte_of_isLetter h.1, List.all_eq_true.mp h.2⟩

theorem ofWord?_spelling (k : Keyword) : Keyword.ofWord? k.spelling = some k := by
  cases k <;> decide

theorem ofWord?_eq_some {word : Bytes} {k : Keyword} (h : Keyword.ofWord? word = some k) :
    k.spelling = word := by
  simpa using List.find?_some h

theorem ofWord?_eq_none {word : Bytes} :
    Keyword.ofWord? word = none ↔ ∀ k : Keyword, k.spelling ≠ word := by
  have hall : ∀ k : Keyword, k ∈ Keyword.all := by intro k; cases k <;> decide
  rw [Keyword.ofWord?, List.find?_eq_none]
  exact ⟨fun h k => by simpa using h k (hall k), fun h k _ => by simpa using h k⟩

theorem isDigit_of_isLetter {a : UInt8} (h : Bytes.isLetter a = true) :
    Bytes.isDigit a = false := by
  simp only [Bytes.isLetter, Bool.or_eq_true, Bool.and_eq_true, decide_eq_true_eq,
    UInt8.le_iff_toNat_le] at h
  simp only [Bytes.isDigit, Bool.and_eq_false_iff, decide_eq_false_iff_not, UInt8.le_iff_toNat_le]
  simp only [UInt8.reduceToNat] at h ⊢
  omega

theorem read_of_isDigit {a : UInt8} (h : Bytes.isDigit a = true) (s : Bytes) :
    read a s = number s := by
  unfold read
  split
  case h_13 => rw [if_pos h]
  all_goals exact absurd h (by decide)

theorem read_of_isLetter {a : UInt8} (h : Bytes.isLetter a = true) (s : Bytes) :
    read a s = .ok (word a s) := by
  unfold read
  split
  case h_13 => rw [isDigit_of_isLetter h, if_neg (by decide), if_pos h]
  all_goals exact absurd h (by decide)

theorem word_eq {a : UInt8} {tail rest : Bytes} (hword : IsWord (a :: tail))
    (hrest : ∀ b ∈ rest.head?, Bytes.isWordByte b = false) :
    word a (tail ++ rest) = ((Keyword.ofWord? (a :: tail)).elim .name .keyword, tail.length) := by
  unfold word
  dsimp only
  have hcut : Bytes.Cut Bytes.isWordByte (tail ++ rest) tail rest :=
    ⟨rfl, List.all_eq_true.mp hword.2, hrest⟩
  rw [hcut.takeWhile_eq]

theorem number_eq {digits rest : Bytes} (hdigits : ∀ b ∈ digits, Bytes.isDigit b = true)
    (hrest : ∀ b ∈ rest.head?, Bytes.isWordByte b = false) :
    number (digits ++ rest) = .ok (.number, digits.length) := by
  have hstop : ∀ b ∈ rest.head?, Bytes.isDigit b = false := by
    intro b hb
    by_contra hdigit
    have hword := isWordByte_of_isDigit (Bool.of_not_eq_false hdigit)
    rw [hrest b hb] at hword
    cases hword
  have hcut : Bytes.Cut Bytes.isDigit (digits ++ rest) digits rest := ⟨rfl, hdigits, hstop⟩
  unfold number
  dsimp only
  rw [hcut.takeWhile_eq, hcut.dropWhile_eq]
  cases rest with
  | nil => rfl
  | cons b rest => simp [hrest b rfl]

/-! ## Texts -/

theorem textLength?_quote (s : Bytes) : textLength? (34 :: s) = some 1 := by
  rw [textLength?.eq_def]
  rfl

theorem textLength?_byte {b : UInt8} (quote : b ≠ 34) (backslash : b ≠ 92)
    (newline : b ≠ Bytes.newline) (s : Bytes) :
    textLength? (b :: s) = (textLength? s).map (· + 1) := by
  rw [textLength?.eq_def]
  dsimp only
  rw [if_neg quote, if_neg newline, if_neg backslash]

theorem textLength?_escape (b : UInt8) (s : Bytes) :
    textLength? (92 :: b :: s) = (textLength? s).map (· + 2) := by
  rw [textLength?.eq_def]
  rfl

theorem textLength?_body {body : Bytes} (h : Body body) (rest : Bytes) :
    textLength? (body ++ 34 :: rest) = some (body.length + 1) := by
  induction h with
  | nil => exact textLength?_quote rest
  | byte quote backslash newline _ ih =>
    rw [List.cons_append, textLength?_byte quote backslash newline, ih]
    rfl
  | escape newline _ ih =>
    rw [List.cons_append, List.cons_append, textLength?_escape, ih]
    rfl

/-- Newlines stand only at the end of a line. -/
def IsLine (s : Bytes) : Prop := ∀ front rest, s = front ++ Bytes.newline :: rest → rest = []

theorem isLine_concat {front : Bytes} (h : Bytes.newline ∉ front) :
    IsLine (front ++ [Bytes.newline]) := by
  intro front' rest hs
  rcases List.append_eq_append_iff.mp hs with ⟨more, -, hmore⟩ | ⟨more, rfl, hmore⟩
  · cases more with
    | nil => exact (List.cons.inj hmore).2.symm
    | cons b more => simp at hmore
  · cases more with
    | nil => exact (List.cons.inj hmore).2
    | cons b more => simp [← (List.cons.inj hmore).1] at h

theorem IsLine.tail {b : UInt8} {s : Bytes} (h : IsLine (b :: s)) : IsLine s :=
  fun front rest hs => h (b :: front) rest (by rw [hs, List.cons_append])

/-- A text that is closed on its line has a body. -/
theorem exists_body_of_textLength? {s : Bytes} {length : Nat} (hline : IsLine s)
    (h : textLength? s = some length) :
    ∃ body rest, Body body ∧ s = body ++ 34 :: rest ∧ length = body.length + 1 := by
  induction s using textLength?.induct generalizing length with
  | case1 => cases h
  | case2 s =>
    rw [textLength?_quote] at h
    exact ⟨[], s, .nil, rfl, (Option.some.inj h).symm⟩
  | case3 s =>
    rw [textLength?.eq_def] at h
    cases h
  | case4 =>
    rw [textLength?.eq_def] at h
    cases h
  | case5 b s _ _ ih =>
    rw [textLength?_escape] at h
    obtain ⟨inner, hinner, rfl⟩ := Option.map_eq_some_iff.mp h
    obtain ⟨body, rest, hbody, rfl, rfl⟩ := ih hline.tail.tail hinner
    -- nothing comes after a newline, not even the closing quote
    have hb : b ≠ Bytes.newline := by
      rintro rfl
      exact absurd (hline [92] _ rfl) (by simp)
    exact ⟨92 :: b :: body, rest, .escape hb hbody, rfl, rfl⟩
  | case6 b s quote newline backslash ih =>
    rw [textLength?_byte quote backslash newline] at h
    obtain ⟨inner, hinner, rfl⟩ := Option.map_eq_some_iff.mp h
    obtain ⟨body, rest, hbody, rfl, rfl⟩ := ih hline.tail hinner
    exact ⟨b :: body, rest, .byte quote backslash newline hbody, rfl, rfl⟩

/-- A text cannot contain a newline. -/
theorem Body.newline_not_mem {body : Bytes} (h : Body body) : Bytes.newline ∉ body := by
  induction h with
  | nil => exact List.not_mem_nil
  | byte _ _ newline _ ih => simp [Ne.symm newline, ih]
  | escape newline _ ih =>
    rw [List.mem_cons, List.mem_cons, not_or, not_or]
    exact ⟨by decide, Ne.symm newline, ih⟩

/-! ## Lexemes -/

theorem read_of_sign {kind : TokenKind} {content rest : Bytes} (h : (kind, content) ∈ signs)
    (hends : EndsBefore kind rest) :
    ∃ a tail, content = a :: tail ∧ read a (tail ++ rest) = .ok (kind, tail.length) := by
  simp only [signs, List.mem_cons, Prod.mk.injEq, List.not_mem_nil, or_false] at h
  rcases h with ⟨rfl, rfl⟩ | ⟨rfl, rfl⟩ | ⟨rfl, rfl⟩ | ⟨rfl, rfl⟩ | ⟨rfl, rfl⟩ | ⟨rfl, rfl⟩ |
    ⟨rfl, rfl⟩ | ⟨rfl, rfl⟩ | ⟨rfl, rfl⟩ | ⟨rfl, rfl⟩ | ⟨rfl, rfl⟩
  case inr.inr.inr.inr.inr.inr.inr.inr.inl =>
    exact ⟨60, [], rfl, if_neg (hends.less rfl)⟩
  all_goals exact ⟨_, _, rfl, rfl⟩

/-- A token that is spelled at a place and ends there is read. -/
theorem read_of_spells {kind : TokenKind} {content rest : Bytes} (h : Spells kind content)
    (hends : EndsBefore kind rest) :
    ∃ a tail, content = a :: tail ∧ read a (tail ++ rest) = .ok (kind, tail.length) := by
  have hwordy : ∀ {word : Bytes} {kind : TokenKind}, IsWord word → EndsBefore kind rest →
      isWordy kind = true → (Keyword.ofWord? word).elim .name .keyword = kind →
      ∃ a tail, word = a :: tail ∧ read a (tail ++ rest) = .ok (kind, tail.length) := by
    intro word kind hword hends hkind hof
    cases word with
    | nil => exact hword.elim
    | cons a tail =>
      refine ⟨a, tail, rfl, ?_⟩
      rw [read_of_isLetter hword.1, word_eq hword (hends.word hkind), hof]
  cases h with
  | keyword k =>
    exact hwordy (isWord_spelling k) hends rfl (by rw [ofWord?_spelling]; rfl)
  | name shape free => exact hwordy shape hends rfl (by rw [ofWord?_eq_none.mpr free]; rfl)
  | number shape =>
    cases content with
    | nil => exact absurd rfl shape.1
    | cons a tail =>
      obtain ⟨hfirst, hall⟩ := List.forall_mem_cons.mp shape.2
      refine ⟨a, tail, rfl, ?_⟩
      rw [read_of_isDigit hfirst, number_eq hall (hends.word rfl)]
  | @text body shape =>
    refine ⟨34, body ++ [34], rfl, ?_⟩
    show text (body ++ [34] ++ rest) = _
    rw [List.append_assoc, List.singleton_append, text, textLength?_body shape]
    simp
  | sign mem => exact read_of_sign mem hends

theorem endsBefore_of_not_wordy {kind : TokenKind} (hwordy : isWordy kind = false)
    (hless : kind ≠ .less) (s : Bytes) : EndsBefore kind s where
  word h := absurd (h.symm.trans hwordy) (by decide)
  less h := absurd h hless

theorem endsBefore_of_wordy {kind : TokenKind} {s : Bytes} (hwordy : isWordy kind = true)
    (h : ∀ b ∈ s.head?, Bytes.isWordByte b = false) : EndsBefore kind s where
  word _ := h
  less hkind := by
    rw [hkind] at hwordy
    cases hwordy

/-- A token that is read on a line, other than a comment, is spelled there and ends
there. -/
theorem spells_of_read {a : UInt8} {s : Bytes} {kind : TokenKind} {length : Nat}
    (hline : IsLine s) (h : read a s = .ok (kind, length)) (hkind : kind ≠ .comment) :
    ∃ tail rest, s = tail ++ rest ∧ length = tail.length ∧ Spells kind (a :: tail) ∧
      EndsBefore kind rest := by
  cases shape_of_read h with
  | mark mem =>
    refine ⟨[], s, rfl, rfl, ?_⟩
    simp only [marks, List.mem_cons, Prod.mk.injEq, List.not_mem_nil, or_false] at mem
    rcases mem with ⟨rfl, rfl⟩ | ⟨rfl, rfl⟩ | ⟨rfl, rfl⟩ | ⟨rfl, rfl⟩ | ⟨rfl, rfl⟩ | ⟨rfl, rfl⟩ |
      ⟨rfl, rfl⟩ | ⟨rfl, rfl⟩
    all_goals exact ⟨.sign (by decide), endsBefore_of_not_wordy rfl (by decide) s⟩
  | less first next =>
    subst first
    exact ⟨[], s, rfl, rfl, .sign (by decide), ⟨fun h => absurd h (by decide), fun _ => next⟩⟩
  | notEqual first next =>
    subst first
    obtain ⟨rest, rfl⟩ := List.head?_eq_some_iff.mp next
    exact ⟨[62], rest, rfl, rfl, .sign (by decide), endsBefore_of_not_wordy rfl (by decide) rest⟩
  | assign first next =>
    subst first
    obtain ⟨rest, rfl⟩ := List.head?_eq_some_iff.mp next
    exact ⟨[61], rest, rfl, rfl, .sign (by decide), endsBefore_of_not_wordy rfl (by decide) rest⟩
  | comment => exact absurd rfl hkind
  | text first closed =>
    subst first
    obtain ⟨body, rest, hbody, rfl, rfl⟩ := exists_body_of_textLength? hline closed
    exact ⟨body ++ [34], rest, by simp, by simp, .text hbody,
      endsBefore_of_not_wordy rfl (by decide) rest⟩
  | number first ends =>
    refine ⟨s.takeWhile Bytes.isDigit, s.dropWhile Bytes.isDigit,
      List.takeWhile_append_dropWhile.symm, rfl, .number ⟨by simp, ?_⟩,
      endsBefore_of_wordy rfl fun b hb => ?_⟩
    · exact List.forall_mem_cons.mpr ⟨first, List.all_eq_true.mp List.all_takeWhile⟩
    · obtain ⟨rest, hrest⟩ := List.head?_eq_some_iff.mp hb
      exact ends b rest hrest
  | @keyword k first reserved =>
    refine ⟨s.takeWhile Bytes.isWordByte, s.dropWhile Bytes.isWordByte,
      List.takeWhile_append_dropWhile.symm, rfl, ?_,
      endsBefore_of_wordy rfl (Bytes.cut _ s).rest⟩
    rw [← ofWord?_eq_some reserved]
    exact .keyword k
  | name first free =>
    exact ⟨s.takeWhile Bytes.isWordByte, s.dropWhile Bytes.isWordByte,
      List.takeWhile_append_dropWhile.symm, rfl,
      .name ⟨first, List.all_takeWhile⟩ (ofWord?_eq_none.mp free),
      endsBefore_of_wordy rfl (Bytes.cut _ s).rest⟩

theorem isSpace_of_isWordByte {b : UInt8} (h : Bytes.isWordByte b = true) :
    Bytes.isSpace b = false := by
  by_contra hspace
  have hspace := Bool.of_not_eq_false hspace
  simp only [Bytes.isSpace, Bool.or_eq_true, beq_iff_eq] at hspace
  rcases hspace with ((((rfl | rfl) | rfl) | rfl) | rfl) | rfl
  all_goals exact absurd h (by decide)

/-- No token starts with white space, and none has a newline. -/
theorem Spells.tight {kind : TokenKind} {content : Bytes} (h : Spells kind content) :
    (∀ a ∈ content.head?, Bytes.isSpace a = false) ∧ Bytes.newline ∉ content := by
  have hword : ∀ {w : Bytes}, (∀ b ∈ w, Bytes.isWordByte b = true) →
      (∀ a ∈ w.head?, Bytes.isSpace a = false) ∧ Bytes.newline ∉ w := by
    intro w hw
    refine ⟨fun a ha => isSpace_of_isWordByte (hw a (List.mem_of_mem_head? ha)), ?_⟩
    exact fun hmem => absurd (hw _ hmem) (by decide)
  cases h with
  | keyword k => exact hword (isWord_spelling k).all
  | name shape => exact hword shape.all
  | number shape => exact hword fun b hb => isWordByte_of_isDigit (shape.2 b hb)
  | text shape =>
    refine ⟨fun a ha => ?_, ?_⟩
    · obtain rfl : 34 = a := Option.some.inj ha
      decide
    · simpa [Bytes.newline] using shape.newline_not_mem
  | sign mem =>
    have hsigns : signs.all (fun sign => sign.2.head?.all (!Bytes.isSpace ·) &&
        !sign.2.contains Bytes.newline) = true := by decide
    have hsign := List.all_eq_true.mp hsigns _ mem
    simp only [Bool.and_eq_true, Bool.not_eq_true', List.contains_eq_mem, decide_eq_false_iff_not]
      at hsign
    refine ⟨fun a ha => ?_, hsign.2⟩
    have hfirst := hsign.1
    rw [Option.mem_def.mp ha] at hfirst
    simpa using hfirst

end Stackling.Lexeme
