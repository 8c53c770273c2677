import Mathlib.Data.List.Chain
import Stackling.Proofs.Lexer.Reading

/-!
# Texts laid out from lexemes

A layout is a list of lexemes with what separates them: white space and comments,
which may be missing where two lexemes do not stick together. The lexer is
compared with layouts:

* **complete** — from the text of a layout exactly its lexemes are read, each with
  its kind and its place (`Lexeme.Layout.ofInput_text`);
* **sound** — every text that has tokens is the text of a layout of them
  (`Lexeme.Layout.exists_of_ofInput`).
-/

namespace Stackling

/-! ## Separators -/

/-- What separates lexemes: white space, and comments with the newlines that end
them. -/
inductive Gap : Bytes → Prop
  | nil : Gap []
  | space {b : UInt8} {s : Bytes} (space : Bytes.isSpace b = true) (rest : Gap s) : Gap (b :: s)
  | comment {body s : Bytes} (line : Bytes.newline ∉ body) (rest : Gap s) :
      Gap (35 :: (body ++ Bytes.newline :: s))

/-- What follows the last lexeme. Its last comment may end with the text. -/
inductive LastGap : Bytes → Prop
  | gap {s : Bytes} (gap : Gap s) : LastGap s
  | comment {s body : Bytes} (gap : Gap s) (line : Bytes.newline ∉ body) : LastGap (s ++ 35 :: body)

theorem Gap.append {s s' : Bytes} (h : Gap s) (h' : Gap s') : Gap (s ++ s') := by
  induction h with
  | nil => exact h'
  | space space _ ih => exact .space space ih
  | comment line _ ih => simpa using Gap.comment line ih

theorem LastGap.append {s s' : Bytes} (h : Gap s) (h' : LastGap s') : LastGap (s ++ s') := by
  cases h' with
  | gap gap => exact .gap (h.append gap)
  | comment gap line => exact List.append_assoc s _ _ ▸ .comment (h.append gap) line

/-- A separator starts with white space or a number sign. -/
theorem Gap.head {s : Bytes} (h : Gap s) : ∀ b ∈ s.head?, Bytes.isSpace b = true ∨ b = 35 := by
  cases h with
  | nil => nofun
  | space space => exact fun b hb => .inl (Option.some.inj hb ▸ space)
  | comment => exact fun b hb => .inr (Option.some.inj hb).symm

theorem LastGap.head {s : Bytes} (h : LastGap s) :
    ∀ b ∈ s.head?, Bytes.isSpace b = true ∨ b = 35 := by
  cases h with
  | gap gap => exact gap.head
  | @comment s _ gap =>
    cases s with
    | nil => exact fun b hb => .inr (Option.some.inj hb).symm
    | cons => exact gap.head

/-- A lexeme ends before a separator. -/
theorem Lexeme.endsBefore_of_head {kind : TokenKind} {s : Bytes}
    (h : ∀ b ∈ s.head?, Bytes.isSpace b = true ∨ b = 35) : Lexeme.EndsBefore kind s where
  word _ b hb := by
    by_contra hword
    have hword := Bool.of_not_eq_false hword
    rcases h b hb with hspace | rfl
    · rw [Lexeme.isSpace_of_isWordByte hword] at hspace
      cases hspace
    · exact absurd hword (by decide)
  less _ hhead := by
    rcases h 62 hhead with hspace | hnumber
    · exact absurd hspace (by decide)
    · exact absurd hnumber (by decide)

namespace Lexer

theorem lexAfter_gap {gap : Bytes} (h : Gap gap) (before text : Bytes) :
    lexAfter before (gap ++ text) = lexAfter (before ++ gap) text := by
  induction h generalizing before with
  | nil => simp
  | space space _ ih =>
    rw [List.cons_append, lexAfter_space space, ih, List.append_assoc, List.singleton_append]
  | @comment body s line _ ih =>
    rw [List.cons_append, List.append_assoc, List.cons_append, lexAfter_comment line, ih]
    simp

theorem lexAfter_lastGap {last : Bytes} (h : LastGap last) (before : Bytes) :
    lexAfter before last = some [] := by
  cases h with
  | gap gap => rw [← List.append_nil last, lexAfter_gap gap, lexAfter_nil]
  | comment gap line => rw [lexAfter_gap gap, lexAfter_last_comment line]

end Lexer

/-! ## Layouts -/

/-- Whether two lexemes run together if nothing stands between them. -/
def Lexeme.Sticks (l next : Lexeme) : Prop :=
  (Lexeme.isWordy l.kind = true ∧
      ∃ b ∈ next.content.head?, Bytes.isLetter b = true ∨ Bytes.isDigit b = true) ∨
    (l.kind = .less ∧ next.kind = .greater)

/-- Whether two lexemes, each with what stands before it, do not run together. -/
def Lexeme.Apart (item next : Bytes × Lexeme) : Prop := next.1 = [] → ¬ item.2.Sticks next.2

/-- Lexemes, each with what stands before it, and what follows the last one. -/
structure Lexeme.Layout where
  items : List (Bytes × Lexeme)
  last : Bytes
  gaps : ∀ item ∈ items, Gap item.1
  lastGap : LastGap last
  apart : items.IsChain Lexeme.Apart

namespace Lexeme.Layout

/-- The items written one after another, and then the rest. -/
def write (items : List (Bytes × Lexeme)) (last : Bytes) : Bytes :=
  items.foldr (fun item text => item.1 ++ (item.2.content ++ text)) last

/-- The tokens of items that the given bytes come before. -/
def tokensAfter (before : Bytes) : List (Bytes × Lexeme) → List Token
  | [] => []
  | (gap, l) :: items => l.token (before ++ gap) :: tokensAfter (before ++ gap ++ l.content) items

def text (layout : Layout) : Bytes := write layout.items layout.last

def tokens (layout : Layout) : List Token := tokensAfter [] layout.items

end Lexeme.Layout

namespace Lexeme

/-- How tokens start: none with an underscore, and only one with a greater sign. -/
theorem Spells.first {kind : TokenKind} {content : Bytes} (h : Spells kind content) :
    ∃ a tail, content = a :: tail ∧
      (Bytes.isWordByte a = true → Bytes.isLetter a = true ∨ Bytes.isDigit a = true) ∧
      (a = 62 ↔ kind = .greater) := by
  have hword : ∀ {w : Bytes} {kind : TokenKind}, IsWord w → kind ≠ .greater → ∃ a tail,
      w = a :: tail ∧
        (Bytes.isWordByte a = true → Bytes.isLetter a = true ∨ Bytes.isDigit a = true) ∧
        (a = 62 ↔ kind = .greater) := by
    intro w kind hw hkind
    cases w with
    | nil => exact hw.elim
    | cons a tail =>
      refine ⟨a, tail, rfl, fun _ => .inl hw.1, fun ha => ?_, fun h => absurd h hkind⟩
      exact absurd (ha ▸ hw.1) (by decide)
  cases h with
  | keyword k => exact hword (isWord_spelling k) nofun
  | name shape => exact hword shape nofun
  | number shape =>
    cases content with
    | nil => exact absurd rfl shape.1
    | cons a tail =>
      have ha := shape.2 a List.mem_cons_self
      exact ⟨a, tail, rfl, fun _ => .inr ha, fun h => absurd (h ▸ ha) (by decide), nofun⟩
  | @text body =>
    exact ⟨34, body ++ [34], rfl, fun h => absurd h (by decide),
      fun h => absurd h (by decide), nofun⟩
  | sign mem =>
    simp only [signs, List.mem_cons, Prod.mk.injEq, List.not_mem_nil, or_false] at mem
    rcases mem with ⟨rfl, rfl⟩ | ⟨rfl, rfl⟩ | ⟨rfl, rfl⟩ | ⟨rfl, rfl⟩ | ⟨rfl, rfl⟩ | ⟨rfl, rfl⟩ |
      ⟨rfl, rfl⟩ | ⟨rfl, rfl⟩ | ⟨rfl, rfl⟩ | ⟨rfl, rfl⟩ | ⟨rfl, rfl⟩
    all_goals exact ⟨_, _, rfl, by decide, by decide⟩

/-- A lexeme ends before another one unless the two run together. -/
theorem endsBefore_iff (l next : Lexeme) (s : Bytes) :
    EndsBefore l.kind (next.content ++ s) ↔ ¬ l.Sticks next := by
  obtain ⟨a, tail, hcontent, hword, hgreater⟩ := next.spells.first
  have hhead : (next.content ++ s).head? = some a := by rw [hcontent]; rfl
  have hfirst : next.content.head? = some a := by rw [hcontent]; rfl
  constructor
  · rintro hends (⟨hwordy, b, hb, hclass⟩ | ⟨hless, hnext⟩)
    · obtain rfl : a = b := Option.some.inj (hfirst.symm.trans hb)
      have hnot := hends.word hwordy a hhead
      rcases hclass with hletter | hdigit
      · rw [isWordByte_of_isLetter hletter] at hnot
        cases hnot
      · rw [isWordByte_of_isDigit hdigit] at hnot
        cases hnot
    · exact hends.less hless (hgreater.mpr hnext ▸ hhead)
  · refine fun hsticks => ⟨fun hwordy b hb => ?_, fun hless hb => ?_⟩
    · obtain rfl : a = b := Option.some.inj (hhead.symm.trans hb)
      by_contra hnot
      exact hsticks (.inl ⟨hwordy, a, hfirst, hword (Bool.of_not_eq_false hnot)⟩)
    · have ha : a = 62 := Option.some.inj (hhead.symm.trans hb)
      exact hsticks (.inr ⟨hless, hgreater.mp ha⟩)

end Lexeme

namespace Lexeme.Layout

open Lexer

/-! ## From layouts to tokens -/

/-- What is written after a lexeme does not make it longer. -/
theorem endsBefore_write {gap : Bytes} {l : Lexeme} {items : List (Bytes × Lexeme)} {last : Bytes}
    (gaps : ∀ item ∈ items, Gap item.1) (lastGap : LastGap last)
    (apart : ((gap, l) :: items).IsChain Lexeme.Apart) :
    Lexeme.EndsBefore l.kind (write items last) := by
  cases items with
  | nil => exact Lexeme.endsBefore_of_head lastGap.head
  | cons item items =>
    obtain ⟨gap', next⟩ := item
    cases gap' with
    | nil =>
      have hsticks := (List.isChain_cons_cons.mp apart).1 rfl
      exact (Lexeme.endsBefore_iff l next (write items last)).mpr hsticks
    | cons b gap' => exact Lexeme.endsBefore_of_head (gaps _ List.mem_cons_self).head

theorem lexAfter_write {items : List (Bytes × Lexeme)} {last : Bytes}
    (gaps : ∀ item ∈ items, Gap item.1) (lastGap : LastGap last)
    (apart : items.IsChain Lexeme.Apart) (before : Bytes) :
    lexAfter before (write items last) = some (tokensAfter before items) := by
  induction items generalizing before with
  | nil => exact lexAfter_lastGap lastGap before
  | cons item items ih =>
    obtain ⟨gap, l⟩ := item
    obtain ⟨hgap, hgaps⟩ := List.forall_mem_cons.mp gaps
    show lexAfter before (gap ++ (l.content ++ write items last)) = _
    rw [lexAfter_gap hgap, lexAfter_lexeme l (endsBefore_write hgaps lastGap apart),
      ih hgaps (List.isChain_cons.mp apart).2]
    rfl

theorem lexAfter_text (layout : Layout) (before : Bytes) :
    lexAfter before layout.text = some (tokensAfter before layout.items) :=
  lexAfter_write layout.gaps layout.lastGap layout.apart before

/-- From the text of a layout exactly its lexemes are read, each with its kind, its
line and its place in that line. -/
theorem ofInput_text (layout : Layout) :
    Token.ofInput (.ofBytes layout.text) = .ok layout.tokens :=
  ofInput_eq_ok.mpr ⟨rfl, layout.lexAfter_text []⟩

/-- The tokens of the first items are the first tokens. -/
theorem tokensAfter_take (before : Bytes) (items : List (Bytes × Lexeme)) (k : Nat) :
    tokensAfter before (items.take k) = (tokensAfter before items).take k := by
  induction items generalizing before k with
  | nil => simp [tokensAfter]
  | cons item items ih =>
    cases k with
    | zero => rfl
    | succ k => exact congrArg _ (ih _ k)

theorem tokensAfter_append (before : Bytes) (items more : List (Bytes × Lexeme)) :
    tokensAfter before (items ++ more)
      = tokensAfter before items ++ tokensAfter (before ++ write items []) more := by
  induction items generalizing before with
  | nil => simp [tokensAfter, write]
  | cons item items ih =>
    rw [List.cons_append, tokensAfter, ih, tokensAfter, List.cons_append]
    simp [write]

theorem map_kind_tokensAfter (before : Bytes) (items : List (Bytes × Lexeme)) :
    (tokensAfter before items).map Token.kind = items.map fun item => item.2.kind := by
  induction items generalizing before with
  | nil => rfl
  | cons item items ih => exact congrArg _ (ih _)

/-- After the first lexemes of a layout any others may be written, each on a line of its
own. -/
theorem exists_extend (layout : Layout) (k : Nat) (more : List Lexeme) :
    ∃ (layout' : Layout) (toks : List Token),
      layout'.tokens = layout.tokens.take k ++ toks ∧
        toks.map Token.kind = more.map Lexeme.kind := by
  let items := more.map fun l => ([Bytes.newline], l)
  have hitems : ∀ item ∈ items, item.1 = [Bytes.newline] := by
    intro item hitem
    obtain ⟨l, -, rfl⟩ := List.mem_map.mp hitem
    rfl
  have hgaps : ∀ item ∈ layout.items.take k ++ items, Gap item.1 := by
    intro item hitem
    rcases List.mem_append.mp hitem with hitem | hitem
    · exact layout.gaps item (List.mem_of_mem_take hitem)
    · rw [hitems item hitem]
      exact .space (by decide) .nil
  have happart : (layout.items.take k ++ items).IsChain Lexeme.Apart := by
    have hnext : ∀ item next, next ∈ items → Lexeme.Apart item next := by
      intro item next hmem hnil
      rw [hitems next hmem] at hnil
      cases hnil
    refine (layout.apart.take k).append ?_ fun item _ next hhead =>
      hnext item next (List.mem_of_mem_head? hhead)
    exact (List.pairwise_of_forall_mem_list fun item _ next hmem => hnext item next hmem).isChain
  refine ⟨⟨layout.items.take k ++ items, [], hgaps, .gap .nil, happart⟩,
    tokensAfter (write (layout.items.take k) []) items, ?_, ?_⟩
  · rw [tokens, tokensAfter_append, tokensAfter_take]
    rfl
  · rw [map_kind_tokensAfter, List.map_map]
    rfl

/-! ## From tokens to layouts -/

/-- A separator may be put in front of a layout. -/
theorem exists_indent {gap : Bytes} (hgap : Gap gap) (layout : Layout) :
    ∃ layout' : Layout, layout'.text = gap ++ layout.text ∧
      ∀ before, tokensAfter before layout'.items = tokensAfter (before ++ gap) layout.items := by
  obtain ⟨items, last, gaps, lastGap, apart⟩ := layout
  cases items with
  | nil => exact ⟨⟨[], gap ++ last, gaps, lastGap.append hgap, apart⟩, rfl, fun _ => rfl⟩
  | cons item items =>
    obtain ⟨hitem, hitems⟩ := List.forall_mem_cons.mp gaps
    have happart := List.isChain_cons.mp apart
    refine ⟨⟨(gap ++ item.1, item.2) :: items, last, ?_, lastGap, ?_⟩, ?_, fun before => ?_⟩
    · exact List.forall_mem_cons.mpr ⟨hgap.append hitem, hitems⟩
    · exact List.isChain_cons.mpr happart
    · exact List.append_assoc _ _ _
    · simp [tokensAfter]

/-- A lexeme that ends before a layout may be put in front of it. -/
theorem exists_cons (l : Lexeme) (layout : Layout) (h : Lexeme.EndsBefore l.kind layout.text) :
    ∃ layout' : Layout, layout'.text = l.content ++ layout.text ∧
      ∀ before, tokensAfter before layout'.items
        = l.token before :: tokensAfter (before ++ l.content) layout.items := by
  obtain ⟨items, last, gaps, lastGap, apart⟩ := layout
  refine ⟨⟨([], l) :: items, last, List.forall_mem_cons.mpr ⟨.nil, gaps⟩, lastGap, ?_⟩, rfl,
    fun before => by simp [tokensAfter]⟩
  refine List.isChain_cons.mpr ⟨fun next hnext hgap => ?_, apart⟩
  obtain ⟨items, rfl⟩ := List.head?_eq_some_iff.mp hnext
  rw [text, write, List.foldr_cons, hgap, List.nil_append] at h
  exact (Lexeme.endsBefore_iff l next.2 _).mp h

/-- Every text that has tokens is laid out. -/
theorem exists_of_lexAfter {before text : Bytes} {toks : List Token}
    (h : lexAfter before text = some toks) :
    ∃ layout : Layout, layout.text = text ∧ tokensAfter before layout.items = toks := by
  -- The text gets shorter by a separator or by a lexeme.
  induction hn : text.length using Nat.strong_induction_on generalizing before text toks with
  | h n ih =>
    subst hn
    cases text with
    | nil =>
      rw [lexAfter_nil] at h
      exact ⟨⟨[], [], nofun, .gap .nil, .nil⟩, rfl, Option.some.inj h⟩
    | cons a s =>
      by_cases hspace : Bytes.isSpace a = true
      · rw [lexAfter_space hspace] at h
        obtain ⟨layout, rfl, rfl⟩ := ih s.length (by simp) h rfl
        obtain ⟨layout', htext, htokens⟩ := layout.exists_indent (.space hspace .nil)
        exact ⟨layout', htext, htokens before⟩
      by_cases ha : a = 35
      · subst ha
        by_cases hnewline : Bytes.newline ∈ s
        · obtain ⟨body, rest, rfl, hbody⟩ := List.eq_append_cons_of_mem hnewline
          rw [lexAfter_comment hbody] at h
          obtain ⟨layout, rfl, rfl⟩ := ih _ (by simp; omega) h rfl
          obtain ⟨layout', htext, htokens⟩ := layout.exists_indent (.comment hbody .nil)
          exact ⟨layout', by simpa using htext, htokens before⟩
        · rw [lexAfter_last_comment hnewline] at h
          exact ⟨⟨[], 35 :: s, nofun, .comment .nil hnewline, .nil⟩, rfl, Option.some.inj h⟩
      obtain ⟨l, rest, htext, hends⟩ := exists_lexeme (Bool.eq_false_iff.mpr hspace) ha h
      have hlength : rest.length < (a :: s).length := by
        obtain ⟨b, tail, hcontent, -⟩ := l.spells.first
        rw [htext, hcontent, List.length_append, List.length_cons]
        omega
      rw [htext, lexAfter_lexeme l hends] at h
      obtain ⟨toks, hrest, rfl⟩ := Option.map_eq_some_iff.mp h
      obtain ⟨layout, rfl, rfl⟩ := ih _ hlength hrest rfl
      obtain ⟨layout', htext', htokens⟩ := layout.exists_cons l hends
      exact ⟨layout', htext'.trans htext.symm, htokens before⟩

theorem exists_of_ofInput {input : Input} {toks : List Token}
    (h : Token.ofInput input = .ok toks) :
    ∃ layout : Layout, layout.text = input.unread ∧ layout.tokens = toks := by
  obtain ⟨-, hlex⟩ := ofInput_eq_ok.mp h
  exact @exists_of_lexAfter [] _ _ hlex

end Lexeme.Layout

end Stackling
