import Stackling.Proofs.Text.Decimal
import Stackling.Token.Lexer

/-!
# The tokens of a text

Every token of a text was read at one place of one line, so what holds of the
tokens that can be read at a place holds of all of them
(`Token.forall_of_read`), and `Lexeme.Shape` says what can be read there. In
particular

* **numbers** — a number is spelled by digits and nothing else
  (`Token.isDigits_of_number`).
-/

namespace Stackling

section Forall

variable {P : Token → Prop}

/-- What every token that starts with a byte of a line has to satisfy. -/
def Lexeme.Forall (P : Token → Prop) : Prop :=
  ∀ (line pos : Nat) (a : UInt8) (s : Bytes) (kind : TokenKind) (length : Nat),
    Lexeme.read a s = .ok (kind, length) →
    P { kind, content := a :: s.take length, line, start := pos, stop := pos + 1 + length }

theorem scanFrom_forall (hP : Lexeme.Forall P) (line skip pos : Nat) (s : Bytes) :
    ∀ t ∈ (scanFrom line skip pos s).tokens, P t := by
  fun_induction scanFrom line skip pos s with
  | case1 | case4 | case5 => simp
  | case2 skip pos a s ih => exact ih
  | case3 pos a s hspace ih => exact ih
  | case6 pos a s _ kind length _ hread ih =>
    intro t ht
    rcases List.mem_cons.mp ht with rfl | ht
    · exact hP line pos a s kind length hread
    · exact ih t ht

namespace Lexer

theorem scanLine_forall (hP : Lexeme.Forall P) {lexer lexer' : Lexer} {line : Bytes}
    {error : Option LexError} (hlexer : ∀ t ∈ lexer.tokens, P t)
    (h : lexer.scanLine line = (lexer', error)) : ∀ t ∈ lexer'.tokens, P t := by
  obtain ⟨rfl, _⟩ := Prod.mk.inj h
  intro t ht
  rw [← Array.mem_toList_iff, Array.toList_appendList, List.mem_append, Array.mem_toList_iff] at ht
  rcases ht with ht | ht
  · exact hlexer t ht
  · exact scanFrom_forall hP _ _ _ _ t ht

theorem scanLines_forall (hP : Lexeme.Forall P) {lexer lexer' : Lexer} {lines : List Bytes}
    {error : Option LexError} (hlexer : ∀ t ∈ lexer.tokens, P t)
    (h : lexer.scanLines lines = (lexer', error)) : ∀ t ∈ lexer'.tokens, P t := by
  induction lines generalizing lexer with
  | nil =>
    obtain ⟨rfl, _⟩ := Prod.mk.inj h
    exact hlexer
  | cons line lines ih =>
    unfold scanLines at h
    split at h
    · rename_i hscan
      obtain ⟨rfl, _⟩ := Prod.mk.inj h
      exact scanLine_forall hP hlexer hscan
    · rename_i next hscan
      have hnext : ∀ t ∈ next.tokens, P t := scanLine_forall hP hlexer hscan
      exact ih (by exact hnext) h

end Lexer

/-- What holds of every token that can be read holds of the tokens of a text. -/
theorem Token.forall_of_read (hP : Lexeme.Forall P) {input : Input} {toks : List Token}
    (h : Token.ofInput input = .ok toks) : ∀ t ∈ toks, P t := by
  unfold ofInput Lexer.read at h
  dsimp only at h
  split at h
  · simp at h
  · rename_i lexer hlines
    have hall := Lexer.scanLines_forall hP (by simp) hlines
    split at h
    · simp at h
    · split at h
      · obtain rfl := Except.ok.inj h
        simpa using hall
      · split at h
        · simp at h
        · rename_i hlast
          obtain rfl := Except.ok.inj h
          simpa using Lexer.scanLine_forall hP hall hlast

end Forall

/-! ## Lexemes -/

namespace Lexeme

/-- The signs of one byte that start no other sign. -/
def marks : List (UInt8 × TokenKind) :=
  [(40, .leftParen), (41, .rightParen), (42, .times), (43, .plus), (45, .minus), (47, .divide),
    (61, .equal), (62, .greater)]

/-- `Shape a s kind length`: a token of the kind starts with byte `a`, and takes `length`
bytes of `s` with it. -/
inductive Shape (a : UInt8) (s : Bytes) : TokenKind → Nat → Prop
  | mark {kind : TokenKind} (mem : (a, kind) ∈ marks) : Shape a s kind 0
  | less (first : a = 60) (next : s.head? ≠ some 62) : Shape a s .less 0
  | notEqual (first : a = 60) (next : s.head? = some 62) : Shape a s .notEqual 1
  | assign (first : a = 58) (next : s.head? = some 61) : Shape a s .assign 1
  | comment (first : a = 35) : Shape a s .comment s.length
  | text {length : Nat} (first : a = 34) (closed : textLength? s = some length) :
      Shape a s .text length
  | number (first : Bytes.isDigit a = true)
      (ends : ∀ b rest, s.dropWhile Bytes.isDigit = b :: rest → Bytes.isWordByte b = false) :
      Shape a s .number (s.takeWhile Bytes.isDigit).length
  | keyword {k : Keyword} (first : Bytes.isLetter a = true)
      (reserved : Keyword.ofWord? (a :: s.takeWhile Bytes.isWordByte) = some k) :
      Shape a s (.keyword k) (s.takeWhile Bytes.isWordByte).length
  | name (first : Bytes.isLetter a = true)
      (free : Keyword.ofWord? (a :: s.takeWhile Bytes.isWordByte) = none) :
      Shape a s .name (s.takeWhile Bytes.isWordByte).length

theorem shape_of_read {a : UInt8} {s : Bytes} {kind : TokenKind} {length : Nat}
    (h : read a s = .ok (kind, length)) : Shape a s kind length := by
  unfold read at h
  split at h
  case h_9 =>
    split at h
    · obtain ⟨rfl, rfl⟩ := Prod.mk.inj (Except.ok.inj h)
      exact .notEqual rfl ‹_›
    · obtain ⟨rfl, rfl⟩ := Prod.mk.inj (Except.ok.inj h)
      exact .less rfl ‹_›
  case h_10 =>
    split at h
    · obtain ⟨rfl, rfl⟩ := Prod.mk.inj (Except.ok.inj h)
      exact .assign rfl ‹_›
    · cases h
  case h_11 =>
    obtain ⟨rfl, rfl⟩ := Prod.mk.inj (Except.ok.inj h)
    exact .comment rfl
  case h_12 =>
    unfold text at h
    split at h
    · obtain ⟨rfl, rfl⟩ := Prod.mk.inj (Except.ok.inj h)
      exact .text rfl ‹_›
    · cases h
  case h_13 =>
    split at h
    · rename_i hdigit
      unfold number at h
      dsimp only at h
      split at h
      · rename_i b rest hrest
        split at h
        · cases h
        · rename_i hword
          obtain ⟨rfl, rfl⟩ := Prod.mk.inj (Except.ok.inj h)
          refine .number hdigit fun b' rest' hrest' => ?_
          obtain ⟨rfl, _⟩ := List.cons.inj (hrest.symm.trans hrest')
          exact Bool.eq_false_iff.mpr hword
      · rename_i hnil
        obtain ⟨rfl, rfl⟩ := Prod.mk.inj (Except.ok.inj h)
        exact .number hdigit fun b rest hrest => by cases hnil.symm.trans hrest
    · split at h
      · rename_i hletter
        obtain ⟨hkind, rfl⟩ := Prod.mk.inj (Except.ok.inj h)
        cases hword : Keyword.ofWord? (a :: s.takeWhile Bytes.isWordByte) with
        | none =>
          rw [hword] at hkind
          exact hkind ▸ .name hletter hword
        | some k =>
          rw [hword] at hkind
          exact hkind ▸ .keyword hletter hword
      · cases h
  all_goals
    obtain ⟨rfl, rfl⟩ := Prod.mk.inj (Except.ok.inj h)
    exact .mark (by decide)

theorem read_number {a : UInt8} {s : Bytes} {length : Nat}
    (h : Lexeme.read a s = .ok (.number, length)) :
    Bytes.isDigit a = true ∧ s.take length = s.takeWhile Bytes.isDigit := by
  cases shape_of_read h with
  | mark mem => simp [marks] at mem
  | number first =>
    exact ⟨first, (List.prefix_iff_eq_take.mp ⟨_, List.takeWhile_append_dropWhile⟩).symm⟩

theorem read_name {a : UInt8} {s : Bytes} {length : Nat}
    (h : Lexeme.read a s = .ok (.name, length)) :
    Bytes.isLetter a = true ∧ s.take length = s.takeWhile Bytes.isWordByte := by
  cases shape_of_read h with
  | mark mem => simp [marks] at mem
  | name first =>
    exact ⟨first, (List.prefix_iff_eq_take.mp ⟨_, List.takeWhile_append_dropWhile⟩).symm⟩

end Lexeme

theorem Token.isDigits_of_number {input : Input} {toks : List Token}
    (h : Token.ofInput input = .ok toks) :
    ∀ t ∈ toks, t.kind = .number → t.content.IsDigits := by
  refine forall_of_read (P := fun t => t.kind = .number → t.content.IsDigits) ?_ h
  intro line pos a s kind length hread hkind
  obtain rfl : kind = .number := hkind
  obtain ⟨ha, hs⟩ := Lexeme.read_number hread
  refine ⟨by simp, ?_⟩
  simp only [hs, List.forall_mem_cons]
  exact ⟨ha, List.all_eq_true.mp List.all_takeWhile⟩

end Stackling
