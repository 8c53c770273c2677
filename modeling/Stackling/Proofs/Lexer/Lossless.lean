import Stackling.Proofs.Lexer.Reading

/-!
# Nothing of a text is lost

The tokens of a text account for all of it: each token is a piece of the line
with its number, the tokens stand one after another without overlap, and a byte
that belongs to no token is white space or part of a comment.

* **step** — one lexeme, one byte of white space or one comment more is
  accounted for (`Lexer.AccountsFrom.token`, `.space`, `.comment`);
* **line** — so all of a line is, from any position on (`Lexer.scanFrom_accounts`);
* **text** — so all lines are (`Token.ofInput_accounts`).
-/

namespace Stackling

/-! ## Tokens and lines -/

/-- The text is split after each newline: one ends every line but the last, and
there is no other. -/
structure Bytes.IsSplit (text : Bytes) (lines : List Bytes) (last : Bytes) : Prop where
  text_eq : lines.flatten ++ last = text
  ended : ∀ line ∈ lines, ∃ front, line = front ++ [newline] ∧ newline ∉ front
  open_last : newline ∉ last

theorem Bytes.splitLines_isSplit (text : Bytes) :
    IsSplit text (splitLines text).1 (splitLines text).2 where
  text_eq := splitLines_flatten text
  ended := (mem_splitLines text).1
  open_last := (mem_splitLines text).2

/-- The token is the bytes from its start to its stop of a line, which has the
given number. -/
structure Token.IsCut (t : Token) (number : Nat) (line : Bytes) : Prop where
  line_eq : t.line = number
  start_lt : t.start < t.stop
  stop_le : t.stop ≤ line.length
  content_eq : t.content = (line.take t.stop).drop t.start

/-- The token takes up a position of the line with the given number. -/
def Token.Covers (t : Token) (number pos : Nat) : Prop :=
  t.line = number ∧ t.start ≤ pos ∧ pos < t.stop

/-- The token ends before the other one starts. -/
def Token.Before (t next : Token) : Prop :=
  t.line < next.line ∨ t.line = next.line ∧ t.stop ≤ next.start

namespace Lexer

/-- A comment starts at a position of a line: there is a number sign, and no token
covers anything from there to the end of the line. -/
def IsComment (toks : List Token) (number : Nat) (row : Bytes) (first : Nat) : Prop :=
  row[first]? = some 35 ∧ ∀ later, first ≤ later → ∀ t ∈ toks, ¬ t.Covers number later

/-- The tokens account for all bytes of lines, the first of which has the given
number: they are cut from the lines in order, and what no token covers is white
space or lies in a comment. -/
structure Accounts (number : Nat) (lines : List Bytes) (toks : List Token) : Prop where
  cut : ∀ t ∈ toks, ∃ i row, lines[i]? = some row ∧ t.IsCut (number + i) row
  ordered : toks.Pairwise Token.Before
  bytes : ∀ (i : Nat) row, lines[i]? = some row → ∀ (pos : Nat) b, row[pos]? = some b →
    (∃ t ∈ toks, t.Covers (number + i) pos) ∨ Bytes.isSpace b = true ∨
      ∃ first ≤ pos, IsComment toks (number + i) row first

theorem IsComment.mono {toks toks' : List Token} {number first : Nat} {row : Bytes}
    (h : IsComment toks number row first)
    (hmore : ∀ t ∈ toks', t ∈ toks ∨ ∀ later, first ≤ later → ¬ t.Covers number later) :
    IsComment toks' number row first := by
  refine ⟨h.1, fun later hlater t ht => ?_⟩
  rcases hmore t ht with ht | hnot
  · exact h.2 later hlater t ht
  · exact hnot later hlater

end Lexer

/-! ## Lexemes -/

namespace Lexeme

/-- A text ends on its line, also if its last backslash would reach over the end. -/
theorem textLength?_le {s : Bytes} {length : Nat} (h : textLength? s = some length) :
    length ≤ s.length := by
  induction s using textLength?.induct generalizing length with
  | case1 => cases h
  | case2 s =>
    rw [textLength?_quote] at h
    obtain rfl := Option.some.inj h
    simp
  | case3 s =>
    rw [textLength?.eq_def] at h
    cases h
  | case4 =>
    rw [textLength?.eq_def] at h
    cases h
  | case5 b s _ _ ih =>
    rw [textLength?_escape] at h
    obtain ⟨inner, hinner, rfl⟩ := Option.map_eq_some_iff.mp h
    exact Nat.add_le_add_right (ih hinner) 2
  | case6 b s quote newline backslash ih =>
    rw [textLength?_byte quote backslash newline] at h
    obtain ⟨inner, hinner, rfl⟩ := Option.map_eq_some_iff.mp h
    exact Nat.add_le_add_right (ih hinner) 1

theorem Shape.length_le {a : UInt8} {s : Bytes} {kind : TokenKind} {length : Nat}
    (h : Shape a s kind length) : length ≤ s.length := by
  cases h with
  | mark | less => exact Nat.zero_le _
  | notEqual _ next | assign _ next =>
    obtain ⟨rest, rfl⟩ := List.head?_eq_some_iff.mp next
    simp
  | comment => exact Nat.le_refl _
  | text _ closed => exact textLength?_le closed
  | number | keyword | name => exact List.IsPrefix.length_le ⟨_, List.takeWhile_append_dropWhile⟩

theorem Shape.first_of_comment {a : UInt8} {s : Bytes} {length : Nat}
    (h : Shape a s .comment length) : a = 35 := by
  cases h with
  | mark mem => simp [marks] at mem
  | comment first => exact first

end Lexeme

/-! ## One line -/

namespace Lexer

/-- The tokens account for all bytes of a line from a position on. -/
structure AccountsFrom (number : Nat) (row : Bytes) (pos : Nat) (toks : List Token) : Prop where
  cut : ∀ t ∈ toks, t.IsCut number row ∧ pos ≤ t.start
  ordered : toks.Pairwise Token.Before
  bytes : ∀ (i : Nat) b, pos ≤ i → row[i]? = some b →
    (∃ t ∈ toks, t.Covers number i) ∨ Bytes.isSpace b = true ∨
      ∃ first, pos ≤ first ∧ first ≤ i ∧ IsComment toks number row first

section Line

variable {number pos : Nat} {row : Bytes} {toks : List Token}

theorem AccountsFrom.nil (h : row.length ≤ pos) : AccountsFrom number row pos [] := by
  refine ⟨nofun, .nil, fun i b hi hb => ?_⟩
  have hlt := (List.getElem?_eq_some_iff.mp hb).1
  omega

/-- A comment accounts for the rest of its line. -/
theorem AccountsFrom.comment (h : row[pos]? = some 35) : AccountsFrom number row pos [] :=
  ⟨nofun, .nil, fun _ _ hi _ => .inr (.inr ⟨pos, Nat.le_refl _, hi, h, fun _ _ => nofun⟩)⟩

/-- White space need not be covered. -/
theorem AccountsFrom.space {b : UInt8} (h : row[pos]? = some b) (hspace : Bytes.isSpace b = true)
    (hrest : AccountsFrom number row (pos + 1) toks) : AccountsFrom number row pos toks := by
  refine ⟨fun t ht => ?_, hrest.ordered, fun i b' hi hb' => ?_⟩
  · obtain ⟨hcut, hstart⟩ := hrest.cut t ht
    exact ⟨hcut, by omega⟩
  · rcases Nat.eq_or_lt_of_le hi with rfl | hlt
    · obtain rfl := Option.some.inj (h.symm.trans hb')
      exact .inr (.inl hspace)
    · rcases hrest.bytes i b' hlt hb' with hcovered | hspace' | ⟨first, hlow, hhigh, hcomment⟩
      · exact .inl hcovered
      · exact .inr (.inl hspace')
      · exact .inr (.inr ⟨first, by omega, hhigh, hcomment⟩)

/-- A token covers the line up to where it stops, and nothing after that. -/
theorem AccountsFrom.token {t : Token} (h : t.IsCut number row)
    (hrest : AccountsFrom number row t.stop toks) :
    AccountsFrom number row t.start (t :: toks) := by
  have hlt := h.start_lt
  refine ⟨List.forall_mem_cons.mpr ⟨⟨h, Nat.le_refl _⟩, fun u hu => ?_⟩,
    List.pairwise_cons.mpr ⟨fun u hu => ?_, hrest.ordered⟩, fun i b hi hb => ?_⟩
  · obtain ⟨hcut, hstart⟩ := hrest.cut u hu
    exact ⟨hcut, by omega⟩
  · obtain ⟨hcut, hstart⟩ := hrest.cut u hu
    exact .inr ⟨h.line_eq.trans hcut.line_eq.symm, hstart⟩
  · by_cases hstop : i < t.stop
    · exact .inl ⟨t, List.mem_cons_self, h.line_eq, hi, hstop⟩
    · rcases hrest.bytes i b (by omega) hb with
        ⟨u, hu, hcovers⟩ | hspace | ⟨first, hlow, hhigh, hcomment⟩
      · exact .inl ⟨u, List.mem_cons_of_mem _ hu, hcovers⟩
      · exact .inr (.inl hspace)
      · refine .inr (.inr ⟨first, by omega, hhigh, hcomment.mono fun u hu => ?_⟩)
        rcases List.mem_cons.mp hu with rfl | hu
        · exact .inr fun later hlater hcovers => by have hbound := hcovers.2.2; omega
        · exact .inl hu

end Line

/-- A token that is read at a place is cut from the line there. -/
theorem isCut_of_read {a : UInt8} {s before : Bytes} {kind : TokenKind} {length pos : Nat}
    (h : Lexeme.read a s = .ok (kind, length)) (number : Nat) (hpos : before.length = pos) :
    Token.IsCut { kind, content := a :: s.take length, line := number, start := pos,
                  stop := pos + 1 + length } number (before ++ a :: s) := by
  have hlength := (Lexeme.shape_of_read h).length_le
  refine ⟨rfl, ?_, ?_, ?_⟩
  · dsimp only
    omega
  · dsimp only
    rw [List.length_append, List.length_cons]
    omega
  · dsimp only
    rw [← hpos, Nat.add_assoc, List.take_length_add_append, List.drop_left, Nat.add_comm 1,
      List.take_succ_cons]

/-- What is read of a line accounts for it, from the place on that the skipping
leads to. `before` is the part of the line that lies behind. -/
theorem scanFrom_accounts {number skip pos : Nat} {s before : Bytes} (hpos : before.length = pos)
    (h : (scanFrom number skip pos s).error = none) :
    AccountsFrom number (before ++ s) (pos + skip) (scanFrom number skip pos s).tokens := by
  fun_induction scanFrom number skip pos s generalizing before with
  | case1 skip pos => exact .nil (by simp; omega)
  | case2 skip pos a s ih =>
    have hrest := @ih (before ++ [a]) (by simp [hpos]) h
    rw [List.append_assoc, List.singleton_append] at hrest
    rwa [Nat.add_right_comm] at hrest
  | case3 pos a s hspace ih =>
    have hrest := @ih (before ++ [a]) (by simp [hpos]) h
    rw [List.append_assoc, List.singleton_append] at hrest
    exact .space (by simp [← hpos]) hspace hrest
  | case4 => cases h
  | case5 pos a s hspace length hread =>
    obtain rfl := (Lexeme.shape_of_read hread).first_of_comment
    exact .comment (by simp [← hpos])
  | case6 pos a s hspace kind length hkind hread ih =>
    have hrest := @ih (before ++ [a]) (by simp [hpos]) h
    rw [List.append_assoc, List.singleton_append] at hrest
    exact .token (isCut_of_read hread number hpos) hrest

/-! ## All lines -/

theorem lineTokens_accounts {number : Nat} {line : Bytes} {toks : List Token}
    (h : lineTokens number 0 line = some toks) : AccountsFrom number line 0 toks := by
  obtain ⟨herror, rfl⟩ := lineTokens_eq_some.mp h
  exact @scanFrom_accounts number 0 0 line [] rfl herror

/-- A line in front of others that are accounted for. -/
theorem Accounts.cons {number : Nat} {line : Bytes} {lines : List Bytes} {here more : List Token}
    (hline : AccountsFrom number line 0 here) (hlines : Accounts (number + 1) lines more) :
    Accounts number (line :: lines) (here ++ more) := by
  -- tokens of other lines cover nothing of a line
  have hline_of : ∀ t ∈ more, number < t.line := by
    intro t ht
    obtain ⟨i, l, -, hcut⟩ := hlines.cut t ht
    have hnumber := hcut.line_eq
    omega
  refine ⟨fun t ht => ?_, List.pairwise_append.mpr ⟨hline.ordered, hlines.ordered, ?_⟩, ?_⟩
  · rcases List.mem_append.mp ht with ht | ht
    · exact ⟨0, line, rfl, (hline.cut t ht).1⟩
    · obtain ⟨i, l, hl, hcut⟩ := hlines.cut t ht
      exact ⟨i + 1, l, hl, by rwa [Nat.add_comm i, ← Nat.add_assoc]⟩
  · intro t ht u hu
    have hline_t := (hline.cut t ht).1.line_eq
    have hline_u := hline_of u hu
    exact .inl (by omega)
  · intro i l hl pos b hb
    cases i with
    | zero =>
      obtain rfl := Option.some.inj hl
      rcases hline.bytes pos b (Nat.zero_le _) hb with
        ⟨t, ht, hcovers⟩ | hspace | ⟨first, -, hfirst, hcomment⟩
      · exact .inl ⟨t, List.mem_append_left _ ht, hcovers⟩
      · exact .inr (.inl hspace)
      · refine .inr (.inr ⟨first, hfirst, hcomment.mono fun t ht => ?_⟩)
        rcases List.mem_append.mp ht with ht | ht
        · exact .inl ht
        · exact .inr fun _ _ hcovers => absurd hcovers.1 (Nat.ne_of_gt (hline_of t ht))
    | succ i =>
      rw [Nat.add_comm i, ← Nat.add_assoc]
      rcases hlines.bytes i l hl pos b hb with
        ⟨t, ht, hcovers⟩ | hspace | ⟨first, hfirst, hcomment⟩
      · exact .inl ⟨t, List.mem_append_right _ ht, hcovers⟩
      · exact .inr (.inl hspace)
      · refine .inr (.inr ⟨first, hfirst, hcomment.mono fun t ht => ?_⟩)
        rcases List.mem_append.mp ht with ht | ht
        · refine .inr fun _ _ hcovers => ?_
          have hnumber := (hline.cut t ht).1.line_eq
          have hother := hcovers.1
          omega
        · exact .inl ht

theorem lexLines_accounts {number : Nat} {lines : List Bytes} {toks : List Token}
    (h : lexLines number 0 lines = some toks) : Accounts number lines toks := by
  induction lines generalizing number toks with
  | nil =>
    obtain rfl := Option.some.inj h
    exact ⟨nofun, .nil, nofun⟩
  | cons line lines ih =>
    rw [lexLines_cons] at h
    obtain ⟨here, hhere, h⟩ := Option.bind_eq_some_iff.mp h
    obtain ⟨more, hmore, rfl⟩ := Option.map_eq_some_iff.mp h
    exact .cons (lineTokens_accounts hhere) (ih hmore)

end Lexer

/-- **Nothing of a text is lost.** The tokens that are read from a text account for
every byte of every line of it. -/
theorem Token.ofInput_accounts {input : Input} {toks : List Token}
    (h : Token.ofInput input = .ok toks) :
    ∃ lines last, Bytes.IsSplit input.unread lines last ∧
      Lexer.Accounts 1 (lines ++ [last]) toks :=
  ⟨_, _, Bytes.splitLines_isSplit input.unread,
    Lexer.lexLines_accounts (Lexer.ofInput_eq_ok.mp h).2⟩

/-- Two lines with an escaped quote, number signs inside and outside a text, and a
carriage return. -/
def Token.sampleText : Bytes :=
  ascii "SET x := \"a\\\"#\" # b\r\n  INC x#PRINT"

theorem Token.ofInput_accounts_sample :
    ∃ toks, Token.ofInput (.ofBytes sampleText) = .ok toks ∧
      toks.map (fun t => (t.line, t.start, t.stop))
        = [(1, 0, 3), (1, 4, 5), (1, 6, 8), (1, 9, 15), (2, 2, 5), (2, 6, 7)] ∧
      ∃ lines last, Bytes.IsSplit sampleText lines last ∧
        Lexer.Accounts 1 (lines ++ [last]) toks := by
  have hread : (match Token.ofInput (.ofBytes sampleText) with
      | .ok toks => decide (toks.map (fun t => (t.line, t.start, t.stop))
          = [(1, 0, 3), (1, 4, 5), (1, 6, 8), (1, 9, 15), (2, 2, 5), (2, 6, 7)])
      | .error _ => false) = true := by
    decide +kernel
  split at hread
  · rename_i toks htoks
    exact ⟨toks, htoks, of_decide_eq_true hread, Token.ofInput_accounts htoks⟩
  · cases hread

end Stackling
