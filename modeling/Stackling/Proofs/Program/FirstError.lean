import Stackling.Proofs.Lexer.Layout
import Stackling.Proofs.Program.Expected

/-!
# Errors are found at the first wrong token

Whatever is expected at some place of a program can be written down there: each
part has tokens that bring it to its end (`Expected.closer`). These fit together as
long as every part is followed by something that ends it (`Expected.Fits`), and no
token changes that.

* **the tokens before** an error can be continued to a program, and the tokens
  **up to and including** it cannot (`Expected.exists_of_stuck`).
-/

namespace Stackling.Parser

open Grammar

namespace Expected

/-! ## Bringing a program to its end -/

/-- Kinds of tokens that bring a part to its end. -/
def closer : Expected → List TokenKind
  | token kinds => kinds.take 1
  | operand | term | phrase | value => [.name]
  | test => [.name, .equal, .name]
  | statement | block _ true => [.keyword .read, .name]
  | otherwise => [.keyword .endIf]
  | declared true => [.name, .name]
  | links | block _ false | declarePart | declared false => []

def closers (parts : List Expected) : List TokenKind := parts.flatMap closer

/-- Not an operator, so that an expression ends there. -/
def Ends (next : Option TokenKind) : Prop := ∀ level, ∀ kind ∈ next, kind ∉ operators level

/-- What a part needs to be brought to its end before a token of the given kind, or
before the end of the text. -/
def EndsAt : Expected → Option TokenKind → Prop
  | token kinds, _ => kinds ≠ [] ∧ .comment ∉ kinds
  | operand, _ | test, _ | term, _ | otherwise, _ => True
  | links, next | phrase, next | value, next | statement, next => Ends next
  | block stops _, next => .read ∉ stops ∧ ∃ k ∈ stops, next = some (.keyword k)
  | declarePart, next | declared _, next => next = some (.keyword .beginBody)

/-- Every part can be brought to its end before the parts that follow it. -/
def Fits : List Expected → Prop
  | [] => True
  | part :: parts => part.EndsAt (closers parts).head? ∧ Fits parts

theorem ends_keyword (k : Keyword) : Ends (some (.keyword k)) := by
  intro level kind hkind
  obtain rfl := Option.some.inj hkind
  unfold operators
  split <;> simp

theorem endsAt_token {kind : TokenKind} (h : .comment ≠ kind) (next : Option TokenKind) :
    (token [kind]).EndsAt next :=
  ⟨List.cons_ne_nil _ _, fun hmem => h (List.mem_singleton.mp hmem)⟩

theorem fits_start : Fits start :=
  ⟨endsAt_token (by decide) _, endsAt_token (by decide) _, rfl, endsAt_token (by decide) _,
    ⟨by decide, .endBody, List.mem_singleton.mpr rfl, rfl⟩, endsAt_token (by decide) _, trivial⟩

/-! ## Tokens keep the parts fitting -/

section Moves

variable {parts more : List Expected} {t : Token}

theorem Move.andThen_eq_take {m : Move} (h : m.andThen parts = .take more) :
    ∃ front, m = .take front ∧ more = front ++ parts := by
  cases m with
  | take front => exact ⟨front, rfl, (Move.take.inj h).symm⟩
  | reject => cases h
  | pass => cases h

theorem tokenMove_eq_take {kinds : List TokenKind} (h : tokenMove kinds t = .take more) :
    more = [] := by
  unfold tokenMove at h
  grind

theorem operandMove_eq_take (h : operandMove t = .take more) : more = [] := by
  unfold operandMove at h
  grind

theorem Fits.termMove (h : Fits parts) (hmove : termMove t = .take more) :
    Fits (more ++ parts) := by
  unfold Expected.termMove at hmove
  split at hmove
  · obtain rfl := Move.take.inj hmove
    refine ⟨?_, endsAt_token (by decide) _, h⟩
    -- the expression in parentheses ends before the one that closes them
    intro level kind hkind
    obtain rfl := Option.some.inj hkind
    unfold operators
    split <;> decide
  · obtain rfl := operandMove_eq_take hmove
    exact h

theorem Fits.phraseMove (h : Fits parts) (hends : Ends (closers parts).head?)
    (hmove : phraseMove t = .take more) : Fits (more ++ parts) := by
  obtain ⟨front, hterm, rfl⟩ := Move.andThen_eq_take hmove
  rw [List.append_assoc]
  exact Fits.termMove ⟨hends, h⟩ hterm

theorem Fits.statementMove (h : Fits parts) (hends : Ends (closers parts).head?)
    (hmove : statementMove t = .take more) : Fits (more ++ parts) := by
  unfold Expected.statementMove at hmove
  split at hmove
  case h_7 => cases hmove
  all_goals obtain rfl := Move.take.inj hmove
  · exact ⟨endsAt_token (by decide) _, endsAt_token (by decide) _, hends, h⟩
  · exact ⟨⟨by decide, by decide⟩, h⟩
  · exact ⟨endsAt_token (by decide) _, h⟩
  · exact ⟨endsAt_token (by decide) _, endsAt_token (by decide) _, hends, h⟩
  · exact ⟨trivial, endsAt_token (by decide) _, ⟨by decide, .endIf, by decide, rfl⟩, trivial, h⟩
  · exact ⟨trivial, endsAt_token (by decide) _, ⟨by decide, .endWhile, by decide, rfl⟩,
      endsAt_token (by decide) _, h⟩

/-- A token that starts a part leaves parts of it that fit. -/
theorem Fits.move {part : Expected} (h : Fits (part :: parts)) (hmove : part.move t = .take more) :
    Fits (more ++ parts) := by
  obtain ⟨hends, hparts⟩ := h
  cases part with
  | token kinds =>
    obtain rfl := tokenMove_eq_take hmove
    exact hparts
  | operand =>
    obtain rfl := operandMove_eq_take hmove
    exact hparts
  | test =>
    obtain ⟨front, hfront, rfl⟩ := Move.andThen_eq_take hmove
    obtain rfl := operandMove_eq_take hfront
    exact ⟨⟨by decide, by decide⟩, trivial, hparts⟩
  | term => exact hparts.termMove hmove
  | links =>
    rw [Expected.move] at hmove
    split at hmove
    · obtain rfl := Move.take.inj hmove
      exact ⟨trivial, hends, hparts⟩
    · cases hmove
  | phrase => exact hparts.phraseMove hends hmove
  | value =>
    rw [Expected.move] at hmove
    split at hmove
    · obtain rfl := Move.take.inj hmove
      exact hparts
    · exact hparts.phraseMove hends hmove
  | statement => exact hparts.statementMove hends hmove
  | block stops marked =>
    rw [Expected.move] at hmove
    split at hmove
    · split at hmove <;> cases hmove
    · obtain ⟨front, hfront, rfl⟩ := Move.andThen_eq_take hmove
      rw [List.append_assoc]
      -- an expression at the end of a statement ends before the word that ends the block
      refine Fits.statementMove ⟨hends, hparts⟩ ?_ hfront
      obtain ⟨-, k, -, hnext⟩ := hends
      exact hnext ▸ ends_keyword k
  | otherwise =>
    rw [Expected.move] at hmove
    split at hmove
    · obtain rfl := Move.take.inj hmove
      exact ⟨⟨by decide, .endIf, by decide, rfl⟩, endsAt_token (by decide) _, hparts⟩
    · obtain rfl := Move.take.inj hmove
      exact hparts
    · cases hmove
  | declarePart =>
    rw [Expected.move] at hmove
    split at hmove
    · obtain rfl := Move.take.inj hmove
      exact ⟨hends, hparts⟩
    · cases hmove
  | declared marked =>
    rw [Expected.move] at hmove
    split at hmove
    · split at hmove <;> cases hmove
    · obtain ⟨front, hfront, rfl⟩ := Move.andThen_eq_take hmove
      obtain rfl := tokenMove_eq_take hfront
      exact ⟨endsAt_token (by decide) _, hends, hparts⟩

theorem Fits.advance (h : Fits parts) (hadvance : advance parts t = some more) : Fits more := by
  induction parts with
  | nil => cases hadvance
  | cons part parts ih =>
    rw [Expected.advance] at hadvance
    split at hadvance
    · cases hadvance
    · exact ih h.2 hadvance
    · rename_i front hmove
      obtain rfl := Option.some.inj hadvance
      exact h.move hmove

end Moves

/-! ## Parts that fit are brought to their end -/

section Closing

variable {parts : List Expected} {toks : List Token}

/-- The kind of the next token. -/
def next (toks : List Token) : Option TokenKind := toks.head?.map Token.kind

theorem stuck_links (h : Ends (next toks)) : stuck (links :: parts) toks = stuck parts toks := by
  cases toks with
  | nil => exact stuck_optional rfl
  | cons t rest =>
    refine stuck_pass ?_
    rcases link?_cases t with ⟨⟨level, hlevel⟩, -⟩ | ⟨-, hlink⟩
    · exact absurd hlevel (h level t.kind rfl)
    · simp [Expected.move, hlink]

theorem stuck_token {kinds : List TokenKind} {t : Token} (h : t.kind ∈ kinds) :
    stuck (token kinds :: parts) (t :: toks) = stuck parts toks := by
  have hmove : (token kinds).move t = .take [] := if_pos h
  exact stuck_take hmove

theorem exists_of_next_eq_some {kind : TokenKind} (h : next toks = some kind) :
    ∃ t rest, toks = t :: rest ∧ t.kind = kind := by
  cases toks with
  | nil => cases h
  | cons t rest => exact ⟨t, rest, rfl, Option.some.inj h⟩

theorem stuck_block {stops : List Keyword} (h : (block stops false).EndsAt (next toks)) :
    stuck (block stops false :: parts) toks = stuck parts toks := by
  obtain ⟨-, k, hk, hnext⟩ := h
  obtain ⟨t, rest, rfl, hkind⟩ := exists_of_next_eq_some hnext
  have hstop : startsWith stops [t] = true := by
    obtain ⟨kind, content, line, start, stop⟩ := t
    obtain rfl : kind = .keyword k := hkind
    simpa [startsWith] using hk
  exact stuck_pass (by simp [Expected.move, hstop])

theorem stuck_declared (h : next toks = some (.keyword .beginBody)) :
    stuck (declared false :: parts) toks = stuck parts toks := by
  obtain ⟨t, rest, rfl, hkind⟩ := exists_of_next_eq_some h
  exact stuck_pass (by simp [Expected.move, startsWith_singleton.mpr hkind])

theorem operandMove_name {t : Token} (h : t.kind = .name) : operandMove t = .take [] := by
  simp [operandMove, h]

theorem termMove_name {t : Token} (h : t.kind = .name) : termMove t = .take [] := by
  simp [termMove, operandMove, h]

theorem phraseMove_name {t : Token} (h : t.kind = .name) : phraseMove t = .take [links] := by
  rw [phraseMove, termMove_name h]
  rfl

theorem statementMove_read {t : Token} (h : t.kind = .keyword .read) :
    statementMove t = .take [token [.name]] := by
  simp [statementMove, h]

/-- The closing tokens of a part bring it to its end. -/
theorem stuck_closer {part : Expected} {closing : List Token} (h : part.EndsAt (next toks))
    (hclosing : closing.map Token.kind = part.closer) :
    stuck (part :: parts) (closing ++ toks) = stuck parts toks := by
  cases part with
  | token kinds =>
    obtain ⟨hne, -⟩ := h
    obtain ⟨kind, kinds, rfl⟩ := List.exists_cons_of_ne_nil hne
    obtain ⟨t, rfl, hkind⟩ := List.map_eq_singleton_iff.mp hclosing
    exact stuck_token (hkind ▸ List.mem_cons_self)
  | operand =>
    obtain ⟨t, rfl, hkind⟩ := List.map_eq_singleton_iff.mp hclosing
    have hmove : operand.move t = .take [] := operandMove_name hkind
    exact stuck_take hmove
  | test =>
    obtain ⟨t, closing, rfl, hkind, hclosing⟩ := List.map_eq_cons_iff.mp hclosing
    obtain ⟨t', closing, rfl, hkind', hclosing⟩ := List.map_eq_cons_iff.mp hclosing
    obtain ⟨t'', rfl, hkind''⟩ := List.map_eq_singleton_iff.mp hclosing
    have hmove : test.move t = .take [token (operators 0), operand] := by
      rw [Expected.move, operandMove_name hkind]
      rfl
    have hmove'' : operand.move t'' = .take [] := operandMove_name hkind''
    have hsign : t'.kind ∈ operators 0 := by
      rw [hkind']
      decide
    exact (stuck_take hmove).trans ((stuck_token hsign).trans (stuck_take hmove''))
  | term =>
    obtain ⟨t, rfl, hkind⟩ := List.map_eq_singleton_iff.mp hclosing
    have hmove : term.move t = .take [] := termMove_name hkind
    exact stuck_take hmove
  | links =>
    obtain rfl := List.map_eq_nil_iff.mp hclosing
    exact stuck_links h
  | phrase =>
    obtain ⟨t, rfl, hkind⟩ := List.map_eq_singleton_iff.mp hclosing
    have hmove : phrase.move t = .take [links] := phraseMove_name hkind
    exact (stuck_take hmove).trans (stuck_links h)
  | value =>
    obtain ⟨t, rfl, hkind⟩ := List.map_eq_singleton_iff.mp hclosing
    have hmove : value.move t = .take [links] := by
      rw [Expected.move, if_neg (by simp [hkind]), phraseMove_name hkind]
    exact (stuck_take hmove).trans (stuck_links h)
  | statement =>
    obtain ⟨t, closing, rfl, hkind, hclosing⟩ := List.map_eq_cons_iff.mp hclosing
    obtain ⟨t', rfl, hkind'⟩ := List.map_eq_singleton_iff.mp hclosing
    have hmove : statement.move t = .take [token [.name]] := statementMove_read hkind
    exact (stuck_take hmove).trans (stuck_token (List.mem_singleton.mpr hkind'))
  | block stops marked =>
    cases marked with
    | false =>
      obtain rfl := List.map_eq_nil_iff.mp hclosing
      exact stuck_block h
    | true =>
      obtain ⟨t, closing, rfl, hkind, hclosing⟩ := List.map_eq_cons_iff.mp hclosing
      obtain ⟨t', rfl, hkind'⟩ := List.map_eq_singleton_iff.mp hclosing
      -- the statement that is put in starts with a word that does not end the block
      have hstop : ¬ startsWith stops [t] = true := by
        obtain ⟨kind, content, line, start, stop⟩ := t
        obtain rfl : kind = .keyword .read := hkind
        simpa [startsWith] using h.1
      have hmove : (block stops true).move t = .take [token [.name], block stops false] := by
        rw [Expected.move, if_neg hstop, statementMove_read hkind]
        rfl
      refine (stuck_take hmove).trans ((stuck_token (List.mem_singleton.mpr hkind')).trans ?_)
      exact stuck_block h
  | otherwise =>
    obtain ⟨t, rfl, hkind⟩ := List.map_eq_singleton_iff.mp hclosing
    have hmove : otherwise.move t = .take [] := by simp [Expected.move, hkind]
    exact stuck_take hmove
  | declarePart =>
    obtain rfl := List.map_eq_nil_iff.mp hclosing
    obtain ⟨t, rest, rfl, hkind⟩ := exists_of_next_eq_some h
    have hmove : declarePart.move t = .pass := if_neg (by simp [hkind])
    exact stuck_pass hmove
  | declared marked =>
    cases marked with
    | false =>
      obtain rfl := List.map_eq_nil_iff.mp hclosing
      exact stuck_declared h
    | true =>
      obtain ⟨t, closing, rfl, hkind, hclosing⟩ := List.map_eq_cons_iff.mp hclosing
      obtain ⟨t', rfl, hkind'⟩ := List.map_eq_singleton_iff.mp hclosing
      have hbegin : ¬ startsWith [.beginBody] [t] = true := by
        rw [startsWith_singleton, hkind]
        decide
      have hmove : (declared true).move t = .take [token [.name], declared false] := by
        rw [Expected.move, if_neg hbegin, tokenMove, if_pos (by rw [hkind]; decide)]
        rfl
      refine (stuck_take hmove).trans ((stuck_token (List.mem_singleton.mpr hkind')).trans ?_)
      exact stuck_declared h

theorem stuck_closers (h : Fits parts) (htoks : toks.map Token.kind = closers parts) :
    stuck parts toks = none := by
  induction parts generalizing toks with
  | nil =>
    obtain rfl := List.map_eq_nil_iff.mp htoks
    rfl
  | cons part parts ih =>
    obtain ⟨closing, toks, rfl, hclosing, hrest⟩ := List.map_eq_append_iff.mp htoks
    have hrest : toks.map Token.kind = closers parts := hrest
    have hnext : next toks = (closers parts).head? := by
      rw [← hrest, List.head?_map]
      rfl
    rw [stuck_closer (hnext ▸ h.1) hclosing]
    exact ih h.2 hrest

theorem comment_not_mem_closers (h : Fits parts) : .comment ∉ closers parts := by
  induction parts with
  | nil => exact List.not_mem_nil
  | cons part parts ih =>
    refine List.not_mem_append ?_ (ih h.2)
    cases part with
    | token kinds => exact fun hmem => h.1.2 (List.mem_of_mem_take hmem)
    | block stops marked => cases marked <;> simp [closer]
    | declared marked => cases marked <;> simp [closer]
    | _ => decide

end Closing

/-- Where tokens go wrong: those before can be continued, whatever tokens of some kinds
are put there, and those up to and including the wrong one cannot. -/
theorem exists_of_stuck {parts : List Expected} {toks rest : List Token} (hfits : Fits parts)
    (h : stuck parts toks = some rest) :
    ∃ before, toks = before ++ rest ∧
      (∃ kinds, .comment ∉ kinds ∧
        ∀ more : List Token, more.map Token.kind = kinds → stuck parts (before ++ more) = none) ∧
      ∀ t ∈ rest.head?, ∀ more, stuck parts (before ++ t :: more) ≠ none := by
  -- the tokens are taken one by one, and the parts fit at each of them
  induction toks generalizing parts with
  | nil =>
    rw [stuck] at h
    split at h
    · cases h
    · obtain rfl := Option.some.inj h
      exact ⟨[], rfl, ⟨closers parts, comment_not_mem_closers hfits, fun _ => stuck_closers hfits⟩,
        fun t ht => by cases ht⟩
  | cons t toks ih =>
    rw [stuck] at h
    cases hadvance : advance parts t with
    | none =>
      rw [hadvance] at h
      obtain rfl := Option.some.inj h
      refine ⟨[], rfl, ⟨closers parts, comment_not_mem_closers hfits,
        fun _ => stuck_closers hfits⟩, fun t' ht' more => ?_⟩
      obtain rfl := Option.some.inj ht'
      simp [stuck, hadvance]
    | some parts' =>
      rw [hadvance] at h
      have hstep : ∀ toks, stuck parts (t :: toks) = stuck parts' toks := fun toks => by
        simp [stuck, hadvance]
      obtain ⟨before, rfl, ⟨kinds, hkinds, hmore⟩, hwrong⟩ := ih (hfits.advance hadvance) h
      refine ⟨t :: before, rfl, ⟨kinds, hkinds, fun more hmap => ?_⟩, fun t' ht' more => ?_⟩
      · exact (hstep _).trans (hmore more hmap)
      · exact fun hnone => hwrong t' ht' more ((hstep _).symm.trans hnone)

end Expected

open Expected

/-! ## Errors -/

/-- Tokens of a text that can be continued to the tokens of a program. -/
def Extends (toks : List Token) : Prop :=
  ∃ (input : Input) (more : List Token) (p : Program),
    Token.ofInput input = .ok (toks ++ more) ∧ program (toks ++ more) = .ok p

theorem stuck_start_eq_none {toks : List Token} :
    stuck start toks = none ↔ ∃ p, program toks = .ok p := by
  rw [stuck_program]
  cases program toks <;> simp [stuckAt]

/-- The first tokens of a text can be continued if tokens of some kinds continue them. -/
theorem extends_of_kinds {input : Input} {before rest : List Token} {kinds : List TokenKind}
    (hlex : Token.ofInput input = .ok (before ++ rest)) (hkinds : .comment ∉ kinds)
    (h : ∀ more : List Token, more.map Token.kind = kinds → stuck start (before ++ more) = none) :
    Extends before := by
  obtain ⟨ls, rfl⟩ := Lexeme.exists_of_kinds hkinds
  obtain ⟨layout, -, htokens⟩ := Lexeme.Layout.exists_of_ofInput hlex
  obtain ⟨layout', more, htokens', hmore⟩ := layout.exists_extend before.length ls
  rw [htokens, List.take_left] at htokens'
  obtain ⟨p, hp⟩ := stuck_start_eq_none.mp (h more hmore)
  refine ⟨.ofBytes layout'.text, more, p, Lexer.ofInput_eq_ok.mpr ⟨rfl, ?_⟩, hp⟩
  exact htokens' ▸ layout'.lexAfter_text []

/-- Errors are found at the first wrong token. If the text ends too early, it can be
continued to a program. Otherwise the error names a token by its spelling and its line:
the tokens before it can be continued to a program, and those up to and including it
cannot. -/
theorem error_at_first_wrong_token {input : Input} {toks : List Token} {e : SyntaxError}
    (hlex : Token.ofInput input = .ok toks) (herror : program toks = .error e) :
    (e.message = ascii "syntax error: unexpected end of program" ∧ Extends toks) ∨
      ∃ before t after, toks = before ++ t :: after ∧
        (∃ note, (note = [] ∨ note = ascii ": number out of range") ∧
          e.message = ascii "syntax error near " ++ t.content ++ ascii " at line "
            ++ Decimal.ofNat t.line ++ note) ∧
        Extends before ∧ ∀ more p, program (before ++ t :: more) ≠ .ok p := by
  have hstuck : stuck start toks = some e.rest := by rw [stuck_program, herror]; rfl
  obtain ⟨before, rfl, ⟨kinds, hkinds, hmore⟩, hwrong⟩ := exists_of_stuck fits_start hstuck
  have hextends : Extends before := extends_of_kinds hlex hkinds hmore
  obtain ⟨rest, range⟩ := e
  cases rest with
  | nil => exact .inl ⟨rfl, by rwa [List.append_nil]⟩
  | cons t after =>
    refine .inr ⟨before, t, after, rfl, ?_, hextends, fun more p hp => ?_⟩
    · cases range with
      | false => exact ⟨[], .inl rfl, rfl⟩
      | true => exact ⟨_, .inr rfl, rfl⟩
    · exact hwrong t rfl more (stuck_start_eq_none.mpr ⟨p, hp⟩)

/-- A parenthesis that is not closed, which shows on the next line. -/
def unclosed : Bytes := ascii "PROGRAM p BEGIN\nSET a := (b\nc END"

def unclosedTokens : List Token :=
  [⟨.keyword .program, ascii "PROGRAM", 1, 0, 7⟩, ⟨.name, ascii "p", 1, 8, 9⟩,
    ⟨.keyword .beginBody, ascii "BEGIN", 1, 10, 15⟩, ⟨.keyword .set, ascii "SET", 2, 0, 3⟩,
    ⟨.name, ascii "a", 2, 4, 5⟩, ⟨.assign, ascii ":=", 2, 6, 8⟩, ⟨.leftParen, ascii "(", 2, 9, 10⟩,
    ⟨.name, ascii "b", 2, 10, 11⟩, ⟨.name, ascii "c", 3, 0, 1⟩,
    ⟨.keyword .endBody, ascii "END", 3, 2, 5⟩]

theorem error_at_first_wrong_token_unclosed :
    Token.ofInput (.ofBytes unclosed) = .ok unclosedTokens ∧
      program unclosedTokens = .error { rest := unclosedTokens.drop 8 } ∧
      SyntaxError.message { rest := unclosedTokens.drop 8 }
        = ascii "syntax error near c at line 3" ∧
      ∃ before t after, unclosedTokens = before ++ t :: after ∧ Extends before ∧
        ∀ more p, program (before ++ t :: more) ≠ .ok p := by
  have hlex : Token.ofInput (.ofBytes unclosed) = .ok unclosedTokens := by decide +kernel
  have herror : program unclosedTokens = .error { rest := unclosedTokens.drop 8 } := rfl
  have hmessage : SyntaxError.message { rest := unclosedTokens.drop 8 }
      = ascii "syntax error near c at line 3" := by decide +kernel
  refine ⟨hlex, herror, hmessage, ?_⟩
  rcases error_at_first_wrong_token hlex herror with ⟨hend, -⟩ | ⟨before, t, after, htoks, -, h⟩
  · exact absurd (hmessage.symm.trans hend) (by decide)
  · exact ⟨before, t, after, htoks, h⟩

end Stackling.Parser
