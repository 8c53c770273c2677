import Stackling.Proofs.Lexer
import Stackling.Proofs.Program.Emits
import Stackling.Proofs.Program.Grammar

/-!
# Parsers read the grammar

What a parser reads is stated once for all of them: `Reads` says that every
value it gives is the value of a derivation of the tokens it takes, and that it
gives the value of every derivation that the tokens start with, if they go on
in a way that ends the derivation there. The parsers that carry a bound read
the grammar on all token lists that are shorter than the bound.

* **expressions** — the chain of terms that is read is the chain of one phrase,
  whose expression the chain is turned into (`reads_expression`);
* **statements** — a block is read up to the word that ends it
  (`statement_sound`, `statement_complete`, `reads_block`);
* **programs** — the programs that are read from tokens are those of their
  derivations (`program_eq_ok_iff`).
-/

namespace Stackling.Parser

open Grammar

/-- Less than `n` tokens, the numbers among which are spelled with digits. -/
structure Within (n : Nat) (toks : List Token) : Prop where
  length_lt : toks.length < n
  digits : ∀ t ∈ toks, t.kind = .number → t.content.IsDigits

namespace Within

variable {n : Nat} {t : Token} {toks rest : List Token}

theorem suffix (h : Within n toks) (hrest : rest <:+ toks) : Within n rest where
  length_lt := Nat.lt_of_le_of_lt hrest.length_le h.length_lt
  digits t ht := h.digits t (hrest.subset ht)

theorem right (h : Within n (toks ++ rest)) : Within n rest := h.suffix (List.suffix_append _ _)

theorem cons (h : Within n (t :: rest)) : Within n rest := h.suffix (List.suffix_cons _ _)

theorem tail (h : Within (n + 1) (t :: rest)) : Within n rest where
  length_lt := Nat.lt_of_succ_lt_succ h.length_lt
  digits := h.cons.digits

theorem after (h : Within (n + 1) (toks ++ rest)) (hne : toks ≠ []) : Within n rest where
  length_lt := by
    have hlength := h.length_lt
    have hpos := List.length_pos_iff.mpr hne
    rw [List.length_append] at hlength
    omega
  digits := h.right.digits

theorem self (h : Within n toks) : Within (toks.length + 1) toks :=
  ⟨Nat.lt_succ_self _, h.digits⟩

theorem mono {m : Nat} (h : Within m toks) (hle : m ≤ n) : Within n toks where
  length_lt := Nat.lt_of_lt_of_le h.length_lt hle
  digits := h.digits

end Within

/-- On less than `n` tokens, the parser reads the derivations with the given
yields and values, when the tokens after them are as `Follow` says. -/
structure Reads {δ α : Type} (n : Nat) (p : Parser α) (yield : δ → List Token) (value : δ → α)
    (Follow : List Token → Prop) : Prop where
  sound : ∀ {toks rest : List Token} {x : α}, Within n toks → p toks = .ok (x, rest) →
    ∃ d, toks = yield d ++ rest ∧ x = value d
  complete : ∀ {d : δ} {rest : List Token}, Within n (yield d ++ rest) → Follow rest →
    p (yield d ++ rest) = .ok (value d, rest)

/-- Nothing is asked of the tokens that follow. -/
def Anything : List Token → Prop := fun _ => True

section Reads

variable {δ α : Type} {m n : Nat} {p : Parser α} {yield : δ → List Token} {value : δ → α}
  {Follow : List Token → Prop}

theorem Reads.zero : Reads 0 p yield value Follow where
  sound hw := absurd hw.length_lt (Nat.not_lt_zero _)
  complete hw := absurd hw.length_lt (Nat.not_lt_zero _)

theorem Reads.mono (h : Reads n p yield value Follow) (hle : m ≤ n) :
    Reads m p yield value Follow where
  sound hw := h.sound (hw.mono hle)
  complete hw := h.complete (hw.mono hle)

end Reads

/-! ## Words -/

theorem expect_eq_ok {kind : TokenKind} {toks rest : List Token} {t : Token} :
    expect kind toks = .ok (t, rest) ↔ toks = t :: rest ∧ t.kind ∈ [kind] := by
  cases toks with
  | nil => simp [expect, fail]
  | cons t' rest' =>
    unfold expect
    split
    · grind
    · grind [fail]

theorem comparator_eq_ok {toks rest : List Token} {t : Token} :
    comparator toks = .ok (t, rest) ↔ toks = t :: rest ∧ t.kind ∈ operators 0 := by
  cases toks with
  | nil => simp [comparator, fail]
  | cons t' rest' =>
    unfold comparator operators
    dsimp only
    split
    all_goals grind [fail]

theorem typeName_eq_ok {toks rest : List Token} {t : Token} :
    typeName toks = .ok (t, rest) ↔
      toks = t :: rest ∧ t.kind ∈ [.keyword .integer, .keyword .string, .name] := by
  cases toks with
  | nil => simp [typeName, fail]
  | cons t' rest' =>
    unfold typeName
    dsimp only
    split
    all_goals grind [fail]

theorem startsWith_iff {words : List Keyword} {toks : List Token} :
    startsWith words toks = true ↔
      ∃ (t : TokenIn (words.map .keyword)) (tail : List Token), toks = t.val :: tail := by
  cases toks with
  | nil => simp [startsWith]
  | cons t tail =>
    obtain ⟨kind, content, line, start, stop⟩ := t
    cases kind with
    | keyword k => simp [startsWith]
    | _ => simp [startsWith]

theorem startsWith_cons {words : List Keyword} {kinds : List TokenKind} (t : TokenIn kinds)
    (h : kinds ⊆ words.map .keyword) (rest : List Token) :
    startsWith words (t.val :: rest) = true :=
  startsWith_iff.mpr ⟨t.widen h, rest, rfl⟩

theorem not_startsWith_cons {words : List Keyword} {kinds : List TokenKind} (t : TokenIn kinds)
    (h : ∀ k ∈ kinds, k ∉ words.map .keyword) (rest : List Token) :
    ¬ startsWith words (t.val :: rest) = true := by
  intro hstarts
  obtain ⟨t', tail, heq⟩ := startsWith_iff.mp hstarts
  exact t.val_ne t' h (List.cons.inj heq).1

/-! ## Expressions -/

theorem number_eq_ok {t : Token} (h : t.content.IsDigits) {rest rest' : List Token} {x : Expr} :
    number t rest = .ok (x, rest') ↔ Decimal.value t.content ≤ 2147483647 ∧
      x = .number t.line (.ofNat (Decimal.value t.content)) ∧ rest = rest' := by
  unfold number
  rw [Decimal.toInt32?_of_isDigits h]
  by_cases hfits : Decimal.value t.content ≤ 2147483647
  · simp [hfits, eq_comm]
  · simp [hfits]

theorem reads_operand (n : Nat) : Reads n operand Operand.yield Operand.expr Anything where
  sound {toks rest x} hw h := by
    cases toks with
    | nil => simp [operand, fail] at h
    | cons t tail =>
      rw [operand] at h
      split at h
      · rename_i hkind
        obtain ⟨rfl, rfl⟩ := Prod.mk.inj (Except.ok.inj h)
        exact ⟨.name (.single t hkind), rfl, rfl⟩
      · rename_i hkind
        have hdigits := hw.digits t List.mem_cons_self hkind
        obtain ⟨hfits, rfl, rfl⟩ := (number_eq_ok hdigits).mp h
        exact ⟨.number (.single t hkind) hfits, rfl, rfl⟩
      · simp [fail] at h
  complete {d rest} hw _ := by
    cases d with
    | name t =>
      simp [operand, Operand.yield, t.kind_eq, Operand.expr, startLine]
    | number t hfits =>
      have hdigits := hw.digits t.val List.mem_cons_self t.kind_eq
      simp only [Operand.yield, List.cons_append, List.nil_append, operand, t.kind_eq]
      exact (number_eq_ok hdigits).mpr ⟨hfits, rfl, rfl⟩

/-- Outside of parentheses, terms are operands. -/
theorem term_eq_operand {inner : Parser Expr} {t : Token} (h : t.kind ≠ .leftParen)
    (rest : List Token) : term inner (t :: rest) = operand (t :: rest) := by
  rw [term, operand]
  split <;> simp_all

theorem reads_term {n : Nat} {inner : Parser Expr}
    (h : Reads n inner (@Phrase.yield 0) Phrase.expr Stops) :
    Reads (n + 1) (term inner) (@Phrase.yield 3) Phrase.expr Anything where
  sound {toks rest x} hw hterm := by
    cases toks with
    | nil => simp [term, fail] at hterm
    | cons t tail =>
      by_cases hkind : t.kind = .leftParen
      · simp only [term, hkind] at hterm
        obtain ⟨⟨e, rest₁⟩, he, h₁⟩ := bind_eq_ok.mp hterm
        obtain ⟨d, rfl, rfl⟩ := h.sound hw.tail he
        obtain ⟨⟨t', rest₂⟩, ht', h₂⟩ := bind_eq_ok.mp h₁
        obtain ⟨rfl, hkind'⟩ := expect_eq_ok.mp ht'
        obtain ⟨rfl, rfl⟩ := Prod.mk.inj (Except.ok.inj h₂)
        refine ⟨.paren (.single t hkind) d ⟨t', hkind'⟩, ?_, rfl⟩
        simp [Phrase.yield]
      · rw [term_eq_operand hkind] at hterm
        obtain ⟨o, htoks, rfl⟩ := (reads_operand (n + 1)).sound hw hterm
        exact ⟨.operand o, htoks, rfl⟩
  complete {d rest} hw _ := by
    rcases d.cases_term with ⟨o, rfl⟩ | ⟨left, e, right, rfl⟩
    · -- an operand does not start with a parenthesis, so it is read as in a condition
      obtain ⟨t, ht⟩ := o.exists_yield
      have hkind : t.val.kind ≠ .leftParen := by grind
      have hterm := (reads_operand (n + 1)).complete hw trivial
      rw [ht] at hterm
      rw [Phrase.yield, ht]
      exact (term_eq_operand hkind rest).trans hterm
    · simp only [Phrase.yield, List.cons_append, List.append_assoc, List.nil_append] at hw ⊢
      simp only [term, left.kind_eq]
      refine bind_eq_ok.mpr ⟨_, h.complete hw.tail (stops_cons right (by decide) _), ?_⟩
      exact bind_eq_ok.mpr ⟨_, expect_eq_ok.mpr ⟨rfl, right.property⟩, rfl⟩

theorem link?_cases (t : Token) :
    (IsOperator t ∧ link? t = some (link t)) ∨ (¬ IsOperator t ∧ link? t = none) := by
  unfold link?
  split
  case h_9 =>
    refine .inr ⟨?_, rfl⟩
    rintro ⟨level, hlevel⟩
    unfold operators at hlevel
    split at hlevel <;> simp_all
  case h_1 h | h_2 h => exact .inl ⟨⟨1, by simp [operators, h]⟩, by simp [link, h]⟩
  case h_3 h | h_4 h => exact .inl ⟨⟨2, by simp [operators, h]⟩, by simp [link, h]⟩
  all_goals
    rename_i h
    exact .inl ⟨⟨0, by simp [operators, h]⟩, by simp [link, h]⟩

/-- The operators of a chain, each with the term that follows it. -/
abbrev Links : Type := { links : List (Token × Phrase 3) // ∀ link ∈ links, IsOperator link.1 }

/-- The chain as the parser gives it. -/
def Links.value (ls : Links) : List (Chain.Link × Expr) :=
  ls.val.map fun link => (Grammar.link link.1, link.2.expr)

theorem reads_links {n : Nat} {term : Parser Expr}
    (h : Reads n term (@Phrase.yield 3) Phrase.expr Anything) :
    Reads n (links term n) (fun ls : Links => Phrase.chainYield ls.val) Links.value Stops := by
  induction n with
  | zero => exact .zero
  | succ n ih =>
    -- every link takes a token, so the links after it are read within the smaller bound
    have ih := ih (h.mono (Nat.le_succ n))
    constructor
    · intro toks rest more hw hlinks
      cases toks with
      | nil =>
        obtain ⟨rfl, rfl⟩ := Prod.mk.inj (Except.ok.inj hlinks)
        exact ⟨⟨[], by simp⟩, rfl, rfl⟩
      | cons t tail =>
        rcases link?_cases t with ⟨hop, hlink⟩ | ⟨-, hlink⟩
        · simp only [links, hlink] at hlinks
          obtain ⟨⟨e, rest₁⟩, he, h₁⟩ := bind_eq_ok.mp hlinks
          obtain ⟨d, rfl, rfl⟩ := h.sound hw.cons he
          obtain ⟨⟨more', rest₂⟩, hmore, h₂⟩ := bind_eq_ok.mp h₁
          obtain ⟨ls, rfl, rfl⟩ := ih.sound hw.tail.right hmore
          obtain ⟨rfl, rfl⟩ := Prod.mk.inj (Except.ok.inj h₂)
          refine ⟨⟨(t, d) :: ls.val, List.forall_mem_cons.mpr ⟨hop, ls.property⟩⟩, ?_, rfl⟩
          simp [Phrase.chainYield]
        · simp only [links, hlink] at hlinks
          obtain ⟨rfl, rfl⟩ := Prod.mk.inj (Except.ok.inj hlinks)
          exact ⟨⟨[], by simp⟩, rfl, rfl⟩
    · rintro ⟨ls, hls⟩ rest hw hstop
      cases ls with
      | nil =>
        cases rest with
        | nil => rfl
        | cons t tail =>
          rcases link?_cases t with ⟨hop, -⟩ | ⟨-, hlink⟩
          · exact absurd hop (hstop t rfl)
          · simp [Phrase.chainYield, links, hlink, Links.value]
      | cons link ls =>
        obtain ⟨t, e⟩ := link
        rw [List.forall_mem_cons] at hls
        rcases link?_cases t with ⟨-, hlink⟩ | ⟨hop, -⟩
        · simp only [Phrase.chainYield, List.flatMap_cons, List.cons_append,
            List.append_assoc] at hw ⊢
          simp only [links, hlink]
          refine bind_eq_ok.mpr ⟨_, h.complete hw.cons trivial, ?_⟩
          exact bind_eq_ok.mpr ⟨_, ih.complete (d := ⟨ls, hls.2⟩) hw.tail.right hstop, rfl⟩
        · exact absurd hls.1 hop

theorem reads_expression (n : Nat) :
    Reads n (expressionWithin n) (@Phrase.yield 0) Phrase.expr Stops := by
  induction n with
  | zero => exact .zero
  | succ n ih =>
    have hterm := reads_term ih
    have hlinks := reads_links hterm
    constructor
    · intro toks rest x hw h
      obtain ⟨⟨first, rest₁⟩, hfirst, h₁⟩ := bind_eq_ok.mp h
      obtain ⟨term, rfl, rfl⟩ := hterm.sound hw hfirst
      obtain ⟨⟨more, rest₂⟩, hmore, h₂⟩ := bind_eq_ok.mp h₁
      obtain ⟨ls, rfl, rfl⟩ := hlinks.sound hw.right hmore
      obtain ⟨rfl, rfl⟩ := Prod.mk.inj (Except.ok.inj h₂)
      -- the phrase whose shape is the tree that the chain is turned into
      obtain ⟨e, hfirst, hmore⟩ := Phrase.exists_of_chain term ls.property
      refine ⟨e, ?_, ?_⟩
      · rw [e.yield_eq, hfirst, hmore, List.append_assoc]
      · rw [e.expr_eq, hfirst, hmore]
        rfl
    · intro e rest hw hstop
      obtain ⟨-, hops⟩ := Chain.Tree.all_iff.mp e.all_shape
      rw [e.yield_eq, List.append_assoc] at hw ⊢
      refine bind_eq_ok.mpr ⟨_, hterm.complete hw trivial, ?_⟩
      refine bind_eq_ok.mpr ⟨_, hlinks.complete (d := ⟨e.shape.more, fun link hlink =>
        (hops link hlink).1⟩) hw.right hstop, ?_⟩
      rw [e.expr_eq]
      rfl

/-! ## Statements -/

theorem reads_condition (n : Nat) : Reads n condition Test.yield Test.condition Anything where
  sound {toks rest x} hw h := by
    obtain ⟨⟨left, rest₁⟩, hleft, h₁⟩ := bind_eq_ok.mp h
    obtain ⟨l, rfl, rfl⟩ := (reads_operand n).sound hw hleft
    obtain ⟨⟨sign, rest₂⟩, hsign, h₂⟩ := bind_eq_ok.mp h₁
    obtain ⟨rfl, hkind⟩ := comparator_eq_ok.mp hsign
    obtain ⟨⟨right, rest₃⟩, hright, h₃⟩ := bind_eq_ok.mp h₂
    obtain ⟨r, rfl, rfl⟩ := (reads_operand n).sound hw.right.cons hright
    obtain ⟨rfl, rfl⟩ := Prod.mk.inj (Except.ok.inj h₃)
    refine ⟨⟨l, ⟨sign, hkind⟩, r⟩, by simp [Test.yield], ?_⟩
    rw [Test.condition, ← Test.line_left]
  complete {d rest} hw _ := by
    rw [Test.yield, List.append_assoc, List.cons_append] at hw ⊢
    refine bind_eq_ok.mpr ⟨_, (reads_operand n).complete hw trivial, ?_⟩
    refine bind_eq_ok.mpr ⟨_, comparator_eq_ok.mpr ⟨rfl, d.sign.property⟩, ?_⟩
    refine bind_eq_ok.mpr ⟨_, (reads_operand n).complete hw.right.cons trivial, ?_⟩
    rw [Test.condition, Test.line_left]

theorem reads_value {n : Nat} {expr : Parser Expr}
    (h : Reads n expr (@Phrase.yield 0) Phrase.expr Stops) :
    Reads n (value expr) Assigned.yield Assigned.expr Stops where
  sound {toks rest x} hw hvalue := by
    cases toks with
    | nil => simp [value, fail] at hvalue
    | cons t tail =>
      rw [value] at hvalue
      split at hvalue
      · rename_i hkind
        obtain ⟨rfl, rfl⟩ := Prod.mk.inj (Except.ok.inj hvalue)
        exact ⟨.text (.single t hkind), rfl, rfl⟩
      · obtain ⟨e, htoks, rfl⟩ := h.sound hw hvalue
        exact ⟨.phrase e, htoks, rfl⟩
  complete {d rest} hw hstop := by
    cases d with
    | phrase e =>
      obtain ⟨t, tail, ht⟩ := e.exists_yield
      have hkind : t.val.kind ≠ .text := by grind
      have hexpr := h.complete hw hstop
      rw [Assigned.yield, ht, List.cons_append, value, if_neg hkind, ← List.cons_append, ← ht]
      exact hexpr
    | text t =>
      rw [Assigned.yield, List.cons_append, value, if_pos t.kind_eq]
      rfl

theorem reads_printed (n : Nat) : Reads n printed Printed.yield Printed.expr Anything where
  sound {toks rest x} _ h := by
    cases toks with
    | nil => simp [printed, fail] at h
    | cons t tail =>
      rw [printed] at h
      split at h
      · rename_i hkind
        obtain ⟨rfl, rfl⟩ := Prod.mk.inj (Except.ok.inj h)
        exact ⟨.name (.single t hkind), rfl, rfl⟩
      · rename_i hkind
        obtain ⟨rfl, rfl⟩ := Prod.mk.inj (Except.ok.inj h)
        exact ⟨.text (.single t hkind), rfl, rfl⟩
      · simp [fail] at h
  complete {d rest} _ _ := by
    cases d with
    | name t | text t =>
      simp [printed, Printed.yield, t.kind_eq, Printed.expr, startLine]

section Statements

variable {n : Nat} {expr : Parser Expr} {block : List Keyword → Parser (List Stmt)}

/-- The parser reads blocks, up to any of the words that end them. -/
def ReadsBlocks (n : Nat) (block : List Keyword → Parser (List Stmt)) : Prop :=
  ∀ stops : List Keyword, stops.map .keyword ⊆ closings →
    Reads n (nonempty (block stops)) Block.yield Block.stmts (startsWith stops · = true)

theorem choice_sound (hblock : ReadsBlocks n block) (word : TokenIn [.keyword .ifWord])
    {toks rest : List Token} {x : Stmt} (hw : Within n toks)
    (h : choice block word.val.line toks = .ok (x, rest)) :
    ∃ s : Statement, word.val :: toks = s.yield ++ rest ∧ x = s.stmt := by
  obtain ⟨⟨cond, rest₁⟩, hcond, h₁⟩ := bind_eq_ok.mp h
  obtain ⟨test, rfl, rfl⟩ := (reads_condition n).sound hw hcond
  obtain ⟨⟨thenWord, rest₂⟩, hthen, h₂⟩ := bind_eq_ok.mp h₁
  obtain ⟨rfl, hthenWord⟩ := expect_eq_ok.mp hthen
  obtain ⟨⟨yes, rest₃⟩, hyes, h₃⟩ := bind_eq_ok.mp h₂
  have hw₂ := hw.right.cons
  obtain ⟨b, rfl, rfl⟩ := (hblock [.elseWord, .endIf] (by decide)).sound hw₂ hyes
  -- the block ended at `ELSE` or at `ENDIF`, and the next word tells at which
  dsimp only at h₃
  split at h₃
  · rename_i helse
    obtain ⟨elseWord, tail, rfl⟩ := startsWith_iff.mp helse
    obtain ⟨⟨no, rest₄⟩, hno, h₄⟩ := bind_eq_ok.mp h₃
    obtain ⟨b', rfl, rfl⟩ := (hblock [.endIf] (by decide)).sound hw₂.right.cons hno
    obtain ⟨⟨endWord, rest₅⟩, hend, h₅⟩ := bind_eq_ok.mp h₄
    obtain ⟨rfl, hendWord⟩ := expect_eq_ok.mp hend
    obtain ⟨rfl, rfl⟩ := Prod.mk.inj (Except.ok.inj h₅)
    refine ⟨.choice word test ⟨thenWord, hthenWord⟩ b
      (.some elseWord b' ⟨endWord, hendWord⟩), ?_, rfl⟩
    simp [Statement.yield, Otherwise.yield]
  · obtain ⟨⟨endWord, rest₄⟩, hend, h₄⟩ := bind_eq_ok.mp h₃
    obtain ⟨rfl, hendWord⟩ := expect_eq_ok.mp hend
    obtain ⟨rfl, rfl⟩ := Prod.mk.inj (Except.ok.inj h₄)
    refine ⟨.choice word test ⟨thenWord, hthenWord⟩ b (.none ⟨endWord, hendWord⟩), ?_, rfl⟩
    simp [Statement.yield, Otherwise.yield]

theorem choice_complete (hblock : ReadsBlocks n block) {line : Nat} {test : Test}
    {thenWord : TokenIn [.keyword .thenWord]} {yes : Block} {otherwise : Otherwise}
    {rest : List Token}
    (hw : Within n (test.yield ++ thenWord.val :: (yes.yield ++ (otherwise.yield ++ rest)))) :
    choice block line (test.yield ++ thenWord.val :: (yes.yield ++ (otherwise.yield ++ rest)))
      = .ok (.choice line test.condition yes.stmts otherwise.stmts, rest) := by
  refine bind_eq_ok.mpr ⟨_, (reads_condition n).complete hw trivial, ?_⟩
  refine bind_eq_ok.mpr ⟨_, expect_eq_ok.mpr ⟨rfl, thenWord.property⟩, ?_⟩
  have hyes := hblock [.elseWord, .endIf] (by decide)
  have hw₂ := hw.right.cons
  cases otherwise with
  | none endWord =>
    refine bind_eq_ok.mpr ⟨_, hyes.complete hw₂ (startsWith_cons endWord (by decide) _), ?_⟩
    refine (if_neg (not_startsWith_cons endWord (by decide) rest)).trans ?_
    exact bind_eq_ok.mpr ⟨_, expect_eq_ok.mpr ⟨rfl, endWord.property⟩, rfl⟩
  | some elseWord no endWord =>
    refine bind_eq_ok.mpr ⟨_, hyes.complete hw₂ (startsWith_cons elseWord (by decide) _), ?_⟩
    refine (if_pos (startsWith_cons elseWord (by decide) _)).trans ?_
    rw [Otherwise.yield, List.cons_append, List.append_assoc, List.cons_append] at hw₂ ⊢
    have hno := hblock [.endIf] (by decide)
    refine bind_eq_ok.mpr ⟨_, hno.complete hw₂.right.cons
      (startsWith_cons endWord (by decide) _), ?_⟩
    exact bind_eq_ok.mpr ⟨_, expect_eq_ok.mpr ⟨rfl, endWord.property⟩, rfl⟩

theorem loop_sound (hblock : ReadsBlocks n block) (word : TokenIn [.keyword .whileWord])
    {toks rest : List Token} {x : Stmt} (hw : Within n toks)
    (h : loop block word.val.line toks = .ok (x, rest)) :
    ∃ s : Statement, word.val :: toks = s.yield ++ rest ∧ x = s.stmt := by
  obtain ⟨⟨cond, rest₁⟩, hcond, h₁⟩ := bind_eq_ok.mp h
  obtain ⟨test, rfl, rfl⟩ := (reads_condition n).sound hw hcond
  obtain ⟨⟨doWord, rest₂⟩, hdo, h₂⟩ := bind_eq_ok.mp h₁
  obtain ⟨rfl, hdoWord⟩ := expect_eq_ok.mp hdo
  obtain ⟨⟨body, rest₃⟩, hbody, h₃⟩ := bind_eq_ok.mp h₂
  obtain ⟨b, rfl, rfl⟩ := (hblock [.endWhile] (by decide)).sound hw.right.cons hbody
  obtain ⟨⟨endWord, rest₄⟩, hend, h₄⟩ := bind_eq_ok.mp h₃
  obtain ⟨rfl, hendWord⟩ := expect_eq_ok.mp hend
  obtain ⟨rfl, rfl⟩ := Prod.mk.inj (Except.ok.inj h₄)
  refine ⟨.loop word test ⟨doWord, hdoWord⟩ b ⟨endWord, hendWord⟩, ?_, rfl⟩
  simp [Statement.yield]

theorem loop_complete (hblock : ReadsBlocks n block) {line : Nat} {test : Test}
    {doWord : TokenIn [.keyword .doWord]} {body : Block} {endWord : TokenIn [.keyword .endWhile]}
    {rest : List Token}
    (hw : Within n (test.yield ++ doWord.val :: (body.yield ++ endWord.val :: rest))) :
    loop block line (test.yield ++ doWord.val :: (body.yield ++ endWord.val :: rest))
      = .ok (.loop line test.condition body.stmts, rest) := by
  refine bind_eq_ok.mpr ⟨_, (reads_condition n).complete hw trivial, ?_⟩
  refine bind_eq_ok.mpr ⟨_, expect_eq_ok.mpr ⟨rfl, doWord.property⟩, ?_⟩
  have hbody := hblock [.endWhile] (by decide)
  refine bind_eq_ok.mpr ⟨_, hbody.complete hw.right.cons
    (startsWith_cons endWord (by decide) _), ?_⟩
  exact bind_eq_ok.mpr ⟨_, expect_eq_ok.mpr ⟨rfl, endWord.property⟩, rfl⟩

theorem statement_sound (hexpr : Reads n expr (@Phrase.yield 0) Phrase.expr Stops)
    (hblock : ReadsBlocks n block) {toks rest : List Token} {x : Stmt} (hw : Within (n + 1) toks)
    (h : statement expr block toks = .ok (x, rest)) :
    ∃ s : Statement, toks = s.yield ++ rest ∧ x = s.stmt := by
  cases toks with
  | nil => simp [statement, fail] at h
  | cons t tail =>
    rw [statement] at h
    split at h
    case h_1 hkind =>
      obtain ⟨⟨target, rest₁⟩, htarget, h₁⟩ := bind_eq_ok.mp h
      obtain ⟨rfl, hname⟩ := expect_eq_ok.mp htarget
      obtain ⟨⟨sign, rest₂⟩, hsign, h₂⟩ := bind_eq_ok.mp h₁
      obtain ⟨rfl, hassign⟩ := expect_eq_ok.mp hsign
      obtain ⟨⟨e, rest₃⟩, he, h₃⟩ := bind_eq_ok.mp h₂
      obtain ⟨v, rfl, rfl⟩ := (reads_value hexpr).sound hw.tail.cons.cons he
      obtain ⟨rfl, rfl⟩ := Prod.mk.inj (Except.ok.inj h₃)
      refine ⟨.set (.single t hkind) ⟨target, hname⟩ ⟨sign, hassign⟩ v, ?_, rfl⟩
      simp [Statement.yield]
    case h_2 hkind =>
      obtain ⟨⟨e, rest₁⟩, he, h₁⟩ := bind_eq_ok.mp h
      obtain ⟨v, rfl, rfl⟩ := (reads_printed n).sound hw.tail he
      obtain ⟨rfl, rfl⟩ := Prod.mk.inj (Except.ok.inj h₁)
      refine ⟨.print (.single t hkind) v, ?_, rfl⟩
      simp [Statement.yield]
    case h_3 hkind =>
      obtain ⟨⟨target, rest₁⟩, htarget, h₁⟩ := bind_eq_ok.mp h
      obtain ⟨rfl, hname⟩ := expect_eq_ok.mp htarget
      obtain ⟨rfl, rfl⟩ := Prod.mk.inj (Except.ok.inj h₁)
      refine ⟨.read (.single t hkind) ⟨target, hname⟩, ?_, rfl⟩
      simp [Statement.yield]
    case h_4 hkind =>
      obtain ⟨⟨target, rest₁⟩, htarget, h₁⟩ := bind_eq_ok.mp h
      obtain ⟨rfl, hname⟩ := expect_eq_ok.mp htarget
      obtain ⟨⟨sign, rest₂⟩, hsign, h₂⟩ := bind_eq_ok.mp h₁
      obtain ⟨rfl, hassign⟩ := expect_eq_ok.mp hsign
      obtain ⟨⟨e, rest₃⟩, he, h₃⟩ := bind_eq_ok.mp h₂
      obtain ⟨v, rfl, rfl⟩ := hexpr.sound hw.tail.cons.cons he
      obtain ⟨rfl, rfl⟩ := Prod.mk.inj (Except.ok.inj h₃)
      refine ⟨.inc (.single t hkind) ⟨target, hname⟩ ⟨sign, hassign⟩ v, ?_, rfl⟩
      simp [Statement.yield]
    case h_5 hkind => exact choice_sound hblock (.single t hkind) hw.tail h
    case h_6 hkind => exact loop_sound hblock (.single t hkind) hw.tail h
    case h_7 => simp [fail] at h

theorem statement_complete (hexpr : Reads n expr (@Phrase.yield 0) Phrase.expr Stops)
    (hblock : ReadsBlocks n block) {s : Statement} {rest : List Token}
    (hw : Within (n + 1) (s.yield ++ rest)) (hstop : Stops rest) :
    statement expr block (s.yield ++ rest) = .ok (s.stmt, rest) := by
  cases s with
  | set word target sign v =>
    simp only [Statement.yield, List.cons_append] at hw ⊢
    simp only [statement, word.kind_eq]
    refine bind_eq_ok.mpr ⟨_, expect_eq_ok.mpr ⟨rfl, target.property⟩, ?_⟩
    refine bind_eq_ok.mpr ⟨_, expect_eq_ok.mpr ⟨rfl, sign.property⟩, ?_⟩
    refine bind_eq_ok.mpr ⟨_, (reads_value hexpr).complete hw.tail.cons.cons hstop, ?_⟩
    simp [Statement.stmt, Statement.yield, startLine]
  | print word v =>
    simp only [Statement.yield, List.cons_append] at hw ⊢
    simp only [statement, word.kind_eq]
    refine bind_eq_ok.mpr ⟨_, (reads_printed n).complete hw.tail trivial, ?_⟩
    simp [Statement.stmt, Statement.yield, startLine]
  | read word target =>
    simp only [Statement.yield, List.cons_append] at hw ⊢
    simp only [statement, word.kind_eq]
    refine bind_eq_ok.mpr ⟨_, expect_eq_ok.mpr ⟨rfl, target.property⟩, ?_⟩
    simp [Statement.stmt, Statement.yield, startLine]
  | inc word target sign v =>
    simp only [Statement.yield, List.cons_append] at hw ⊢
    simp only [statement, word.kind_eq]
    refine bind_eq_ok.mpr ⟨_, expect_eq_ok.mpr ⟨rfl, target.property⟩, ?_⟩
    refine bind_eq_ok.mpr ⟨_, expect_eq_ok.mpr ⟨rfl, sign.property⟩, ?_⟩
    refine bind_eq_ok.mpr ⟨_, hexpr.complete hw.tail.cons.cons hstop, ?_⟩
    simp [Statement.stmt, Statement.yield, startLine]
  | choice word test thenWord yes otherwise =>
    simp only [Statement.yield, List.cons_append, List.append_assoc] at hw ⊢
    simp only [statement, word.kind_eq, choice_complete hblock hw.tail]
    simp [Statement.stmt, Statement.yield, startLine]
  | loop word test doWord body endWord =>
    simp only [Statement.yield, List.cons_append, List.append_assoc, List.nil_append] at hw ⊢
    simp only [statement, word.kind_eq, loop_complete hblock hw.tail]
    simp [Statement.stmt, Statement.yield, startLine]

end Statements

theorem nonempty_eq_ok {α : Type} {items : Parser (List α)} {toks rest : List Token}
    {list : List α} :
    nonempty items toks = .ok (list, rest) ↔ items toks = .ok (list, rest) ∧ list ≠ [] := by
  unfold nonempty
  constructor
  · intro h
    obtain ⟨⟨list', rest'⟩, hitems, h₁⟩ := bind_eq_ok.mp h
    cases list' with
    | nil => simp [fail] at h₁
    | cons x xs =>
      obtain ⟨rfl, rfl⟩ := Prod.mk.inj (Except.ok.inj h₁)
      exact ⟨hitems, by simp⟩
  · rintro ⟨hitems, hne⟩
    exact bind_eq_ok.mpr ⟨_, hitems, if_neg (by simpa using hne)⟩

/-- A parser that reads the statements of a block, or none. -/
def ReadsStatements (n : Nat) (p : Parser (List Stmt)) (Follow : List Token → Prop) : Prop :=
  Reads n p (fun b : Option Block => b.elim [] Block.yield) (·.elim [] Block.stmts) Follow

theorem ReadsStatements.nonempty {n : Nat} {p : Parser (List Stmt)} {Follow : List Token → Prop}
    (h : ReadsStatements n p Follow) : Reads n (nonempty p) Block.yield Block.stmts Follow where
  sound {toks rest x} hw hp := by
    obtain ⟨hitems, hne⟩ := nonempty_eq_ok.mp hp
    obtain ⟨b, rfl, rfl⟩ := h.sound hw hitems
    cases b with
    | none => exact absurd rfl hne
    | some b => exact ⟨b, rfl, rfl⟩
  complete {b rest} hw hfollow :=
    nonempty_eq_ok.mpr ⟨h.complete (d := some b) hw hfollow, b.stmts_ne_nil⟩

/-- Where a statement starts, it is read. -/
theorem blockWithin_statement {n : Nat} {stops : List Keyword}
    (hstops : stops.map .keyword ⊆ closings) (s : Statement) (rest : List Token) :
    blockWithin (n + 1) stops (s.yield ++ rest) = (do
      let (stmt, rest) ← statement (expressionWithin n) (blockWithin n) (s.yield ++ rest)
      let (more, rest) ← blockWithin n stops rest
      .ok (stmt :: more, rest)) := by
  obtain ⟨t, tail, ht⟩ := s.exists_yield
  have hdisjoint : ∀ k ∈ openings, k ∉ closings := by decide
  have hopen : ∀ k ∈ openings, k ∉ stops.map .keyword :=
    fun k hk hk' => hdisjoint k hk (hstops hk')
  rw [ht, List.cons_append, blockWithin, if_neg (not_startsWith_cons t hopen _)]

/-- The statements up to one of the given words are those of a block, or none. -/
theorem reads_block (n : Nat) (stops : List Keyword) (hstops : stops.map .keyword ⊆ closings) :
    ReadsStatements n (blockWithin n stops) (startsWith stops · = true) := by
  induction n generalizing stops with
  | zero => exact .zero
  | succ n ih =>
    have hexpr := reads_expression n
    have hblock : ReadsBlocks n (blockWithin n) := fun stops hstops => (ih stops hstops).nonempty
    constructor
    · intro toks rest x hw h
      cases toks with
      | nil => simp [blockWithin, fail] at h
      | cons t tail =>
        rw [blockWithin] at h
        split at h
        · obtain ⟨rfl, rfl⟩ := Prod.mk.inj (Except.ok.inj h)
          exact ⟨none, rfl, rfl⟩
        · obtain ⟨⟨stmt, rest₁⟩, hstmt, h₁⟩ := bind_eq_ok.mp h
          obtain ⟨s, htoks, rfl⟩ := statement_sound hexpr hblock hw hstmt
          -- the statement takes tokens, so what follows it is within the smaller bound
          rw [htoks] at hw ⊢
          obtain ⟨⟨more, rest₂⟩, hmore, h₂⟩ := bind_eq_ok.mp h₁
          obtain ⟨b, rfl, rfl⟩ := (ih stops hstops).sound (hw.after s.yield_ne_nil) hmore
          obtain ⟨rfl, rfl⟩ := Prod.mk.inj (Except.ok.inj h₂)
          exact ⟨some (.of s b), by simp [Block.yield_of], by simp [Block.stmts_of]⟩
    · intro b rest hw hstarts
      obtain ⟨t, tail, hrest⟩ := startsWith_iff.mp hstarts
      -- neither a closing word nor another statement goes on with an operator
      have hclose : Closes rest := hrest ▸ closes_cons t hstops tail
      cases b with
      | none =>
        rw [hrest] at hstarts ⊢
        exact if_pos hstarts
      | some b =>
        obtain ⟨s, more, rfl⟩ := b.exists_of
        simp only [Option.elim_some, Block.yield_of, List.append_assoc] at hw ⊢
        rw [blockWithin_statement hstops]
        refine bind_eq_ok.mpr ⟨_, statement_complete hexpr hblock hw (hclose.stops_yield more), ?_⟩
        refine bind_eq_ok.mpr ⟨_, (ih stops hstops).complete (hw.after s.yield_ne_nil) hstarts, ?_⟩
        rw [Block.stmts_of]

/-! ## Programs -/

theorem reads_declaration (n : Nat) :
    Reads n declaration Declared.yield Declared.declaration Anything where
  sound {toks rest x} _ h := by
    obtain ⟨⟨type, rest₁⟩, htype, h₁⟩ := bind_eq_ok.mp h
    obtain ⟨rfl, hkind⟩ := typeName_eq_ok.mp htype
    obtain ⟨⟨name, rest₂⟩, hname, h₂⟩ := bind_eq_ok.mp h₁
    obtain ⟨rfl, hkind'⟩ := expect_eq_ok.mp hname
    obtain ⟨rfl, rfl⟩ := Prod.mk.inj (Except.ok.inj h₂)
    exact ⟨⟨⟨type, hkind⟩, ⟨name, hkind'⟩⟩, rfl, rfl⟩
  complete {d rest} _ _ := by
    refine bind_eq_ok.mpr ⟨_, typeName_eq_ok.mpr ⟨rfl, d.type.property⟩, ?_⟩
    exact bind_eq_ok.mpr ⟨_, expect_eq_ok.mpr ⟨rfl, d.name.property⟩, rfl⟩

theorem reads_declarationsWithin (n : Nat) :
    Reads n (declarationsWithin n) (List.flatMap Declared.yield) (List.map Declared.declaration)
      (startsWith [.beginBody] · = true) := by
  induction n with
  | zero => exact .zero
  | succ n ih =>
    have hdeclaration := reads_declaration (n + 1)
    constructor
    · intro toks rest x hw h
      cases toks with
      | nil =>
        obtain ⟨rfl, rfl⟩ := Prod.mk.inj (Except.ok.inj h)
        exact ⟨[], rfl, rfl⟩
      | cons t tail =>
        rw [declarationsWithin] at h
        split at h
        · obtain ⟨rfl, rfl⟩ := Prod.mk.inj (Except.ok.inj h)
          exact ⟨[], rfl, rfl⟩
        · obtain ⟨⟨decl, rest₁⟩, hdecl, h₁⟩ := bind_eq_ok.mp h
          obtain ⟨d, htoks, rfl⟩ := hdeclaration.sound hw hdecl
          rw [htoks] at hw ⊢
          obtain ⟨⟨more, rest₂⟩, hmore, h₂⟩ := bind_eq_ok.mp h₁
          obtain ⟨ds, rfl, rfl⟩ := ih.sound (hw.after (by simp [Declared.yield])) hmore
          obtain ⟨rfl, rfl⟩ := Prod.mk.inj (Except.ok.inj h₂)
          exact ⟨d :: ds, by simp, rfl⟩
    · intro ds rest hw hstarts
      cases ds with
      | nil =>
        obtain ⟨t, tail, rfl⟩ := startsWith_iff.mp hstarts
        exact if_pos hstarts
      | cons d ds =>
        simp only [List.flatMap_cons, List.append_assoc] at hw ⊢
        refine (if_neg (not_startsWith_cons d.type (by decide) _)).trans ?_
        refine bind_eq_ok.mpr ⟨_, hdeclaration.complete hw trivial, ?_⟩
        exact bind_eq_ok.mpr ⟨_, ih.complete (hw.after (by simp [Declared.yield])) hstarts, rfl⟩

theorem reads_declarations (n : Nat) :
    Reads n declarations (fun d : Option DeclarePart => d.elim [] DeclarePart.yield)
      (·.elim [] DeclarePart.declarations) (startsWith [.beginBody] · = true) where
  sound {toks rest x} hw h := by
    unfold declarations at h
    split at h
    · rename_i hdeclare
      obtain ⟨word, tail, rfl⟩ := startsWith_iff.mp hdeclare
      obtain ⟨hitems, hne⟩ := nonempty_eq_ok.mp h
      obtain ⟨ds, rfl, rfl⟩ := (reads_declarationsWithin _).sound hw.self.cons hitems
      cases ds with
      | nil => exact absurd rfl hne
      | cons first more => exact ⟨some ⟨word, first, more⟩, by simp [DeclarePart.yield], rfl⟩
    · obtain ⟨rfl, rfl⟩ := Prod.mk.inj (Except.ok.inj h)
      exact ⟨none, rfl, rfl⟩
  complete {d rest} hw hstarts := by
    cases d with
    | none =>
      obtain ⟨t, tail, rfl⟩ := startsWith_iff.mp hstarts
      exact if_neg (not_startsWith_cons t (by decide) _)
    | some d =>
      refine (if_pos (startsWith_cons d.word (by decide) _)).trans ?_
      refine nonempty_eq_ok.mpr ⟨?_, by simp [DeclarePart.declarations]⟩
      exact (reads_declarationsWithin _).complete (d := d.first :: d.more) hw.self.cons hstarts

/-- The programs that are read from tokens are those of their derivations. -/
theorem program_eq_ok_iff {toks : List Token} {p : Program}
    (h : ∀ t ∈ toks, t.kind = .number → t.content.IsDigits) :
    program toks = .ok p ↔ ∃ d : Derivation, d.yield = toks ∧ d.program = p := by
  have hw : Within (toks.length + 1) toks := ⟨Nat.lt_succ_self _, h⟩
  constructor
  · intro hp
    obtain ⟨⟨word, rest₁⟩, hword, h₁⟩ := bind_eq_ok.mp hp
    obtain ⟨rfl, hprogram⟩ := expect_eq_ok.mp hword
    obtain ⟨⟨name, rest₂⟩, hname, h₂⟩ := bind_eq_ok.mp h₁
    obtain ⟨rfl, hkind⟩ := expect_eq_ok.mp hname
    obtain ⟨⟨decls, rest₃⟩, hdecls, h₃⟩ := bind_eq_ok.mp h₂
    obtain ⟨declarePart, rfl, rfl⟩ := (reads_declarations _).sound hw.cons.cons hdecls
    obtain ⟨⟨beginWord, rest₄⟩, hbegin, h₄⟩ := bind_eq_ok.mp h₃
    obtain ⟨rfl, hbeginWord⟩ := expect_eq_ok.mp hbegin
    obtain ⟨⟨body, rest₅⟩, hbody, h₅⟩ := bind_eq_ok.mp h₄
    obtain ⟨b, rfl, rfl⟩ := (reads_block _ _ (by decide)).sound hw.cons.cons.right.cons.self hbody
    obtain ⟨⟨endWord, rest₆⟩, hend, h₆⟩ := bind_eq_ok.mp h₅
    obtain ⟨rfl, hendWord⟩ := expect_eq_ok.mp hend
    -- no token may be left after `END`
    cases rest₆ with
    | nil =>
      obtain rfl := Except.ok.inj h₆
      exact ⟨⟨⟨word, hprogram⟩, ⟨name, hkind⟩, declarePart, ⟨beginWord, hbeginWord⟩, b,
        ⟨endWord, hendWord⟩⟩, rfl, rfl⟩
    | cons => simp at h₆
  · rintro ⟨d, rfl, rfl⟩
    have hw₂ := hw.cons.cons
    have hw₄ := hw₂.right.cons
    refine bind_eq_ok.mpr ⟨_, expect_eq_ok.mpr ⟨rfl, d.word.property⟩, ?_⟩
    refine bind_eq_ok.mpr ⟨_, expect_eq_ok.mpr ⟨rfl, d.name.property⟩, ?_⟩
    refine bind_eq_ok.mpr ⟨_, (reads_declarations _).complete hw₂
      (startsWith_cons d.beginWord (by decide) _), ?_⟩
    refine bind_eq_ok.mpr ⟨_, expect_eq_ok.mpr ⟨rfl, d.beginWord.property⟩, ?_⟩
    refine bind_eq_ok.mpr ⟨_, (reads_block _ [.endBody] (by decide)).complete hw₄.self
      (startsWith_cons d.endWord (by decide) _), ?_⟩
    refine bind_eq_ok.mpr ⟨_, expect_eq_ok.mpr ⟨rfl, d.endWord.property⟩, rfl⟩

/-- From the tokens of a text, exactly the programs of the grammar are read: a
program is the result if the tokens, all of them, derive it. There is no more
than one derivation. -/
theorem accepts_grammar {input : Input} {toks : List Token} (h : Token.ofInput input = .ok toks) :
    (∀ p, program toks = .ok p ↔ ∃ d : Derivation, d.yield = toks ∧ d.program = p) ∧
      ∀ d d' : Derivation, d.yield = toks → d'.yield = toks → d = d' :=
  ⟨fun _ => program_eq_ok_iff (Token.isDigits_of_number h),
    fun _ _ hd hd' => Derivation.eq_of_yield_eq (hd.trans hd'.symm)⟩

theorem program_eq_ok_of_ofInput {input : Input} {p : Program} (h : Program.ofInput input = .ok p) :
    ∃ toks, Token.ofInput input = .ok toks ∧ program toks = .ok p := by
  unfold Program.ofInput at h
  split at h
  · simp at h
  · rename_i toks htoks
    refine ⟨toks, htoks, ?_⟩
    cases hp : program toks with
    | error e => simp [hp, Except.mapError] at h
    | ok p' => simpa [hp, Except.mapError] using h

/-- The text of the program that counts down. -/
def countdownText : Bytes :=
  ascii "PROGRAM countdown\nDECLARE INTEGER n\nBEGIN\nREAD n\nWHILE n > 0 DO\nPRINT n\n"
    ++ ascii "SET n := n - 1\nENDWHILE\nPRINT \"done\"\nEND\n"

theorem accepts_grammar_countdown :
    ∃ toks p, Token.ofInput (.ofBytes countdownText) = .ok toks ∧ program toks = .ok p ∧
      p.name = Program.countdown.name ∧ p.declarations = Program.countdown.declarations ∧
      p.body.length = 3 ∧ ∃ d : Derivation, d.yield = toks ∧ d.program = p ∧
        ∀ d' : Derivation, d'.yield = toks → d' = d := by
  have h : (match Program.ofInput (.ofBytes countdownText) with
      | .ok p => decide (p.name = Program.countdown.name ∧
          p.declarations = Program.countdown.declarations ∧ p.body.length = 3)
      | .error _ => false) = true := by
    decide +kernel
  split at h
  · rename_i p hread
    obtain ⟨hname, hdeclarations, hbody⟩ := of_decide_eq_true h
    obtain ⟨toks, htoks, hp⟩ := program_eq_ok_of_ofInput hread
    obtain ⟨hreads, hone⟩ := accepts_grammar htoks
    obtain ⟨d, hd, hprogram⟩ := (hreads p).mp hp
    exact ⟨toks, p, htoks, hp, hname, hdeclarations, hbody, d, hd, hprogram,
      fun d' hd' => hone d' d hd' hd⟩
  · simp at h

end Stackling.Parser
