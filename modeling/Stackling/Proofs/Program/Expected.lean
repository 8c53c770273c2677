import Stackling.Proofs.Program.Parsing

/-!
# What is expected next

While a program is read from left to right, the parts of it that are still to come
are known at every place. A token either fits the first of these parts, or ends it,
or is wrong. So a list of tokens can be checked token by token, without any program
being built (`Expected.stuck`).

* **the same place** — the parsers go wrong exactly where the tokens stop to be as
  expected (`stuck_program`). This is shown parser by parser: `Agrees` says
  that a parser takes from the tokens what its part of a program expects.
-/

namespace Stackling.Parser

open Grammar

/-- A part of a program that is still to come. -/
inductive Expected where
  /-- A token of one of the given kinds. -/
  | token (kinds : List TokenKind)
  | operand
  | test
  | term
  /-- Operators, each with a term. -/
  | links
  | phrase
  | value
  | statement
  /-- Statements up to one of the given words, at least one if it is marked so. -/
  | block (stops : List Keyword) (marked : Bool)
  /-- What follows the first block of a choice. -/
  | otherwise
  | declarePart
  /-- Declarations, at least one if it is marked so. -/
  | declared (marked : Bool)

namespace Expected

/-- What a token does to the part that is expected first. -/
inductive Move where
  | reject
  /-- The part ends before the token. -/
  | pass
  /-- The part starts with the token, and the given parts remain of it. -/
  | take (more : List Expected)

/-- The move of a part that other parts follow. -/
def Move.andThen (parts : List Expected) : Move → Move
  | take more => take (more ++ parts)
  | move => move

def tokenMove (kinds : List TokenKind) (t : Token) : Move :=
  if t.kind ∈ kinds then .take [] else .reject

def operandMove (t : Token) : Move :=
  match t.kind with
  | .name => .take []
  | .number => if (Decimal.toInt32? t.content).isSome then .take [] else .reject
  | _ => .reject

def termMove (t : Token) : Move :=
  if t.kind = .leftParen then .take [phrase, token [.rightParen]] else operandMove t

def phraseMove (t : Token) : Move := (termMove t).andThen [links]

def statementMove (t : Token) : Move :=
  match t.kind with
  | .keyword .set => .take [token [.name], token [.assign], value]
  | .keyword .print => .take [token [.name, .text]]
  | .keyword .read => .take [token [.name]]
  | .keyword .inc => .take [token [.name], token [.assign], phrase]
  | .keyword .ifWord =>
    .take [test, token [.keyword .thenWord], block [.elseWord, .endIf] true, otherwise]
  | .keyword .whileWord =>
    .take [test, token [.keyword .doWord], block [.endWhile] true, token [.keyword .endWhile]]
  | _ => .reject

/-- The kinds of tokens that a declaration starts with. -/
def types : List TokenKind := [.keyword .integer, .keyword .string, .name]

def move : Expected → Token → Move
  | token kinds, t => tokenMove kinds t
  | operand, t => operandMove t
  | test, t => (operandMove t).andThen [token (operators 0), operand]
  | term, t => termMove t
  | links, t => if (link? t).isSome then .take [term, links] else .pass
  | phrase, t => phraseMove t
  | value, t => if t.kind = .text then .take [] else phraseMove t
  | statement, t => statementMove t
  | block stops marked, t =>
    if startsWith stops [t] then if marked then .reject else .pass
    else (statementMove t).andThen [block stops false]
  | otherwise, t =>
    match t.kind with
    | .keyword .elseWord => .take [block [.endIf] true, token [.keyword .endIf]]
    | .keyword .endIf => .take []
    | _ => .reject
  | declarePart, t => if t.kind = .keyword .declare then .take [declared true] else .pass
  | declared marked, t =>
    if startsWith [.beginBody] [t] then if marked then .reject else .pass
    else (tokenMove types t).andThen [token [.name], declared false]

/-- Whether a part may be missing at the end of the text. -/
def optional : Expected → Bool
  | links | declarePart | declared false => true
  | _ => false

/-- What is expected after a token, if the token is as expected. -/
def advance : List Expected → Token → Option (List Expected)
  | [], _ => none
  | part :: parts, t =>
    match part.move t with
    | .reject => none
    | .pass => advance parts t
    | .take more => some (more ++ parts)

/-- The tokens from the first one on that is not as expected. None are left if the
text ends too early, and there is no such place if it is all as expected. -/
def stuck : List Expected → List Token → Option (List Token)
  | parts, [] => if parts.all optional then none else some []
  | parts, t :: rest =>
    match advance parts t with
    | none => some (t :: rest)
    | some parts => stuck parts rest

section Moves

variable {part first : Expected} {parts more : List Expected} {t : Token} {rest : List Token}

theorem stuck_take (h : part.move t = .take more) :
    stuck (part :: parts) (t :: rest) = stuck (more ++ parts) rest := by
  simp only [stuck, advance, h]

theorem stuck_reject (h : part.move t = .reject) :
    stuck (part :: parts) (t :: rest) = some (t :: rest) := by
  simp only [stuck, advance, h]

theorem stuck_pass (h : part.move t = .pass) :
    stuck (part :: parts) (t :: rest) = stuck parts (t :: rest) := by
  simp only [stuck, advance, h]

theorem stuck_optional (h : part.optional = true) : stuck (part :: parts) [] = stuck parts [] := by
  simp [stuck, h]

theorem stuck_required (h : part.optional = false) : stuck (part :: parts) [] = some [] := by
  simp [stuck, h]

/-- A part that moves as its own first part does. -/
theorem stuck_andThen (h : part.move t = (first.move t).andThen more)
    (hpass : first.move t ≠ .pass) :
    stuck (part :: parts) (t :: rest) = stuck (first :: (more ++ parts)) (t :: rest) := by
  cases hmove : first.move t with
  | reject => rw [stuck_reject (h.trans (by rw [hmove]; rfl)), stuck_reject hmove]
  | pass => exact absurd hmove hpass
  | take front =>
    have hpart : part.move t = .take (front ++ more) := h.trans (by rw [hmove]; rfl)
    rw [stuck_take hpart, stuck_take hmove, List.append_assoc]

end Moves

/-! ## Parsers agree with what is expected -/

/-- Where the tokens stop to be as expected, once a parser has given its result. -/
def stuckAfter {α : Type} (parts : List Expected) :
    Except SyntaxError (α × List Token) → Option (List Token)
  | .ok (_, rest) => stuck parts rest
  | .error e => some e.rest

/-- The result of a parser agrees with the parts that it reads, and no less than `m`
tokens are taken. -/
structure Agrees {α : Type} (m : Nat) (parts : List Expected) (toks : List Token)
    (result : Except SyntaxError (α × List Token)) : Prop where
  stuck_eq : ∀ parts', stuck (parts ++ parts') toks = stuckAfter parts' result
  length_le : ∀ x rest, result = .ok (x, rest) → rest.length + m ≤ toks.length

namespace Agrees

variable {α β : Type} {m : Nat} {part : Expected} {parts parts' more : List Expected}
  {t : Token} {toks rest : List Token} {result : Except SyntaxError (α × List Token)}

theorem weaken (h : Agrees m parts toks result) : Agrees 0 parts toks result where
  stuck_eq := h.stuck_eq
  length_le x rest hresult := by
    have := h.length_le x rest hresult
    omega

theorem ok (x : α) : Agrees 0 [] toks (.ok (x, toks)) where
  stuck_eq _ := rfl
  length_le _ _ h := by
    obtain ⟨-, rfl⟩ := Prod.mk.inj (Except.ok.inj h)
    exact Nat.le_refl _

theorem take (hmove : part.move t = .take more) (h : Agrees 0 more rest result) :
    Agrees 1 [part] (t :: rest) result where
  stuck_eq parts' := (stuck_take hmove).trans (h.stuck_eq parts')
  length_le x rest' hresult := Nat.succ_le_succ (h.length_le x rest' hresult)

theorem reject {range : Bool} (hmove : part.move t = .reject) :
    Agrees m [part] (t :: rest) (.error { rest := t :: rest, numberRange := range } :
      Except SyntaxError (α × List Token)) where
  stuck_eq _ := stuck_reject hmove
  length_le _ _ := nofun

theorem pass (hmove : part.move t = .pass) (x : α) :
    Agrees 0 [part] (t :: rest) (.ok (x, t :: rest)) where
  stuck_eq _ := stuck_pass hmove
  length_le := (ok x).length_le

theorem required (h : part.optional = false) :
    Agrees m [part] [] (fail [] : Except SyntaxError (α × List Token)) where
  stuck_eq _ := stuck_required h
  length_le _ _ := nofun

theorem optional (h : part.optional = true) (x : α) :
    Agrees 0 [part] [] (.ok (x, [])) where
  stuck_eq _ := stuck_optional h
  length_le := (ok x).length_le

/-- The rest of a computation agrees with the rest of the parts. -/
theorem stuck_bind {γ : Type} {out : Except SyntaxError γ → Option (List Token)}
    (hout : ∀ e, out (.error e) = some e.rest) {f : α × List Token → Except SyntaxError γ}
    (h : Agrees m parts toks result)
    (hf : ∀ x rest, rest.length + m ≤ toks.length → stuck parts' rest = out (f (x, rest))) :
    stuck (parts ++ parts') toks = out (result >>= f) := by
  rw [h.stuck_eq]
  cases hresult : result with
  | error e => exact (hout e).symm
  | ok r => exact hf r.1 r.2 (h.length_le r.1 r.2 hresult)

theorem bind {f : α × List Token → Except SyntaxError (β × List Token)}
    (h : Agrees m parts toks result)
    (hf : ∀ x rest, rest.length + m ≤ toks.length → Agrees 0 more rest (f (x, rest))) :
    Agrees m (parts ++ more) toks (result >>= f) where
  stuck_eq parts' := by
    rw [List.append_assoc]
    exact h.stuck_bind (fun _ => rfl) fun x rest hlength => (hf x rest hlength).stuck_eq parts'
  length_le y rest' hresult := by
    cases h' : result with
    | error e =>
      rw [h'] at hresult
      cases hresult
    | ok r =>
      rw [h'] at hresult
      have hr := h.length_le r.1 r.2 h'
      have hy := (hf r.1 r.2 hr).length_le y rest' hresult
      omega

/-- Parts that move alike agree alike. -/
theorem congr {part' : Expected} (h : Agrees m [part] (t :: rest) result)
    (hmove : part'.move t = part.move t) : Agrees m [part'] (t :: rest) result where
  stuck_eq parts' := by
    rw [← h.stuck_eq]
    show stuck (part' :: parts') _ = stuck (part :: parts') _
    simp only [stuck, advance, hmove]
  length_le := h.length_le

/-- A part agrees if its own parts do. -/
theorem expand {first : Expected} (h : Agrees m (first :: more) (t :: rest) result)
    (hmove : part.move t = (first.move t).andThen more) (hpass : first.move t ≠ .pass) :
    Agrees m [part] (t :: rest) result where
  stuck_eq parts' := by
    rw [← h.stuck_eq]
    exact stuck_andThen hmove hpass
  length_le := h.length_le

end Agrees

end Expected

open Expected

/-! ## Expressions -/

/-- A parser that takes one token of some kinds, and goes wrong at any other. -/
theorem agrees_token {α : Type} (p : Parser α) {kinds : List TokenKind} (hnil : p [] = fail [])
    (hmem : ∀ t rest, t.kind ∈ kinds → ∃ x, p (t :: rest) = .ok (x, rest))
    (hnot : ∀ t rest, t.kind ∉ kinds → p (t :: rest) = fail (t :: rest)) (toks : List Token) :
    Agrees 1 [.token kinds] toks (p toks) := by
  cases toks with
  | nil =>
    rw [hnil]
    exact .required rfl
  | cons t rest =>
    by_cases hkind : t.kind ∈ kinds
    · obtain ⟨x, hx⟩ := hmem t rest hkind
      rw [hx]
      exact .take (if_pos hkind) (.ok x)
    · rw [hnot t rest hkind]
      exact .reject (if_neg hkind)

theorem agrees_expect (kind : TokenKind) (toks : List Token) :
    Agrees 1 [.token [kind]] toks (expect kind toks) := by
  refine agrees_token (expect kind) rfl
    (fun t rest hkind => ⟨t, expect_eq_ok.mpr ⟨rfl, hkind⟩⟩) ?_ toks
  intro t rest hkind
  exact if_neg fun h => hkind (List.mem_singleton.mpr h)

theorem agrees_number {part : Expected} {t : Token}
    (hmove : part.move t = if (Decimal.toInt32? t.content).isSome then .take [] else .reject)
    (rest : List Token) : Agrees 1 [part] (t :: rest) (number t rest) := by
  unfold number
  split
  · rename_i hvalue
    exact .take (hmove.trans (by rw [hvalue]; rfl)) (.ok _)
  · rename_i hvalue
    exact .reject (hmove.trans (by rw [hvalue]; rfl))

theorem agrees_operand (toks : List Token) : Agrees 1 [.operand] toks (operand toks) := by
  cases toks with
  | nil => exact .required rfl
  | cons t rest =>
    unfold operand
    dsimp only
    split
    · rename_i hkind
      exact .take (by simp only [move, operandMove, hkind]) (.ok _)
    · rename_i hkind
      exact agrees_number (by simp only [move, operandMove, hkind]) rest
    · exact .reject (by grind [move, operandMove])

theorem agrees_term {n : Nat} {inner : Parser Expr}
    (h : ∀ toks, toks.length < n → Agrees 1 [.phrase] toks (inner toks)) {toks : List Token}
    (hlength : toks.length < n + 1) : Agrees 1 [.term] toks (term inner toks) := by
  cases toks with
  | nil => exact .required rfl
  | cons t rest =>
    unfold term
    dsimp only
    split
    · rename_i hkind
      exact agrees_number (by simp only [move, termMove, operandMove, hkind]; rfl) rest
    · rename_i hkind
      exact .take (by simp only [move, termMove, operandMove, hkind]; rfl) (.ok _)
    · rename_i hkind
      have hmove : Expected.term.move t = .take [.phrase, .token [.rightParen]] := if_pos hkind
      refine .take hmove ?_
      refine ((h rest (Nat.lt_of_succ_lt_succ hlength)).bind fun e rest' _ => ?_).weaken
      refine ((agrees_expect .rightParen rest').bind fun _ rest'' _ => ?_).weaken
      exact .ok _
    · exact .reject (by grind [move, termMove, operandMove])

theorem agrees_links {n : Nat} {next : Parser Expr}
    (h : ∀ toks, toks.length < n → Agrees 1 [.term] toks (next toks)) {depth : Nat}
    (hdepth : depth ≤ n) {toks : List Token} (hlength : toks.length < depth) :
    Agrees 0 [.links] toks (links next depth toks) := by
  induction depth generalizing toks with
  | zero => exact absurd hlength (Nat.not_lt_zero _)
  | succ depth ih =>
    cases toks with
    | nil => exact .optional rfl []
    | cons t rest =>
      have hrest : rest.length < depth := Nat.lt_of_succ_lt_succ hlength
      rw [links]
      split
      · rename_i hlink
        exact .pass (by simp only [move, hlink]; rfl) []
      · rename_i link hlink
        have hmove : Expected.links.move t = .take [.term, .links] := by
          simp only [move, hlink]
          rfl
        refine (Agrees.take hmove ?_).weaken
        refine ((h rest (by omega)).bind fun e rest' hrest' => ?_).weaken
        exact (ih (by omega) (by omega)).bind fun more rest'' _ => .ok _

theorem termMove_ne_pass (t : Token) : termMove t ≠ .pass := by
  unfold termMove operandMove
  grind

theorem agrees_expressionWithin {depth : Nat} {toks : List Token} (hlength : toks.length < depth) :
    Agrees 1 [.phrase] toks (expressionWithin depth toks) := by
  induction depth generalizing toks with
  | zero => exact absurd hlength (Nat.not_lt_zero _)
  | succ depth ih =>
    -- parentheses take a token, so that what stands in them is within the bound
    have hterm : ∀ toks : List Token, toks.length < depth + 1 →
        Agrees 1 [.term] toks (term (expressionWithin depth) toks) :=
      fun toks => agrees_term fun toks => ih
    have hparts : Agrees 1 [.term, .links] toks (expressionWithin (depth + 1) toks) := by
      rw [expressionWithin]
      refine (hterm toks hlength).bind fun first rest hrest => ?_
      exact (agrees_links hterm (Nat.le_refl _) (by omega)).bind fun more rest' _ => .ok _
    cases toks with
    | nil => exact .required rfl
    | cons t rest => exact hparts.expand rfl (termMove_ne_pass t)

/-! ## Statements -/

theorem agrees_comparator (toks : List Token) :
    Agrees 1 [.token (operators 0)] toks (comparator toks) := by
  refine agrees_token comparator rfl
    (fun t rest hkind => ⟨t, comparator_eq_ok.mpr ⟨rfl, hkind⟩⟩) ?_ toks
  intro t rest hkind
  unfold comparator
  dsimp only
  split <;> simp_all [operators]

theorem operandMove_ne_pass (t : Token) : operandMove t ≠ .pass := by
  unfold operandMove
  grind

theorem agrees_condition (toks : List Token) : Agrees 1 [.test] toks (condition toks) := by
  have hparts : Agrees 1 [.operand, .token (operators 0), .operand] toks (condition toks) := by
    refine (agrees_operand toks).bind fun left rest _ => ?_
    refine ((agrees_comparator rest).bind fun sign rest _ => ?_).weaken
    refine ((agrees_operand rest).bind fun right rest _ => ?_).weaken
    exact .ok _
  cases toks with
  | nil => exact .required rfl
  | cons t rest => exact hparts.expand rfl (operandMove_ne_pass t)

theorem agrees_value {n : Nat} {expr : Parser Expr}
    (h : ∀ toks, toks.length < n → Agrees 1 [.phrase] toks (expr toks)) {toks : List Token}
    (hlength : toks.length < n) : Agrees 1 [.value] toks (value expr toks) := by
  cases toks with
  | nil => exact .required rfl
  | cons t rest =>
    rw [value]
    split
    · rename_i hkind
      exact .take (if_pos hkind) (.ok _)
    · rename_i hkind
      have hmove : Expected.value.move t = Expected.phrase.move t := if_neg hkind
      exact (h _ hlength).congr hmove

theorem agrees_printed (toks : List Token) :
    Agrees 1 [.token [.name, .text]] toks (printed toks) := by
  refine agrees_token printed rfl (fun t rest hkind => ?_) (fun t rest hkind => ?_) toks
  · unfold printed
    dsimp only
    split <;> simp_all
  · unfold printed
    dsimp only
    split <;> simp_all

/-- A list that must not be empty goes wrong at once if it is empty. -/
theorem agrees_nonempty {α : Type} {items : Parser (List α)} {part marked : Expected} {m : Nat}
    {toks : List Token} (h : Agrees m [part] toks (items toks))
    (hmarked : (items toks = .ok ([], toks) ∧ ∀ parts, stuck (marked :: parts) toks = some toks) ∨
      (∀ rest, items toks ≠ .ok ([], rest)) ∧
        ∀ parts, stuck (marked :: parts) toks = stuck (part :: parts) toks) :
    Agrees m [marked] toks (nonempty items toks) := by
  unfold nonempty
  rcases hmarked with ⟨hempty, hstuck⟩ | ⟨hsome, hstuck⟩
  · rw [hempty]
    exact ⟨hstuck, nofun⟩
  · cases hitems : items toks with
    | error e =>
      refine ⟨fun parts => ?_, nofun⟩
      rw [List.singleton_append, hstuck, ← List.singleton_append, h.stuck_eq, hitems]
      rfl
    | ok r =>
      obtain ⟨list, rest⟩ := r
      cases list with
      | nil => exact absurd hitems (hsome rest)
      | cons x list =>
        refine ⟨fun parts => ?_, fun y rest' hy => ?_⟩
        · rw [List.singleton_append, hstuck, ← List.singleton_append, h.stuck_eq, hitems]
          rfl
        · obtain ⟨rfl, rfl⟩ := Prod.mk.inj (Except.ok.inj hy)
          exact h.length_le _ _ hitems

theorem startsWith_cons_eq (words : List Keyword) (t : Token) (rest : List Token) :
    startsWith words (t :: rest) = startsWith words [t] := by
  obtain ⟨kind, content, line, start, stop⟩ := t
  cases kind <;> rfl

theorem startsWith_singleton {k : Keyword} {t : Token} :
    startsWith [k] [t] = true ↔ t.kind = .keyword k := by
  obtain ⟨kind, content, line, start, stop⟩ := t
  cases kind <;> simp [startsWith]

section Statements

variable {n : Nat} {toks : List Token}

section

variable {items : List Keyword → Parser (List Stmt)}
  (hitems : ∀ stops toks, toks.length < n →
    Agrees 0 [.block stops true] toks (nonempty (items stops) toks))

include hitems

theorem agrees_choice (line : Nat) (hlength : toks.length < n) :
    Agrees 0 [.test, .token [.keyword .thenWord], .block [.elseWord, .endIf] true, .otherwise] toks
      (choice items line toks) := by
  refine ((agrees_condition toks).bind fun cond rest hrest => ?_).weaken
  refine ((agrees_expect _ rest).bind fun _ rest' hrest' => ?_).weaken
  refine (hitems _ rest' (by omega)).bind fun yes rest hrest'' => ?_
  dsimp only
  -- `ELSE` is only looked at here, and `ENDIF` is asked for in both cases
  cases rest with
  | nil => exact .required rfl
  | cons t rest =>
    rw [startsWith_cons_eq]
    split
    · rename_i helse
      have hkind := startsWith_singleton.mp helse
      have hmove : Expected.otherwise.move t
          = .take [.block [.endIf] true, .token [.keyword .endIf]] := by simp only [move, hkind]
      simp only [List.length_cons] at hrest''
      refine (Agrees.take hmove ?_).weaken
      refine (hitems [.endIf] rest (by omega)).bind fun no rest _ => ?_
      refine ((agrees_expect _ rest).bind fun _ rest _ => ?_).weaken
      exact .ok _
    · rename_i helse
      have hkind : t.kind ≠ .keyword .elseWord := fun h => helse (startsWith_singleton.mpr h)
      have hend : Agrees 1 [.otherwise] (t :: rest) (keyword .endIf (t :: rest)) := by
        refine (agrees_expect (.keyword .endIf) (t :: rest)).congr ?_
        grind [move, tokenMove]
      refine (hend.bind fun _ rest _ => ?_).weaken
      exact .ok _

theorem agrees_loop (line : Nat) (hlength : toks.length < n) :
    Agrees 0 [.test, .token [.keyword .doWord], .block [.endWhile] true,
      .token [.keyword .endWhile]] toks (loop items line toks) := by
  refine ((agrees_condition toks).bind fun cond rest hrest => ?_).weaken
  refine ((agrees_expect _ rest).bind fun _ rest' hrest' => ?_).weaken
  refine (hitems _ rest' (by omega)).bind fun body rest _ => ?_
  refine ((agrees_expect _ rest).bind fun _ rest _ => ?_).weaken
  exact .ok _

theorem agrees_statement {expr : Parser Expr}
    (hexpr : ∀ toks, toks.length < n → Agrees 1 [.phrase] toks (expr toks))
    (hlength : toks.length < n + 1) : Agrees 1 [.statement] toks (statement expr items toks) := by
  cases toks with
  | nil => exact .required rfl
  | cons t rest =>
    have hrest : rest.length < n := Nat.lt_of_succ_lt_succ hlength
    unfold statement
    dsimp only
    split
    · rename_i hkind
      refine Agrees.take (by simp only [move, statementMove, hkind]; rfl) ?_
      refine ((agrees_expect _ rest).bind fun target rest₁ h₁ => ?_).weaken
      refine ((agrees_expect _ rest₁).bind fun _ rest₂ h₂ => ?_).weaken
      refine ((agrees_value hexpr (by omega)).bind fun e rest₃ _ => ?_).weaken
      exact .ok _
    · rename_i hkind
      refine Agrees.take (by simp only [move, statementMove, hkind]; rfl) ?_
      refine ((agrees_printed rest).bind fun e rest₁ _ => ?_).weaken
      exact .ok _
    · rename_i hkind
      refine Agrees.take (by simp only [move, statementMove, hkind]; rfl) ?_
      refine ((agrees_expect _ rest).bind fun target rest₁ _ => ?_).weaken
      exact .ok _
    · rename_i hkind
      refine Agrees.take (by simp only [move, statementMove, hkind]; rfl) ?_
      refine ((agrees_expect _ rest).bind fun target rest₁ h₁ => ?_).weaken
      refine ((agrees_expect _ rest₁).bind fun _ rest₂ h₂ => ?_).weaken
      refine ((hexpr rest₂ (by omega)).bind fun e rest₃ _ => ?_).weaken
      exact .ok _
    · rename_i hkind
      exact Agrees.take (by simp only [move, statementMove, hkind]) (agrees_choice hitems _ hrest)
    · rename_i hkind
      exact Agrees.take (by simp only [move, statementMove, hkind]) (agrees_loop hitems _ hrest)
    · exact .reject (by grind [move, statementMove])

end

/-- Only a word that ends the block makes it empty. -/
theorem blockWithin_eq_nil {depth : Nat} {stops : List Keyword} {rest : List Token}
    (h : blockWithin depth stops toks = .ok ([], rest)) :
    rest = toks ∧ startsWith stops toks = true := by
  cases depth with
  | zero => cases h
  | succ depth =>
    cases toks with
    | nil => cases h
    | cons t tail =>
      rw [blockWithin] at h
      split at h
      · exact ⟨(Prod.mk.inj (Except.ok.inj h)).2.symm, ‹_›⟩
      · obtain ⟨⟨stmt, rest₁⟩, -, h₁⟩ := bind_eq_ok.mp h
        obtain ⟨⟨more, rest₂⟩, -, h₂⟩ := bind_eq_ok.mp h₁
        cases (Prod.mk.inj (Except.ok.inj h₂)).1

theorem agrees_nonempty_block {depth : Nat} {stops : List Keyword} (hlength : toks.length < depth)
    (h : Agrees 0 [.block stops false] toks (blockWithin depth stops toks)) :
    Agrees 0 [.block stops true] toks (nonempty (blockWithin depth stops) toks) := by
  obtain ⟨depth, rfl⟩ := Nat.exists_eq_add_one_of_ne_zero (Nat.ne_of_gt (Nat.zero_lt_of_lt hlength))
  refine agrees_nonempty h ?_
  cases toks with
  | nil => exact .inr ⟨nofun, fun _ => rfl⟩
  | cons t rest =>
    by_cases hstop : startsWith stops [t] = true
    · refine .inl ⟨?_, fun parts => stuck_reject (by simp [move, hstop])⟩
      rw [blockWithin, startsWith_cons_eq, if_pos hstop]
    · refine .inr ⟨fun rest' hnil => ?_, fun parts => ?_⟩
      · have hstart := (blockWithin_eq_nil hnil).2
        rw [startsWith_cons_eq] at hstart
        exact hstop hstart
      · simp [stuck, advance, move, hstop]

theorem statementMove_ne_pass (t : Token) : statementMove t ≠ .pass := by
  unfold statementMove
  split <;> nofun

theorem agrees_blockWithin {depth : Nat} (stops : List Keyword) (hlength : toks.length < depth) :
    Agrees 0 [.block stops false] toks (blockWithin depth stops toks) := by
  induction depth generalizing toks stops with
  | zero => exact absurd hlength (Nat.not_lt_zero _)
  | succ depth ih =>
    cases toks with
    | nil => exact .required rfl
    | cons t rest =>
      rw [blockWithin, startsWith_cons_eq]
      split
      · rename_i hstop
        exact .pass (by simp [move, hstop]) []
      · rename_i hstop
        have hstatement : Agrees 1 [.statement] (t :: rest)
            (statement (expressionWithin depth) (blockWithin depth) (t :: rest)) :=
          agrees_statement
            (fun stops toks hlength => agrees_nonempty_block hlength (ih stops hlength))
            (fun toks hlength => agrees_expressionWithin hlength) hlength
        have hmove : (Expected.block stops false).move t
            = (Expected.statement.move t).andThen [.block stops false] := if_neg hstop
        refine Agrees.expand ?_ hmove (statementMove_ne_pass t)
        refine (hstatement.bind fun stmt rest' hrest' => ?_).weaken
        rw [List.length_cons] at hlength hrest'
        refine (ih stops (by omega)).bind fun more rest'' _ => ?_
        exact .ok _

end Statements

/-! ## Programs -/

theorem agrees_typeName (toks : List Token) : Agrees 1 [.token types] toks (typeName toks) := by
  refine agrees_token typeName rfl
    (fun t rest hkind => ⟨t, typeName_eq_ok.mpr ⟨rfl, hkind⟩⟩) ?_ toks
  intro t rest hkind
  unfold typeName
  dsimp only
  split <;> simp_all

theorem tokenMove_ne_pass (kinds : List TokenKind) (t : Token) : tokenMove kinds t ≠ .pass := by
  unfold tokenMove
  split <;> nofun

theorem agrees_declaration (toks : List Token) :
    Agrees 1 [.token types, .token [.name]] toks (declaration toks) := by
  refine (agrees_typeName toks).bind fun type rest _ => ?_
  refine ((agrees_expect _ rest).bind fun name rest' _ => ?_).weaken
  exact .ok _

theorem agrees_declarationsWithin {bound : Nat} {toks : List Token}
    (hlength : toks.length < bound) :
    Agrees 0 [.declared false] toks (declarationsWithin bound toks) := by
  induction bound generalizing toks with
  | zero => exact absurd hlength (Nat.not_lt_zero _)
  | succ bound ih =>
    cases toks with
    | nil => exact .optional rfl []
    | cons t rest =>
      rw [declarationsWithin, startsWith_cons_eq]
      split
      · rename_i hbegin
        exact .pass (by simp [move, hbegin]) []
      · rename_i hbegin
        have hmove : (Expected.declared false).move t
            = ((Expected.token types).move t).andThen [.token [.name], .declared false] :=
          if_neg hbegin
        refine Agrees.expand ?_ hmove (tokenMove_ne_pass types t)
        refine ((agrees_declaration (t :: rest)).bind fun d rest' hrest' => ?_).weaken
        rw [List.length_cons] at hlength hrest'
        refine (ih (by omega)).bind fun more rest'' _ => ?_
        exact .ok _

/-- Only `BEGIN` and the end of the text make the declarations empty. -/
theorem declarationsWithin_eq_nil {bound : Nat} {t : Token} {tail rest : List Token}
    (h : declarationsWithin bound (t :: tail) = .ok ([], rest)) :
    startsWith [.beginBody] [t] = true := by
  cases bound with
  | zero => cases h
  | succ bound =>
    rw [declarationsWithin, startsWith_cons_eq] at h
    split at h
    · assumption
    · obtain ⟨⟨d, rest₁⟩, -, h₁⟩ := bind_eq_ok.mp h
      obtain ⟨⟨more, rest₂⟩, -, h₂⟩ := bind_eq_ok.mp h₁
      cases (Prod.mk.inj (Except.ok.inj h₂)).1

theorem agrees_declarations (toks : List Token) :
    Agrees 0 [.declarePart] toks (declarations toks) := by
  unfold declarations
  cases toks with
  | nil => exact .optional rfl []
  | cons t rest =>
    rw [startsWith_cons_eq]
    split
    · rename_i hdeclare
      have hmove : Expected.declarePart.move t = .take [.declared true] :=
        if_pos (startsWith_singleton.mp hdeclare)
      have hlength : rest.length < (t :: rest).length + 1 := by
        rw [List.length_cons]
        omega
      refine (Agrees.take hmove ?_).weaken
      refine agrees_nonempty (agrees_declarationsWithin hlength) ?_
      cases rest with
      | nil => exact .inl ⟨rfl, fun _ => rfl⟩
      | cons t' rest =>
        by_cases hbegin : startsWith [.beginBody] [t'] = true
        · refine .inl ⟨?_, fun parts => stuck_reject (by simp [move, hbegin])⟩
          rw [declarationsWithin, startsWith_cons_eq, if_pos hbegin]
        · refine .inr ⟨fun rest' hnil => hbegin (declarationsWithin_eq_nil hnil), fun parts => ?_⟩
          simp [stuck, advance, move, hbegin]
    · rename_i hdeclare
      have hmove : Expected.declarePart.move t = .pass :=
        if_neg fun hkind => hdeclare (startsWith_singleton.mpr hkind)
      exact .pass hmove []

/-- All parts of a program. -/
def Expected.start : List Expected :=
  [.token [.keyword .program], .token [.name], .declarePart, .token [.keyword .beginBody],
    .block [.endBody] false, .token [.keyword .endBody]]

/-- Where a list of tokens goes wrong, if it is not a program. -/
def stuckAt : Except SyntaxError Program → Option (List Token)
  | .ok _ => none
  | .error e => some e.rest

/-- The parser goes wrong exactly where the tokens stop to be as expected. -/
theorem stuck_program (toks : List Token) : stuck Expected.start toks = stuckAt (program toks) := by
  have hout : ∀ e, stuckAt (.error e) = some e.rest := fun _ => rfl
  refine (agrees_expect (.keyword .program) toks).stuck_bind hout fun first rest _ => ?_
  refine (agrees_expect .name rest).stuck_bind hout fun name rest _ => ?_
  refine (agrees_declarations rest).stuck_bind hout fun decls rest _ => ?_
  refine (agrees_expect (.keyword .beginBody) rest).stuck_bind hout fun _ rest _ => ?_
  refine (agrees_blockWithin [.endBody] (Nat.lt_succ_self rest.length)).stuck_bind hout
    fun body rest _ => ?_
  refine (agrees_expect (.keyword .endBody) rest).stuck_bind hout fun _ rest _ => ?_
  -- nothing is expected after `END`
  cases rest <;> rfl

end Stackling.Parser
