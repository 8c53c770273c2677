import Stackling.Proofs.Lexer.Spelling
import Stackling.Proofs.Text.Lines

/-!
# Reading a text token by token

A text is cut into tokens line by line. That is the same as cutting it in one go
while keeping account of the place (`Lexer.lexAfter`): white space and comments
are passed over, and a lexeme that ends where it is written is the next token.
-/

namespace Stackling

/-- A token without its place. -/
structure Lexeme where
  kind : TokenKind
  content : Bytes
  spells : Lexeme.Spells kind content

theorem Lexeme.kind_ne_comment (l : Lexeme) : l.kind ≠ .comment := by
  obtain ⟨kind, content, spells⟩ := l
  cases spells with
  | sign mem =>
    rintro rfl
    simp [Lexeme.signs] at mem
  | _ => exact fun h => by cases h

/-- Every kind of token but comments can be spelled. -/
theorem Lexeme.exists_of_kind {kind : TokenKind} (h : kind ≠ .comment) :
    ∃ l : Lexeme, l.kind = kind := by
  suffices ∃ content, Lexeme.Spells kind content by
    obtain ⟨content, spells⟩ := this
    exact ⟨⟨kind, content, spells⟩, rfl⟩
  cases kind with
  | keyword k => exact ⟨_, .keyword k⟩
  | name => exact ⟨ascii "x", .name (by decide) fun k => by cases k <;> decide⟩
  | number => exact ⟨[48], .number ⟨by decide, List.forall_mem_singleton.mpr (by decide)⟩⟩
  | text => exact ⟨_, .text .nil⟩
  | comment => exact absurd rfl h
  | _ => exact Exists.imp (fun _ => .sign) (by simp [Lexeme.signs])

theorem Lexeme.exists_of_kinds {kinds : List TokenKind} (h : .comment ∉ kinds) :
    ∃ ls : List Lexeme, ls.map Lexeme.kind = kinds := by
  induction kinds with
  | nil => exact ⟨[], rfl⟩
  | cons kind kinds ih =>
    rw [List.mem_cons, not_or] at h
    obtain ⟨l, hl⟩ := Lexeme.exists_of_kind (Ne.symm h.1)
    obtain ⟨ls, hls⟩ := ih h.2
    exact ⟨l :: ls, congrArg₂ _ hl hls⟩

/-! ## Places -/

/-- How many bytes come after the last newline. -/
def column (before : Bytes) : Nat := (before.reverse.takeWhile (· != Bytes.newline)).length

/-- The token of a lexeme that starts at a position of a line. -/
def Lexeme.tokenAt (l : Lexeme) (line pos : Nat) : Token where
  kind := l.kind
  content := l.content
  line := line
  start := pos
  stop := pos + l.content.length

/-- The token of a lexeme that the given bytes come before. -/
def Lexeme.token (l : Lexeme) (before : Bytes) : Token :=
  l.tokenAt (1 + before.count Bytes.newline) (column before)

theorem column_concat (before : Bytes) (b : UInt8) :
    column (before ++ [b]) = if b = Bytes.newline then 0 else column before + 1 := by
  unfold column
  rw [List.reverse_append, List.reverse_singleton, List.singleton_append, List.takeWhile_cons]
  by_cases hb : b = Bytes.newline
  · simp [hb]
  · simp [hb]

/-- A line goes on with bytes that are no newlines. -/
theorem column_append {s : Bytes} (h : Bytes.newline ∉ s) (before : Bytes) :
    column (before ++ s) = column before + s.length := by
  induction s generalizing before with
  | nil => simp
  | cons b s ih =>
    rw [List.mem_cons, not_or] at h
    rw [List.append_cons, ih h.2, column_concat, if_neg (Ne.symm h.1), List.length_cons]
    omega

theorem count_append_of_not_mem {s : Bytes} (h : Bytes.newline ∉ s) (before : Bytes) :
    (before ++ s).count Bytes.newline = before.count Bytes.newline := by
  rw [List.count_append, List.count_eq_zero.mpr h, Nat.add_zero]

theorem column_newline (before : Bytes) : column (before ++ [Bytes.newline]) = 0 := by
  rw [column_concat, if_pos rfl]

/-! ## Lines -/

namespace Lexer

/-- The tokens of a line from a position on, if there is no error. -/
def lineTokens (line pos : Nat) (s : Bytes) : Option (List Token) :=
  if (scanFrom line 0 pos s).error = none then some (scanFrom line 0 pos s).tokens else none

/-- The tokens of lines, the first of which is read from a position on. -/
def lexLines (line pos : Nat) : List Bytes → Option (List Token)
  | [] => some []
  | s :: lines => do
    let here ← lineTokens line pos s
    let more ← lexLines (line + 1) 0 lines
    return here ++ more

theorem lineTokens_eq_some {line pos : Nat} {s : Bytes} {toks : List Token} :
    lineTokens line pos s = some toks ↔
      (scanFrom line 0 pos s).error = none ∧ (scanFrom line 0 pos s).tokens = toks := by
  unfold lineTokens
  split <;> simp_all

theorem lineTokens_eq_none {line pos : Nat} {s : Bytes} :
    lineTokens line pos s = none ↔ (scanFrom line 0 pos s).error ≠ none := by
  unfold lineTokens
  split <;> simp_all

theorem lexLines_cons {line pos : Nat} {s : Bytes} {lines : List Bytes} :
    lexLines line pos (s :: lines) = (lineTokens line pos s).bind fun here =>
      (lexLines (line + 1) 0 lines).map (here ++ ·) := by
  cases hs : lineTokens line pos s with
  | none => simp [lexLines, hs]
  | some here => cases hl : lexLines (line + 1) 0 lines <;> simp [lexLines, hs, hl]

theorem lexLines_concat (line : Nat) (lines : List Bytes) (last : Bytes) :
    lexLines line 0 (lines ++ [last]) = (lexLines line 0 lines).bind fun here =>
      (lineTokens (line + lines.length) 0 last).map (here ++ ·) := by
  induction lines generalizing line with
  | nil => cases hlast : lineTokens line 0 last <;> simp [lexLines, hlast]
  | cons s lines ih =>
    rw [List.cons_append, lexLines_cons, lexLines_cons, ih, List.length_cons,
      show line + 1 + lines.length = line + (lines.length + 1) by omega]
    cases lineTokens line 0 s <;> cases lexLines (line + 1) 0 lines <;>
      cases lineTokens (line + (lines.length + 1)) 0 last <;> simp

theorem scanLine_eq {lexer : Lexer} (hpos : lexer.pos = 0) (s : Bytes) :
    lexer.scanLine s = ({ lexer with
      pos := (scanFrom lexer.line 0 0 s).stop
      tokens := lexer.tokens ++ (scanFrom lexer.line 0 0 s).tokens },
      (scanFrom lexer.line 0 0 s).error) := by
  unfold scanLine
  rw [hpos]
  rfl

/-- Lines without errors add their tokens. -/
theorem scanLines_of_some {lexer : Lexer} {lines : List Bytes} {toks : List Token}
    (hpos : lexer.pos = 0) (h : lexLines lexer.line 0 lines = some toks) :
    lexer.scanLines lines = ({ lexer with
      line := lexer.line + lines.length
      tokens := lexer.tokens ++ toks }, none) := by
  induction lines generalizing lexer toks with
  | nil =>
    obtain rfl := Option.some.inj h
    simp [scanLines]
  | cons s lines ih =>
    rw [lexLines_cons] at h
    obtain ⟨here, hhere, h⟩ := Option.bind_eq_some_iff.mp h
    obtain ⟨more, hmore, rfl⟩ := Option.map_eq_some_iff.mp h
    obtain ⟨herror, rfl⟩ := lineTokens_eq_some.mp hhere
    rw [scanLines, scanLine_eq hpos, herror]
    dsimp only
    rw [ih rfl hmore]
    have htokens : ∀ (tokens : Array Token) (here more : List Token),
        tokens ++ here ++ more = tokens ++ (here ++ more) :=
      fun tokens here more => Array.toList_inj.mp (by simp)
    simp [hpos, htokens, Nat.add_assoc, Nat.add_comm 1]

/-- A line with an error is the last one that is read. -/
theorem scanLines_of_none {lexer : Lexer} {lines : List Bytes} (hpos : lexer.pos = 0)
    (h : lexLines lexer.line 0 lines = none) :
    ∃ lexer' e, lexer.scanLines lines = (lexer', some e) := by
  induction lines generalizing lexer with
  | nil => cases h
  | cons s lines ih =>
    rw [scanLines, scanLine_eq hpos]
    cases herror : (scanFrom lexer.line 0 0 s).error with
    | some e => exact ⟨_, e, rfl⟩
    | none =>
      rw [lexLines_cons, lineTokens_eq_some.mpr ⟨herror, rfl⟩, Option.bind_some,
        Option.map_eq_none_iff] at h
      exact ih rfl h

/-- A text has tokens if it can be read to its end and no line has an error. -/
theorem ofInput_eq_ok {input : Input} {toks : List Token} :
    Token.ofInput input = .ok toks ↔
      input.failure = none ∧ lexLines 1 0 (Bytes.allLines input.unread) = some toks := by
  rw [Bytes.allLines, lexLines_concat]
  unfold Token.ofInput Lexer.read
  dsimp only
  cases hlines : lexLines 1 0 (Bytes.splitLines input.unread).1 with
  | none =>
    obtain ⟨lexer', e, hscan⟩ := @scanLines_of_none { line := 1 } _ rfl hlines
    rw [hscan]
    simp
  | some here =>
    rw [@scanLines_of_some { line := 1 } _ _ rfl hlines]
    cases hfailure : input.failure with
    | some message => simp
    | none =>
      by_cases hlast : (Bytes.splitLines input.unread).2 = []
      · have hempty : lineTokens (1 + (Bytes.splitLines input.unread).1.length) 0 [] = some [] :=
          lineTokens_eq_some.mpr ⟨rfl, rfl⟩
        simp [hlast, hempty]
      · dsimp only
        rw [if_neg hlast, scanLine_eq rfl]
        cases hend : lineTokens (1 + (Bytes.splitLines input.unread).1.length) 0
            (Bytes.splitLines input.unread).2 with
        | none =>
          obtain ⟨e, herror⟩ := Option.ne_none_iff_exists'.mp (lineTokens_eq_none.mp hend)
          rw [herror]
          simp
        | some more =>
          obtain ⟨herror, rfl⟩ := lineTokens_eq_some.mp hend
          rw [herror]
          simp

/-! ## One line -/

theorem scanFrom_skip (line pos : Nat) (front s : Bytes) :
    scanFrom line front.length pos (front ++ s) = scanFrom line 0 (pos + front.length) s := by
  induction front generalizing pos with
  | nil => rfl
  | cons b front ih =>
    rw [List.length_cons, List.cons_append, scanFrom, ih]
    congr 1
    omega

theorem lineTokens_space {b : UInt8} (h : Bytes.isSpace b = true) (line pos : Nat) (s : Bytes) :
    lineTokens line pos (b :: s) = lineTokens line (pos + 1) s := by
  unfold lineTokens
  rw [scanFrom, if_pos h]

theorem lineTokens_comment (line pos : Nat) (s : Bytes) :
    lineTokens line pos (35 :: s) = some [] :=
  lineTokens_eq_some.mpr ⟨rfl, rfl⟩

theorem scanFrom_lexeme (l : Lexeme) {s : Bytes} (hends : Lexeme.EndsBefore l.kind s)
    (line pos : Nat) :
    scanFrom line 0 pos (l.content ++ s)
      = (scanFrom line 0 (pos + l.content.length) s).cons (l.tokenAt line pos) := by
  have hcomment := l.kind_ne_comment
  obtain ⟨kind, content, spells⟩ := l
  obtain ⟨a, tail, rfl, hread⟩ := Lexeme.read_of_spells spells hends
  have hspace : ¬ Bytes.isSpace a = true := Bool.eq_false_iff.mp (spells.tight.1 a rfl)
  have hstop : pos + 1 + tail.length = pos + (a :: tail).length := by
    rw [List.length_cons]
    omega
  show scanFrom line 0 pos (a :: (tail ++ s)) = _
  rw [scanFrom, if_neg hspace, hread]
  dsimp only
  split
  · cases ‹_ = Except.error _›
  · rename_i heq
    exact absurd (Prod.mk.inj (Except.ok.inj heq)).1 hcomment
  · rename_i heq
    obtain ⟨rfl, rfl⟩ := Prod.mk.inj (Except.ok.inj heq)
    rw [scanFrom_skip, List.take_left, hstop]
    rfl

/-- A lexeme that ends where it is written is the first token. -/
theorem lineTokens_lexeme (l : Lexeme) {s : Bytes} (hends : Lexeme.EndsBefore l.kind s)
    (line pos : Nat) :
    lineTokens line pos (l.content ++ s)
      = (lineTokens line (pos + l.content.length) s).map (l.tokenAt line pos :: ·) := by
  unfold lineTokens
  rw [scanFrom_lexeme l hends]
  show (if (scanFrom line 0 (pos + l.content.length) s).error = none then _ else none) = _
  split <;> rfl

theorem exists_lexeme_of_lineTokens {line pos : Nat} {a : UInt8} {s : Bytes} {toks : List Token}
    (hspace : Bytes.isSpace a = false) (ha : a ≠ 35) (hline : Lexeme.IsLine s)
    (h : lineTokens line pos (a :: s) = some toks) :
    ∃ (l : Lexeme) (rest : Bytes), a :: s = l.content ++ rest ∧ Lexeme.EndsBefore l.kind rest := by
  obtain ⟨herror, -⟩ := lineTokens_eq_some.mp h
  rw [scanFrom, if_neg (Bool.eq_false_iff.mp hspace)] at herror
  cases hread : Lexeme.read a s with
  | error e =>
    rw [hread] at herror
    cases herror
  | ok r =>
    obtain ⟨kind, length⟩ := r
    have hkind : kind ≠ .comment := by
      rintro rfl
      cases Lexeme.shape_of_read hread with
      | mark mem => simp [Lexeme.marks] at mem
      | comment first => exact ha first
    obtain ⟨tail, rest, rfl, -, hspells, hends⟩ := Lexeme.spells_of_read hline hread hkind
    exact ⟨⟨kind, a :: tail, hspells⟩, rest, rfl, hends⟩

/-! ## The whole text -/

/-- The tokens of a text that the given bytes come before, if there is no error. -/
def lexAfter (before text : Bytes) : Option (List Token) :=
  lexLines (1 + before.count Bytes.newline) (column before) (Bytes.allLines text)

theorem lexAfter_nil (before : Bytes) : lexAfter before [] = some [] := by
  show lexLines _ _ [[]] = some []
  rw [lexLines_cons, lineTokens_eq_some.mpr ⟨rfl, rfl⟩]
  rfl

/-- The part of a line that is read first gives the first tokens of the text. -/
theorem lexAfter_append {before front text : Bytes} {toks : List Token}
    (hfront : Bytes.newline ∉ front)
    (h : ∀ first : Bytes, first.head? = text.head? →
      lineTokens (1 + before.count Bytes.newline) (column before) (front ++ first)
        = (lineTokens (1 + before.count Bytes.newline) (column before + front.length) first).map
          (toks ++ ·)) :
    lexAfter before (front ++ text) = (lexAfter (before ++ front) text).map (toks ++ ·) := by
  have hfirst : ∃ first lines, Bytes.allLines text = first :: lines ∧
      first.head? = text.head? := by
    rcases Bytes.allLines_cases text with ⟨-, hall⟩ | ⟨line, rest, rfl, -, hall⟩
    · exact ⟨text, [], hall, rfl⟩
    · exact ⟨_, _, hall, by cases line <;> rfl⟩
  obtain ⟨first, lines, hall, hhead⟩ := hfirst
  -- what is put in front goes to the first line, and all other lines stay
  unfold lexAfter
  rw [Bytes.allLines_append hfront hall, hall, lexLines_cons, lexLines_cons, h _ hhead,
    count_append_of_not_mem hfront, column_append hfront]
  cases lineTokens (1 + before.count Bytes.newline) (column before + front.length) first with
  | none => rfl
  | some here => cases lexLines (1 + before.count Bytes.newline + 1) 0 lines <;> simp

/-- A line without tokens. -/
theorem lexAfter_line {line : Bytes} (hline : Bytes.newline ∉ line)
    (h : ∀ number pos, lineTokens number pos (line ++ [Bytes.newline]) = some [])
    (before text : Bytes) :
    lexAfter before (line ++ Bytes.newline :: text)
      = lexAfter (before ++ (line ++ [Bytes.newline])) text := by
  unfold lexAfter
  rw [Bytes.allLines_append_newline hline, lexLines_cons, h, ← List.append_assoc, column_newline,
    List.count_append, List.count_singleton_self, count_append_of_not_mem hline, ← Nat.add_assoc,
    Option.bind_some]
  cases lexLines (1 + before.count Bytes.newline + 1) 0 (Bytes.allLines text) <;> rfl

theorem lexAfter_space {b : UInt8} (h : Bytes.isSpace b = true) (before text : Bytes) :
    lexAfter before (b :: text) = lexAfter (before ++ [b]) text := by
  by_cases hb : b = Bytes.newline
  · subst hb
    have hline : ∀ number pos, lineTokens number pos [Bytes.newline] = some [] := by
      intro number pos
      rw [lineTokens_space h]
      exact lineTokens_eq_some.mpr ⟨rfl, rfl⟩
    exact lexAfter_line List.not_mem_nil hline before text
  · have hfront : Bytes.newline ∉ [b] := by simpa using Ne.symm hb
    have hlex : lexAfter before ([b] ++ text) = (lexAfter (before ++ [b]) text).map ([] ++ ·) :=
      lexAfter_append hfront fun first _ => by
        rw [List.singleton_append, lineTokens_space h]
        simp
    simpa using hlex

theorem lexAfter_comment {body : Bytes} (h : Bytes.newline ∉ body) (before text : Bytes) :
    lexAfter before (35 :: (body ++ Bytes.newline :: text))
      = lexAfter (before ++ 35 :: (body ++ [Bytes.newline])) text :=
  lexAfter_line (List.not_mem_cons_of_ne_of_not_mem (by decide) h)
    (fun _ _ => lineTokens_comment _ _ _) before text

theorem lexAfter_last_comment {body : Bytes} (h : Bytes.newline ∉ body) (before : Bytes) :
    lexAfter before (35 :: body) = some [] := by
  have hnewline : Bytes.newline ∉ 35 :: body := List.not_mem_cons_of_ne_of_not_mem (by decide) h
  unfold lexAfter
  rw [Bytes.allLines_of_not_mem hnewline, lexLines_cons, lineTokens_comment]
  rfl

/-- A lexeme that ends where it is written is the first token of the text. -/
theorem lexAfter_lexeme (l : Lexeme) {text : Bytes} (hends : Lexeme.EndsBefore l.kind text)
    (before : Bytes) :
    lexAfter before (l.content ++ text)
      = (lexAfter (before ++ l.content) text).map (l.token before :: ·) := by
  exact @lexAfter_append before l.content text [l.token before] l.spells.tight.2
    fun first hhead => lineTokens_lexeme l (hends.of_head? hhead) _ _

/-- Where a text has tokens, every byte but white space and number signs starts a
lexeme that ends there. -/
theorem exists_lexeme {before s : Bytes} {a : UInt8} {toks : List Token}
    (hspace : Bytes.isSpace a = false) (ha : a ≠ 35) (h : lexAfter before (a :: s) = some toks) :
    ∃ (l : Lexeme) (rest : Bytes), a :: s = l.content ++ rest ∧ Lexeme.EndsBefore l.kind rest := by
  unfold lexAfter at h
  rcases Bytes.allLines_cases (a :: s) with ⟨hnot, hall⟩ | ⟨front, more, htext, hfront, hall⟩
  · rw [hall, lexLines_cons] at h
    obtain ⟨here, hhere, -⟩ := Option.bind_eq_some_iff.mp h
    exact exists_lexeme_of_lineTokens hspace ha (fun front rest hs => by simp [hs] at hnot) hhere
  · cases front with
    | nil =>
      obtain rfl : a = Bytes.newline := (List.cons.inj htext).1
      exact absurd hspace (by decide)
    | cons b front =>
      obtain ⟨rfl, rfl⟩ := List.cons.inj htext
      rw [hall, lexLines_cons] at h
      obtain ⟨here, hhere, -⟩ := Option.bind_eq_some_iff.mp h
      rw [List.mem_cons, not_or] at hfront
      have hline : Lexeme.IsLine (front ++ [Bytes.newline]) := Lexeme.isLine_concat hfront.2
      obtain ⟨l, rest, hcontent, hends⟩ := exists_lexeme_of_lineTokens hspace ha hline hhere
      -- the newline that ends the line is not part of the lexeme
      obtain ⟨front', rfl, hfront'⟩ : ∃ front', rest = front' ++ [Bytes.newline] ∧
          a :: front = l.content ++ front' := by
        rw [← List.cons_append] at hcontent
        rcases List.append_eq_append_iff.mp hcontent with ⟨more, h1, h2⟩ | ⟨front', h1, h2⟩
        · cases more with
          | nil => exact ⟨[], by simpa using h2.symm, by simpa using h1.symm⟩
          | cons b more =>
            have hmem : Bytes.newline ∈ l.content := by simp [h1, ← (List.cons.inj h2).1]
            exact absurd hmem l.spells.tight.2
        · exact ⟨front', h2, h1⟩
      refine ⟨l, front' ++ Bytes.newline :: more, ?_, ?_⟩
      · rw [← List.append_assoc, ← hfront']
        rfl
      · have hhead :
            (front' ++ Bytes.newline :: more).head? = (front' ++ [Bytes.newline]).head? := by
          cases front' <;> rfl
        exact hends.of_head? hhead

end Lexer

end Stackling
