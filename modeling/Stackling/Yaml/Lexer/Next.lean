import Stackling.Yaml.Lexer.Property
import Stackling.Yaml.Lexer.Scalar

/-!
# Reading the next token

Between tokens lie blanks, line breaks and comments. A tab is no blank where a
key may start, unless only a comment follows it. A new line that does not
belong to a flow collection ends all block collections that start in deeper
columns.

Tokens are read ahead: a token is given away when two more have been read
after it, and when it cannot become a key any more.
-/

namespace Stackling.Yaml.Lexer

/-! ## Between tokens -/

/-- Pass over a comment and over further ones that only blanks and line breaks
separate from it. -/
def skipComments : Nat → Lexer → Except Error Lexer
  | 0, l => .ok l
  | fuel + 1, l => do
    let l ← l.skipToBreak
    let isGap (c : Char) : Bool := isBlank c || c == '\n' || c == '\r'
    let gap := l.rest.takeWhile isGap
    if gap.head?.any isBreak && (l.rest.drop gap.length).head? = some '#' then
      skipComments fuel (passGap (gap.length + 1) l)
    else .ok l
where
  /-- Pass over blanks and line breaks. -/
  passGap : Nat → Lexer → Lexer
    | 0, l => l
    | fuel + 1, l =>
      match l.rest with
      | [] => l
      | c :: _ =>
        if isBlank c then passGap fuel l.skip
        else if isBreak c then passGap fuel l.skipLine
        else l

/-- Pass over what lies before the next token. -/
def skipToToken : Nat → Lexer → Except Error Lexer
  | 0, l => .ok l
  | fuel + 1, l => do
    l.need 1
    let l := if l.marked && l.mark.column = 0 then l.skip else l
    l.need 1
    let isGap (c : Char) : Bool := c == ' ' || (c == '\t' && (0 < l.flow || !l.keyAllowed))
    let l := l.skipMany (l.rest.takeWhile isGap).length
    l.need 1
    let l ← if l.isAt '#' then skipComments (l.rest.length + 1) l else .ok l
    l.need 2
    if l.atBreak then
      let l := l.skipLine
      skipToToken fuel { l with keyAllowed := l.keyAllowed || l.flow = 0 }
    else .ok l

/-- Pass over a comment on the line of a token that was just read. -/
def skipLineComment (l : Lexer) : Except Error Lexer :=
  let blanks := l.rest.takeWhile isBlank
  if !l.fresh && (l.rest.drop blanks.length).head? = some '#' then
    (l.skipMany blanks.length).skipToBreak
  else .ok l

/-! ## Tokens -/

/-- Read a sign of the given length, after which a key may start or not. -/
def sign (l : Lexer) (kind : TokenKind) (length : Nat) (keyAllowed : Bool) : Lexer :=
  let start := l.mark
  ({ l.skipMany length with keyAllowed }).push kind start

/-- Read what is put at the end of all block collections. -/
def leaveBlocks (l : Lexer) : Except Error Lexer := do
  let l ← (l.unroll (-1) l.mark).dropKey
  .ok { l with keyAllowed := false }

/-- Read the end of the text, which counts as the start of a line. -/
def streamEnd (l : Lexer) : Except Error Lexer := do
  let mark :=
    if l.mark.column = 0 then l.mark else { l.mark with line := l.mark.line + 1, column := 0 }
  let l ← { l with mark }.leaveBlocks
  .ok (l.push .streamEnd l.mark)

/-- Read a directive. -/
def directiveToken (l : Lexer) : Except Error Lexer := do
  let start := l.mark
  let (kind, l) ← (← l.leaveBlocks).directive
  .ok (l.push kind start)

/-- Read a mark that separates documents. -/
def documentToken (l : Lexer) (kind : TokenKind) : Except Error Lexer := do
  let l ← l.leaveBlocks
  .ok (l.sign kind 3 false)

/-- Read the start of a flow collection, which may be a key. -/
def flowStart (l : Lexer) (kind : TokenKind) : Except Error Lexer := do
  let l ← (← l.saveKey).enterFlow
  .ok (l.sign kind 1 true)

/-- Read the end of a flow collection. -/
def flowEnd (l : Lexer) (kind : TokenKind) : Except Error Lexer := do
  let l ← l.dropKey
  .ok (l.leaveFlow.sign kind 1 false)

/-- Read a comma. -/
def commaToken (l : Lexer) : Except Error Lexer := do
  let l ← l.dropKey
  .ok (l.sign .comma 1 true)

/-- Read the sign of an entry of a block sequence. -/
def blockEntryToken (l : Lexer) : Except Error Lexer :=
  if l.flow = 0 && !l.keyAllowed then l.fail l.mark .sequenceEntry
  else do
    let l ← l.roll l.mark.column l.nextNumber .blockSequence l.mark
    let l ← l.dropKey
    .ok (l.sign .blockEntry 1 true)

/-- Read the sign of a key. -/
def keyToken (l : Lexer) : Except Error Lexer :=
  if l.flow = 0 && !l.keyAllowed then l.fail l.mark .mappingKey
  else do
    let l ← l.roll l.mark.column l.nextNumber .blockMapping l.mark
    let l ← l.dropKey
    .ok (l.sign .key 1 (l.flow = 0))

/-- Read the sign of a value. If a key may have started before, it did. -/
def valueToken (l : Lexer) : Except Error Lexer := do
  let (isKey, l) ← l.checkKey l.flow
  if isKey then do
    let key := l.key
    let l := l.insert key.number .key key.mark
    let l ← l.roll key.mark.column key.number .blockMapping key.mark
    let l := (l.setKey { key with possible := false }).disown key.number
    .ok (l.sign .value 1 false)
  else if l.flow = 0 && !l.keyAllowed then l.fail l.mark .mappingValue
  else do
    let l ← l.roll l.mark.column l.nextNumber .blockMapping l.mark
    .ok (l.sign .value 1 (l.flow = 0))

/-- Read something that may be a key. -/
def keyed (l : Lexer) (read : Lexer → Except Error (TokenKind × Lexer)) :
    Except Error Lexer := do
  let start := l.mark
  let l ← l.saveKey
  let (kind, l) ← read { l with keyAllowed := false }
  .ok (l.push kind start)

/-- Read an alias. -/
def aliasKind (l : Lexer) : Except Error (TokenKind × Lexer) := do
  let (name, l) ← l.anchor
  .ok (.reference name, l)

/-- Read an anchor. -/
def anchorKind (l : Lexer) : Except Error (TokenKind × Lexer) := do
  let (name, l) ← l.anchor
  .ok (.anchor name, l)

/-- Read a tag. -/
def tagKind (l : Lexer) : Except Error (TokenKind × Lexer) := do
  let (handle, suffix, l) ← l.tag
  .ok (.tag handle suffix, l)

/-- Read a quoted scalar. -/
def quotedKind (single : Bool) (l : Lexer) : Except Error (TokenKind × Lexer) := do
  let (text, l) ← l.quotedScalar single
  .ok (.scalar false text, l)

/-- Read a plain scalar. -/
def plainKind (l : Lexer) : Except Error (TokenKind × Lexer) := do
  let (text, l) ← l.plainScalar
  .ok (.scalar true text, l)

/-- Read a block scalar, after which a key may start. -/
def blockScalarToken (literal : Bool) (l : Lexer) : Except Error Lexer := do
  let start := l.mark
  let l ← l.dropKey
  let (text, l) ← { l with keyAllowed := true }.blockScalar literal
  .ok (l.push (.scalar false text) start)

/-- Whether a plain scalar may start with a character that the rest follows. -/
def startsPlain (inFlow : Bool) (c : Char) (rest : List Char) : Bool :=
  if c = '-' then !rest.head?.any isBlank
  else if c = '?' ∨ c = ':' then !inFlow && !endsWord rest.head?
  else
    !(isBlank c || isBreak c || c == quotationMark || c == apostrophe
      || ",[]\x7b\x7d#&*!|>%@`".toList.contains c)

/-- Read a token that starts with a character which the rest follows. -/
def inLine (l : Lexer) (c : Char) (rest : List Char) : Except Error Lexer :=
  let inFlow := 0 < l.flow
  if c = '[' then l.flowStart .openBracket
  else if c = '\x7b' then l.flowStart .openBrace
  else if c = ']' then l.flowEnd .closeBracket
  else if c = '\x7d' then l.flowEnd .closeBrace
  else if c = ',' then l.commaToken
  else if c = '-' ∧ endsWord rest.head? then l.blockEntryToken
  else if c = '?' ∧ (inFlow ∨ endsWord rest.head?) then l.keyToken
  else if c = ':' ∧ (inFlow ∨ endsWord rest.head?) then l.valueToken
  else if c = '*' then l.keyed aliasKind
  else if c = '&' then l.keyed anchorKind
  else if c = '!' then l.keyed tagKind
  else if c = '|' ∧ !inFlow then l.blockScalarToken true
  else if c = '>' ∧ !inFlow then l.blockScalarToken false
  else if c = apostrophe then l.keyed (quotedKind true)
  else if c = quotationMark then l.keyed (quotedKind false)
  else if startsPlain inFlow c rest then l.keyed plainKind
  else l.fail l.mark .tokenStart

/-- Read the next token, and those that show only by indentation. -/
def next (l : Lexer) : Except Error Lexer := do
  let before := l.mark
  let l ← skipToToken (l.rest.length + 1) l
  let l := l.unroll l.mark.column before
  l.need 4
  match l.rest with
  | [] => l.streamEnd
  | c :: rest =>
    if l.mark.column = 0 ∧ c = '%' then l.directiveToken
    else if l.atMarker then
      l.documentToken (if c = '-' then .documentStart else .documentEnd)
    else do
      let l ← l.inLine c rest
      if (l.tokens.getLast?.map (·.kind)) = some .blockEntry then .ok l else l.skipLineComment

/-! ## The queue -/

/-- Read tokens until the first one of the queue can be given away. -/
def fill : Nat → Lexer → Except Error Lexer
  | 0, l => .ok l
  | fuel + 1, l =>
    if l.tokens.length ≤ 2 then do fill fuel (← l.next)
    else
      match l.owners.lookup l.taken with
      | none => .ok l
      | some level => do
        let (isKey, l) ← l.checkKey level
        if isKey then fill fuel (← l.next) else .ok l

/-- The next token, which stays in the queue. -/
def peek (l : Lexer) : Except Error (Token × Lexer) := do
  let l ← fill (l.rest.length + 4) l
  .ok (l.tokens.headD { kind := .streamEnd, start := l.mark }, l)

/-- Take the next token from the queue. -/
def take (l : Lexer) : Lexer := { l with tokens := l.tokens.tail, taken := l.taken + 1 }

end Stackling.Yaml.Lexer
