import Stackling.Yaml.Source
import Stackling.Yaml.Token

/-!
# Reading tokens: places, keys and indentation

The state of reading tokens. Tokens wait in a queue until they are taken,
because a colon may turn a token that was read before into a key: then the token
of the key, and the start of the block mapping that it belongs to, are put in
front of it.
-/

namespace Stackling.Yaml

/-! ## Characters -/

/-- A space or a tab. -/
def isBlank (c : Char) : Bool := c == ' ' || c == '\t'

/-- A character that ends a line. -/
def isBreak (c : Char) : Bool :=
  c == '\n' || c == '\r' || c == '\x85' || c == '\u2028' || c == '\u2029'

/-- Whether a word ends before a character; none stands for the end of the
text. -/
def endsWord (c : Option Char) : Bool := c.all fun c => isBlank c || isBreak c

/-- A character of names: a letter, a digit, an underscore or a minus sign. -/
def isNameChar (c : Char) : Bool := c.isAlphanum || c == '_' || c == '-'

/-- The bytes of characters. -/
def spell (chars : List Char) : Bytes := chars.flatMap fun c => Utf8.encode c.toNat

/-- What a line break stands for in a scalar: a newline, except for the two
separators of Unicode, which stay. -/
def breakText (c : Char) : Bytes :=
  if c = '\u2028' ∨ c = '\u2029' then spell [c] else [10]

/-! ## State -/

/-- A place that may turn out to start a key. -/
structure PossibleKey where
  possible : Bool := false
  /-- Whether nothing but a key can stand here. -/
  required : Bool := false
  /-- The number of the token at this place. -/
  number : Nat := 0
  mark : Mark := {}
  deriving DecidableEq, Repr

/-- The state of reading tokens. -/
structure Lexer where
  rest : List Char
  fault : Option Problem := none
  /-- Whether the text starts with a byte order mark besides the one that tells
  its encoding. The first character of each line is then passed over. -/
  marked : Bool := false
  mark : Mark := {}
  /-- Whether nothing but blanks has been read since the last line break. -/
  fresh : Bool := false
  /-- The tokens that were read and not yet taken. -/
  tokens : List Token := []
  /-- How many tokens were taken. -/
  taken : Nat := 0
  /-- How many flow collections are open. -/
  flow : Nat := 0
  /-- The column of the innermost block collection. -/
  indent : Int := -1
  /-- The columns of the collections around it, the innermost first. -/
  indents : List Int := []
  /-- Whether a key may start here. -/
  keyAllowed : Bool := true
  /-- The possible key outside of flow collections and in each of them, the
  innermost first. -/
  keys : List PossibleKey := [{}]
  /-- Which possible keys, counted from the outermost, the tokens are that have
  these numbers. -/
  owners : List (Nat × Nat) := []
  deriving DecidableEq, Repr

namespace Lexer

/-- Start to read a text. -/
def ofSource (source : Source) : Lexer :=
  { rest := source.chars, fault := source.fault
    marked := source.chars.head? = some (Char.ofNat 0xFEFF) }

/-- A problem at this place, in a part that starts at the given one. -/
def fail {α : Type} (l : Lexer) (context : Mark) (problem : Problem) : Except Error α :=
  .error { problem, context := context.line, line := l.mark.line }

/-- Make sure that as many characters can be read, or that the text ends
well. -/
def need (l : Lexer) (count : Nat) : Except Error Unit :=
  match l.fault with
  | none => .ok ()
  | some problem => if (l.rest.drop (count - 1)).isEmpty then .error { problem } else .ok ()

/-- Pass over a character. -/
def skip (l : Lexer) : Lexer :=
  match l.rest with
  | [] => l
  | c :: rest =>
    { l with
      rest, fresh := l.fresh && isBlank c
      mark := { l.mark with index := l.mark.index + 1, column := l.mark.column + 1 } }

/-- Pass over some characters of a line. -/
def skipMany (l : Lexer) (count : Nat) : Lexer := (List.range count).foldl (fun l _ => l.skip) l

/-- Pass over a line break. -/
def skipLine (l : Lexer) : Lexer :=
  let count := if ['\r', '\n'].isPrefixOf l.rest then 2 else 1
  { l with
    rest := l.rest.drop count, fresh := true
    mark := { index := l.mark.index + count, line := l.mark.line + 1, column := 0 } }

/-- Whether a character stands here. -/
def isAt (l : Lexer) (c : Char) : Bool := l.rest.head? = some c

/-- Whether a line break stands here. -/
def atBreak (l : Lexer) : Bool := l.rest.head?.any isBreak

/-- Whether a mark stands here that separates documents. -/
def atMarker (l : Lexer) : Bool :=
  l.mark.column = 0
    && (['-', '-', '-'].isPrefixOf l.rest || ['.', '.', '.'].isPrefixOf l.rest)
    && endsWord (l.rest.drop 3).head?

/-- Pass over blanks. -/
def skipBlanks (l : Lexer) : Except Error Lexer := do
  let l := l.skipMany (l.rest.takeWhile isBlank).length
  l.need 1
  .ok l

/-- Pass over the rest of the line. -/
def skipToBreak (l : Lexer) : Except Error Lexer := do
  let l := l.skipMany (l.rest.takeWhile (!isBreak ·)).length
  l.need 1
  .ok l

/-! ## The queue -/

/-- Put a token at the end of the queue. -/
def push (l : Lexer) (kind : TokenKind) (start : Mark) : Lexer :=
  { l with tokens := l.tokens ++ [{ kind, start }] }

/-- Put a token in front of the one with the given number, or at the end if that
one was taken already. -/
def insert (l : Lexer) (number : Nat) (kind : TokenKind) (start : Mark) : Lexer :=
  if number < l.taken then l.push kind start
  else
    let place := number - l.taken
    { l with tokens := l.tokens.take place ++ { kind, start } :: l.tokens.drop place }

/-- The number of the next token to be read. -/
def nextNumber (l : Lexer) : Nat := l.taken + l.tokens.length

/-! ## Possible keys -/

/-- The innermost possible key. -/
def key (l : Lexer) : PossibleKey := l.keys.headD {}

/-- Change the innermost possible key. -/
def setKey (l : Lexer) (key : PossibleKey) : Lexer := { l with keys := key :: l.keys.tail }

/-- Forget which possible key the token with a number is. -/
def disown (l : Lexer) (number : Nat) : Lexer :=
  { l with owners := l.owners.filter (·.1 ≠ number) }

/-- Give up the innermost possible key. -/
def dropKey (l : Lexer) : Except Error Lexer :=
  let key := l.key
  if !key.possible then .ok l
  else if key.required then l.fail key.mark .missingColon
  else .ok ((l.setKey { key with possible := false }).disown key.number)

/-- Note that a key may start here. -/
def saveKey (l : Lexer) : Except Error Lexer :=
  if !l.keyAllowed then .ok l
  else do
    let key : PossibleKey :=
      { possible := true, required := l.flow = 0 && l.indent = l.mark.column
        number := l.nextNumber, mark := l.mark }
    let l ← l.dropKey
    let l := l.setKey key
    .ok { l with owners := (key.number, l.flow) :: l.owners }

/-- Whether a possible key can still be one: it must stand on one line, with at
most 1024 characters between its start and the colon. -/
def isStale (l : Lexer) (key : PossibleKey) : Bool :=
  key.mark.line < l.mark.line || key.mark.index + 1024 < l.mark.index

/-- Check whether the possible key at a level, counted from the outermost, still
is one. -/
def checkKey (l : Lexer) (level : Nat) : Except Error (Bool × Lexer) :=
  let place := l.flow - level
  match if level ≤ l.flow then l.keys[place]? else none with
  | none => .ok (false, l)
  | some key =>
    if !key.possible then .ok (false, l)
    else if !l.isStale key then .ok (true, l)
    else if key.required then l.fail key.mark .missingColon
    else .ok (false, { l with keys := l.keys.set place { key with possible := false } })

/-! ## Collections -/

/-- How deeply collections may be nested. -/
def maxDepth : Nat := 10000

/-- Enter a flow collection. -/
def enterFlow (l : Lexer) : Except Error Lexer :=
  let l :=
    { l with
      keys := { number := l.nextNumber, mark := l.mark } :: l.keys
      flow := l.flow + 1 }
  if maxDepth < l.flow then l.fail l.key.mark .tooDeep else .ok l

/-- Leave a flow collection. -/
def leaveFlow (l : Lexer) : Lexer :=
  if l.flow = 0 then l
  else
    let l := l.disown l.key.number
    { l with flow := l.flow - 1, keys := l.keys.tail }

/-- Start a block collection at a column that lies deeper than the current one.
Its token is put in front of the token with the given number. -/
def roll (l : Lexer) (column number : Nat) (kind : TokenKind) (start : Mark) :
    Except Error Lexer :=
  if 0 < l.flow ∨ (column : Int) ≤ l.indent then .ok l
  else
    let l := { l with indents := l.indent :: l.indents, indent := column }
    if maxDepth < l.indents.length then l.fail l.key.mark .tooDeep
    else .ok (l.insert number kind start)

/-- The collections that are left at a column: the columns around the one that
stays, the column of that one, and how many are left. -/
def unrollFrom (column : Int) : List Int → Int → Nat → List Int × Int × Nat
  | [], indent, count => ([], indent, count)
  | outer :: indents, indent, count =>
    if column < indent then unrollFrom column indents outer (count + 1)
    else (outer :: indents, indent, count)

/-- End the block collections that start behind a column. -/
def unroll (l : Lexer) (column : Int) (start : Mark) : Lexer :=
  if 0 < l.flow then l
  else
    let (indents, indent, count) := unrollFrom column l.indents l.indent 0
    { l with
      indents, indent
      tokens := l.tokens ++ List.replicate count { kind := .blockEnd, start } }

end Lexer

end Stackling.Yaml
