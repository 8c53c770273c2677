import Stackling.Input
import Stackling.Token

/-!
# The lexer

A program text is cut into tokens line by line. White space separates tokens,
and a number sign starts a comment that ends with its line. A lexer remembers
how far it has come in a line, so a text may be given to it in several parts;
the position starts again at zero after every complete line.
-/

namespace Stackling

namespace Lexeme

/-- Why no token can be read. -/
inductive Cause where
  /-- A colon without an equals sign. -/
  | expectAssign
  /-- A text that is not closed on its line. -/
  | badText
  /-- Digits with a word after them. -/
  | badNumber
  /-- A byte that starts no token. -/
  | unexpectedByte
  deriving DecidableEq, Repr

/-- The wording of a cause. -/
def Cause.message : Cause → Bytes
  | expectAssign => ascii "expect :="
  | badText => ascii "incorrect string format"
  | badNumber => ascii "incorrect number format"
  | unexpectedByte => ascii "unexpected character"

/-- How many bytes follow the opening quote of a text, its closing quote
included. A backslash takes the next byte with it; no text goes past the end of
its line. -/
def textLength? : Bytes → Option Nat
  | [] => none
  | a :: s =>
    if a = 34 then some 1
    else if a = Bytes.newline then none
    else if a = 92 then
      match s with
      | [] => none
      | _ :: s => (textLength? s).map (· + 2)
    else (textLength? s).map (· + 1)

/-- A text whose opening quote `s` follows. -/
def text (s : Bytes) : Except (Cause × Nat) (TokenKind × Nat) :=
  match textLength? s with
  | some length => .ok (.text, length)
  | none => .error (.badText, s.length + 1)

/-- A number whose first digit `s` follows. -/
def number (s : Bytes) : Except (Cause × Nat) (TokenKind × Nat) :=
  let digits := (s.takeWhile Bytes.isDigit).length
  match s.dropWhile Bytes.isDigit with
  | b :: _ => if Bytes.isWordByte b then .error (.badNumber, digits + 1) else .ok (.number, digits)
  | [] => .ok (.number, digits)

/-- A reserved word or a name that starts with the letter `a`. -/
def word (a : UInt8) (s : Bytes) : TokenKind × Nat :=
  let tail := s.takeWhile Bytes.isWordByte
  ((Keyword.ofWord? (a :: tail)).elim .name .keyword, tail.length)

/-- What starts with byte `a`, which is not white space, when `s` follows it on
its line: a token and how many bytes of `s` it takes, or why there is no token
and how many bytes were looked at, `a` included. -/
def read (a : UInt8) (s : Bytes) : Except (Cause × Nat) (TokenKind × Nat) :=
  match a with
  | 40 => .ok (.leftParen, 0)
  | 41 => .ok (.rightParen, 0)
  | 42 => .ok (.times, 0)
  | 43 => .ok (.plus, 0)
  | 45 => .ok (.minus, 0)
  | 47 => .ok (.divide, 0)
  | 61 => .ok (.equal, 0)
  | 62 => .ok (.greater, 0)
  | 60 => if s.head? = some 62 then .ok (.notEqual, 1) else .ok (.less, 0)
  | 58 => if s.head? = some 61 then .ok (.assign, 1) else .error (.expectAssign, 0)
  | 35 => .ok (.comment, s.length)
  | 34 => text s
  | _ =>
    if Bytes.isDigit a then number s
    else if Bytes.isLetter a then .ok (word a s)
    else .error (.unexpectedByte, 0)

/-- The part of a line that an error shows: the offending byte, or everything
from there to the end of the line. -/
def near (cause : Cause) (a : UInt8) (s : Bytes) : Bytes :=
  if cause = .unexpectedByte then [a] else a :: s

end Lexeme

/-- A place where no token can be read. -/
structure LexError where
  cause : Lexeme.Cause
  /-- The part of the line that is shown. -/
  near : Bytes
  line : Nat
  deriving DecidableEq, Repr

/-- The wording of an error. -/
def LexError.message (e : LexError) : Bytes :=
  ascii "tokenizer error near " ++ e.near ++ ascii " at line " ++ Decimal.ofNat e.line
    ++ ascii ", msg: " ++ e.cause.message

/-- What a line was cut into. -/
structure LineScan where
  /-- The tokens up to the first error. -/
  tokens : List Token
  /-- How far the line was read. -/
  stop : Nat
  error : Option LexError
  deriving DecidableEq, Repr

namespace LineScan

/-- The scan with a token in front. -/
def cons (t : Token) (scan : LineScan) : LineScan := { scan with tokens := t :: scan.tokens }

end LineScan

/-- Cut the part of line number `line` that starts at position `pos` into
tokens, after passing over `skip` bytes of it. Comments are dropped. -/
def scanFrom (line : Nat) : Nat → Nat → Bytes → LineScan
  | _, pos, [] => { tokens := [], stop := pos, error := none }
  | skip + 1, pos, _ :: s => scanFrom line skip (pos + 1) s
  | 0, pos, a :: s =>
    if Bytes.isSpace a then scanFrom line 0 (pos + 1) s
    else
      match Lexeme.read a s with
      | .error (cause, looked) =>
        { tokens := [], stop := pos + looked
          error := some { cause, near := Lexeme.near cause a s, line } }
      | .ok (.comment, length) => { tokens := [], stop := pos + 1 + length, error := none }
      | .ok (kind, length) =>
        (scanFrom line length (pos + 1) s).cons
          { kind, content := a :: s.take length, line, start := pos, stop := pos + 1 + length }

/-- A lexer: how far it has come, and the tokens that it has read. -/
structure Lexer where
  /-- The position in the current line. -/
  pos : Nat := 0
  /-- The number of the current line. -/
  line : Nat := 0
  tokens : Array Token := #[]
  deriving DecidableEq, Repr

/-- Why a text has no tokens. -/
inductive LexFailure where
  | token (e : LexError)
  /-- The text could not be read to its end. -/
  | input (message : Bytes)
  deriving DecidableEq, Repr

/-- The wording of a failure. -/
def LexFailure.message : LexFailure → Bytes
  | token e => e.message
  | input message => message

namespace Lexer

/-- Read the next token of a line, comments included, without keeping it. -/
def next (lexer : Lexer) (line : Bytes) : Lexer × Except LexError (Option Token) :=
  let rest := line.drop lexer.pos
  let start := lexer.pos + (rest.takeWhile Bytes.isSpace).length
  match rest.dropWhile Bytes.isSpace with
  | [] => ({ lexer with pos := start }, .ok none)
  | a :: s =>
    match Lexeme.read a s with
    | .error (cause, looked) =>
      ({ lexer with pos := start + looked },
        .error { cause, near := Lexeme.near cause a s, line := lexer.line })
    | .ok (kind, length) =>
      let stop := start + 1 + length
      ({ lexer with pos := stop },
        .ok (some { kind, content := a :: s.take length, line := lexer.line, start, stop }))

/-- Read the tokens of one line from the current position on. -/
def scanLine (lexer : Lexer) (line : Bytes) : Lexer × Option LexError :=
  let scan := scanFrom lexer.line 0 lexer.pos (line.drop lexer.pos)
  ({ lexer with pos := scan.stop, tokens := lexer.tokens ++ scan.tokens }, scan.error)

/-- Read the tokens of complete lines. -/
def scanLines (lexer : Lexer) : List Bytes → Lexer × Option LexError
  | [] => (lexer, none)
  | line :: lines =>
    match lexer.scanLine line with
    | (lexer, some e) => (lexer, some e)
    | (lexer, none) => { lexer with line := lexer.line + 1, pos := 0 }.scanLines lines

/-- Read a text, whose first line is line one, and give all tokens read so far. -/
def read (lexer : Lexer) (input : Input) : Lexer × Except LexFailure (List Token) :=
  let (lines, last) := Bytes.splitLines input.unread
  match { lexer with line := 1 }.scanLines lines with
  | (lexer, some e) => (lexer, .error (.token e))
  | (lexer, none) =>
    match input.failure with
    | some message => (lexer, .error (.input message))
    | none =>
      if last = [] then (lexer, .ok lexer.tokens.toList)
      else
        match lexer.scanLine last with
        | (lexer, some e) => (lexer, .error (.token e))
        | (lexer, none) => (lexer, .ok lexer.tokens.toList)

end Lexer

/-- The tokens of a text. -/
def Token.ofInput (input : Input) : Except LexFailure (List Token) := (({} : Lexer).read input).2

end Stackling
