import Stackling.Program.Chain
import Stackling.Token.Lexer

/-!
# Parsing programs

A program is read from its tokens by recursive descent. Each parser takes what
it recognises from the front of the tokens and gives the rest. A parser that
fails tells the tokens from the offending one on; none are left when the text
ended too early.

Parsers that call themselves carry a bound on the depth of the calls. Every
call comes after a token was taken, so the number of tokens is bound enough.
-/

namespace Stackling

/-- A place where the text is not a program. -/
structure SyntaxError where
  /-- The tokens from the offending one on. -/
  rest : List Token
  /-- Whether the offending token is a number that is too large. -/
  numberRange : Bool := false
  deriving DecidableEq, Repr

/-- The wording of an error. -/
def SyntaxError.message (e : SyntaxError) : Bytes :=
  match e.rest with
  | [] => ascii "syntax error: unexpected end of program"
  | t :: _ =>
    ascii "syntax error near " ++ t.content ++ ascii " at line " ++ Decimal.ofNat t.line
      ++ (if e.numberRange then ascii ": number out of range" else [])

/-- A parser takes a value from the front of a list of tokens. -/
abbrev Parser (α : Type) := List Token → Except SyntaxError (α × List Token)

namespace Parser

/-- The parser that fails at the first token. -/
def fail {α : Type} : Parser α := fun toks => .error { rest := toks }

/-- A token of the given kind. -/
def expect (kind : TokenKind) : Parser Token
  | [] => fail []
  | t :: rest => if t.kind = kind then .ok (t, rest) else fail (t :: rest)

/-- A reserved word. -/
def keyword (k : Keyword) : Parser Token := expect (.keyword k)

/-- Whether the first token is one of the given reserved words. -/
def startsWith (words : List Keyword) : List Token → Bool
  | { kind := .keyword k, .. } :: _ => words.contains k
  | _ => false

/-! ## Expressions -/

/-- The expression of a number token that `rest` follows. -/
def number (t : Token) (rest : List Token) : Except SyntaxError (Expr × List Token) :=
  match Decimal.toInt32? t.content with
  | some value => .ok (.number t.line value, rest)
  | none => .error { rest := t :: rest, numberRange := true }

/-- An operand of a condition: a name or a number. -/
def operand : Parser Expr
  | [] => fail []
  | t :: rest =>
    match t.kind with
    | .name => .ok (.name t.line t.content, rest)
    | .number => number t rest
    | _ => fail (t :: rest)

/-- A term of an expression, in which `inner` reads what stands in parentheses. -/
def term (inner : Parser Expr) : Parser Expr
  | [] => fail []
  | t :: rest =>
    match t.kind with
    | .number => number t rest
    | .name => .ok (.name t.line t.content, rest)
    | .leftParen => do
      let (e, rest) ← inner rest
      let (_, rest) ← expect .rightParen rest
      .ok (.paren t.line e, rest)
    | _ => fail (t :: rest)

/-- The operator that a token is. -/
def link? (t : Token) : Option Chain.Link :=
  match t.kind with
  | .plus => some (.arith .add)
  | .minus => some (.arith .sub)
  | .times => some (.arith .mul)
  | .divide => some (.arith .div)
  | .greater | .less | .equal | .notEqual => some (.compare t.content)
  | _ => none

/-- Operators, each with the term that follows it, as many as there are. -/
def links (term : Parser Expr) : Nat → Parser (List (Chain.Link × Expr))
  | 0, toks => fail toks
  | _ + 1, [] => .ok ([], [])
  | depth + 1, t :: rest =>
    match link? t with
    | none => .ok ([], t :: rest)
    | some link => do
      let (e, rest) ← term rest
      let (more, rest) ← links term depth rest
      .ok ((link, e) :: more, rest)

/-- An expression whose parentheses are nested less than `depth` deep, and which
has less than `depth` operators on a level. -/
def expressionWithin : Nat → Parser Expr
  | 0, toks => fail toks
  | depth + 1, toks => do
    let (first, rest) ← term (expressionWithin depth) toks
    let (more, rest) ← links (term (expressionWithin depth)) (depth + 1) rest
    .ok (Chain.expr first more, rest)

/-- An expression. -/
def expression : Parser Expr := fun toks => expressionWithin (toks.length + 1) toks

/-! ## Statements -/

/-- A sign that compares. -/
def comparator : Parser Token
  | [] => fail []
  | t :: rest =>
    match t.kind with
    | .greater | .less | .equal | .notEqual => .ok (t, rest)
    | _ => fail (t :: rest)

/-- Two operands with a comparing sign between them. -/
def condition : Parser Condition := fun toks => do
  let (left, rest) ← operand toks
  let (sign, rest) ← comparator rest
  let (right, rest) ← operand rest
  .ok ({ line := left.line, left, comparator := sign.content, right }, rest)

/-- What `SET` gives to its target: a text, or what `expr` reads. -/
def value (expr : Parser Expr) : Parser Expr
  | [] => fail []
  | t :: rest =>
    if t.kind = .text then .ok (.text t.line t.content, rest) else expr (t :: rest)

/-- What `PRINT` prints: a name or a text. -/
def printed : Parser Expr
  | [] => fail []
  | t :: rest =>
    match t.kind with
    | .name => .ok (.name t.line t.content, rest)
    | .text => .ok (.text t.line t.content, rest)
    | _ => fail (t :: rest)

/-- A list that `items` reads and that must not be empty. -/
def nonempty {α : Type} (items : Parser (List α)) : Parser (List α) := fun toks => do
  let (list, rest) ← items toks
  if list.isEmpty then fail rest else .ok (list, rest)

/-- The rest of an `IF` on the given line, whose blocks `block` reads up to one
of the given words. -/
def choice (block : List Keyword → Parser (List Stmt)) (line : Nat) : Parser Stmt := fun toks => do
  let (cond, rest) ← condition toks
  let (_, rest) ← keyword .thenWord rest
  let (yes, rest) ← nonempty (block [.elseWord, .endIf]) rest
  if startsWith [.elseWord] rest then
    let (no, rest) ← nonempty (block [.endIf]) rest.tail
    let (_, rest) ← keyword .endIf rest
    .ok (.choice line cond yes no, rest)
  else
    let (_, rest) ← keyword .endIf rest
    .ok (.choice line cond yes [], rest)

/-- The rest of a `WHILE` on the given line. -/
def loop (block : List Keyword → Parser (List Stmt)) (line : Nat) : Parser Stmt := fun toks => do
  let (cond, rest) ← condition toks
  let (_, rest) ← keyword .doWord rest
  let (body, rest) ← nonempty (block [.endWhile]) rest
  let (_, rest) ← keyword .endWhile rest
  .ok (.loop line cond body, rest)

/-- A statement, in which `expr` reads expressions, and `block` the statements up
to one of the given words. -/
def statement (expr : Parser Expr) (block : List Keyword → Parser (List Stmt)) : Parser Stmt
  | [] => fail []
  | t :: rest =>
    match t.kind with
    | .keyword .set => do
      let (target, rest) ← expect .name rest
      let (_, rest) ← expect .assign rest
      let (e, rest) ← value expr rest
      .ok (.set t.line target.content e, rest)
    | .keyword .print => do
      let (e, rest) ← printed rest
      .ok (.print t.line e, rest)
    | .keyword .read => do
      let (target, rest) ← expect .name rest
      .ok (.read t.line target.content, rest)
    | .keyword .inc => do
      let (target, rest) ← expect .name rest
      let (_, rest) ← expect .assign rest
      let (e, rest) ← expr rest
      .ok (.inc t.line target.content e, rest)
    | .keyword .ifWord => choice block t.line rest
    | .keyword .whileWord => loop block t.line rest
    | _ => fail (t :: rest)

/-- Statements up to one of the given words, which is not taken. The depth
bounds the number of statements on a level, how deep they are nested, and the
expressions in them. -/
def blockWithin : Nat → List Keyword → Parser (List Stmt)
  | 0, _, toks => fail toks
  | _ + 1, _, [] => fail []
  | depth + 1, stops, t :: rest =>
    if startsWith stops (t :: rest) then .ok ([], t :: rest)
    else do
      let (stmt, rest) ← statement (expressionWithin depth) (blockWithin depth) (t :: rest)
      let (more, rest) ← blockWithin depth stops rest
      .ok (stmt :: more, rest)

/-- Statements up to one of the given words, which is not taken. -/
def block (stops : List Keyword) : Parser (List Stmt) :=
  fun toks => blockWithin (toks.length + 1) stops toks

/-! ## Programs -/

/-- The type of a declaration. Any name may stand here; whether it is a type is
not a question of form. -/
def typeName : Parser Token
  | [] => fail []
  | t :: rest =>
    match t.kind with
    | .keyword .integer | .keyword .string | .name => .ok (t, rest)
    | _ => fail (t :: rest)

/-- A declared name after its type. -/
def declaration : Parser Declaration := fun toks => do
  let (type, rest) ← typeName toks
  let (name, rest) ← expect .name rest
  .ok ({ typeName := type.content, name := name.content, line := type.line }, rest)

/-- Less than `bound` declarations, up to `BEGIN` or the end. -/
def declarationsWithin : Nat → Parser (List Declaration)
  | 0, toks => fail toks
  | _ + 1, [] => .ok ([], [])
  | bound + 1, t :: rest =>
    if startsWith [.beginBody] (t :: rest) then .ok ([], t :: rest)
    else do
      let (d, rest) ← declaration (t :: rest)
      let (more, rest) ← declarationsWithin bound rest
      .ok (d :: more, rest)

/-- The declarations after `DECLARE`, at least one, or none without it. -/
def declarations : Parser (List Declaration) := fun toks =>
  if startsWith [.declare] toks then nonempty (declarationsWithin (toks.length + 1)) toks.tail
  else .ok ([], toks)

/-- A program, which takes all tokens. -/
def program (toks : List Token) : Except SyntaxError Program := do
  let (first, rest) ← keyword .program toks
  let (name, rest) ← expect .name rest
  let (decls, rest) ← declarations rest
  let (_, rest) ← keyword .beginBody rest
  let (body, rest) ← block [.endBody] rest
  let (_, rest) ← keyword .endBody rest
  if rest.isEmpty then
    .ok { name := name.content, line := first.line, declarations := decls, body }
  else .error { rest }

end Parser

/-- Why a text is not a program. -/
inductive ParseError where
  | lex (e : LexFailure)
  | form (e : SyntaxError)
  deriving DecidableEq, Repr

/-- The wording of an error. -/
def ParseError.message : ParseError → Bytes
  | lex e => e.message
  | form e => e.message

/-- The program that a text spells. -/
def Program.ofInput (input : Input) : Except ParseError Program :=
  match Token.ofInput input with
  | .error e => .error (.lex e)
  | .ok toks => (Parser.program toks).mapError .form

end Stackling
