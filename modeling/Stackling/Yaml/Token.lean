import Stackling.Bytes

/-!
# Tokens of YAML texts

A text is read as tokens: the signs that stand in it, its scalars, and the
starts and ends of block collections, which only indentation shows.
-/

namespace Stackling.Yaml

/-- A place in a text. -/
structure Mark where
  /-- How many characters lie before. -/
  index : Nat := 0
  /-- The line, counted from zero. -/
  line : Nat := 0
  /-- How many characters of the line lie before. -/
  column : Nat := 0
  deriving DecidableEq, Repr

/-- What a token is. -/
inductive TokenKind where
  | versionDirective (major minor : Nat)
  | tagDirective (handle stem : Bytes)
  | documentStart
  | documentEnd
  | streamEnd
  | blockSequence
  | blockMapping
  | blockEnd
  | openBracket
  | closeBracket
  | openBrace
  | closeBrace
  | blockEntry
  | comma
  | key
  | value
  | reference (name : Bytes)
  | anchor (name : Bytes)
  | tag (handle suffix : Bytes)
  /-- A scalar; it is plain if it stands without quotes and is no block. -/
  | scalar (plain : Bool) (text : Bytes)
  deriving DecidableEq, Repr

/-- A token and where it starts. -/
structure Token where
  kind : TokenKind
  start : Mark
  deriving DecidableEq, Repr

end Stackling.Yaml
