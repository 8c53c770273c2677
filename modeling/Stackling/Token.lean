import Stackling.Text.Decimal
import Stackling.Text.Quoted

/-!
# Tokens

The words and signs of a program text, each with the place that it was read
from.
-/

namespace Stackling

/-- A reserved word. -/
inductive Keyword where
  | program
  | declare
  | integer
  | string
  | beginBody
  | endBody
  | set
  | print
  | read
  | ifWord
  | thenWord
  | elseWord
  | endIf
  | whileWord
  | doWord
  | endWhile
  | inc
  deriving DecidableEq, Repr

namespace Keyword

/-- All reserved words. -/
def all : List Keyword :=
  [program, declare, integer, string, beginBody, endBody, set, print, read, ifWord, thenWord,
    elseWord, endIf, whileWord, doWord, endWhile, inc]

/-- How a reserved word is spelled. -/
def spelling : Keyword → Bytes
  | program => ascii "PROGRAM"
  | declare => ascii "DECLARE"
  | integer => ascii "INTEGER"
  | string => ascii "STRING"
  | beginBody => ascii "BEGIN"
  | endBody => ascii "END"
  | set => ascii "SET"
  | print => ascii "PRINT"
  | read => ascii "READ"
  | ifWord => ascii "IF"
  | thenWord => ascii "THEN"
  | elseWord => ascii "ELSE"
  | endIf => ascii "ENDIF"
  | whileWord => ascii "WHILE"
  | doWord => ascii "DO"
  | endWhile => ascii "ENDWHILE"
  | inc => ascii "INC"

/-- The reserved word that a word is. -/
def ofWord? (word : Bytes) : Option Keyword := all.find? fun k => k.spelling == word

end Keyword

/-- What a token is. -/
inductive TokenKind where
  | keyword (k : Keyword)
  /-- The sign `:=`. -/
  | assign
  | leftParen
  | rightParen
  | plus
  | minus
  | times
  | divide
  | greater
  | less
  | equal
  /-- The sign `<>`. -/
  | notEqual
  /-- One or more digits. -/
  | number
  /-- Text between double quotes. -/
  | text
  /-- A word that is not reserved. -/
  | name
  /-- A number sign and the rest of its line. -/
  | comment
  deriving DecidableEq, Repr

/-- A token and its place. -/
structure Token where
  kind : TokenKind
  /-- The bytes of the token. -/
  content : Bytes
  /-- The line it stands on, counted from one. -/
  line : Nat
  /-- Where it starts in its line. -/
  start : Nat
  /-- Where it ends in its line. -/
  stop : Nat
  deriving DecidableEq, Repr

/-- A token as it is shown to people. -/
def Token.render (t : Token) : Bytes :=
  Quoted.quote t.content ++ ascii " at line " ++ Decimal.ofNat t.line

end Stackling
