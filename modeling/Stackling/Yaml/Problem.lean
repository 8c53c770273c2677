import Stackling.Text.Decimal

/-!
# Problems of YAML texts

The ways in which a text fails to be a YAML document, and where. Lines count
from zero, and an error on the very first line is shown without its line.
-/

namespace Stackling.Yaml

/-- What is wrong with a text. -/
inductive Problem where
  /-- The text could not be read to its end. -/
  | input (message : Bytes)
  | controlCharacter
  | leadingOctet
  | incompleteOctets
  | trailingOctet
  | octetCount
  | invalidCharacter
  | incompleteUnit
  | strayLowSurrogate
  | incompletePair
  | missingLowSurrogate
  | mappingValue
  | mappingKey
  | sequenceEntry
  | tokenStart
  | tabIndent
  | tabInBlock
  | zeroIndent
  | lineEnd
  | missingColon
  | openQuote
  | markerInQuotes
  | unknownEscape
  | hexEscape
  | escapeCode
  | anchorName
  | tagMark
  | tagUri
  | tagClose
  | tagEnd
  | tagGap
  | uriOctet
  | uriLeadingOctet
  | uriTrailingOctet
  | directiveName
  | directiveCharacter
  | unknownDirective
  | versionNumber
  | versionPoint
  | longVersion
  | tooDeep
  | unknownAnchor (name : Bytes)
  | tagHandle
  | secondVersion
  | otherVersion
  | secondHandle
  | documentStart
  | expectKey
  | expectEntry
  | expectCommaBrace
  | expectCommaBracket
  | expectContent
  deriving DecidableEq, Repr

namespace Problem

/-- The wording of a problem. -/
def message : Problem → Bytes
  | input message => ascii "input error: " ++ message
  | controlCharacter => ascii "control characters are not allowed"
  | leadingOctet => ascii "invalid leading UTF-8 octet"
  | incompleteOctets => ascii "incomplete UTF-8 octet sequence"
  | trailingOctet => ascii "invalid trailing UTF-8 octet"
  | octetCount => ascii "invalid length of a UTF-8 sequence"
  | invalidCharacter => ascii "invalid Unicode character"
  | incompleteUnit => ascii "incomplete UTF-16 character"
  | strayLowSurrogate => ascii "unexpected low surrogate area"
  | incompletePair => ascii "incomplete UTF-16 surrogate pair"
  | missingLowSurrogate => ascii "expected low surrogate area"
  | mappingValue => ascii "mapping values are not allowed in this context"
  | mappingKey => ascii "mapping keys are not allowed in this context"
  | sequenceEntry => ascii "block sequence entries are not allowed in this context"
  | tokenStart => ascii "found character that cannot start any token"
  | tabIndent => ascii "found a tab character that violates indentation"
  | tabInBlock => ascii "found a tab character where an indentation space is expected"
  | zeroIndent => ascii "found an indentation indicator equal to 0"
  | lineEnd => ascii "did not find expected comment or line break"
  | missingColon => ascii "could not find expected ':'"
  | openQuote => ascii "found unexpected end of stream"
  | markerInQuotes => ascii "found unexpected document indicator"
  | unknownEscape => ascii "found unknown escape character"
  | hexEscape => ascii "did not find expected hexdecimal number"
  | escapeCode => ascii "found invalid Unicode character escape code"
  | anchorName => ascii "did not find expected alphabetic or numeric character"
  | tagMark => ascii "did not find expected '!'"
  | tagUri => ascii "did not find expected tag URI"
  | tagClose => ascii "did not find the expected '>'"
  | tagEnd => ascii "did not find expected whitespace or line break"
  | tagGap => ascii "did not find expected whitespace"
  | uriOctet => ascii "did not find URI escaped octet"
  | uriLeadingOctet => ascii "found an incorrect leading UTF-8 octet"
  | uriTrailingOctet => ascii "found an incorrect trailing UTF-8 octet"
  | directiveName => ascii "could not find expected directive name"
  | directiveCharacter => ascii "found unexpected non-alphabetical character"
  | unknownDirective => ascii "found unknown directive name"
  | versionNumber => ascii "did not find expected version number"
  | versionPoint => ascii "did not find expected digit or '.' character"
  | longVersion => ascii "found extremely long version number"
  | tooDeep => ascii "exceeded max depth of 10000"
  | unknownAnchor name => ascii "unknown anchor '" ++ name ++ ascii "' referenced"
  | tagHandle => ascii "found undefined tag handle"
  | secondVersion => ascii "found duplicate %YAML directive"
  | otherVersion => ascii "found incompatible YAML document"
  | secondHandle => ascii "found duplicate %TAG directive"
  | documentStart => ascii "did not find expected <document start>"
  | expectKey => ascii "did not find expected key"
  | expectEntry => ascii "did not find expected '-' indicator"
  | expectCommaBrace => ascii "did not find expected ',' or '\x7d'"
  | expectCommaBracket => ascii "did not find expected ',' or ']'"
  | expectContent => ascii "did not find expected node content"

/-- Whether a problem is one of structure: the tokens are fine, but they stand
in a wrong order. The line of such a problem is shown as it is counted, from
zero; lines of other problems are shown from one. -/
def isStructural : Problem → Bool
  | tagHandle | secondVersion | otherVersion | secondHandle | documentStart | expectKey
  | expectEntry | expectCommaBrace | expectCommaBracket | expectContent => true
  | _ => false

end Problem

/-- A place where a text is not a document. -/
structure Error where
  problem : Problem
  /-- The line where the part that has the problem starts. -/
  context : Nat := 0
  /-- The line where the problem was found. -/
  line : Nat := 0
  deriving DecidableEq, Repr

/-- The wording of an error. It names the line of the context, or that of the
problem if the context is on the first line. -/
def Error.message (e : Error) : Bytes :=
  let line := if e.context = 0 then e.line else e.context
  let shown := if e.problem.isStructural then line else line + 1
  let place :=
    if line = 0 then [] else ascii "line " ++ Decimal.ofNat shown ++ ascii ": "
  ascii "yaml: " ++ place ++ e.problem.message

end Stackling.Yaml
