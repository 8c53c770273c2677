import Stackling.Text.Quoted
import Stackling.Yaml.Lexer

/-!
# Reading anchors, tags and directives

A node may have an anchor, which aliases refer to, and a tag, which tells its
type. Directives before a document tell the version of the format and what the
handles stand for that tags start with.
-/

namespace Stackling.Yaml.Lexer

/-- Read a name, which may be empty. -/
def name (l : Lexer) : Except Error (Bytes × Lexer) := do
  l.need 1
  let chars := l.rest.takeWhile isNameChar
  let l := l.skipMany chars.length
  l.need 1
  .ok (spell chars, l)

/-- Read the name of an anchor or an alias after its sign. -/
def anchor (l : Lexer) : Except Error (Bytes × Lexer) := do
  let start := l.mark
  let (name, l) ← l.skip.name
  let ends := endsWord l.rest.head? || l.rest.head?.any "?:,]\x7d%@`".toList.contains
  if name = [] ∨ !ends then l.fail start .anchorName else .ok (name, l)

/-! ## Tags -/

/-- A character that may stand in a tag, besides those of names. -/
def isUriSign (c : Char) : Bool := ";/?:@&=+$,.!~*'()[]%".toList.contains c

/-- Read bytes that are spelled by a percent sign and two digits each and make
up one character: `count` bytes are still to be read, or as many as the first
byte tells. -/
def uriOctets (start : Mark) : Nat → Option Nat → Bytes → Lexer → Except Error (Bytes × Lexer)
  | 0, _, octets, l => .ok (octets, l)
  | fuel + 1, count, octets, l => do
    l.need 3
    let octet? :=
      match l.rest with
      | '%' :: a :: b :: _ => Quoted.hexNumber? (spell [a, b])
      | _ => none
    match octet? with
    | none => l.fail start .uriOctet
    | some n =>
      let octet := UInt8.ofNat n
      let left ←
        match count with
        | none =>
          match Source.widthOf octet with
          | some width => .ok (width - 1)
          | none => l.fail start .uriLeadingOctet
        | some left =>
          if Utf8.isContinuation octet then .ok (left - 1) else l.fail start .uriTrailingOctet
      let l := l.skipMany 3
      if left = 0 then .ok (octets ++ [octet], l)
      else uriOctets start fuel (some left) (octets ++ [octet]) l

/-- Read characters of a tag. -/
def uriFrom (start : Mark) : Nat → Bytes → Lexer → Except Error (Bytes × Lexer)
  | 0, uri, l => .ok (uri, l)
  | fuel + 1, uri, l => do
    l.need 1
    match l.rest.head? with
    | some c =>
      if c = '%' then do
        let (octets, l) ← uriOctets start 4 none [] l
        uriFrom start fuel (uri ++ octets) l
      else if isNameChar c || isUriSign c then uriFrom start fuel (uri ++ spell [c]) l.skip
      else .ok (uri, l)
    | none => .ok (uri, l)

/-- Read a tag after what has been read of it, which does not include the first
exclamation mark; `any` tells whether something has been read. -/
def uri (start : Mark) (any : Bool) (head : Bytes) (l : Lexer) : Except Error (Bytes × Lexer) := do
  let (text, after) ← uriFrom start (l.rest.length + 1) head l
  if !any && after.mark.index = l.mark.index then after.fail start .tagUri else .ok (text, after)

/-- Read a handle: an exclamation mark, a name, and another exclamation mark.
Without the second mark it is a handle only if it has no name; `strict` tells
whether something else is wrong. -/
def handle (start : Mark) (strict : Bool) (l : Lexer) : Except Error (Bytes × Lexer) := do
  l.need 1
  if !l.isAt '!' then l.fail start .tagMark
  else do
    let (name, l) ← l.skip.name
    if l.isAt '!' then .ok (33 :: name ++ [33], l.skip)
    else if strict && name ≠ [] then l.fail start .tagMark
    else .ok (33 :: name, l)

/-- Read a tag: its handle and the rest. -/
def tag (l : Lexer) : Except Error (Bytes × Bytes × Lexer) := do
  let start := l.mark
  l.need 2
  let (first, rest, l) ←
    if l.rest.tail.head? = some '<' then do
      let (text, l) ← (l.skipMany 2).uri start false []
      if l.isAt '>' then Except.ok (([] : Bytes), text, l.skip) else l.fail start .tagClose
    else do
      let (head, l) ← l.handle start false
      if 1 < head.length ∧ head.getLast? = some 33 then do
        let (text, l) ← l.uri start false []
        Except.ok (head, text, l)
      else do
        let (text, l) ← l.uri start true head.tail
        if text = [] then Except.ok ([], [33], l) else Except.ok ([33], text, l)
  l.need 1
  if endsWord l.rest.head? then .ok (first, rest, l) else l.fail start .tagEnd

/-! ## Directives -/

/-- Read a number of a version, which has at most two digits. -/
def versionNumber (start : Mark) (l : Lexer) : Except Error (Nat × Lexer) := do
  l.need 1
  let digits := l.rest.takeWhile Char.isDigit
  if digits = [] then l.fail start .versionNumber
  else if 2 < digits.length then l.fail start .longVersion
  else do
    let l := l.skipMany digits.length
    l.need 1
    .ok (Decimal.value (spell digits), l)

/-- Read the version after the name of its directive. -/
def version (start : Mark) (l : Lexer) : Except Error (TokenKind × Lexer) := do
  let l ← l.skipBlanks
  let (major, l) ← l.versionNumber start
  if !l.isAt '.' then l.fail start .versionPoint
  else do
    let (minor, l) ← l.skip.versionNumber start
    .ok (.versionDirective major minor, l)

/-- Read a handle and what it stands for after the name of their directive. -/
def handleMeaning (start : Mark) (l : Lexer) : Except Error (TokenKind × Lexer) := do
  let l ← l.skipBlanks
  let (handle, l) ← l.handle start true
  l.need 1
  if !l.rest.head?.any isBlank then l.fail start .tagGap
  else do
    let l ← l.skipBlanks
    let (stem, l) ← l.uri start false []
    l.need 1
    if endsWord l.rest.head? then .ok (.tagDirective handle stem, l) else l.fail start .tagEnd

/-- Read a directive and the rest of its line. -/
def directive (l : Lexer) : Except Error (TokenKind × Lexer) := do
  let start := l.mark
  let (name, l) ← l.skip.name
  if name = [] then l.fail start .directiveName
  else if !endsWord l.rest.head? then l.fail start .directiveCharacter
  else do
    let (kind, l) ←
      if name = ascii "YAML" then l.version start
      else if name = ascii "TAG" then l.handleMeaning start
      else l.fail start .unknownDirective
    let l ← l.skipBlanks
    let l ← if l.isAt '#' then l.skipToBreak else .ok l
    if l.atBreak then do
      l.need 2
      .ok (kind, l.skipLine)
    else if l.rest.isEmpty then .ok (kind, l)
    else l.fail start .lineEnd

end Stackling.Yaml.Lexer
