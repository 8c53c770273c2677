import Stackling.Text.Quoted
import Stackling.Yaml.Lexer

/-!
# Reading scalars

A scalar is plain, quoted, or a block of lines. In plain and quoted scalars line
breaks are folded: a single break is a space, and of several breaks the first is
dropped. A block scalar keeps its line breaks, or folds those between lines that
do not start with a blank.
-/

namespace Stackling.Yaml

/-! ## Gaps -/

/-- Blanks and line breaks between two words of a scalar. -/
structure Gap where
  /-- The blanks, as long as there is no line break. -/
  blanks : Bytes := []
  /-- The first line break. -/
  first : Bytes := []
  /-- The other line breaks. -/
  more : Bytes := []
  /-- Whether there is a line break. -/
  broken : Bool := false
  deriving DecidableEq, Repr

namespace Gap

/-- What a gap stands for. -/
def text (g : Gap) : Bytes :=
  if !g.broken then g.blanks
  else if g.first ≠ [10] then g.first ++ g.more
  else if g.more = [] then [32]
  else g.more

/-- The gap with a further blank; blanks at the start of a line do not count. -/
def blank (g : Gap) (c : Char) : Gap :=
  if g.broken then g else { g with blanks := g.blanks ++ spell [c] }

/-- The gap with a further line break. -/
def lineBreak (g : Gap) (c : Char) : Gap :=
  if g.broken then { g with more := g.more ++ breakText c }
  else { first := breakText c, broken := true }

end Gap

namespace Lexer

/-- Read a gap. In a plain scalar, which starts at `plain`, no tab may stand
before the column that its lines start at. -/
def gap (plain : Option Mark) : Nat → Gap → Lexer → Except Error (Gap × Lexer)
  | 0, g, l => .ok (g, l)
  | fuel + 1, g, l => do
    l.need 1
    match l.rest with
    | [] => .ok (g, l)
    | c :: _ =>
      if isBlank c then
        match plain with
        | some start =>
          if g.broken && c = '\t' && (l.mark.column : Int) ≤ l.indent then
            l.fail start .tabIndent
          else gap plain fuel (g.blank c) l.skip
        | none => gap plain fuel (g.blank c) l.skip
      else if isBreak c then do
        l.need 2
        gap plain fuel (g.lineBreak c) l.skipLine
      else .ok (g, l)

/-! ## Plain scalars -/

/-- A sign of flow collections. -/
def isFlowSign (c : Char) : Bool :=
  c == ',' || c == '?' || c == '[' || c == ']' || c == '\x7b' || c == '\x7d'

/-- How many characters belong to a word of a plain scalar. -/
def wordLength (inFlow : Bool) : List Char → Nat
  | [] => 0
  | c :: rest =>
    if isBlank c || isBreak c || (c = ':' && endsWord rest.head?) || (inFlow && isFlowSign c) then 0
    else wordLength inFlow rest + 1

/-- Read the words of a plain scalar that starts at the given place; `g` is the
gap before the next word. A key may follow on a new line. -/
def plainFrom (start : Mark) : Nat → Gap → Bytes → Lexer → Except Error (Bytes × Lexer)
  | 0, _, value, l => .ok (value, l)
  | fuel + 1, g, value, l => do
    let finish (g : Gap) (value : Bytes) (l : Lexer) : Except Error (Bytes × Lexer) :=
      .ok (value, { l with keyAllowed := l.keyAllowed || g.broken })
    l.need 4
    if l.atMarker || l.isAt '#' then finish g value l
    else
      let count := wordLength (0 < l.flow) l.rest
      let value := if count = 0 then value else value ++ g.text ++ spell (l.rest.take count)
      let g : Gap := if count = 0 then g else {}
      let l := l.skipMany count
      if count ≠ 0 then l.need 2
      if !l.rest.head?.any fun c => isBlank c || isBreak c then finish g value l
      else
        let (g, l) ← l.gap (some start) (l.rest.length + 1) g
        if l.flow = 0 && (l.mark.column : Int) ≤ l.indent then finish g value l
        else plainFrom start fuel g value l

/-- Read a plain scalar. -/
def plainScalar (l : Lexer) : Except Error (Bytes × Lexer) :=
  plainFrom l.mark (l.rest.length + 1) {} [] l

/-! ## Quoted scalars -/

/-- The single quote. -/
def apostrophe : Char := Char.ofNat 39

/-- The double quote. -/
def quotationMark : Char := Char.ofNat 34

/-- The character that starts an escape. -/
def backslash : Char := Char.ofNat 92

/-- The scalar values that single characters after a backslash stand for. -/
def escapes : List (Char × Nat) :=
  [('0', 0), ('a', 7), ('b', 8), ('t', 9), ('\t', 9), ('n', 10), ('v', 11), ('f', 12), ('r', 13),
    ('e', 27), (' ', 32), (quotationMark, 34), (apostrophe, 39), (backslash, 92), ('N', 0x85),
    ('_', 0xA0), ('L', 0x2028), ('P', 0x2029)]

/-- How many digits follow a character after a backslash. -/
def escapeDigits? (c : Char) : Option Nat :=
  if c = 'x' then some 2 else if c = 'u' then some 4 else if c = 'U' then some 8 else none

/-- Read an escape of a scalar that starts at the given place. -/
def escape (start : Mark) (l : Lexer) : Except Error (Bytes × Lexer) :=
  match l.rest.tail.head? with
  | none => l.fail start .unknownEscape
  | some c =>
    match escapeDigits? c with
    | none =>
      match escapes.lookup c with
      | some code => .ok (Utf8.encode code, l.skipMany 2)
      | none => l.fail start .unknownEscape
    | some count => do
      let l := l.skipMany 2
      l.need count
      let digits := spell (l.rest.take count)
      match Quoted.hexNumber? digits with
      | none => l.fail start .hexEscape
      | some code =>
        if digits.length < count then l.fail start .hexEscape
        else if Utf8.isScalar code then .ok (Utf8.encode code, l.skipMany count)
        else l.fail start .escapeCode

/-- Read a run of characters of a quoted scalar up to a gap or its end. The flag
tells whether an escaped line break ended the run. -/
def quotedRun (single : Bool) (start : Mark) :
    Nat → Bytes → Lexer → Except Error (Bytes × Bool × Lexer)
  | 0, value, l => .ok (value, false, l)
  | fuel + 1, value, l =>
    match l.rest with
    | [] => .ok (value, false, l)
    | c :: rest =>
      if isBlank c || isBreak c then .ok (value, false, l)
      else if single && c = apostrophe then
        if rest.head? = some apostrophe then do
          let l := l.skipMany 2
          l.need 2
          quotedRun single start fuel (value ++ spell [apostrophe]) l
        else .ok (value, false, l)
      else if !single && c = quotationMark then .ok (value, false, l)
      else if !single && c = backslash then
        if rest.head?.any isBreak then do
          l.need 3
          .ok (value, true, l.skip.skipLine)
        else do
          let (text, l) ← l.escape start
          l.need 2
          quotedRun single start fuel (value ++ text) l
      else do
        let l := l.skip
        l.need 2
        quotedRun single start fuel (value ++ spell [c]) l

/-- Read a quoted scalar after its opening mark. -/
def quotedFrom (single : Bool) (start : Mark) :
    Nat → Bytes → Lexer → Except Error (Bytes × Lexer)
  | 0, _, l => l.fail start .openQuote
  | fuel + 1, value, l => do
    l.need 4
    if l.atMarker then l.fail start .markerInQuotes
    else if l.rest.isEmpty then l.fail start .openQuote
    else
      let (value, broken, l) ← l.quotedRun single start (l.rest.length + 1) value
      l.need 1
      if l.isAt (if single then apostrophe else quotationMark) then .ok (value, l.skip)
      else
        let (g, l) ← l.gap none (l.rest.length + 1) { broken }
        quotedFrom single start fuel (value ++ g.text) l

/-- Read a quoted scalar. -/
def quotedScalar (single : Bool) (l : Lexer) : Except Error (Bytes × Lexer) :=
  quotedFrom single l.mark (l.rest.length + 1) [] l.skip

/-! ## Block scalars -/

/-- What happens to the line breaks at the end of a block scalar. -/
inductive Chomping where
  | strip
  /-- The first one stays. -/
  | clip
  | keep
  deriving DecidableEq, Repr

/-- Read how a block scalar is chomped. -/
def chomping (l : Lexer) : Except Error (Chomping × Lexer) := do
  l.need 1
  if l.isAt '+' then .ok (.keep, l.skip)
  else if l.isAt '-' then .ok (.strip, l.skip)
  else .ok (.clip, l)

/-- Read by how much a block scalar, which starts at the given place, is
indented; zero if that is not told. -/
def increment (start : Mark) (l : Lexer) : Except Error (Nat × Lexer) := do
  l.need 1
  if l.isAt '0' then l.fail start .zeroIndent
  else
    match l.rest.head? with
    | some c => if c.isDigit then .ok (c.toNat - 48, l.skip) else .ok (0, l)
    | none => .ok (0, l)

/-- Read what stands between the sign of a block scalar and its first line. -/
def blockHeader (start : Mark) (l : Lexer) : Except Error (Chomping × Nat × Lexer) := do
  let (chomp, l) ← l.chomping
  let (count, l) ← l.increment start
  let (chomp, l) ← if chomp = .clip ∧ count ≠ 0 then l.chomping else .ok (chomp, l)
  l.need 1
  let l ← l.skipBlanks
  let l ← if l.isAt '#' then l.skipToBreak else .ok l
  if l.atBreak then do
    l.need 2
    .ok (chomp, count, l.skipLine)
  else if l.rest.isEmpty then .ok (chomp, count, l)
  else l.fail start .lineEnd

/-- Read the empty lines and the indentation before the next line of a block
scalar. An indentation of zero is still to be found: it is the widest seen, but
deeper than the collection around. -/
def blockBreaks (start : Mark) (indent : Nat) :
    Nat → Nat → Bytes → Lexer → Except Error (Nat × Bytes × Lexer)
  | 0, _, breaks, l => .ok (indent, breaks, l)
  | fuel + 1, widest, breaks, l => do
    l.need 1
    let spaces := (l.rest.takeWhile (· = ' ')).length
    let l := l.skipMany (if indent = 0 then spaces else min spaces (indent - l.mark.column))
    l.need 1
    let widest := max widest l.mark.column
    if (indent = 0 || l.mark.column < indent) && l.isAt '\t' then l.fail start .tabInBlock
    else
      match l.rest.head? with
      | some c =>
        if isBreak c then do
          l.need 2
          blockBreaks start indent fuel widest (breaks ++ breakText c) l.skipLine
        else .ok (found widest l, breaks, l)
      | none => .ok (found widest l, breaks, l)
where
  /-- The indentation, which must be found by now. -/
  found (widest : Nat) (l : Lexer) : Nat :=
    if indent = 0 then max 1 (max widest (l.indent + 1).toNat) else indent

/-- A block scalar that is being read. -/
structure Block where
  value : Bytes := []
  /-- The line break after the last line. -/
  lead : Bytes := []
  /-- The empty lines after it. -/
  breaks : Bytes := []
  /-- Whether the last line starts with a blank. -/
  blank : Bool := false

/-- Read the lines of a block scalar. -/
def blockLines (literal : Bool) (start : Mark) (indent : Nat) :
    Nat → Block → Lexer → Except Error (Block × Lexer)
  | 0, b, l => .ok (b, l)
  | fuel + 1, b, l =>
    if l.mark.column ≠ indent ∨ l.rest.isEmpty then .ok (b, l)
    else do
      let blank := l.rest.head?.any isBlank
      let folds := !literal && !b.blank && !blank && b.lead.head? = some 10
      let joint := if !folds then b.lead else if b.breaks = [] then [32] else []
      let line := spell (l.rest.takeWhile (!isBreak ·))
      let value := b.value ++ joint ++ b.breaks ++ line
      let l ← l.skipToBreak
      l.need 2
      let (lead, l) :=
        match l.rest.head? with
        | some c => (breakText c, l.skipLine)
        | none => ([], l)
      let (_, breaks, l) ← blockBreaks start indent (l.rest.length + 1) 0 [] l
      blockLines literal start indent fuel { value, lead, breaks, blank } l

/-- Read a block scalar. -/
def blockScalar (literal : Bool) (l : Lexer) : Except Error (Bytes × Lexer) := do
  let start := l.mark
  let (chomp, count, l) ← l.skip.blockHeader start
  let indent := if count = 0 then 0 else (max l.indent 0).toNat + count
  let (indent, breaks, l) ← blockBreaks start indent (l.rest.length + 1) 0 [] l
  let (b, l) ← blockLines literal start indent (l.rest.length + 1) { breaks } l
  let ending :=
    match chomp with
    | .strip => []
    | .clip => b.lead
    | .keep => b.lead ++ b.breaks
  .ok (b.value ++ ending, l)

end Lexer

end Stackling.Yaml
