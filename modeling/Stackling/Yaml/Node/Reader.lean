import Stackling.Yaml.Lexer.Next
import Stackling.Yaml.Node

/-!
# Reading YAML documents

The tree of the first document of a text, read from its tokens. Whatever follows
the document is not read, except for the tokens that were read ahead.
-/

namespace Stackling.Yaml

/-- What is known while a document is read. -/
structure Reading where
  lexer : Lexer
  /-- What the handles of tags stand for. -/
  handles : List (Bytes × Bytes) := []
  /-- The numbers of the names, the latest first. -/
  names : List (Bytes × Nat) := []
  /-- The nodes with names that were read. -/
  named : List (Nat × Node) := []
  /-- How many names were given. -/
  count : Nat := 0

/-- Reading with errors. -/
abbrev Read := StateT Reading (Except Error)

namespace Read

/-- The next token. -/
def peek : Read Token := do
  let r ← get
  let (token, lexer) ← r.lexer.peek
  set { r with lexer }
  return token

/-- Take the next token. -/
def take : Read Unit := modify fun r => { r with lexer := r.lexer.take }

/-- A problem with a token, in a part that starts at the given place. -/
def fail {α : Type} (problem : Problem) (context : Mark) (token : Token) : Read α :=
  throw { problem, context := context.line, line := token.start.line }

/-- A problem with a token of the directives or the start of a document. -/
def failAt {α : Type} (problem : Problem) (token : Token) : Read α := fail problem {} token

/-- A scalar that is not written, where a token stands. -/
def absent (token : Token) : Node := .absent (token.start.line + 1)

/-! ## Properties -/

/-- The anchor and the tag of a node, as they are written. -/
structure Properties where
  start : Mark
  anchor : Option Bytes := none
  tag : Option (Bytes × Bytes × Token) := none

/-- Read an anchor, if one stands here. -/
def anchor (p : Properties) : Read Properties := do
  match (← peek).kind with
  | .anchor name =>
    take
    return { p with anchor := some name }
  | _ => return p

/-- Read a tag, if one stands here. -/
def tag (p : Properties) : Read Properties := do
  let token ← peek
  match token.kind with
  | .tag handle suffix =>
    take
    return { p with tag := some (handle, suffix, token) }
  | _ => return p

/-- Read the anchor and the tag of a node, in either order. -/
def properties : Read Properties := do
  let token ← peek
  let p : Properties := { start := token.start }
  match token.kind with
  | .anchor _ => anchor p >>= tag
  | .tag _ _ => tag p >>= anchor
  | _ => return p

/-- The tag that is meant by a handle and a suffix. -/
def Properties.fullTag (p : Properties) : Read (Option Bytes) := do
  match p.tag with
  | none => return none
  | some ([], suffix, _) => return some suffix
  | some (handle, suffix, token) =>
    match (← get).handles.lookup handle with
    | some stem => return some (stem ++ suffix)
    | none => fail .tagHandle p.start token

/-- Give the next number to a name. -/
def number (name : Bytes) : Read Nat := do
  let r ← get
  set { r with names := (name, r.count) :: r.names, count := r.count + 1 }
  return r.count

/-- Keep a node that has a name. -/
def keep (number : Option Nat) (node : Node) : Read Node := do
  match number with
  | some number => modify fun r => { r with named := (number, node) :: r.named }
  | none => pure ()
  return node

/-- The node that an alias stands for. -/
def aliasNode (token : Token) (name : Bytes) : Read Node := do
  match (← get).names.lookup name with
  | some number => return .reference (token.start.line + 1) token.start.index name number
  | none => throw { problem := .unknownAnchor name }

/-! ## Nodes -/

mutual

/-- Read a node. Block collections may start here if `block` is set, and a block
sequence in the column of the mapping around it if `sameColumn` is set. -/
def node : Nat → Bool → Bool → Read Node
  | 0, _, _ => do fail .expectContent {} (← peek)
  | depth + 1, block, sameColumn => do
    let token ← peek
    match token.kind with
    | .reference name =>
      take
      aliasNode token name
    | _ =>
      let p ← properties
      let token ← peek
      let full ← p.fullTag
      let tag := (full.filter (· ≠ [33])).map shortTag
      let line := p.start.line + 1
      let id ← p.anchor.mapM number
      match token.kind with
      | .scalar plain text =>
        take
        keep id (.scalar line tag plain text)
      | .openBracket =>
        take
        keep id (.sequence line tag (← bracketItems depth token.start true []))
      | .openBrace =>
        take
        keep id (.mapping line tag (← braceEntries depth token.start true []))
      | kind =>
        if sameColumn && kind = .blockEntry then
          keep id (.sequence line tag (← sameColumnItems depth []))
        else if block && kind = .blockSequence then do
          take
          keep id (.sequence line tag (← blockItems depth token.start []))
        else if block && kind = .blockMapping then do
          take
          keep id (.mapping line tag (← blockEntries depth token.start []))
        else if p.anchor.isSome || full.isSome then
          keep id (.scalar line tag true [])
        else fail .expectContent p.start token

/-- Read the rest of a block sequence. -/
def blockItems : Nat → Mark → List Node → Read (List Node)
  | 0, start, _ => do fail .expectEntry start (← peek)
  | depth + 1, start, items => do
    let token ← peek
    match token.kind with
    | .blockEntry =>
      take
      let item ←
        match (← peek).kind with
        | .blockEntry | .blockEnd => pure (absent token)
        | _ => node depth true false
      blockItems depth start (item :: items)
    | .blockEnd =>
      take
      return items.reverse
    | _ => fail .expectEntry start token

/-- Read the rest of a block sequence in the column of the mapping around it. -/
def sameColumnItems : Nat → List Node → Read (List Node)
  | 0, _ => do fail .expectEntry {} (← peek)
  | depth + 1, items => do
    let token ← peek
    match token.kind with
    | .blockEntry =>
      take
      let item ←
        match (← peek).kind with
        | .blockEntry | .key | .value | .blockEnd => pure (absent token)
        | _ => node depth true false
      sameColumnItems depth (item :: items)
    | _ => return items.reverse

/-- Read what a sign of a block mapping stands before. -/
def blockPart : Nat → Token → Read Node
  | 0, token => fail .expectKey {} token
  | depth + 1, token => do
    match (← peek).kind with
    | .key | .value | .blockEnd => return absent token
    | _ => node depth true true

/-- Read the rest of a block mapping. -/
def blockEntries : Nat → Mark → List (Node × Node) → Read (List (Node × Node))
  | 0, start, _ => do fail .expectKey start (← peek)
  | depth + 1, start, entries => do
    let token ← peek
    match token.kind with
    | .key =>
      take
      let key ← blockPart depth token
      let token ← peek
      let value ←
        if token.kind = .value then do
          take
          blockPart depth token
        else pure (absent token)
      blockEntries depth start ((key, value) :: entries)
    | .blockEnd =>
      take
      return entries.reverse
    | _ => fail .expectKey start token

/-- Read the value of a single entry in brackets. -/
def bracketValue : Nat → Read Node
  | 0 => do fail .expectContent {} (← peek)
  | depth + 1 => do
    let token ← peek
    if token.kind = .value then do
      take
      match (← peek).kind with
      | .comma | .closeBracket => return absent token
      | _ => node depth false false
    else return absent token

/-- Read the rest of a sequence in brackets. A key in it starts a mapping of one
entry. -/
def bracketItems : Nat → Mark → Bool → List Node → Read (List Node)
  | 0, start, _, _ => do fail .expectCommaBracket start (← peek)
  | depth + 1, start, first, items => do
    let token ← peek
    if token.kind ≠ .closeBracket ∧ !first ∧ token.kind ≠ .comma then
      fail .expectCommaBracket start token
    else do
      if token.kind = .comma ∧ !first then take
      let token ← peek
      match token.kind with
      | .closeBracket =>
        take
        return items.reverse
      | .key =>
        take
        let after ← peek
        let key ←
          match after.kind with
          | .value | .comma | .closeBracket => do
            take
            pure (absent after)
          | _ => node depth false false
        let value ← bracketValue depth
        let item := .mapping (token.start.line + 1) none [(key, value)]
        bracketItems depth start false (item :: items)
      | _ =>
        let item ← node depth false false
        bracketItems depth start false (item :: items)

/-- Read the value of an entry in braces. -/
def braceValue : Nat → Read Node
  | 0 => do fail .expectContent {} (← peek)
  | depth + 1 => do
    let token ← peek
    if token.kind = .value then do
      take
      let token ← peek
      match token.kind with
      | .comma | .closeBrace => return absent token
      | _ => node depth false false
    else return absent token

/-- Read the rest of a mapping in braces. An entry without a key sign has no
value. -/
def braceEntries : Nat → Mark → Bool → List (Node × Node) → Read (List (Node × Node))
  | 0, start, _, _ => do fail .expectCommaBrace start (← peek)
  | depth + 1, start, first, entries => do
    let token ← peek
    if token.kind ≠ .closeBrace ∧ !first ∧ token.kind ≠ .comma then
      fail .expectCommaBrace start token
    else do
      if token.kind = .comma ∧ !first then take
      let token ← peek
      match token.kind with
      | .closeBrace =>
        take
        return entries.reverse
      | .key =>
        take
        let after ← peek
        let key ←
          match after.kind with
          | .value | .comma | .closeBrace => pure (absent after)
          | _ => node depth false false
        let value ← braceValue depth
        braceEntries depth start false ((key, value) :: entries)
      | _ =>
        let key ← node depth false false
        let value := absent (← peek)
        braceEntries depth start false ((key, value) :: entries)

end

/-! ## Documents -/

/-- Note what a handle stands for. -/
def defineHandle (handle stem : Bytes) (token : Token) : Read Unit := do
  let r ← get
  if (r.handles.lookup handle).isSome then failAt .secondHandle token
  else set { r with handles := r.handles ++ [(handle, stem)] }

/-- Read the directives before a document. -/
def directives : Nat → Bool → Read Unit
  | 0, _ => pure ()
  | fuel + 1, versioned => do
    let token ← peek
    match token.kind with
    | .versionDirective major minor =>
      if versioned then failAt .secondVersion token
      else if major ≠ 1 ∨ minor ≠ 1 then failAt .otherVersion token
      else do
        take
        directives fuel true
    | .tagDirective handle stem =>
      defineHandle handle stem token
      take
      directives fuel versioned
    | _ =>
      modify fun r => { r with handles := r.handles ++ [([33], [33]), ([33, 33], tagStem)] }

/-- Read a document whose first token is given. -/
def documentFrom (depth : Nat) (token : Token) : Read Node := do
  directives depth false
  match token.kind with
  | .versionDirective _ _ | .tagDirective _ _ | .documentStart =>
    let token ← peek
    if token.kind ≠ .documentStart then failAt .documentStart token
    else do
      take
      let token ← peek
      match token.kind with
      | .versionDirective _ _ | .tagDirective _ _ | .documentStart | .documentEnd | .streamEnd =>
        return absent token
      | _ => node depth true false
  | _ => node depth true false

/-- Read the first document; none if there is no document at all. -/
def document (depth : Nat) : Read (Option Document) := do
  let token ← peek
  if token.kind = .streamEnd then return none
  else do
    let root ← documentFrom depth token
    let _ ← peek
    return some { root, named := (← get).named, depth }

end Read

/-- Read the first document of a text; none if there is no document at all. -/
def read (source : Source) : Except Error (Option Document) :=
  let depth := 4 * source.chars.length + 16
  ((Read.document depth).run { lexer := .ofSource source }).map (·.1)

end Stackling.Yaml
