import Stackling.Settings
import Stackling.Yaml.Node.Reader

/-!
# Laying a file over settings

A file is laid over the settings that there are: it changes what it mentions, as
far as it can be understood, and all that cannot be understood is reported
together. Some problems end the work at once; what was changed before stays
changed.

An entry with the merge sign takes over the entries of other mappings. It comes
after all other entries, and what was mentioned before is not taken over.
-/

namespace Stackling

open Yaml (Node Document)

/-- The state of laying a file over settings. -/
structure Overlay where
  settings : Settings
  /-- What could not be understood, the last first. -/
  issues : List SettingIssue := []
  /-- While entries are taken over, the names that were mentioned before. -/
  mentioned : Option (List Bytes) := none
  /-- Where the aliases stand that are being followed, the innermost first. -/
  aliases : List Nat := []
  /-- How many nodes were visited. -/
  visits : Nat := 0
  /-- How many of them were reached through aliases. -/
  aliasVisits : Nat := 0

/-- Laying a file over settings; errors end it and keep the state. -/
abbrev Laying := ExceptT SettingsError (StateM Overlay)

namespace Overlay

/-- Whether too many nodes are reached through aliases: in all but small files
there must be one in a hundred that is not, and more in huge ones. -/
def isExcessive (o : Overlay) : Bool :=
  let share :=
    if o.visits ≤ 400000 then 99 * 3600000
    else if 4000000 ≤ o.visits then 10 * 3600000
    else 99 * 3600000 - 89 * (o.visits - 400000)
  100 < o.aliasVisits && 1000 < o.visits && o.visits * share < o.aliasVisits * 360000000

/-- The words for yes, besides those that every document has. -/
def yesWords : List Bytes :=
  [ascii "y", ascii "Y", ascii "yes", ascii "Yes", ascii "YES", ascii "on", ascii "On", ascii "ON"]

/-- The words for no, besides those that every document has. -/
def noWords : List Bytes :=
  [ascii "n", ascii "N", ascii "no", ascii "No", ascii "NO", ascii "off", ascii "Off", ascii "OFF"]

/-- Any scalar may be taken for a text. -/
def asText (v : Yaml.Value) (text : Bytes) : Option Bytes :=
  match v with
  | .text content => some content
  | _ => some text

/-- A truth value. -/
def asBool (v : Yaml.Value) (_text : Bytes) : Option Bool :=
  match v with
  | .bool b => some b
  | .text content =>
    if yesWords.contains content then some true
    else if noWords.contains content then some false
    else none
  | _ => none

/-- An integer of 64 bits. -/
def asInt (v : Yaml.Value) (_text : Bytes) : Option Int :=
  match v with
  | .int n => if n < 0x8000000000000000 then some n else none
  | .float whole => whole
  | _ => none

/-- The pairs of equal keys of a mapping: the first line of a key, and each
later key that is equal to it. -/
def duplicates : List (Node × Node) → List SettingIssue
  | [] => []
  | (key, _) :: entries =>
    entries.filterMap (fun (other, _) => same key other) ++ duplicates entries
where
  /-- The issue of a later key that is equal to a key. Collections that are keys
  count as equal to collections of their kind, and aliases are equal if their
  names are. -/
  same (key other : Node) : Option SettingIssue :=
    match key, other with
    | .scalar first _ _ a, .scalar line _ _ b | .reference first _ a _, .reference line _ b _ =>
      if a = b then some (.duplicateKey line a first) else none
    | .sequence first _ _, .sequence line _ _ | .mapping first _ _, .mapping line _ _ =>
      some (.duplicateKey line [] first)
    | _, _ => none

/-- Whether a node is the merge sign. -/
def isMerge : Node → Bool
  | .scalar _ tag plain text =>
    text = Yaml.Scalar.mergeSign && Yaml.Scalar.tagOf tag plain text = Yaml.Scalar.mergeTag
  | _ => false

end Overlay

namespace Laying

/-- Report a part that cannot be understood. -/
def report (issue : SettingIssue) : Laying Unit :=
  modify fun o => { o with issues := issue :: o.issues }

/-- Count the visit of a node. -/
def visit : Laying Unit := do
  modify fun o =>
    { o with
      visits := o.visits + 1
      aliasVisits := o.aliasVisits + if o.aliases = [] then 0 else 1 }
  if (← get).isExcessive then throw .excessiveAliases

/-- Visit a node; of an alias, the node that it stands for. -/
def follow {α : Type} (d : Document) (node : Node) (act : Node → Laying α) : Laying α := do
  visit
  match node with
  | .reference _ index name _ =>
    if (← get).aliases.contains index then throw (.selfReference name)
    modify fun o => { o with aliases := index :: o.aliases }
    visit
    let a ← act (d.resolve node)
    modify fun o => { o with aliases := o.aliases.tail }
    return a
  | _ => act node

/-- What a scalar stands for. -/
def scalar (tag : Option Bytes) (plain : Bool) (text : Bytes) : Laying Yaml.Value :=
  match Yaml.Scalar.value tag plain text with
  | .ok v => return v
  | .error e => throw (.scalar e)

/-- Check that the keys of a mapping differ. -/
def distinct (entries : List (Node × Node)) : Laying Bool := do
  let issues := Overlay.duplicates entries
  issues.forM report
  return issues.isEmpty

/-- Read a value of the given type; none if there is none, or if it is of another
type. -/
def read {α : Type} (type : SettingType) (accept : Yaml.Value → Bytes → Option α) (node : Node) :
    Laying (Option α) := do
  match node with
  | .scalar line tag plain text =>
    let v ← scalar tag plain text
    if v = .null then return none
    match accept v text with
    | some a => return some a
    | none =>
      report (.mismatch line (Yaml.Scalar.tagOf tag plain text) text type)
      return none
  | .sequence line tag _ =>
    report (.mismatch line (tag.getD (ascii "!!seq")) [] type)
    return none
  | .mapping line tag entries =>
    if ← distinct entries then report (.mismatch line (tag.getD (ascii "!!map")) [] type)
    return none
  | .reference _ _ _ _ => return none

/-- Change settings by a value, if there is one. -/
def change {α : Type} (d : Document) (type : SettingType)
    (accept : Yaml.Value → Bytes → Option α) (set : Settings → α → Settings) (node : Node) :
    Laying Unit := do
  match ← follow d node (read type accept) with
  | some a => modify fun o => { o with settings := set o.settings a }
  | none => pure ()

/-- How the setting with a name is changed. -/
def setter? (d : Document) (name : Bytes) : Option (Node → Laying Unit) :=
  if name = ascii "output_dir" then
    some (change d .text Overlay.asText fun s a => { s with outputDir := a })
  else if name = ascii "emit_text" then
    some (change d .bool Overlay.asBool fun s a => { s with emitText := a })
  else if name = ascii "emit_listing" then
    some (change d .bool Overlay.asBool fun s a => { s with emitListing := a })
  else if name = ascii "emit_symbols" then
    some (change d .bool Overlay.asBool fun s a => { s with emitSymbols := a })
  else if name = ascii "log_level" then
    some (change d .text Overlay.asText fun s a => { s with logLevel := a })
  else if name = ascii "max_steps" then
    some (change d .int Overlay.asInt fun s a => { s with maxSteps := a })
  else none

/-- Whether a name may be laid over: while entries are taken over, each name only
once. -/
def mention (name : Bytes) : Laying Bool := do
  match (← get).mentioned with
  | none => return true
  | some names =>
    if names.contains name then return false
    modify fun o => { o with mentioned := some (name :: names) }
    return true

/-- Lay the entries of a mapping over settings, except the merge entry; `done`
holds the names of the settings that the mapping has set. -/
def entries (d : Document) (done : List Bytes) : List (Node × Node) → Laying Unit
  | [] => pure ()
  | (key, value) :: rest => do
    if Overlay.isMerge key then entries d done rest
    else
      match ← follow d key (read .text Overlay.asText) with
      | none => entries d done rest
      | some name =>
        if !(← mention name) then entries d done rest
        else
          match setter? d name with
          | none =>
            report (.unknownField key.line name)
            entries d done rest
          | some set =>
            if done.contains name then
              report (.repeatedField key.line name)
              entries d done rest
            else
              set value
              entries d (name :: done) rest

/-- The keys of a mapping that are texts. -/
def textKeys (d : Document) (keys : List Node) : Laying (List Bytes) :=
  keys.filterMapM fun key =>
    follow d key fun node => do
      match node with
      | .scalar _ tag plain text =>
        match ← scalar tag plain text with
        | .text content => return some content
        | _ => return none
      | _ => return none

/-- The mappings whose entries are to be taken over. -/
def sources : Node → List Node
  | .sequence _ _ items => items
  | node => [node]

/-- Whether entries can be taken from a node. -/
def isSource (d : Document) (node : Node) : Bool :=
  match d.resolve node with
  | .mapping _ _ _ => true
  | _ => false

mutual

/-- Lay a node over settings. -/
def node (d : Document) : Nat → Node → Laying Unit
  | 0, _ => pure ()
  | fuel + 1, n =>
    follow d n fun n => do
      match n with
      | .mapping _ _ list =>
        if ← distinct list then
          entries d [] list
          match list.find? (Overlay.isMerge ·.1) with
          | none => pure ()
          | some (_, source) => takeOver d fuel (list.map (·.1)) source
      | other => let _ ← read (α := Unit) .all (fun _ _ => none) other

/-- Take over the entries of other mappings into one that has the given keys. -/
def takeOver (d : Document) : Nat → List Node → Node → Laying Unit
  | 0, _, _ => pure ()
  | fuel + 1, keys, source => do
    let outermost := (← get).mentioned.isNone
    if outermost then
      let names ← textKeys d keys
      modify fun o => { o with mentioned := some names }
    takeEach d fuel (sources source)
    if outermost then modify fun o => { o with mentioned := none }

/-- Take over the entries of each of several mappings. -/
def takeEach (d : Document) : Nat → List Node → Laying Unit
  | 0, _ => pure ()
  | _, [] => pure ()
  | fuel + 1, source :: rest => do
    if isSource d source then
      node d fuel source
      takeEach d fuel rest
    else throw .merge

end

end Laying

/-- Lay a file over settings. A file without a document is accepted as it is;
after any other file the settings as a whole are checked. -/
def Settings.overlay (s : Settings) (file : Input) : Settings × Option SettingsError :=
  match Yaml.read (.ofInput file) with
  | .error e => (s, some (.form e))
  | .ok none => (s, none)
  | .ok (some d) =>
    let work : Laying Unit := do
      Laying.visit
      Laying.node d d.depth d.root
    match work.run { settings := s } with
    | (.error e, o) => (o.settings, some e)
    | (.ok (), o) =>
      match o.issues with
      | [] => (o.settings, o.settings.problem?)
      | issues => (o.settings, some (.issues issues.reverse))

end Stackling
