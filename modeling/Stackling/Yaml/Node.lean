import Stackling.Bytes

/-!
# YAML documents

The tree of a document. A node may be given a name, and an alias of that name
stands for the same node in another place. Such nodes are numbered in the order
in which they start, and an alias holds the number of its node, which may even
be a node around it. Lines count from one.
-/

namespace Stackling.Yaml

/-- A node of a document. A tag is held if one is written; tags of the format
itself are held in their short form. -/
inductive Node where
  /-- A scalar; it is plain if it stands without quotes and is no block. -/
  | scalar (line : Nat) (tag : Option Bytes) (plain : Bool) (value : Bytes)
  | sequence (line : Nat) (tag : Option Bytes) (items : List Node)
  | mapping (line : Nat) (tag : Option Bytes) (entries : List (Node × Node))
  /-- An alias; it is told apart from others by where it stands. -/
  | reference (line index : Nat) (name : Bytes) (number : Nat)
  deriving Repr

namespace Node

/-- The line that a node starts on. -/
def line : Node → Nat
  | scalar l _ _ _ | sequence l _ _ | mapping l _ _ | reference l _ _ _ => l

/-- A scalar that is not written at all. -/
def absent (line : Nat) : Node := scalar line none true []

end Node

/-- A document. -/
structure Document where
  root : Node
  /-- The nodes that have a name. -/
  named : List (Nat × Node) := []
  /-- A bound on how deeply nodes are nested. -/
  depth : Nat := 0
  deriving Repr

/-- The node that a node stands for: aliases stand for another one. -/
def Document.resolve (d : Document) : Node → Node
  | .reference line _ _ number => (d.named.lookup number).getD (.absent line)
  | node => node

/-- The start of the tags that the format itself defines. -/
def tagStem : Bytes := ascii "tag:yaml.org,2002:"

/-- The short form of a tag. -/
def shortTag (tag : Bytes) : Bytes :=
  if tagStem.isPrefixOf tag then ascii "!!" ++ tag.drop tagStem.length else tag

end Stackling.Yaml
