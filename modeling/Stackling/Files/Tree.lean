import Stackling.Files
import Stackling.Path

/-!
# File trees

Files and directories as a value: everything below one directory, in which
commands are run. Paths that leave this directory lead nowhere. There may be a
limit to the length of files.
-/

namespace Stackling

/-- The steps from the top of a tree to a place in it. -/
abbrev Place := List Bytes

/-- What stands at a place. -/
inductive Entry where
  | file (content : Bytes)
  | directory
  deriving DecidableEq, Repr

/-- A tree of files. -/
structure FileTree where
  /-- Everything in the tree but its top, of which only the first entry for a
  place counts. -/
  entries : List (Place × Entry) := []
  /-- The greatest length that a file can be written to, if there is one. -/
  room : Option Nat := none
  deriving DecidableEq, Repr

namespace FileTree

/-- What stands at a place. -/
def get? (t : FileTree) (place : Place) : Option Entry :=
  if place = [] then some .directory else t.entries.lookup place

/-- The tree with an entry put at a place. -/
def put (t : FileTree) (place : Place) (e : Entry) : FileTree :=
  { t with entries := (place, e) :: t.entries.filter fun entry => entry.1 ≠ place }

/-- The tree without what stands at a place. -/
def erase (t : FileTree) (place : Place) : FileTree :=
  { t with entries := t.entries.filter fun entry => entry.1 ≠ place }

/-- The tree with a directory at a place that has nothing yet. -/
def ensureDirectory (t : FileTree) (place : Place) : FileTree :=
  if (t.get? place).isSome then t else t.put place .directory

/-- The tree with an entry put at a place and directories on the way to it. -/
def add (t : FileTree) (place : Place) (e : Entry) : FileTree :=
  ((List.range place.length).foldl (fun t n => t.ensureDirectory (place.take n)) t).put place e

/-- Go along the parts of a path, each of which has to lie in a directory. -/
def walk (t : FileTree) (place : Place) : List Bytes → Except FileCause Place
  | [] => .ok place
  | part :: parts =>
    match t.get? place with
    | none => .error .missing
    | some (.file _) => .error .notDirectory
    | some .directory =>
      if part = [] ∨ part = ascii "." then t.walk place parts
      else if part = ascii ".." then
        if place = [] then .error .missing else t.walk place.dropLast parts
      else t.walk (place ++ [part]) parts

/-- The place that a path leads to. -/
def locate (t : FileTree) (path : Bytes) : Except FileCause Place :=
  if path = [] ∨ path.head? = some Path.slash then .error .missing
  else t.walk [] (Path.parts path)

/-- Open a file for reading. -/
def openFile (t : FileTree) (path : Bytes) : Except FileError Input :=
  match t.locate path with
  | .error cause => .error (.onOpen path cause)
  | .ok place =>
    match t.get? place with
    | none => .error (.onOpen path .missing)
    | some .directory => .ok (.failing (directoryFailure path))
    | some (.file content) => .ok (.ofBytes content)

/-- The length of the longest name in a tree. -/
def longest (t : FileTree) : Nat :=
  t.entries.foldl (fun n e => max n (e.1.foldl (fun n part => max n part.length) 0)) 0

/-- A name for a temporary file that is not in use in a directory. -/
def tempName (t : FileTree) (dir : Place) : Bytes :=
  let short := tempStart ++ ascii "*"
  if (t.get? (dir ++ [short])).isNone then short
  else tempStart ++ List.replicate (t.longest + 1) 42

/-- Create an empty file with a new name in a directory. -/
def createTemp (t : FileTree) (dir : Bytes) : Except FileError Bytes × FileTree :=
  let path := inDirectory dir (tempStart ++ ascii "*")
  match t.locate dir with
  | .error cause => (.error (.onOpen path cause), t)
  | .ok place =>
    match t.get? place with
    | none => (.error (.onOpen path .missing), t)
    | some (.file _) => (.error (.onOpen path .notDirectory), t)
    | some .directory =>
      let name := t.tempName place
      (.ok (inDirectory dir name), t.put (place ++ [name]) (.file []))

/-- Whether a file of the given length can be written. -/
def hasRoom (t : FileTree) (length : Nat) : Bool :=
  match t.room with
  | none => true
  | some room => length ≤ room

/-- Write a piece to the end of a file. -/
def appendFile (t : FileTree) (path piece : Bytes) : Except FileError Unit × FileTree :=
  match t.locate path with
  | .error cause => (.error (.onWrite path cause), t)
  | .ok place =>
    match t.get? place with
    | none => (.error (.onWrite path .missing), t)
    | some .directory => (.error (.onWrite path .isDirectory), t)
    | some (.file content) =>
      if t.hasRoom (content.length + piece.length) then
        (.ok (), t.put place (.file (content ++ piece)))
      else (.error (.onWrite path .full), t)

/-- Give a file another path. -/
def renameFile (t : FileTree) (old new : Bytes) : Except FileError Unit × FileTree :=
  match t.locate old, t.locate new with
  | .ok source, .ok target =>
    match t.get? target, t.get? source with
    | some .directory, _ => (.error (.onRename old new .taken), t)
    | _, some (.file content) => (.ok (), (t.erase source).put target (.file content))
    | _, _ => (.error (.onRename old new .missing), t)
  | .error cause, _ | _, .error cause => (.error (.onRename old new cause), t)

/-- Remove a file. -/
def removeFile (t : FileTree) (path : Bytes) : Except FileError Unit × FileTree :=
  match t.locate path with
  | .error cause => (.error (.onRemove path cause), t)
  | .ok place =>
    match t.get? place with
    | none => (.error (.onRemove path .missing), t)
    | some .directory => (.error (.onRemove path .isDirectory), t)
    | some (.file _) => (.ok (), t.erase place)

end FileTree

/-- Commands may work on a tree of files. -/
instance : MonadFiles (StateM FileTree) where
  openFile path := fun t => (t.openFile path, t)
  createTemp dir := fun t => t.createTemp dir
  appendFile path piece := fun t => t.appendFile path piece
  closeFile _ := fun t => (.ok (), t)
  renameFile old new := fun t => t.renameFile old new
  removeFile path := fun t => t.removeFile path

end Stackling
