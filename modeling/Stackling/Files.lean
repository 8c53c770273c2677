import Stackling.Input

/-!
# Files

What the commands need of files. The commands are written for any monad that
offers these operations.
-/

namespace Stackling

/-- Why a file operation fails. -/
inductive FileCause where
  | missing
  | notDirectory
  | isDirectory
  | taken
  /-- There is no room for what is to be written. -/
  | full
  /-- Any other cause, in words. -/
  | other (message : Bytes)
  deriving DecidableEq, Repr

/-- The words for a cause. -/
def FileCause.message : FileCause → Bytes
  | missing => ascii "no such file or directory"
  | notDirectory => ascii "not a directory"
  | isDirectory => ascii "is a directory"
  | taken => ascii "file exists"
  | full => ascii "no space left on device"
  | other message => message

/-- A failed file operation. -/
inductive FileError where
  /-- A file could not be opened. -/
  | onOpen (path : Bytes) (cause : FileCause)
  /-- A file could not be written. -/
  | onWrite (path : Bytes) (cause : FileCause)
  /-- A file that was written could not be closed. -/
  | onClose (path : Bytes) (cause : FileCause)
  /-- A file could not be renamed. -/
  | onRename (old new : Bytes) (cause : FileCause)
  /-- A file could not be removed. -/
  | onRemove (path : Bytes) (cause : FileCause)
  deriving DecidableEq, Repr

/-- The wording of an error. -/
def FileError.message : FileError → Bytes
  | onOpen path cause => ascii "open " ++ path ++ ascii ": " ++ cause.message
  | onWrite path cause => ascii "write " ++ path ++ ascii ": " ++ cause.message
  | onClose path cause => ascii "close " ++ path ++ ascii ": " ++ cause.message
  | onRename old new cause =>
    ascii "rename " ++ old ++ ascii " " ++ new ++ ascii ": " ++ cause.message
  | onRemove path cause => ascii "remove " ++ path ++ ascii ": " ++ cause.message

/-- The failure of an input that turns out to be a directory. -/
def directoryFailure (path : Bytes) : Bytes := ascii "read " ++ path ++ ascii ": is a directory"

/-- The start of the names of temporary files. -/
def tempStart : Bytes := ascii ".kcc-"

/-- The path of a name in a directory. -/
def inDirectory (dir name : Bytes) : Bytes :=
  if dir.getLast? = some 47 then dir ++ name else dir ++ 47 :: name

/-- A monad in which files can be read and written. Every operation may fail. -/
class MonadFiles (m : Type → Type) where
  /-- Open a file for reading. A directory can be opened, but not read. -/
  openFile (path : Bytes) : m (Except FileError Input)
  /-- Create an empty file with a new name in a directory, and give its path. The
  file is open for writing. -/
  createTemp (dir : Bytes) : m (Except FileError Bytes)
  /-- Write a piece to the end of a file that is open for writing. Of a piece that is
  refused, a part may be written. -/
  appendFile (path piece : Bytes) : m (Except FileError Unit)
  /-- Close a file that is open for writing. -/
  closeFile (path : Bytes) : m (Except FileError Unit)
  /-- Give a file another path. A file that has that path is replaced, but a
  directory is not. -/
  renameFile (old new : Bytes) : m (Except FileError Unit)
  /-- Remove a file. -/
  removeFile (path : Bytes) : m (Except FileError Unit)

end Stackling
