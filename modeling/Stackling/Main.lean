import Stackling.Command.Compiler
import Stackling.Command.Runner

/-!
# The command line

The two commands on the files of the operating system. The first argument
chooses the command, the others are its own.
-/

namespace Stackling

/-- The text of a path, if it can be written as one. -/
def pathText (path : Bytes) : IO String :=
  match String.fromUTF8? (ByteArray.mk path.toArray) with
  | some text => pure text
  | none => throw (IO.userError "not UTF-8")

/-- Why the operating system refused something. -/
def fileCause : IO.Error → FileCause
  | .noFileOrDirectory .. => .missing
  | .alreadyExists .. => .taken
  | .inappropriateType .. => .notDirectory
  | .resourceExhausted .. => .full
  | e => .other e.toString.toUTF8.toList

/-- Run an operation on a file and keep its failure. -/
def attempt {α : Type} (failure : FileCause → FileError) (operation : IO α) :
    IO (Except FileError α) := do
  try return .ok (← operation)
  catch e => return .error (failure (fileCause e))

/-- Whether a path leads to a directory. -/
def isDirectory (path : String) : IO Bool := do
  try (← IO.FS.realPath path).isDir
  catch _ => return false

/-- Create a file with a new name, after at most the given number of attempts. -/
def createFresh (dir : Bytes) : Nat → IO Bytes
  | 0 => throw (IO.userError "no new name found")
  | attempts + 1 => do
    let name := tempStart ++ Decimal.ofNat (← IO.rand 0 4294967295)
    let path := inDirectory dir name
    try
      discard (IO.FS.Handle.mk (← pathText path) .writeNew)
      return path
    catch e =>
      if fileCause e = .taken then createFresh dir attempts else throw e

instance : MonadFiles IO where
  openFile path := do
    let text ← attempt (.onOpen path) (pathText path)
    match text with
    | .error e => return .error e
    | .ok text =>
      if ← isDirectory text then return .ok (.failing (directoryFailure path))
      else attempt (.onOpen path) do return .ofBytes (← IO.FS.readBinFile text).toList
  createTemp dir :=
    attempt (.onOpen (inDirectory dir (tempStart ++ ascii "*"))) (createFresh dir 10000)
  appendFile path piece :=
    attempt (.onWrite path) do
      let handle ← IO.FS.Handle.mk (← pathText path) .append
      handle.write (ByteArray.mk piece.toArray)
      handle.flush
  -- a file is open only while a piece is written to it
  closeFile _ := return .ok ()
  renameFile old new :=
    attempt (.onRename old new) do
      let target ← pathText new
      if ← isDirectory target then
        throw (IO.Error.alreadyExists (some target) 17 "File exists")
      IO.FS.rename (← pathText old) target
  removeFile path := attempt (.onRemove path) do IO.FS.removeFile (← pathText path)

/-- Write bytes to a stream. -/
def emit (stream : IO.FS.Stream) (bytes : Bytes) : IO Unit := do
  stream.write (ByteArray.mk bytes.toArray)
  stream.flush

/-- Let a run come to its end, and write what it prints as it goes; so many
bytes have been written already. -/
partial def follow (job : Runner.Job) (frame : Frame) (stdout : IO.FS.Stream) (written : Nat)
    (status : Status) : IO (Outcome × State) := do
  match Machine.advance job.program frame job.limits 4096 status with
  | .stopped outcome s =>
    emit stdout (s.output.content.extract written).toList
    return (outcome, s)
  | .running s =>
    emit stdout (s.output.content.extract written).toList
    follow job frame stdout s.output.content.size (.running s)

/-- Read a stream to its end. -/
partial def readAll (stream : IO.FS.Stream) (acc : ByteArray) : IO ByteArray := do
  let part ← stream.read 65536
  if part.isEmpty then return acc else readAll stream (acc ++ part)

/-- The compiler command. -/
def compilerMain (args : List Bytes) : IO UInt32 := do
  let result ← Compiler.command (m := IO) args
  emit (← IO.getStdout) result.stdout
  emit (← IO.getStderr) result.stderr
  return UInt32.ofNat result.exit

/-- The machine command. -/
def runnerMain (args : List Bytes) : IO UInt32 := do
  match ← Runner.prepare (m := IO) args with
  | .error result =>
    emit (← IO.getStdout) result.stdout
    emit (← IO.getStderr) result.stderr
    return UInt32.ofNat result.exit
  | .ok job =>
    let stdout ← IO.getStdout
    emit stdout job.listing
    let input := Input.ofBytes (← readAll (← IO.getStdin) ByteArray.empty).toList
    let (outcome, s) ←
      match job.start input with
      | .error outcome => pure (outcome, {})
      | .ok (frame, s) => follow job frame stdout 0 (.running s)
    let result := job.conclude outcome s
    emit (← IO.getStderr) result.stderr
    return UInt32.ofNat result.exit

end Stackling

/-- Run the command that the first argument names. -/
def main (args : List String) : IO UInt32 := do
  let rest := args.tail.map fun a => a.toUTF8.toList
  match args.head? with
  | some "kcc" => Stackling.compilerMain rest
  | some "kvm" => Stackling.runnerMain rest
  | _ =>
    IO.eprintln "usage: (kcc | kvm) [flags] <file>"
    return 2
