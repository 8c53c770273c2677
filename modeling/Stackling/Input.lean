import Stackling.Bytes

/-!
# Inputs

An input is what is left to read of a byte stream: the bytes still unread, and
how the stream ends after them. Most streams simply end; a stream may also
break off with a failure, which whoever reads past its last byte gets to see.
-/

namespace Stackling

/-- A byte stream that is being read. -/
structure Input where
  /-- The bytes that are still unread. -/
  unread : Bytes
  /-- The message of the failure that ends the stream, if it does not end well. -/
  failure : Option Bytes := none
  deriving DecidableEq, Repr

namespace Input

/-- A stream that holds the given bytes and then ends. -/
def ofBytes (bytes : Bytes) : Input := { unread := bytes }

/-- A stream without a single byte that fails with the given message. -/
def failing (message : Bytes) : Input := { unread := [], failure := some message }

/-- What a reader is told when it asks for more than there is. -/
def ending (input : Input) : Bytes := input.failure.getD (ascii "EOF")

/-- The lines of a stream as far as they can be read. Each line keeps its
newline. The last line may lack one; it can be read only if the stream ends
well, and is no line at all if it is empty. -/
def lines (input : Input) : List Bytes :=
  let (complete, last) := Bytes.splitLines input.unread
  if input.failure.isNone && !last.isEmpty then complete ++ [last] else complete

end Input

end Stackling
