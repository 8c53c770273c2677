import Stackling.Text.LetterCase

/-!
# Paths

Paths of files as texts: their parts are separated by slashes. Nothing here
looks at any file.
-/

namespace Stackling.Path

/-- The byte between the parts of a path. -/
def slash : UInt8 := 47

/-- The parts of a path between its slashes; they may be empty. -/
def parts (path : Bytes) : List Bytes :=
  path.foldr
    (fun b acc =>
      if b = slash then [] :: acc
      else
        match acc with
        | [] => [[b]]
        | part :: parts => (b :: part) :: parts)
    [[]]

/-- The last dot of the last part and what follows it. -/
def ext (path : Bytes) : Bytes :=
  let name := ((parts path).getLast?).getD []
  if name.contains 46 then 46 :: (name.reverse.takeWhile (· ≠ 46)).reverse else []

/-- Go one step along a path, of which the steps so far are kept, the last one
first. A step up takes back the last step, if that is not a step up itself; at
the root it goes nowhere. -/
def step (rooted : Bool) (done : List Bytes) (part : Bytes) : List Bytes :=
  if part = [] ∨ part = ascii "." then done
  else if part = ascii ".." then
    match done with
    | last :: before => if last = ascii ".." then part :: done else before
    | [] => if rooted then [] else [part]
  else part :: done

/-- The shortest path with the same meaning. -/
def clean (path : Bytes) : Bytes :=
  let rooted := path.head? = some slash
  let steps := ((parts path).foldl (step rooted) []).reverse
  let joined := (steps.intersperse [slash]).flatten
  if rooted then slash :: joined else if joined = [] then ascii "." else joined

/-- The directory of a path. -/
def dir (path : Bytes) : Bytes :=
  clean (path.reverse.dropWhile (· ≠ slash)).reverse

/-- A name in a directory. -/
def join (dir name : Bytes) : Bytes := clean (dir ++ slash :: name)

/-- Whether a path has one of the suffixes of program texts, in any letter
case. -/
def isSource (path : Bytes) : Bool :=
  let suffix := LetterCase.lower (ext path)
  suffix = ascii ".kc" || suffix = ascii ".kcc"

/-- Whether a path has the suffix of text assembly, in any letter case. -/
def isAssembly (path : Bytes) : Bool := LetterCase.lower (ext path) = ascii ".kca"

end Stackling.Path
