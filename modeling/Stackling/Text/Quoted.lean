import Stackling.Text.Printable
import Stackling.Text.Utf8

/-!
# Quoted text

A text is written between double quotes so that it stays on one line of
printable characters: quotes and backslashes are escaped, control characters
and characters that are not printable are written as escapes, and a stray byte
is written by its value. Reading also takes escapes that writing never uses,
single characters between single quotes, and raw text between back quotes.
-/

namespace Stackling.Quoted

open Utf8 (Rune)

/-! ## Writing -/

/-- The hexadecimal digit of a number below sixteen. -/
def hexDigit (n : Nat) : UInt8 := UInt8.ofNat (if n < 10 then 48 + n else 87 + n)

/-- The lowest `digits` hexadecimal digits of a number. -/
def hex : Nat → Nat → Bytes
  | 0, _ => []
  | digits + 1, n => hex digits (n / 16) ++ [hexDigit (n % 16)]

/-- A character as it is written between double quotes. -/
def escape (code : Nat) (spelling : Bytes) : Bytes :=
  if code = 34 ∨ code = 92 then [92, UInt8.ofNat code]
  else if Printable.isPrintable code then spelling
  else
    match code with
    | 7 => ascii "\\a"
    | 8 => ascii "\\b"
    | 12 => ascii "\\f"
    | 10 => ascii "\\n"
    | 13 => ascii "\\r"
    | 9 => ascii "\\t"
    | 11 => ascii "\\v"
    | _ =>
      if code < 32 ∨ code = 127 then ascii "\\x" ++ hex 2 code
      else if code < 0x10000 then ascii "\\u" ++ hex 4 code
      else ascii "\\U" ++ hex 8 code

/-- A rune as it is written between double quotes. -/
def escapeRune : Rune → Bytes
  | .scalar code spelling => escape code spelling
  | .stray b => ascii "\\x" ++ hex 2 b.toNat

/-- The text between double quotes. -/
def quote (text : Bytes) : Bytes :=
  34 :: (Utf8.runes text).flatMap escapeRune ++ [34]

/-! ## Reading -/

/-- The value of a hexadecimal digit of either case. -/
def hexValue? (b : UInt8) : Option Nat :=
  if 48 ≤ b && b ≤ 57 then some (b.toNat - 48)
  else if 97 ≤ b && b ≤ 102 then some (b.toNat - 87)
  else if 65 ≤ b && b ≤ 70 then some (b.toNat - 55)
  else none

/-- The number that hexadecimal digits spell. -/
def hexNumber? (digits : Bytes) : Option Nat :=
  digits.foldl (fun acc d => acc.bind fun n => (hexValue? d).map (16 * n + ·)) (some 0)

/-- The number that octal digits spell. -/
def octalNumber? (digits : Bytes) : Option Nat :=
  digits.foldl
    (fun acc d => acc.bind fun n =>
      if 48 ≤ d && d ≤ 55 then some (8 * n + (d.toNat - 48)) else none)
    (some 0)

/-- The bytes of the character that a numeric escape names, when the escape has
as many digits as it needs and names a character. -/
def numericEscape? (digits : Bytes) (count : Nat) : Option Bytes :=
  if digits.length = count then
    (hexNumber? digits).bind fun code =>
      if Utf8.isScalar code then some (Utf8.encode code) else none
  else none

/-- Read the escape whose first letter after the backslash is `c` and which `s`
follows, inside quotes of the kind `mark`: the bytes that it stands for, and
how many bytes of `s` it takes. -/
def readEscape? (mark c : UInt8) (s : Bytes) : Option (Bytes × Nat) :=
  match c with
  | 97 => some ([7], 0)
  | 98 => some ([8], 0)
  | 102 => some ([12], 0)
  | 110 => some ([10], 0)
  | 114 => some ([13], 0)
  | 116 => some ([9], 0)
  | 118 => some ([11], 0)
  | 92 => some ([92], 0)
  | 120 =>
    if (s.take 2).length = 2 then (hexNumber? (s.take 2)).map fun n => ([UInt8.ofNat n], 2)
    else none
  | 117 => (numericEscape? (s.take 4) 4).map fun bytes => (bytes, 4)
  | 85 => (numericEscape? (s.take 8) 8).map fun bytes => (bytes, 8)
  | _ =>
    if 48 ≤ c && c ≤ 55 then
      if (s.take 2).length = 2 then
        (octalNumber? (c :: s.take 2)).bind fun n =>
          if n ≤ 255 then some ([UInt8.ofNat n], 2) else none
      else none
    else if c = mark ∧ (mark = 34 ∨ mark = 39) then some ([c], 0)
    else none

/-- Read the next character of quoted text that starts with `a` and goes on
with `s`, inside quotes of the kind `mark`: the bytes that it stands for, and
how many bytes of `s` it takes. A newline or a closing quote is no character. -/
def readChar? (mark a : UInt8) (s : Bytes) : Option (Bytes × Nat) :=
  if a = Bytes.newline ∨ a = mark then none
  else if a = 92 then
    match s with
    | [] => none
    | c :: rest => (readEscape? mark c rest).map fun r => (r.1, r.2 + 1)
  else
    let rune := Utf8.first a s
    some (rune.valid, rune.bytes.length - 1)

/-- Read quoted text up to its closing double quote, which must end the text,
after passing over `skip` bytes. -/
def readDouble? : Nat → Bytes → Option Bytes
  | _, [] => none
  | skip + 1, _ :: s => readDouble? skip s
  | 0, a :: s =>
    if a = 34 then if s = [] then some [] else none
    else
      match readChar? 34 a s with
      | none => none
      | some (bytes, used) => (readDouble? used s).map (bytes ++ ·)

/-- Read what follows an opening single quote: nothing, or one character, and
the closing quote. -/
def readSingle? : Bytes → Option Bytes
  | [] => none
  | a :: s =>
    if a = 39 ∧ s = [] then some []
    else
      match readChar? 39 a s with
      | none => none
      | some (bytes, used) => if s.drop used = [39] then some bytes else none

/-- Read what follows an opening back quote: text up to the next back quote,
which must end it. Carriage returns are dropped. -/
def readRaw? (s : Bytes) : Option Bytes :=
  if s.dropWhile (· != 96) = [96] then some ((s.takeWhile (· != 96)).filter (· != 13)) else none

/-- Read quoted text of any kind. -/
def unquote? : Bytes → Option Bytes
  | 34 :: s => readDouble? 0 s
  | 39 :: s => readSingle? s
  | 96 :: s => readRaw? s
  | _ => none

end Stackling.Quoted
