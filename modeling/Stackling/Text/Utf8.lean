import Stackling.Bytes

/-!
# UTF-8

A byte string is read as a list of *runes*: well formed spellings of Unicode
scalar values, and stray bytes that belong to no such spelling. Only shortest
spellings count, and surrogates have none, so each scalar value is spelled in
one way. A stray byte is a rune of its own, so no byte is ever lost.
-/

namespace Stackling.Utf8

/-- One element of a byte string read as UTF-8. -/
inductive Rune where
  /-- A scalar value and the bytes that spell it. -/
  | scalar (code : Nat) (spelling : Bytes)
  /-- A byte that is part of no well formed spelling. -/
  | stray (byte : UInt8)
  deriving DecidableEq, Repr

namespace Rune

/-- The bytes a rune was read from. -/
def bytes : Rune → Bytes
  | scalar _ spelling => spelling
  | stray b => [b]

/-- The replacement character, which stands for a stray byte. -/
def replacement : Nat := 0xFFFD

/-- The scalar value of a rune; a stray byte counts as the replacement
character. -/
def code : Rune → Nat
  | scalar c _ => c
  | stray _ => replacement

end Rune

/-- A byte that continues a spelling. -/
def isContinuation (b : UInt8) : Bool := 0x80 ≤ b && b ≤ 0xBF

/-- The least and the greatest second byte that may follow the lead byte of a
spelling of three or four bytes. The limits rule out long spellings, surrogates
and values above U+10FFFF. -/
def secondRange (lead : UInt8) : UInt8 × UInt8 :=
  if lead == 0xE0 then (0xA0, 0xBF)
  else if lead == 0xED then (0x80, 0x9F)
  else if lead == 0xF0 then (0x90, 0xBF)
  else if lead == 0xF4 then (0x80, 0x8F)
  else (0x80, 0xBF)

/-- Whether `b` may follow `lead` in a spelling of three or four bytes. -/
def isSecond (lead b : UInt8) : Bool :=
  (secondRange lead).1 ≤ b && b ≤ (secondRange lead).2

/-- The low six bits of a continuation byte. -/
def payload (b : UInt8) : Nat := b.toNat % 64

/-- The rune that starts with byte `a`, when the bytes `s` follow it. -/
def first (a : UInt8) (s : Bytes) : Rune :=
  if a < 0x80 then .scalar a.toNat [a]
  else
    match s with
    | b :: c :: d :: _ =>
      if 0xC2 ≤ a && a ≤ 0xDF && isContinuation b then two a b
      else if 0xE0 ≤ a && a ≤ 0xEF && isSecond a b && isContinuation c then three a b c
      else if 0xF0 ≤ a && a ≤ 0xF4 && isSecond a b && isContinuation c && isContinuation d then
        .scalar (a.toNat % 8 * 262144 + payload b * 4096 + payload c * 64 + payload d) [a, b, c, d]
      else .stray a
    | [b, c] =>
      if 0xC2 ≤ a && a ≤ 0xDF && isContinuation b then two a b
      else if 0xE0 ≤ a && a ≤ 0xEF && isSecond a b && isContinuation c then three a b c
      else .stray a
    | [b] => if 0xC2 ≤ a && a ≤ 0xDF && isContinuation b then two a b else .stray a
    | [] => .stray a
where
  /-- The rune that two bytes spell. -/
  two (a b : UInt8) : Rune := .scalar (a.toNat % 32 * 64 + payload b) [a, b]
  /-- The rune that three bytes spell. -/
  three (a b c : UInt8) : Rune :=
    .scalar (a.toNat % 16 * 4096 + payload b * 64 + payload c) [a, b, c]

/-- Read the runes of a byte string after passing over `skip` bytes. -/
def runesFrom : Nat → Bytes → List Rune
  | _, [] => []
  | skip + 1, _ :: s => runesFrom skip s
  | 0, a :: s => first a s :: runesFrom ((first a s).bytes.length - 1) s

/-- Read a byte string as runes. -/
def runes (s : Bytes) : List Rune := runesFrom 0 s

/-- The UTF-8 spelling of a scalar value. -/
def encode (code : Nat) : Bytes :=
  if code < 0x80 then [UInt8.ofNat code]
  else if code < 0x800 then
    [UInt8.ofNat (0xC0 + code / 64), UInt8.ofNat (0x80 + code % 64)]
  else if code < 0x10000 then
    [UInt8.ofNat (0xE0 + code / 4096), UInt8.ofNat (0x80 + code / 64 % 64),
      UInt8.ofNat (0x80 + code % 64)]
  else
    [UInt8.ofNat (0xF0 + code / 262144), UInt8.ofNat (0x80 + code / 4096 % 64),
      UInt8.ofNat (0x80 + code / 64 % 64), UInt8.ofNat (0x80 + code % 64)]

/-- A number that is a Unicode scalar value. -/
def isScalar (code : Nat) : Bool :=
  code < 0xD800 || (0xE000 ≤ code && code ≤ 0x10FFFF)

/-- The bytes that write a rune as valid UTF-8: its own spelling, or the
replacement character for a stray byte. -/
def Rune.valid : Rune → Bytes
  | .scalar _ spelling => spelling
  | .stray _ => encode Rune.replacement

/-- A rune is spelled by the bytes that it was read from. -/
theorem bytes_first (a : UInt8) (s : Bytes) :
    (first a s).bytes = a :: s.take ((first a s).bytes.length - 1) := by
  unfold first
  repeat' split
  all_goals simp [Rune.bytes, first.two, first.three]

private theorem flatMap_bytes_runesFrom (skip : Nat) (s : Bytes) :
    (runesFrom skip s).flatMap Rune.bytes = s.drop skip := by
  fun_induction runesFrom skip s with
  | case1 => simp
  | case2 skip b s ih => simpa using ih
  | case3 a s ih =>
    rw [List.flatMap_cons, ih]
    conv => lhs; lhs; rw [bytes_first a s]
    simp

/-- Every byte of the string is in exactly one rune. -/
theorem flatMap_bytes_runes (s : Bytes) : (runes s).flatMap Rune.bytes = s := by
  simpa [runes] using flatMap_bytes_runesFrom 0 s

end Stackling.Utf8
