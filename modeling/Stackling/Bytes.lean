/-!
# Byte strings

Everything the toolchain reads, names or writes is a string of bytes: source
texts, identifiers, labels, constants and files need not be valid UTF-8, and
positions count bytes. `Bytes` is therefore a list of bytes, and text that the
toolchain itself writes is spelled with `ascii`.
-/

namespace Stackling

/-- A string of bytes. -/
abbrev Bytes := List UInt8

/-- The bytes of a text that is written in ASCII. -/
def ascii (text : String) : Bytes :=
  text.toList.map fun c => UInt8.ofNat c.toNat

namespace Bytes

/-! ## Byte classes -/

/-- A decimal digit. -/
def isDigit (b : UInt8) : Bool := 48 ≤ b && b ≤ 57

/-- An ASCII letter of either case. -/
def isLetter (b : UInt8) : Bool := (97 ≤ b && b ≤ 122) || (65 ≤ b && b ≤ 90)

/-- The underscore. -/
def isUnderscore (b : UInt8) : Bool := b == 95

/-- A byte that may continue a word: a letter, an underscore or a digit. -/
def isWordByte (b : UInt8) : Bool := isLetter b || isUnderscore b || isDigit b

/-- White space between the words of a program or of its input: space, tab,
newline, carriage return, form feed and vertical tab. -/
def isSpace (b : UInt8) : Bool :=
  b == 32 || b == 9 || b == 10 || b == 13 || b == 12 || b == 11

/-! ## Lines -/

/-- The newline byte. -/
def newline : UInt8 := 10

/-- Split a text after every newline: the complete lines, each with its
newline, and what follows the last newline. -/
def splitLines (text : Bytes) : List Bytes × Bytes :=
  text.foldr
    (fun b acc =>
      if b = newline then ([b] :: acc.1, acc.2)
      else
        match acc.1 with
        | [] => ([], b :: acc.2)
        | line :: lines => ((b :: line) :: lines, acc.2))
    ([], [])

/-- Nothing is lost when a text is split into lines. -/
theorem splitLines_flatten (text : Bytes) :
    (splitLines text).1.flatten ++ (splitLines text).2 = text := by
  induction text with
  | nil => rfl
  | cons b rest ih =>
    have step : splitLines (b :: rest)
        = if b = newline then ([b] :: (splitLines rest).1, (splitLines rest).2)
          else
            match (splitLines rest).1 with
            | [] => ([], b :: (splitLines rest).2)
            | line :: lines => ((b :: line) :: lines, (splitLines rest).2) := rfl
    rw [step]
    split
    · simpa using ih
    · cases hl : (splitLines rest).1 with
      | nil => simpa [hl] using ih
      | cons line lines => simpa [hl] using ih

/-! ## Big endian numbers -/

/-- The lowest `n` bytes of a number, the highest of them first. -/
def bigEndian : Nat → Nat → Bytes
  | 0, _ => []
  | n + 1, value => bigEndian n (value / 256) ++ [UInt8.ofNat value]

/-- The number that bytes spell, the highest byte first. -/
def ofBigEndian (bytes : Bytes) : Nat :=
  bytes.foldl (fun value b => 256 * value + b.toNat) 0

@[simp] theorem length_bigEndian (n value : Nat) : (bigEndian n value).length = n := by
  induction n generalizing value with
  | zero => rfl
  | succ n ih => simp [bigEndian, ih]

/-- Reading what was written gives the number back, as far as its bytes go. -/
theorem ofBigEndian_bigEndian (n value : Nat) :
    ofBigEndian (bigEndian n value) = value % Nat.pow 256 n := by
  show ofBigEndian (bigEndian n value) = value % 256 ^ n
  induction n generalizing value with
  | zero => simp [bigEndian, ofBigEndian, Nat.mod_one]
  | succ n ih =>
    have hn : ofBigEndian (bigEndian n (value / 256)) = value / 256 % 256 ^ n := ih _
    unfold ofBigEndian at hn ⊢
    rw [bigEndian, List.foldl_append, hn]
    simp only [List.foldl_cons, List.foldl_nil, UInt8.toNat_ofNat']
    have split : value % 256 ^ (n + 1) = value % 256 + 256 * (value / 256 % 256 ^ n) := by
      rw [Nat.pow_succ, Nat.mul_comm (256 ^ n) 256, Nat.mod_mul]
    omega

end Bytes

end Stackling
