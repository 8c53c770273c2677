import Mathlib.Algebra.Order.Group.Nat
import Mathlib.Tactic.Common
import Stackling.Text.Quoted

/-!
# Quoted text is read back

Whatever bytes a text has, reading its quoted form gives the text
(`Quoted.unquote?_quote`), and the quoted form is one line
(`Quoted.newline_not_mem_quote`). Both follow rune by rune. A rune that is read
from a text is well formed: it is a stray byte, or the one spelling of a scalar
value (`Utf8.wellFormed_of_mem_runes`), which is recognised whatever follows it
(`Utf8.first_encode`).

Quotes of each kind close where they first can: no quoted text is the start of a
longer one (`Quoted.unquote?_append_eq_none`).
-/

namespace Stackling

/-! ## Runes -/

namespace Utf8

theorem isContinuation_iff {b : UInt8} :
    isContinuation b = true ↔ 0x80 ≤ b.toNat ∧ b.toNat ≤ 0xBF := by
  simp [isContinuation, UInt8.le_iff_toNat_le]

/-- What may follow the lead byte of a long spelling is a continuation byte, and
the four lead bytes at the ends of the ranges have limits of their own. -/
theorem isSecond_iff {lead b : UInt8} :
    isSecond lead b = true ↔ 0x80 ≤ b.toNat ∧ b.toNat ≤ 0xBF ∧
      (lead.toNat = 0xE0 → 0xA0 ≤ b.toNat) ∧ (lead.toNat = 0xED → b.toNat ≤ 0x9F) ∧
      (lead.toNat = 0xF0 → 0x90 ≤ b.toNat) ∧ (lead.toNat = 0xF4 → b.toNat ≤ 0x8F) := by
  simp only [isSecond, secondRange, beq_iff_eq, ← UInt8.toNat_inj]
  split_ifs <;> simp only [Bool.and_eq_true, decide_eq_true_eq, UInt8.le_iff_toNat_le] <;> grind

section Leads

variable {a b c d : UInt8}

theorem two_iff : (0xC2 ≤ a && a ≤ 0xDF && isContinuation b) = true ↔
    (0xC2 ≤ a.toNat ∧ a.toNat ≤ 0xDF) ∧ isContinuation b = true := by
  simp [UInt8.le_iff_toNat_le]

theorem three_iff : (0xE0 ≤ a && a ≤ 0xEF && isSecond a b && isContinuation c) = true ↔
    (0xE0 ≤ a.toNat ∧ a.toNat ≤ 0xEF) ∧ isSecond a b = true ∧ isContinuation c = true := by
  simp [UInt8.le_iff_toNat_le, and_assoc]

theorem four_iff :
    (0xF0 ≤ a && a ≤ 0xF4 && isSecond a b && isContinuation c && isContinuation d) = true ↔
      (0xF0 ≤ a.toNat ∧ a.toNat ≤ 0xF4) ∧
        isSecond a b = true ∧ isContinuation c = true ∧ isContinuation d = true := by
  simp [UInt8.le_iff_toNat_le, and_assoc]

private theorem not_lt_of_lead (h : 0xC2 ≤ a.toNat) : ¬a < 0x80 := by
  rw [UInt8.lt_iff_toNat_lt]
  have hlimit : (0x80 : UInt8).toNat = 0x80 := rfl
  omega

theorem first_two (ha : 0xC2 ≤ a.toNat ∧ a.toNat ≤ 0xDF) (hb : isContinuation b = true)
    (rest : Bytes) : first a (b :: rest) = first.two a b := by
  unfold first
  rw [if_neg (not_lt_of_lead ha.1)]
  rcases rest with _ | ⟨c, _ | ⟨d, rest⟩⟩ <;> exact if_pos (two_iff.mpr ⟨ha, hb⟩)

theorem first_three (ha : 0xE0 ≤ a.toNat ∧ a.toNat ≤ 0xEF) (hb : isSecond a b = true)
    (hc : isContinuation c = true) (rest : Bytes) :
    first a (b :: c :: rest) = first.three a b c := by
  have htwo : ¬(0xC2 ≤ a && a ≤ 0xDF && isContinuation b) = true := by
    rw [two_iff]
    omega
  unfold first
  rw [if_neg (not_lt_of_lead (by omega))]
  rcases rest with _ | ⟨d, rest⟩ <;>
    exact (if_neg htwo).trans (if_pos (three_iff.mpr ⟨ha, hb, hc⟩))

theorem first_four (ha : 0xF0 ≤ a.toNat ∧ a.toNat ≤ 0xF4) (hb : isSecond a b = true)
    (hc : isContinuation c = true) (hd : isContinuation d = true) (rest : Bytes) :
    first a (b :: c :: d :: rest) = .scalar
      (a.toNat % 8 * 262144 + payload b * 4096 + payload c * 64 + payload d) [a, b, c, d] := by
  have htwo : ¬(0xC2 ≤ a && a ≤ 0xDF && isContinuation b) = true := by
    rw [two_iff]
    omega
  have hthree : ¬(0xE0 ≤ a && a ≤ 0xEF && isSecond a b && isContinuation c) = true := by
    rw [three_iff]
    omega
  unfold first
  rw [if_neg (not_lt_of_lead (by omega))]
  exact (if_neg htwo).trans ((if_neg hthree).trans (if_pos (four_iff.mpr ⟨ha, hb, hc, hd⟩)))

theorem isScalar_iff {code : Nat} :
    isScalar code = true ↔ code < 0xD800 ∨ 0xE000 ≤ code ∧ code ≤ 0x10FFFF := by
  simp [isScalar]

/-- A stray byte, or the one spelling of a scalar value. -/
def Rune.WellFormed : Rune → Prop
  | .scalar code spelling => isScalar code = true ∧ spelling = encode code
  | .stray _ => True

private theorem ofNat_of_toNat {n : Nat} {b : UInt8} (h : n = b.toNat) : UInt8.ofNat n = b := by
  rw [h, UInt8.ofNat_toNat]

theorem wellFormed_one (ha : a < 0x80) : (Rune.scalar a.toNat [a]).WellFormed := by
  have hlt : a.toNat < 0x80 := UInt8.lt_iff_toNat_lt.mp ha
  refine ⟨isScalar_iff.mpr (by omega), ?_⟩
  rw [encode, if_pos hlt, UInt8.ofNat_toNat]

theorem wellFormed_two (ha : 0xC2 ≤ a.toNat ∧ a.toNat ≤ 0xDF) (hb : isContinuation b = true) :
    (first.two a b).WellFormed := by
  obtain ⟨hlow, hhigh⟩ := ha
  rw [isContinuation_iff] at hb
  refine ⟨isScalar_iff.mpr (by unfold payload; omega), ?_⟩
  unfold encode payload
  rw [if_neg (by omega), if_pos (by omega), ofNat_of_toNat (b := a) (by omega),
    ofNat_of_toNat (b := b) (by omega)]

theorem wellFormed_three (ha : 0xE0 ≤ a.toNat ∧ a.toNat ≤ 0xEF) (hb : isSecond a b = true)
    (hc : isContinuation c = true) : (first.three a b c).WellFormed := by
  obtain ⟨hlow, hhigh⟩ := ha
  rw [isSecond_iff] at hb
  rw [isContinuation_iff] at hc
  refine ⟨isScalar_iff.mpr (by unfold payload; omega), ?_⟩
  unfold encode payload
  rw [if_neg (by omega), if_neg (by omega), if_pos (by omega), ofNat_of_toNat (b := a) (by omega),
    ofNat_of_toNat (b := b) (by omega), ofNat_of_toNat (b := c) (by omega)]

theorem wellFormed_four (ha : 0xF0 ≤ a.toNat ∧ a.toNat ≤ 0xF4) (hb : isSecond a b = true)
    (hc : isContinuation c = true) (hd : isContinuation d = true) :
    (Rune.scalar (a.toNat % 8 * 262144 + payload b * 4096 + payload c * 64 + payload d)
      [a, b, c, d]).WellFormed := by
  obtain ⟨hlow, hhigh⟩ := ha
  rw [isSecond_iff] at hb
  rw [isContinuation_iff] at hc hd
  refine ⟨isScalar_iff.mpr (by unfold payload; omega), ?_⟩
  unfold encode payload
  rw [if_neg (by omega), if_neg (by omega), if_neg (by omega), ofNat_of_toNat (b := a) (by omega),
    ofNat_of_toNat (b := b) (by omega), ofNat_of_toNat (b := c) (by omega),
    ofNat_of_toNat (b := d) (by omega)]

end Leads

theorem wellFormed_first (a : UInt8) (s : Bytes) : (first a s).WellFormed := by
  have htwo : ∀ b, (0xC2 ≤ a && a ≤ 0xDF && isContinuation b) = true →
      (first.two a b).WellFormed := by
    intro b h
    obtain ⟨ha, hb⟩ := two_iff.mp h
    exact wellFormed_two ha hb
  have hthree : ∀ b c, (0xE0 ≤ a && a ≤ 0xEF && isSecond a b && isContinuation c) = true →
      (first.three a b c).WellFormed := by
    intro b c h
    obtain ⟨ha, hb, hc⟩ := three_iff.mp h
    exact wellFormed_three ha hb hc
  unfold first
  split
  · exact wellFormed_one ‹_›
  · -- by how many bytes follow, three or more first
    split
    · split
      · exact htwo _ ‹_›
      · split
        · exact hthree _ _ ‹_›
        · split
          · rename_i h
            obtain ⟨ha, hb, hc, hd⟩ := four_iff.mp h
            exact wellFormed_four ha hb hc hd
          · trivial
    · split
      · exact htwo _ ‹_›
      · split
        · exact hthree _ _ ‹_›
        · trivial
    · split
      · exact htwo _ ‹_›
      · trivial
    · trivial

theorem wellFormed_of_mem_runes (text : Bytes) : ∀ r ∈ runes text, r.WellFormed := by
  suffices h : ∀ skip, ∀ r ∈ runesFrom skip text, r.WellFormed from h 0
  intro skip
  fun_induction runesFrom skip text with
  | case1 => simp
  | case2 skip b s ih => exact ih
  | case3 a s ih => exact List.forall_mem_cons.mpr ⟨wellFormed_first a s, ih⟩

/-- What follows a byte of ASCII does not change how the bytes before it are read. -/
theorem first_append_cons (a : UInt8) (s : Bytes) {q : UInt8} (hq : q.toNat < 0x80)
    (rest : Bytes) : first a (s ++ q :: rest) = first a (s ++ [q]) := by
  have hcontinues : isContinuation q = false := by
    rw [Bool.eq_false_iff, Ne, isContinuation_iff]
    omega
  have hsecond : isSecond a q = false := by
    rw [Bool.eq_false_iff, Ne, isSecond_iff]
    omega
  unfold first
  split
  · rfl
  · -- by how many bytes stand before the byte of ASCII
    rcases s with _ | ⟨b, _ | ⟨c, _ | ⟨d, s⟩⟩⟩
    · rcases rest with _ | ⟨c, _ | ⟨d, rest⟩⟩ <;> simp [hcontinues, hsecond]
    · rcases rest with _ | ⟨d, rest⟩ <;> simp [hcontinues]
    · rcases rest with _ | ⟨d, rest⟩ <;> simp [hcontinues]
    · rfl

/-- The spelling of a scalar value is recognised, whatever follows it. -/
theorem first_encode {code : Nat} (h : isScalar code = true) :
    ∃ a tail, encode code = a :: tail ∧
      ∀ rest, first a (tail ++ rest) = .scalar code (a :: tail) := by
  rw [isScalar_iff] at h
  have htoNat : ∀ n, n < 256 → (UInt8.ofNat n).toNat = n := fun n hn => UInt8.toNat_ofNat_of_lt' hn
  have hlow := htoNat (0x80 + code % 64) (by omega)
  have hmiddle := htoNat (0x80 + code / 64 % 64) (by omega)
  have hhigh := htoNat (0x80 + code / 4096 % 64) (by omega)
  unfold encode
  -- by the length of the spelling, one to four bytes
  split_ifs with hone htwo hthree
  · have hlead := htoNat code (by omega)
    refine ⟨_, _, rfl, fun rest => ?_⟩
    unfold first
    rw [if_pos (UInt8.lt_iff_toNat_lt.mpr (hlead.symm ▸ hone)), hlead]
  · have hlead := htoNat (0xC0 + code / 64) (by omega)
    refine ⟨_, _, rfl, fun rest => ?_⟩
    rw [List.singleton_append, first_two (by omega) (isContinuation_iff.mpr (by omega))]
    unfold first.two payload
    rw [hlead, hlow]
    congr 1
    omega
  · have hlead := htoNat (0xE0 + code / 4096) (by omega)
    refine ⟨_, _, rfl, fun rest => ?_⟩
    rw [List.cons_append, List.singleton_append,
      first_three (by omega) (isSecond_iff.mpr (by omega)) (isContinuation_iff.mpr (by omega))]
    unfold first.three payload
    rw [hlead, hmiddle, hlow]
    congr 1
    omega
  · have hlead := htoNat (0xF0 + code / 262144) (by omega)
    refine ⟨_, _, rfl, fun rest => ?_⟩
    rw [List.cons_append, List.cons_append, List.singleton_append, first_four (by omega)
      (isSecond_iff.mpr (by omega)) (isContinuation_iff.mpr (by omega))
      (isContinuation_iff.mpr (by omega))]
    unfold payload
    rw [hlead, hhigh, hmiddle, hlow]
    congr 1
    omega

/-- A byte of a spelling is the scalar value itself, or not in ASCII. -/
theorem toNat_of_mem_encode {code : Nat} (h : isScalar code = true) {b : UInt8}
    (hb : b ∈ encode code) : b.toNat = code ∨ 0x80 ≤ b.toNat := by
  rw [isScalar_iff] at h
  unfold encode at hb
  split_ifs at hb <;> simp only [List.mem_cons, List.not_mem_nil, or_false] at hb
  · rw [hb, UInt8.toNat_ofNat']
    omega
  · rcases hb with rfl | rfl <;> rw [UInt8.toNat_ofNat'] <;> omega
  · rcases hb with rfl | rfl | rfl <;> rw [UInt8.toNat_ofNat'] <;> omega
  · rcases hb with rfl | rfl | rfl | rfl <;> rw [UInt8.toNat_ofNat'] <;> omega

end Utf8

/-! ## Digits -/

namespace Quoted

open Utf8 (Rune)

theorem hexValue?_hexDigit {n : Nat} (h : n < 16) : hexValue? (hexDigit n) = some n := by
  have hall : ∀ n : Fin 16, hexValue? (hexDigit n) = some n.val := by decide
  exact hall ⟨n, h⟩

theorem length_hex (digits n : Nat) : (hex digits n).length = digits := by
  induction digits generalizing n with
  | zero => rfl
  | succ digits ih => simp [hex, ih]

/-- Reading digits gives the number back, as far as the digits go. -/
theorem hexNumber?_hex {digits n : Nat} (h : n < 16 ^ digits) :
    hexNumber? (hex digits n) = some n := by
  induction digits generalizing n with
  | zero =>
    obtain rfl : n = 0 := by simpa using h
    rfl
  | succ digits ih =>
    have hhigh : hexNumber? (hex digits (n / 16)) = some (n / 16) := by
      apply ih
      rw [Nat.pow_succ] at h
      omega
    unfold hexNumber? at hhigh ⊢
    rw [hex, List.foldl_append, hhigh]
    simp only [List.foldl_cons, List.foldl_nil, Option.bind_some,
      hexValue?_hexDigit (Nat.mod_lt n (by decide)), Option.map_some]
    congr 1
    omega

theorem take_hex (digits n : Nat) (rest : Bytes) :
    (hex digits n ++ rest).take digits = hex digits n :=
  List.take_left' (length_hex digits n)

theorem newline_not_mem_hex (digits n : Nat) : Bytes.newline ∉ hex digits n := by
  induction digits generalizing n with
  | zero => simp [hex]
  | succ digits ih =>
    have hdigit : ∀ n : Fin 16, Bytes.newline ≠ hexDigit n := by decide
    rw [hex, List.mem_append, not_or, List.mem_singleton]
    exact ⟨ih (n / 16), hdigit ⟨n % 16, Nat.mod_lt n (by decide)⟩⟩

/-! ## Characters -/

theorem readDouble?_skip (used rest : Bytes) :
    readDouble? used.length (used ++ rest) = readDouble? 0 rest := by
  induction used with
  | nil => rfl
  | cons b used ih => exact ih

/-- A character that is read from the front of a text is read with the text. -/
theorem readDouble?_append {a : UInt8} {tail bytes rest : Bytes} (ha : a ≠ 34)
    (h : readChar? 34 a (tail ++ rest) = some (bytes, tail.length)) :
    readDouble? 0 (a :: tail ++ rest) = (readDouble? 0 rest).map (bytes ++ ·) := by
  rw [List.cons_append, readDouble?, if_neg ha, h]
  simp only [readDouble?_skip]

/-- What is written between quotes, on one line, and read as the given bytes. -/
structure Stands (written bytes : Bytes) : Prop where
  reads : ∀ rest, readDouble? 0 (written ++ rest) = (readDouble? 0 rest).map (bytes ++ ·)
  one_line : Bytes.newline ∉ written

theorem Stands.of_escape {c : UInt8} {tail bytes : Bytes}
    (hread : ∀ rest, readEscape? 34 c (tail ++ rest) = some (bytes, tail.length))
    (hline : Bytes.newline ∉ c :: tail) : Stands (92 :: c :: tail) bytes := by
  refine ⟨fun rest => ?_, ?_⟩
  · refine readDouble?_append (by decide) ?_
    simp [readChar?, Bytes.newline, hread]
  · rw [List.mem_cons, not_or]
    exact ⟨by decide, hline⟩

/-- A letter stands for a control character, or a mark for itself. -/
theorem Stands.letter {c : UInt8} {bytes : Bytes} (hc : Bytes.newline ≠ c)
    (hread : ∀ s, readEscape? 34 c s = some (bytes, 0)) : Stands [92, c] bytes :=
  @of_escape c [] bytes hread (by simpa using hc)

theorem Stands.digits {c : UInt8} {digits n : Nat} {bytes : Bytes} (hc : Bytes.newline ≠ c)
    (hread : ∀ rest, readEscape? 34 c (hex digits n ++ rest) = some (bytes, digits)) :
    Stands (92 :: c :: hex digits n) bytes := by
  refine .of_escape ?_ ?_
  · rwa [length_hex]
  · rw [List.mem_cons, not_or]
    exact ⟨hc, newline_not_mem_hex digits n⟩

theorem stands_byte {n : Nat} (h : n < 256) : Stands (ascii "\\x" ++ hex 2 n) [UInt8.ofNat n] := by
  refine .digits (c := 120) (by decide) fun rest => ?_
  simp only [readEscape?, take_hex, length_hex, @hexNumber?_hex 2 n h, if_true,
    Option.map_some]

theorem numericEscape?_hex {digits code : Nat} (hcode : Utf8.isScalar code = true)
    (h : code < 16 ^ digits) :
    numericEscape? (hex digits code) digits = some (Utf8.encode code) := by
  simp [numericEscape?, length_hex, hexNumber?_hex h, hcode]

/-- A printable character stands for itself. -/
theorem stands_printable {code : Nat} (h : Utf8.isScalar code = true)
    (hmark : ¬(code = 34 ∨ code = 92)) (hprintable : Printable.isPrintable code = true) :
    Stands (Utf8.encode code) (Utf8.encode code) := by
  obtain ⟨a, tail, hencode, hfirst⟩ := Utf8.first_encode h
  have hne : ∀ mark : UInt8, mark.toNat < 0x80 → mark.toNat ≠ code →
      mark ∉ Utf8.encode code := by
    intro mark hascii hother hmem
    have hbyte := Utf8.toNat_of_mem_encode h hmem
    omega
  -- no byte of the spelling is a quote, a backslash or a newline
  have hcontrol : code ≠ 10 := by
    rintro rfl
    exact absurd hprintable (by decide)
  have hquote := hne 34 (by decide) fun heq => hmark (.inl heq.symm)
  have hbackslash := hne 92 (by decide) fun heq => hmark (.inr heq.symm)
  have hline := hne Bytes.newline (by decide) hcontrol.symm
  refine ⟨fun rest => ?_, hline⟩
  rw [hencode, List.mem_cons, not_or] at hquote hbackslash hline
  rw [hencode]
  refine readDouble?_append (Ne.symm hquote.1) ?_
  unfold readChar?
  rw [if_neg (by simp [Ne.symm hquote.1, Ne.symm hline.1]), if_neg (Ne.symm hbackslash.1), hfirst]
  rfl

theorem stands_scalar {code : Nat} (h : Utf8.isScalar code = true) :
    Stands (escape code (Utf8.encode code)) (Utf8.encode code) := by
  unfold escape
  by_cases hmark : code = 34 ∨ code = 92
  · rw [if_pos hmark]
    rcases hmark with rfl | rfl
    · exact .letter (by decide) fun _ => rfl
    · exact .letter (by decide) fun _ => rfl
  rw [if_neg hmark]
  by_cases hprintable : Printable.isPrintable code = true
  · rw [if_pos hprintable]
    exact stands_printable h hmark hprintable
  rw [if_neg hprintable]
  split
  -- the seven control characters with a letter of their own
  iterate 7 exact .letter (by decide) fun _ => rfl
  have hbound : code ≤ 0x10FFFF := by
    rw [Utf8.isScalar_iff] at h
    omega
  split_ifs with hcontrol hshort
  · have hencode : Utf8.encode code = [UInt8.ofNat code] := if_pos (by omega)
    rw [hencode]
    exact stands_byte (by omega)
  · refine .digits (c := 117) (by decide) fun rest => ?_
    simp only [readEscape?, take_hex, @numericEscape?_hex 4 _ h hshort, Option.map_some]
  · refine .digits (c := 85) (by decide) fun rest => ?_
    have hlong : code < 16 ^ 8 := by omega
    simp only [readEscape?, take_hex, numericEscape?_hex h hlong, Option.map_some]

theorem stands_escapeRune {r : Rune} (h : r.WellFormed) : Stands (escapeRune r) r.bytes := by
  cases r with
  | scalar code spelling =>
    obtain ⟨hcode, rfl⟩ := h
    exact stands_scalar hcode
  | stray b =>
    have hbyte := stands_byte b.toNat_lt
    rwa [UInt8.ofNat_toNat] at hbyte

theorem stands_runes {runes : List Rune} (h : ∀ r ∈ runes, r.WellFormed) :
    Stands (runes.flatMap escapeRune) (runes.flatMap Rune.bytes) := by
  induction runes with
  | nil => exact ⟨fun rest => by simp, by simp⟩
  | cons r runes ih =>
    rw [List.forall_mem_cons] at h
    obtain ⟨hr, hline⟩ := stands_escapeRune h.1
    obtain ⟨hruns, hlines⟩ := ih h.2
    refine ⟨fun rest => ?_, ?_⟩
    · rw [List.flatMap_cons, List.flatMap_cons, List.append_assoc, hr, hruns, Option.map_map]
      congr 1
      funext text
      exact (List.append_assoc _ _ _).symm
    · rw [List.flatMap_cons, List.mem_append, not_or]
      exact ⟨hline, hlines⟩

/-! ## Texts -/

/-- The quoted form of a text is read as the text. -/
theorem unquote?_quote (text : Bytes) : unquote? (quote text) = some text := by
  have hreads := (stands_runes (Utf8.wellFormed_of_mem_runes text)).reads [34]
  rw [Utf8.flatMap_bytes_runes] at hreads
  show readDouble? 0 ((Utf8.runes text).flatMap escapeRune ++ [34]) = some text
  rw [hreads]
  simp [readDouble?]

/-- The quoted form of a text is one line. -/
theorem newline_not_mem_quote (text : Bytes) : Bytes.newline ∉ quote text := by
  have hline := (stands_runes (Utf8.wellFormed_of_mem_runes text)).one_line
  simp only [quote, List.cons_append, List.mem_cons, List.mem_append, not_or]
  exact ⟨by decide, hline, by decide, by simp⟩

/-! ## The closing quote -/

theorem take_append_of_length {s : Bytes} {n : Nat} (h : (s.take n).length = n) (rest : Bytes) :
    (s ++ rest).take n = s.take n := by
  rw [List.length_take] at h
  exact List.take_append_of_le_length (by omega)

theorem length_of_numericEscape? {digits bytes : Bytes} {count : Nat}
    (h : numericEscape? digits count = some bytes) : digits.length = count := by
  unfold numericEscape? at h
  split at h
  · assumption
  · cases h

/-- An escape has all of its digits, so it is read as it is, whatever follows. -/
theorem readEscape?_append {mark c : UInt8} {s : Bytes} {r : Bytes × Nat}
    (h : readEscape? mark c s = some r) (rest : Bytes) :
    readEscape? mark c (s ++ rest) = some r := by
  revert h
  unfold readEscape?
  split
  -- the eight letters without digits
  iterate 8 exact id
  · intro h
    split_ifs at h with hlength
    rwa [take_append_of_length hlength, if_pos hlength]
  iterate 2
    intro h
    obtain ⟨bytes, hbytes, _⟩ := Option.map_eq_some_iff.mp h
    rwa [take_append_of_length (length_of_numericEscape? hbytes)]
  · intro h
    split_ifs at h with hdigit hlength hmark
    · rwa [if_pos hdigit, take_append_of_length hlength, if_pos hlength]
    · rwa [if_neg hdigit, if_pos hmark]

/-- A character before a byte of ASCII is read as it is, whatever follows that byte. -/
theorem readChar?_append {mark a q : UInt8} {s : Bytes} {r : Bytes × Nat} (hq : q.toNat < 0x80)
    (h : readChar? mark a (s ++ [q]) = some r) (rest : Bytes) :
    readChar? mark a (s ++ [q] ++ rest) = some r := by
  unfold readChar? at h ⊢
  split_ifs at h ⊢ with hends hescape
  · -- the letter of the escape is the byte itself, or stands before it
    rcases s with _ | ⟨c, s⟩
    all_goals
      obtain ⟨p, hp, hr⟩ := Option.map_eq_some_iff.mp h
      exact Option.map_eq_some_iff.mpr ⟨p, readEscape?_append hp rest, hr⟩
  · rwa [List.append_assoc, List.singleton_append, Utf8.first_append_cons a s hq]

theorem readDouble?_closes {skip : Nat} {s text : Bytes} (h : readDouble? skip s = some text) :
    ∃ inner, s = inner ++ [34] := by
  fun_induction readDouble? skip s generalizing text with
  | case1 => cases h
  | case2 skip b s ih =>
    obtain ⟨inner, rfl⟩ := ih h
    exact ⟨b :: inner, rfl⟩
  | case3 => exact ⟨[], rfl⟩
  | case4 => cases h
  | case5 => cases h
  | case6 a s _ bytes used _ ih =>
    obtain ⟨_, htext, _⟩ := Option.map_eq_some_iff.mp h
    obtain ⟨inner, rfl⟩ := ih htext
    exact ⟨a :: inner, rfl⟩

theorem readDouble?_append_eq_none {skip : Nat} {s text rest : Bytes}
    (h : readDouble? skip s = some text) (hrest : rest ≠ []) :
    readDouble? skip (s ++ rest) = none := by
  fun_induction readDouble? skip s generalizing text with
  | case1 => cases h
  | case2 skip b s ih => exact ih h
  | case3 => simp [readDouble?, hrest]
  | case4 => cases h
  | case5 => cases h
  | case6 a s ha bytes used hchar ih =>
    obtain ⟨_, htext, _⟩ := Option.map_eq_some_iff.mp h
    have hagain : readChar? 34 a (s ++ rest) = some (bytes, used) := by
      obtain ⟨inner, rfl⟩ := readDouble?_closes htext
      exact readChar?_append (by decide) hchar rest
    rw [List.cons_append, readDouble?, if_neg ha, hagain]
    simp only [ih htext, Option.map_none]

theorem readSingle?_append_eq_none {s text rest : Bytes} (h : readSingle? s = some text)
    (hrest : rest ≠ []) : readSingle? (s ++ rest) = none := by
  unfold readSingle? at h
  split at h
  · cases h
  · rename_i a s
    split_ifs at h with hempty
    · obtain ⟨rfl, rfl⟩ := hempty
      simp [readSingle?, readChar?, hrest]
    · split at h
      · cases h
      · rename_i bytes used hchar
        split_ifs at h with hcloses
        have hsplit : s.take used ++ [39] = s := by rw [← hcloses, List.take_append_drop]
        have hused : used ≤ s.length := by
          have hlength := congrArg List.length hcloses
          rw [List.length_drop, List.length_singleton] at hlength
          omega
        rw [← hsplit] at hchar
        have hagain := readChar?_append (by decide) hchar rest
        rw [hsplit] at hagain
        rw [List.cons_append, readSingle?, if_neg (by simp [hrest]), hagain]
        simp [List.drop_append_of_le_length hused, hcloses, hrest]

theorem readRaw?_append_eq_none {s text rest : Bytes} (h : readRaw? s = some text)
    (hrest : rest ≠ []) : readRaw? (s ++ rest) = none := by
  unfold readRaw? at h ⊢
  split_ifs at h with hcloses
  rw [List.dropWhile_append, hcloses]
  simp [hrest]

/-- No quoted text is the start of a longer one. -/
theorem unquote?_append_eq_none {s text rest : Bytes} (h : unquote? s = some text)
    (hrest : rest ≠ []) : unquote? (s ++ rest) = none := by
  unfold unquote? at h
  split at h
  · exact readDouble?_append_eq_none h hrest
  · exact readSingle?_append_eq_none h hrest
  · exact readRaw?_append_eq_none h hrest
  · cases h

end Quoted

end Stackling
