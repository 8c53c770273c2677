import Stackling.Text.Decimal

/-!
# Decimal numbers are read back

The digits of a number spell it (`Decimal.value_ofNat`), so reading what was
written gives the number, if it is one that the reader takes
(`Decimal.toInt32?_ofInt`).
-/

namespace Stackling

/-- One or more digits and nothing else. -/
def Bytes.IsDigits (text : Bytes) : Prop := text ≠ [] ∧ ∀ b ∈ text, isDigit b = true

namespace Decimal

private theorem toNat_ofNat_toNat {c : Char} (h : c.isDigit = true) :
    (UInt8.ofNat c.toNat).toNat = c.toNat ∧ Bytes.isDigit (UInt8.ofNat c.toNat) = true := by
  have hrange : 48 ≤ c.toNat ∧ c.toNat ≤ 57 := by
    simp only [Char.isDigit, Bool.and_eq_true, decide_eq_true_eq] at h
    exact ⟨h.1, h.2⟩
  have hnat : (UInt8.ofNat c.toNat).toNat = c.toNat := by
    simp only [UInt8.toNat_ofNat']
    omega
  refine ⟨hnat, ?_⟩
  simp only [Bytes.isDigit, Bool.and_eq_true, decide_eq_true_eq, UInt8.le_iff_toNat_le, hnat]
  exact hrange

/-- The digits of a number spell the number. -/
theorem value_ofNat (n : Nat) : value (ofNat n) = n := by
  have hvalue : ∀ (cs : List Char) (start : Nat), (∀ c ∈ cs, c.isDigit = true) →
      (cs.map fun c => UInt8.ofNat c.toNat).foldl (fun n d => 10 * n + (d.toNat - 48)) start
        = Nat.ofDigitChars 10 cs start := by
    intro cs
    induction cs with
    | nil => intro start _; rfl
    | cons c cs ih =>
      intro start hdigits
      have hc := (toNat_ofNat_toNat (hdigits c List.mem_cons_self)).1
      simp only [List.map_cons, List.foldl_cons, Nat.ofDigitChars_cons, hc]
      exact ih _ fun d hd => hdigits d (List.mem_cons_of_mem _ hd)
  have hdigits : ∀ c ∈ Nat.toDigits 10 n, c.isDigit = true :=
    fun c hc => Nat.isDigit_of_mem_toDigits (by decide) (by decide) hc
  rw [value, ofNat, hvalue _ 0 hdigits]
  simp

theorem isDigit_of_mem_ofNat {n : Nat} {b : UInt8} (h : b ∈ ofNat n) :
    Bytes.isDigit b = true := by
  obtain ⟨c, hc, rfl⟩ := List.mem_map.mp h
  exact (toNat_ofNat_toNat (Nat.isDigit_of_mem_toDigits (by decide) (by decide) hc)).2

theorem ofNat_inj {m n : Nat} (h : ofNat m = ofNat n) : m = n := by
  rw [← value_ofNat m, h, value_ofNat]

theorem isDigits_ofNat (n : Nat) : (ofNat n).IsDigits :=
  ⟨by simp [ofNat], fun _ hb => isDigit_of_mem_ofNat hb⟩

theorem toNat?_of_isDigits {text : Bytes} (h : text.IsDigits) :
    toNat? text = some (value text) := by
  rw [toNat?, if_pos ⟨h.1, List.all_eq_true.mpr h.2⟩]

theorem toInt?_of_isDigits {text : Bytes} (h : text.IsDigits) :
    toInt? text = some (Int.ofNat (value text)) := by
  unfold toInt?
  split
  · exact absurd (h.2 43 List.mem_cons_self) (by decide)
  · exact absurd (h.2 45 List.mem_cons_self) (by decide)
  · rw [toNat?_of_isDigits h]
    rfl

/-- Digits are read as a machine integer if the number that they spell fits. -/
theorem toInt32?_of_isDigits {text : Bytes} (h : text.IsDigits) :
    toInt32? text = if value text ≤ 2147483647 then some (.ofNat (value text)) else none := by
  rw [toInt32?, toInt?_of_isDigits h, Option.bind_some, fit32?]
  by_cases hfits : value text ≤ 2147483647
  · rw [if_pos hfits, if_pos (by simp only [Int.ofNat_eq_natCast]; omega)]
    exact congrArg some Int32.ofInt_eq_ofNat
  · rw [if_neg hfits, if_neg (by simp only [Int.ofNat_eq_natCast]; omega)]

/-- What spells an integer: one or more digits, after a sign or without one. -/
inductive Spells : Bytes → Int → Prop
  | plain {digits : Bytes} (h : digits.IsDigits) : Spells digits (value digits)
  | plus {digits : Bytes} (h : digits.IsDigits) : Spells (43 :: digits) (value digits)
  | minus {digits : Bytes} (h : digits.IsDigits) : Spells (45 :: digits) (-value digits)

theorem Spells.ne_nil {text : Bytes} {n : Int} (h : Spells text n) : text ≠ [] := by
  cases h with
  | plain h => exact h.1
  | plus | minus => exact List.cons_ne_nil _ _

theorem Spells.mem_range {text : Bytes} {n : Int} (h : Spells text n) {b : UInt8} (hb : b ∈ text) :
    43 ≤ b.toNat ∧ b.toNat ≤ 57 := by
  have hdigits : ∀ {digits : Bytes}, digits.IsDigits → b ∈ digits →
      43 ≤ b.toNat ∧ b.toNat ≤ 57 := by
    intro digits h hb
    have hdigit := h.2 b hb
    simp only [Bytes.isDigit, Bool.and_eq_true, decide_eq_true_eq, UInt8.le_iff_toNat_le,
      UInt8.reduceToNat] at hdigit
    omega
  cases h with
  | plain h => exact hdigits h hb
  | plus h | minus h =>
    rcases List.mem_cons.mp hb with rfl | hb
    · decide
    · exact hdigits h hb

theorem Spells.not_isSpace {text : Bytes} {n : Int} (h : Spells text n) :
    ∀ b ∈ text, Bytes.isSpace b = false := by
  intro b hb
  have hrange := h.mem_range hb
  simp only [Bytes.isSpace, Bool.or_eq_false_iff, beq_eq_false_iff_ne]
  refine ⟨⟨⟨⟨⟨?_, ?_⟩, ?_⟩, ?_⟩, ?_⟩, ?_⟩ <;> rintro rfl <;> exact absurd hrange (by decide)

theorem toNat?_eq_some_iff {text : Bytes} {n : Nat} :
    toNat? text = some n ↔ text.IsDigits ∧ value text = n := by
  constructor
  · intro h
    unfold toNat? at h
    split at h
    · rename_i hdigits
      exact ⟨⟨hdigits.1, List.all_eq_true.mp hdigits.2⟩, Option.some.inj h⟩
    · cases h
  · rintro ⟨hdigits, rfl⟩
    exact toNat?_of_isDigits hdigits

/-- An integer is read from what spells it, and from nothing else. -/
theorem toInt?_eq_some_iff {text : Bytes} {n : Int} : toInt? text = some n ↔ Spells text n := by
  constructor
  · intro h
    unfold toInt? at h
    split at h <;> obtain ⟨k, hk, rfl⟩ := Option.map_eq_some_iff.mp h <;>
      obtain ⟨hdigits, rfl⟩ := toNat?_eq_some_iff.mp hk
    · exact .plus hdigits
    · exact .minus hdigits
    · exact .plain hdigits
  · intro h
    cases h with
    | plain hdigits => exact toInt?_of_isDigits hdigits
    | plus hdigits | minus hdigits =>
      rw [toInt?, toNat?_of_isDigits hdigits]
      rfl

theorem fit32?_eq_some_iff {n : Int} {k : Int32} : fit32? n = some k ↔ n = k.toInt := by
  have hlow := k.le_toInt
  have hhigh := k.toInt_lt
  unfold fit32?
  constructor
  · intro h
    split at h
    · rename_i hfits
      rw [← Option.some.inj h, Int32.toInt_ofInt_of_le (by omega) (by omega)]
    · cases h
  · rintro rfl
    rw [if_pos (by omega), Int32.ofInt_toInt]

/-- A machine integer is read from what spells it, and from nothing else. -/
theorem toInt32?_eq_some_iff {text : Bytes} {n : Int32} :
    toInt32? text = some n ↔ Spells text n.toInt := by
  rw [toInt32?, Option.bind_eq_some_iff]
  constructor
  · rintro ⟨k, hk, hfits⟩
    rw [← fit32?_eq_some_iff.mp hfits]
    exact toInt?_eq_some_iff.mp hk
  · intro h
    exact ⟨n.toInt, toInt?_eq_some_iff.mpr h, fit32?_eq_some_iff.mpr rfl⟩

/-- An integer is read from the way it is written. -/
theorem toInt?_ofInt (n : Int) : toInt? (ofInt n) = some n := by
  cases n with
  | ofNat n =>
    show toInt? (ofNat n) = _
    rw [toInt?_of_isDigits (isDigits_ofNat n), value_ofNat]
  | negSucc n =>
    show (toNat? (ofNat (n + 1))).map (fun n => -Int.ofNat n) = _
    rw [toNat?_of_isDigits (isDigits_ofNat _), value_ofNat]
    rfl

theorem toInt32?_ofInt (n : Int) : toInt32? (ofInt n) = fit32? n := by
  rw [toInt32?, toInt?_ofInt, Option.bind_some]

/-- A machine integer is read from the way it is written. -/
theorem toInt32?_ofInt32 (n : Int32) : toInt32? (ofInt32 n) = some n := by
  have hlow := n.le_toInt
  have hhigh := n.toInt_lt
  rw [ofInt32, toInt32?_ofInt, fit32?, if_pos (by omega), Int32.ofInt_toInt]

theorem spells_ofInt32 (n : Int32) : Spells (ofInt32 n) n.toInt :=
  toInt32?_eq_some_iff.mp (toInt32?_ofInt32 n)

end Decimal

end Stackling
