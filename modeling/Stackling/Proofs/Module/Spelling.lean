import Mathlib.Algebra.Order.Group.Nat
import Mathlib.Data.List.Forall2
import Mathlib.Data.List.Induction
import Mathlib.Tactic.Common
import Stackling.Module.Decode

/-!
# The bytes of modules

A reader of the binary form takes certain bytes for a value, whatever follows
them. `Takes` says which bytes these are, and it holds of readers in a row when
it holds of each of them (`Takes.seq`, `Takes.many`).

* **numbers, strings** — spelled in one way (`takes_number`, `takes_string`);
* **instructions** — spelled in several ways, since the byte that qualifies an
  operation is passed over where the operation has no use for it
  (`takes_code`);
* **modules** — `takes_content`, and with the mark before it and the check after
  it `Module.decode_of_spelled` and `Module.spelled_of_decode`.
-/

namespace Stackling

namespace Bytes

/-! ## Numbers -/

theorem ofBigEndian_append (bytes : Bytes) (b : UInt8) :
    ofBigEndian (bytes ++ [b]) = 256 * ofBigEndian bytes + b.toNat := by
  simp [ofBigEndian]

theorem ofBigEndian_lt (bytes : Bytes) : ofBigEndian bytes < 256 ^ bytes.length := by
  induction bytes using List.reverseRecOn with
  | nil => simp [ofBigEndian]
  | append_singleton bytes b ih =>
    have hb := b.toNat_lt
    rw [ofBigEndian_append, List.length_append, List.length_singleton, Nat.pow_succ]
    omega

/-- Bytes are the only spelling of their number in so many bytes. -/
theorem bigEndian_ofBigEndian (bytes : Bytes) :
    bigEndian bytes.length (ofBigEndian bytes) = bytes := by
  induction bytes using List.reverseRecOn with
  | nil => rfl
  | append_singleton bytes b ih =>
    have hb := b.toNat_lt
    have hhigh : (256 * ofBigEndian bytes + b.toNat) / 256 = ofBigEndian bytes := by omega
    have hlow : UInt8.ofNat (256 * ofBigEndian bytes + b.toNat) = b := by
      apply UInt8.toNat_inj.mp
      rw [UInt8.toNat_ofNat']
      omega
    rw [List.length_append, List.length_singleton, ofBigEndian_append, bigEndian, hhigh, hlow, ih]

theorem ofBigEndian_bigEndian_of_lt {size n : Nat} (h : n < 256 ^ size) :
    ofBigEndian (bigEndian size n) = n := by
  rw [ofBigEndian_bigEndian]
  exact Nat.mod_eq_of_lt h

end Bytes

namespace Decode

/-! ## Readers and what they take -/

section Takes

variable {α β : Type} {reader : Reader α} {Spells : α → Bytes → Prop}

/-- A reader gives a value, and what follows it, exactly if the bytes start with
a spelling of the value. -/
def Takes (reader : Reader α) (Spells : α → Bytes → Prop) : Prop :=
  ∀ s a rest, reader s = .ok (a, rest) ↔ ∃ used, Spells a used ∧ s = used ++ rest

theorem Takes.congr {Spells' : α → Bytes → Prop} (h : Takes reader Spells)
    (hiff : ∀ a used, Spells a used ↔ Spells' a used) : Takes reader Spells' := by
  intro s a rest
  rw [h s a rest]
  simp only [hiff]

theorem takes_pure (a : α) : Takes (fun s => .ok (a, s)) fun b used => b = a ∧ used = [] := by
  intro s b rest
  simp [eq_comm]

/-- Two readers in a row take the spellings of the first, followed by those of
the second. -/
theorem Takes.seq {next : α → Reader β} {After : α → β → Bytes → Prop}
    (h : Takes reader Spells) (hnext : ∀ a, Takes (next a) (After a)) :
    Takes (fun s => reader s >>= fun p => next p.1 p.2) fun b used =>
      ∃ a first, Spells a first ∧ ∃ second, After a b second ∧ used = first ++ second := by
  intro s b rest
  constructor
  · intro hs
    dsimp only at hs
    cases hreader : reader s with
    | error e =>
      rw [hreader] at hs
      cases hs
    | ok p =>
      rw [hreader] at hs
      obtain ⟨first, hfirst, rfl⟩ := (h s p.1 p.2).mp hreader
      obtain ⟨second, hsecond, heq⟩ := (hnext p.1 p.2 b rest).mp hs
      refine ⟨first ++ second, ⟨p.1, first, hfirst, second, hsecond, rfl⟩, ?_⟩
      rw [heq, List.append_assoc]
  · rintro ⟨_, ⟨a, first, hfirst, second, hsecond, rfl⟩, rfl⟩
    have hreader : reader (first ++ second ++ rest) = .ok (a, second ++ rest) :=
      (h _ _ _).mpr ⟨first, hfirst, by rw [List.append_assoc]⟩
    have hrest : next a (second ++ rest) = .ok (b, rest) :=
      (hnext a _ _ _).mpr ⟨second, hsecond, rfl⟩
    show (reader (first ++ second ++ rest) >>= fun p => next p.1 p.2) = .ok (b, rest)
    rw [hreader]
    exact hrest

/-- Values in a row. -/
def SpellsAll (Spells : α → Bytes → Prop) (as : List α) (used : Bytes) : Prop :=
  ∃ parts, List.Forall₂ Spells as parts ∧ used = parts.flatten

theorem spellsAll_nil {used : Bytes} : SpellsAll Spells [] used ↔ used = [] := by
  simp [SpellsAll]

theorem spellsAll_cons {a : α} {as : List α} {used : Bytes} :
    SpellsAll Spells (a :: as) used ↔
      ∃ first, Spells a first ∧ ∃ second, SpellsAll Spells as second ∧ used = first ++ second := by
  constructor
  · rintro ⟨_, hparts, rfl⟩
    cases hparts with
    | cons hfirst hrest => exact ⟨_, hfirst, _, ⟨_, hrest, rfl⟩, rfl⟩
  · rintro ⟨first, hfirst, _, ⟨parts, hparts, rfl⟩, rfl⟩
    exact ⟨first :: parts, .cons hfirst hparts, rfl⟩

theorem SpellsAll.exists_of_mem {as : List α} {used : Bytes} (h : SpellsAll Spells as used)
    {a : α} (ha : a ∈ as) : ∃ part, Spells a part := by
  induction as generalizing used with
  | nil => cases ha
  | cons b as ih =>
    obtain ⟨first, hfirst, second, hsecond, _⟩ := spellsAll_cons.mp h
    rcases List.mem_cons.mp ha with rfl | ha
    · exact ⟨first, hfirst⟩
    · exact ih hsecond ha

/-- Values that have one spelling each. -/
theorem spellsAll_exact {P : α → Prop} {written : α → Bytes} {as : List α} {used : Bytes} :
    SpellsAll (fun a used => P a ∧ used = written a) as used ↔
      (∀ a ∈ as, P a) ∧ used = as.flatMap written := by
  induction as generalizing used with
  | nil => simp [spellsAll_nil]
  | cons a as ih =>
    rw [spellsAll_cons, List.forall_mem_cons, List.flatMap_cons]
    constructor
    · rintro ⟨_, ⟨ha, rfl⟩, second, hsecond, rfl⟩
      obtain ⟨has, rfl⟩ := ih.mp hsecond
      exact ⟨⟨ha, has⟩, rfl⟩
    · rintro ⟨⟨ha, has⟩, rfl⟩
      exact ⟨_, ⟨ha, rfl⟩, _, ih.mpr ⟨has, rfl⟩, rfl⟩

theorem Takes.many (h : Takes reader Spells) (count : Nat) :
    Takes (many reader count) fun as used => as.length = count ∧ SpellsAll Spells as used := by
  induction count with
  | zero =>
    refine (takes_pure []).congr fun as used => ?_
    rw [List.length_eq_zero_iff]
    constructor
    · rintro ⟨rfl, rfl⟩
      exact ⟨rfl, spellsAll_nil.mpr rfl⟩
    · rintro ⟨rfl, hused⟩
      exact ⟨rfl, spellsAll_nil.mp hused⟩
  | succ count ih =>
    refine (h.seq fun a => ih.seq fun as => takes_pure (a :: as)).congr fun as used => ?_
    constructor
    · rintro ⟨a, first, hfirst, _, ⟨as, second, ⟨hlength, hsecond⟩, _, ⟨rfl, rfl⟩, rfl⟩, rfl⟩
      rw [List.append_nil]
      exact ⟨by simp [hlength], spellsAll_cons.mpr ⟨first, hfirst, second, hsecond, rfl⟩⟩
    · rintro ⟨hlength, hused⟩
      cases as with
      | nil => simp at hlength
      | cons a as =>
        obtain ⟨first, hfirst, second, hsecond, rfl⟩ := spellsAll_cons.mp hused
        refine ⟨a, first, hfirst, second, ⟨as, second, ⟨by simpa using hlength, hsecond⟩, [],
          ⟨rfl, rfl⟩, ?_⟩, rfl⟩
        rw [List.append_nil]

end Takes

/-! ## Numbers and strings -/

/-- Bytes of a known number, which are there or not. -/
theorem takes_take (size : Nat) (shortage : Bytes → Shortage) :
    Takes (fun s => if (s.take size).length = size then .ok (s.take size, s.drop size)
      else .error (shortage s)) fun field used => field.length = size ∧ used = field := by
  intro s field rest
  dsimp only
  by_cases hlength : (s.take size).length = size
  · rw [if_pos hlength]
    constructor
    · intro h
      injection h with h
      obtain ⟨rfl, rfl⟩ := Prod.mk.inj h
      exact ⟨_, ⟨hlength, rfl⟩, (List.take_append_drop size s).symm⟩
    · rintro ⟨_, ⟨rfl, rfl⟩, rfl⟩
      rw [List.take_left, List.drop_left]
  · rw [if_neg hlength]
    constructor
    · intro h
      cases h
    · rintro ⟨_, ⟨rfl, rfl⟩, rfl⟩
      exact absurd (by rw [List.take_left]) hlength

theorem takes_fixed (size : Nat) :
    Takes (fixed size) fun field used => field.length = size ∧ used = field :=
  takes_take size _

theorem takes_body (length : Nat) :
    Takes (body length) fun text used => text.length = length ∧ used = text :=
  takes_take length _

/-- A number of fixed size is spelled in one way. -/
theorem takes_number (size : Nat) :
    Takes (number size) fun n used => n < 256 ^ size ∧ used = Bytes.bigEndian size n := by
  refine ((takes_fixed size).seq fun field => takes_pure (Bytes.ofBigEndian field)).congr ?_
  intro n used
  constructor
  · rintro ⟨field, _, ⟨rfl, hfield⟩, _, ⟨rfl, rfl⟩, rfl⟩
    refine ⟨Bytes.ofBigEndian_lt field, ?_⟩
    rw [Bytes.bigEndian_ofBigEndian, hfield, List.append_nil]
  · rintro ⟨hlt, rfl⟩
    refine ⟨Bytes.bigEndian size n, _, ⟨by simp, rfl⟩, [], ⟨?_, rfl⟩, by simp⟩
    rw [Bytes.ofBigEndian_bigEndian_of_lt hlt]

/-- A string is spelled by its length and its bytes. -/
theorem takes_string (size : Nat) :
    Takes (string size) fun text used =>
      text.length < 256 ^ size ∧ used = Bytes.bigEndian size text.length ++ text := by
  refine ((takes_number size).seq fun length => takes_body length).congr ?_
  intro text used
  constructor
  · rintro ⟨_, _, ⟨hlt, rfl⟩, _, ⟨rfl, rfl⟩, rfl⟩
    exact ⟨hlt, rfl⟩
  · rintro ⟨hlt, rfl⟩
    exact ⟨text.length, _, ⟨hlt, rfl⟩, text, ⟨rfl, rfl⟩, rfl⟩

end Decode

/-! ## Instructions -/

/-- Bytes that are read as the instruction. -/
def Code.Spelled (c : Code) (used : Bytes) : Prop :=
  ∃ qualifier, Decode.codeOf c.op qualifier c.operand = c ∧
    used = c.op :: qualifier :: Encode.long c.operand.toUInt32.toNat

namespace Decode

@[simp] theorem op_codeOf (op qualifier : UInt8) (operand : Int32) :
    (codeOf op qualifier operand).op = op := by
  unfold codeOf
  split <;> rfl

@[simp] theorem operand_codeOf (op qualifier : UInt8) (operand : Int32) :
    (codeOf op qualifier operand).operand = operand := by
  unfold codeOf
  split <;> rfl

theorem takes_code : Takes code Code.Spelled := by
  refine ((takes_fixed 2).seq fun head => (takes_number 4).seq fun operand =>
    takes_pure (codeOf (head.getD 0 0) (head.getD 1 0) (UInt32.ofNat operand).toInt32)).congr ?_
  intro c used
  constructor
  · rintro ⟨head, _, ⟨hlength, rfl⟩, _, ⟨n, _, ⟨hlt, rfl⟩, _, ⟨rfl, rfl⟩, rfl⟩, rfl⟩
    obtain ⟨op, qualifier, rfl⟩ := List.length_eq_two.mp hlength
    have hoperand : (UInt32.ofNat n).toInt32.toUInt32.toNat = n := by
      rw [UInt32.toUInt32_toInt32, UInt32.toNat_ofNat_of_lt' hlt]
    refine ⟨qualifier, by simp, ?_⟩
    rw [op_codeOf, operand_codeOf, hoperand, List.append_nil]
    rfl
  · rintro ⟨qualifier, hc, rfl⟩
    refine ⟨[c.op, qualifier], _, ⟨rfl, rfl⟩, Encode.long c.operand.toUInt32.toNat,
      ⟨_, _, ⟨c.operand.toUInt32.toNat_lt, rfl⟩, [], ⟨?_, rfl⟩, ?_⟩, rfl⟩
    · rw [UInt32.ofNat_toNat, Int32.toInt32_toUInt32]
      exact hc.symm
    · rw [List.append_nil]
      rfl

end Decode

/-! ## Routines -/

namespace Frame

/-- A routine whose sizes fit their fields. -/
structure Sized (r : Frame) : Prop where
  name_le : r.name.length ≤ 65535
  maxStack_nonneg : 0 ≤ r.maxStack
  maxStack_le : r.maxStack ≤ 65535
  maxLocals_nonneg : 0 ≤ r.maxLocals
  maxLocals_le : r.maxLocals ≤ 65535
  code_lt : r.code.size < 2 ^ 32

/-- What is written before the code. -/
def front (r : Frame) : Bytes :=
  [Encode.short r.name.length, r.name, Encode.shortInt r.maxStack, Encode.shortInt r.maxLocals,
    Encode.long r.code.size].flatten

/-- Bytes that are read as the routine. -/
def Spelled (r : Frame) (used : Bytes) : Prop :=
  r.Sized ∧ ∃ codes, Decode.SpellsAll Code.Spelled r.code.toList codes ∧ used = r.front ++ codes

end Frame

namespace Decode

theorem shortInt_eq {n : Int} (hnonneg : 0 ≤ n) (hle : n ≤ 65535) :
    Encode.shortInt n = Bytes.bigEndian 2 n.toNat := by
  rw [Encode.shortInt, Encode.short]
  have h : n.emod 65536 = n := Int.emod_eq_of_lt hnonneg (by omega)
  rw [h]

theorem takes_frame : Takes frame Frame.Spelled := by
  refine ((takes_string 2).seq fun name => (takes_number 2).seq fun maxStack =>
    (takes_number 2).seq fun maxLocals => (takes_number 4).seq fun count =>
    (takes_code.many count).seq fun codes =>
    takes_pure ({ name, maxStack, maxLocals, code := codes.toArray } : Frame)).congr ?_
  intro r used
  constructor
  · rintro ⟨name, _, ⟨hname, rfl⟩, _, ⟨maxStack, _, ⟨hstack, rfl⟩, _,
      ⟨maxLocals, _, ⟨hlocals, rfl⟩, _, ⟨count, _, ⟨hcount, rfl⟩, _,
      ⟨codes, used, ⟨rfl, hcodes⟩, _, ⟨rfl, rfl⟩, rfl⟩, rfl⟩, rfl⟩, rfl⟩, rfl⟩
    refine ⟨⟨by dsimp only; omega, by dsimp only; omega, by dsimp only; omega, by dsimp only; omega,
      by dsimp only; omega, by simpa using hcount⟩, used, by simpa using hcodes, ?_⟩
    simp [Frame.front, shortInt_eq (n := maxStack) (by omega) (by omega),
      shortInt_eq (n := maxLocals) (by omega) (by omega), Encode.short, Encode.long]
  · rintro ⟨hsized, codes, hcodes, rfl⟩
    have h1 := hsized.name_le
    have h2 := hsized.maxStack_nonneg
    have h3 := hsized.maxStack_le
    have h4 := hsized.maxLocals_nonneg
    have h5 := hsized.maxLocals_le
    refine ⟨r.name, _, ⟨by omega, rfl⟩, _, ⟨r.maxStack.toNat, _, ⟨by omega, rfl⟩, _,
      ⟨r.maxLocals.toNat, _, ⟨by omega, rfl⟩, _, ⟨r.code.size, _, ⟨hsized.code_lt, rfl⟩, _,
      ⟨r.code.toList, codes, ⟨by simp, hcodes⟩, [], ⟨?_, rfl⟩, rfl⟩, rfl⟩, rfl⟩, rfl⟩, ?_⟩
    · rw [Int.toNat_of_nonneg h2, Int.toNat_of_nonneg h4]
    · simp [Frame.front, shortInt_eq h2 h3, shortInt_eq h4 h5, Encode.short, Encode.long]

end Decode

/-! ## Modules -/

namespace Module

/-- A module whose sizes fit their fields. -/
structure Sized (m : Module) : Prop where
  name_le : m.name.length ≤ 65535
  constants_lt : m.constants.size < 2 ^ 32
  constant_lt : ∀ text ∈ m.constants, text.length < 2 ^ 32
  routines_le : m.routines.length ≤ 65535
  routine : ∀ r ∈ m.routines, r.Sized

/-- What is written of the constants. -/
def pool (m : Module) : Bytes :=
  m.constants.toList.flatMap fun text => Encode.long text.length ++ text

/-- What is written between the mark and the routines. -/
def front (m : Module) : Bytes :=
  Encode.short m.name.length ++ (m.name ++ (Encode.long m.constants.size ++ (m.pool
    ++ Encode.short m.routines.length)))

/-- Bytes that are read as the module once its mark has been read. -/
def Spelled (m : Module) (used : Bytes) : Prop :=
  m.Sized ∧ ∃ frames, Decode.SpellsAll Frame.Spelled m.routines frames ∧ used = m.front ++ frames

end Module

namespace Decode

theorem takes_content : Takes content Module.Spelled := by
  refine ((takes_string 2).seq fun name => (takes_number 4).seq fun constantCount =>
    ((takes_string 4).many constantCount).seq fun constants =>
    (takes_number 2).seq fun routineCount =>
    (takes_frame.many routineCount).seq fun routines =>
    takes_pure ({ name, constants := constants.toArray, routines } : Module)).congr ?_
  intro m used
  constructor
  · rintro ⟨name, _, ⟨hname, rfl⟩, _, ⟨_, _, ⟨hcount, rfl⟩, _,
      ⟨constants, used, ⟨rfl, hconstants⟩, _, ⟨_, _, ⟨hroutines, rfl⟩, _,
      ⟨routines, used', ⟨rfl, hframes⟩, _, ⟨rfl, rfl⟩, rfl⟩, rfl⟩, rfl⟩, rfl⟩, rfl⟩
    obtain ⟨hlengths, rfl⟩ := spellsAll_exact.mp hconstants
    refine ⟨⟨by dsimp only; omega, by simpa using hcount, by simpa using hlengths,
      by dsimp only; omega, ?_⟩, used', hframes, ?_⟩
    · intro r hr
      obtain ⟨_, hpart⟩ := hframes.exists_of_mem hr
      exact hpart.1
    · simp [Module.front, Module.pool, Encode.short, Encode.long]
  · rintro ⟨hsized, frames, hframes, rfl⟩
    have hname := hsized.name_le
    have hroutines := hsized.routines_le
    refine ⟨m.name, _, ⟨by omega, rfl⟩, _, ⟨m.constants.size, _, ⟨hsized.constants_lt, rfl⟩, _,
      ⟨m.constants.toList, _, ⟨by simp, spellsAll_exact.mpr ⟨?_, rfl⟩⟩, _, ⟨m.routines.length, _,
      ⟨by omega, rfl⟩, _, ⟨m.routines, frames, ⟨rfl, hframes⟩, [], ⟨rfl, rfl⟩, rfl⟩, rfl⟩, rfl⟩,
      rfl⟩, ?_⟩
    · intro text htext
      exact hsized.constant_lt text (by simpa using htext)
    · simp [Module.front, Module.pool, Encode.short, Encode.long]

end Decode

namespace Module

/-- Bytes that spell a module are read as that module, if it can be loaded. -/
theorem decode_of_spelled {m : Module} {used : Bytes} (h : m.Spelled used) (rest : Bytes)
    (failure : Option Bytes) :
    decode { unread := Encode.magic ++ (used ++ rest), failure }
      = m.defect?.elim (.ok m) fun defect => .error (.invalid defect) := by
  have hmark : Decode.fixed 4 (Encode.magic ++ (used ++ rest)) = .ok (Encode.magic, used ++ rest) :=
    (Decode.takes_fixed 4 _ _ _).mpr ⟨_, ⟨rfl, rfl⟩, rfl⟩
  have hcontent : Decode.content (used ++ rest) = .ok (m, rest) :=
    (Decode.takes_content _ _ _).mpr ⟨used, h, rfl⟩
  unfold decode
  simp only [hmark, hcontent, ne_eq, not_true_eq_false, if_false]
  cases m.defect? <;> rfl

/-- Bytes that are read as a module spell it after the mark. -/
theorem spelled_of_decode {input : Input} {m : Module} (h : decode input = .ok m) :
    m.defect? = none ∧ ∃ used rest, m.Spelled used ∧
      input.unread = Encode.magic ++ (used ++ rest) := by
  unfold decode at h
  split at h
  · cases h
  · rename_i mark s hmark
    -- the mark, the content after it, and no defect
    obtain ⟨_, ⟨_, rfl⟩, hunread⟩ := (Decode.takes_fixed 4 _ _ _).mp hmark
    split at h
    · cases h
    · rename_i hmagic
      split at h
      · cases h
      · rename_i content rest hcontent
        obtain ⟨used, hused, rfl⟩ := (Decode.takes_content _ _ _).mp hcontent
        split at h
        · cases h
        · rename_i hdefect
          injection h with h
          subst h
          rw [not_not.mp hmagic] at hunread
          exact ⟨hdefect, used, rest, hused, hunread⟩

end Module

end Stackling
