import Mathlib.Algebra.Group.Int.Defs
import Mathlib.Algebra.Order.Group.Nat
import Mathlib.Tactic.Common
import Stackling.Proofs.Machine.Kind
import Stackling.Proofs.Module.RoundTrip

/-!
# Sizes in two bytes

Five kinds of sizes are written in two bytes: the length of a module's name, the
number of its routines, and for each routine the length of its name, its stack
depth and its number of slots. `Module.sizes` lists them all, with the places of
their bytes.

* **fields** — two bytes hold a size up to multiples of 65536
  (`Encode.shortAt_of_drop`), and this is what is written of every size
  (`Module.shortAt_of_mem_sizes`);
* **checks** — the encoder refuses every size that does not fit, but for the names
  of routines (`Module.refusal_eq_none_iff_sizes`);
* **together** — all other sizes are written as they are, and the length of a
  routine's name is written as it is only if it fits (`Module.encode_sizes`). A
  longer one is cut without an error (`Module.longNamed_is_cut`).
-/

namespace Stackling

/-! ## Fields -/

/-- The number in the two bytes at a place. -/
def Bytes.shortAt (bytes : Bytes) (offset : Nat) : Nat := ofBigEndian ((bytes.drop offset).take 2)

/-- What a size is the size of. -/
inductive Measure where
  | moduleName
  | routineCount
  | routineName
  | maxStack
  | maxLocals
  deriving DecidableEq, Repr

/-- A size that an encoded module has in two bytes. -/
structure Size where
  measure : Measure
  /-- The place of the two bytes. -/
  offset : Nat
  /-- The size itself. -/
  value : Int
  deriving DecidableEq, Repr

/-- The sizes of routines, the first of which is written from the given place on.
A routine takes ten bytes, those of its name, and six for each instruction. -/
def Frame.sizesFrom : Nat → List Frame → List Size
  | _, [] => []
  | offset, r :: rs =>
    { measure := .routineName, offset, value := r.name.length }
      :: { measure := .maxStack, offset := offset + 2 + r.name.length, value := r.maxStack }
      :: { measure := .maxLocals, offset := offset + 4 + r.name.length, value := r.maxLocals }
      :: sizesFrom (offset + (10 + r.name.length + 6 * r.code.size)) rs

/-- All sizes that an encoded module has in two bytes. The mark takes four bytes,
and so does the number of constants. -/
def Module.sizes (m : Module) : List Size :=
  { measure := .moduleName, offset := 4, value := m.name.length }
    :: { measure := .routineCount, offset := 10 + m.name.length + m.pool.length
         value := m.routines.length }
    :: Frame.sizesFrom (12 + m.name.length + m.pool.length) m.routines

/-! ## What is written -/

namespace Encode

@[simp] theorem length_short (n : Nat) : (short n).length = 2 := Bytes.length_bigEndian 2 n

@[simp] theorem length_shortInt (n : Int) : (shortInt n).length = 2 := length_short _

@[simp] theorem length_long (n : Nat) : (long n).length = 4 := Bytes.length_bigEndian 4 n

/-- Two bytes hold a number up to multiples of 65536. -/
theorem shortAt_of_drop {bytes after : Bytes} {offset n : Nat}
    (h : bytes.drop offset = short n ++ after) : bytes.shortAt offset = n % 65536 := by
  have htake : (bytes.drop offset).take 2 = short n := by
    rw [h, ← length_short n, List.take_left]
  rw [Bytes.shortAt, htake]
  exact Bytes.ofBigEndian_bigEndian 2 n

theorem shortAt_of_drop_int {bytes after : Bytes} {offset : Nat} {n : Int}
    (h : bytes.drop offset = shortInt n ++ after) : (bytes.shortAt offset : Int) = n % 65536 := by
  rw [shortAt_of_drop h]
  show (((n % 65536).toNat % 65536 : Nat) : Int) = n % 65536
  omega

end Encode

/-- What stands after a piece. -/
theorem Bytes.drop_of_drop {bytes piece after : Bytes} {offset next : Nat}
    (h : bytes.drop offset = piece ++ after) (hnext : offset + piece.length = next) :
    bytes.drop next = after := by
  rw [← hnext, ← List.drop_drop, h, List.drop_left]

namespace Frame

theorem length_flatten_frame (r : Frame) :
    (Encode.frame r).flatten.length = 10 + r.name.length + 6 * r.code.size := by
  have hcodes : ∀ cs : List Code,
      (cs.flatMap fun c => (Encode.code c).flatten).length = 6 * cs.length := by
    intro cs
    induction cs with
    | nil => rfl
    | cons c cs ih =>
      rw [List.flatMap_cons, List.length_append, ih, List.length_cons]
      simp only [Encode.code, List.flatten_cons, List.flatten_nil, List.length_append,
        List.length_cons, List.length_nil, Encode.length_long]
      omega
  rw [flatten_frame, List.length_append, length_front, hcodes, Array.length_toList]

/-- Every size of a routine is written, up to multiples of 65536. -/
theorem shortAt_of_mem_sizesFrom {rs : List Frame} {bytes : Bytes} {offset : Nat}
    (hbytes : bytes.drop offset = rs.flatMap fun r => (Encode.frame r).flatten) {s : Size}
    (hs : s ∈ sizesFrom offset rs) : (bytes.shortAt s.offset : Int) = s.value % 65536 := by
  induction rs generalizing offset with
  | nil => cases hs
  | cons r rs ih =>
    rw [List.flatMap_cons] at hbytes
    -- the routine field by field
    have hname : bytes.drop offset = Encode.short r.name.length ++ (r.name
        ++ (Encode.shortInt r.maxStack ++ (Encode.shortInt r.maxLocals ++ (Encode.long r.code.size
        ++ ((r.code.toList.flatMap fun c => (Encode.code c).flatten)
        ++ rs.flatMap fun r => (Encode.frame r).flatten))))) := by
      simpa [flatten_frame, front] using hbytes
    have hafter := Bytes.drop_of_drop hname rfl
    have hstack := Bytes.drop_of_drop hafter rfl
    have hlocals := Bytes.drop_of_drop hstack rfl
    rw [Encode.length_short] at hstack hlocals
    rw [Encode.length_shortInt] at hlocals
    simp only [sizesFrom, List.mem_cons] at hs
    rcases hs with rfl | rfl | rfl | hs
    · rw [Encode.shortAt_of_drop hname]
      rfl
    · exact Encode.shortAt_of_drop_int hstack
    · have hplace : offset + 4 + r.name.length = offset + 2 + r.name.length + 2 := by omega
      show (bytes.shortAt (offset + 4 + r.name.length) : Int) = _
      rw [hplace]
      exact Encode.shortAt_of_drop_int hlocals
    · exact ih (Bytes.drop_of_drop hbytes (by rw [length_flatten_frame])) hs

end Frame

namespace Module

variable {m : Module}

/-- Every size of a module is written, up to multiples of 65536. -/
theorem shortAt_of_mem_sizes {bytes : Bytes}
    (hbytes : bytes = Encode.magic
      ++ (m.front ++ m.routines.flatMap fun r => (Encode.frame r).flatten)) {s : Size}
    (hs : s ∈ m.sizes) : (bytes.shortAt s.offset : Int) = s.value % 65536 := by
  have hmark : bytes.drop 0 = Encode.magic
      ++ (m.front ++ m.routines.flatMap fun r => (Encode.frame r).flatten) := hbytes
  have hfront : bytes.drop 4 = m.front ++ m.routines.flatMap fun r => (Encode.frame r).flatten :=
    Bytes.drop_of_drop hmark rfl
  have hname : bytes.drop 4 = Encode.short m.name.length ++ (m.name
      ++ (Encode.long m.constants.size ++ (m.pool ++ (Encode.short m.routines.length
      ++ m.routines.flatMap fun r => (Encode.frame r).flatten)))) := by
    simpa [front] using hfront
  have hcount := Bytes.drop_of_drop (Bytes.drop_of_drop (Bytes.drop_of_drop
    (Bytes.drop_of_drop hname rfl) rfl) rfl) rfl
  simp only [Encode.length_short, Encode.length_long] at hcount
  simp only [sizes, List.mem_cons] at hs
  rcases hs with rfl | rfl | hs
  · rw [Encode.shortAt_of_drop hname]
    rfl
  · have hplace : 10 + m.name.length + m.pool.length
        = 4 + 2 + m.name.length + 4 + m.pool.length := by
      omega
    show (bytes.shortAt (10 + m.name.length + m.pool.length) : Int) = _
    rw [hplace, Encode.shortAt_of_drop hcount]
    rfl
  · refine Frame.shortAt_of_mem_sizesFrom (Bytes.drop_of_drop hfront ?_) hs
    rw [length_front]
    omega

end Module

/-! ## What is refused -/

theorem Frame.forall_sizesFrom {offset : Nat} {rs : List Frame} :
    (∀ s ∈ sizesFrom offset rs, s.measure ≠ .routineName → s.value ≤ 65535) ↔
      ∀ r ∈ rs, Encode.fits r = true := by
  induction rs generalizing offset with
  | nil => simp [sizesFrom]
  | cons r rs ih =>
    simp only [sizesFrom, List.forall_mem_cons, ih, ne_eq, not_true_eq_false, false_implies,
      reduceCtorEq, not_false_eq_true, true_implies, true_and, Encode.fits_iff, and_assoc]

namespace Module

variable {m : Module}

/-- The encoder refuses a module for a size that does not fit, unless it is that of
a routine's name. -/
theorem refusal_eq_none_iff_sizes : (Encode.ofModule m).refusal = none ↔
    ∀ s ∈ m.sizes, s.measure ≠ .routineName → s.value ≤ 65535 := by
  have hsmall : ∀ n : Nat, n ≤ Encode.maxShort ↔ (n : Int) ≤ 65535 := by
    intro n
    unfold Encode.maxShort
    omega
  rw [Encode.refusal_eq_none_iff, hsmall, hsmall]
  simp only [sizes, List.forall_mem_cons, Frame.forall_sizesFrom, ne_eq, reduceCtorEq,
    not_false_eq_true, true_implies]

theorem value_nonneg_of_mem_sizes
    (h : ∀ r ∈ m.routines, 0 ≤ r.maxStack ∧ 0 ≤ r.maxLocals) {s : Size} (hs : s ∈ m.sizes) :
    0 ≤ s.value := by
  have hframes : ∀ {rs : List Frame} {offset : Nat},
      (∀ r ∈ rs, 0 ≤ r.maxStack ∧ 0 ≤ r.maxLocals) →
      ∀ s ∈ Frame.sizesFrom offset rs, 0 ≤ s.value := by
    intro rs offset hrs
    induction rs generalizing offset with
    | nil => simp [Frame.sizesFrom]
    | cons r rs ih =>
      rw [List.forall_mem_cons] at hrs
      simp only [Frame.sizesFrom, List.forall_mem_cons]
      exact ⟨Int.natCast_nonneg _, hrs.1.1, hrs.1.2, ih hrs.2⟩
  simp only [sizes, List.mem_cons] at hs
  rcases hs with rfl | rfl | hs
  · exact Int.natCast_nonneg _
  · exact Int.natCast_nonneg _
  · exact hframes h s hs

/-- **Only the names of routines are cut.** A module is written to an output without
a limit. This fails, with the error of a bad module, exactly if a size other than the
length of a routine's name does not fit two bytes. If it succeeds, all these sizes
are written as they are, and the length of a routine's name is written up to
multiples of 65536. -/
theorem encode_sizes (hnonneg : ∀ r ∈ m.routines, 0 ≤ r.maxStack ∧ 0 ≤ r.maxLocals)
    {output : Output} (hlimit : output.limit = none) :
    ((m.encode output).2 = none ↔
      ∀ s ∈ m.sizes, s.measure ≠ .routineName → s.value ≤ 65535) ∧
    (∀ e, (m.encode output).2 = some e → e.kind = .badModule) ∧
    ∀ after, m.encode output = (after, none) → ∃ bytes, after = output.append bytes ∧
      ∀ s ∈ m.sizes, (bytes.shortAt s.offset : Int) = s.value % 65536 ∧
        (s.measure ≠ .routineName → (bytes.shortAt s.offset : Int) = s.value) := by
  rw [encode_unlimited m hlimit]
  refine ⟨?_, ?_, ?_⟩
  · rw [← refusal_eq_none_iff_sizes]
    exact Option.map_eq_none_iff
  · intro e he
    obtain ⟨refusal, _, rfl⟩ := Option.map_eq_some_iff.mp he
    rfl
  · intro after hafter
    obtain ⟨hafter, hnone⟩ := Prod.mk.inj hafter
    have hrefusal := Option.map_eq_none_iff.mp hnone
    refine ⟨_, hafter.symm, ?_⟩
    intro s hs
    have hwritten := shortAt_of_mem_sizes (flatten_pieces hrefusal) hs
    refine ⟨hwritten, ?_⟩
    intro hmeasure
    have hle := refusal_eq_none_iff_sizes.mp hrefusal s hs hmeasure
    have hge := value_nonneg_of_mem_sizes hnonneg hs
    rw [hwritten]
    omega

/-- The name of a routine that is longer than its field can tell. -/
def longName : Bytes := List.replicate 65536 97

theorem length_longName : longName.length = 65536 := List.length_replicate

/-- A module with a routine of that name after the entry. -/
def longNamed : Module where
  name := ascii "m"
  constants := #[]
  routines :=
    [{ name := entryName, maxStack := 0, maxLocals := 0, code := #[{ op := Opcode.ret.byte }] },
      { name := longName, maxStack := 1, maxLocals := 0
        code := #[{ op := Opcode.pushInt.byte }, { op := Opcode.ret.byte }] }]

theorem sizes_longNamed : longNamed.sizes =
    [⟨.moduleName, 4, 1⟩, ⟨.routineCount, 11, 2⟩, ⟨.routineName, 13, 4⟩, ⟨.maxStack, 19, 0⟩,
      ⟨.maxLocals, 21, 0⟩, ⟨.routineName, 33, 65536⟩, ⟨.maxStack, 65571, 1⟩,
      ⟨.maxLocals, 65573, 0⟩] := by
  simp [sizes, Frame.sizesFrom, longNamed, length_longName, entryName, ascii, pool]

theorem fit_longNamed : ∀ s ∈ longNamed.sizes, s.measure ≠ .routineName → s.value ≤ 65535 := by
  rw [sizes_longNamed]
  decide

theorem encode_sizes_longNamed :
    (∀ r ∈ longNamed.routines, 0 ≤ r.maxStack ∧ 0 ≤ r.maxLocals) ∧ Output.limit {} = none ∧
    ∃ bytes, longNamed.encode {} = (Output.append {} bytes, none) ∧
      bytes.shortAt 33 = 0 ∧ bytes.shortAt 65571 = 1 := by
  have hnonneg : ∀ r ∈ longNamed.routines, 0 ≤ r.maxStack ∧ 0 ≤ r.maxLocals := by
    simp [longNamed]
  obtain ⟨hnone, _, hwritten⟩ := Module.encode_sizes hnonneg (rfl : Output.limit {} = none)
  have hencode : longNamed.encode {} = ((longNamed.encode {}).1, none) :=
    Prod.ext rfl (hnone.mpr fit_longNamed)
  obtain ⟨bytes, hbytes, hsizes⟩ := hwritten _ hencode
  rw [hbytes] at hencode
  rw [sizes_longNamed] at hsizes
  have hcut := (hsizes ⟨.routineName, 33, 65536⟩ (by decide)).1
  have hdepth := (hsizes ⟨.maxStack, 65571, 1⟩ (by decide)).2 (by decide)
  exact ⟨hnonneg, rfl, bytes, hencode, Int.ofNat_inj.mp hcut, Int.ofNat_inj.mp hdepth⟩

/-- The length of a name can be lost: the module is written without an error, and
the field for the length of the name, which is 65536, holds zero. What was written
is not read as the module. -/
theorem longNamed_is_cut :
    (∀ r ∈ longNamed.routines, 0 ≤ r.maxStack ∧ 0 ≤ r.maxLocals ∧ r.code.size < 2 ^ 32) ∧
    longNamed.constants = #[] ∧
    ∃ bytes, longNamed.encode {} = (Output.append {} bytes, none) ∧
      (∃ s ∈ longNamed.sizes, s.measure = .routineName ∧ s.value = 65536 ∧
        bytes.shortAt s.offset = 0) ∧
      decode (.ofBytes bytes) ≠ .ok longNamed := by
  have hrefusal : (Encode.ofModule longNamed).refusal = none :=
    refusal_eq_none_iff_sizes.mpr fit_longNamed
  have hmem : (⟨.routineName, 33, 65536⟩ : Size) ∈ longNamed.sizes := by
    rw [sizes_longNamed]
    decide
  refine ⟨by simp [longNamed], rfl, (Encode.ofModule longNamed).pieces.flatten, ?_, ?_, ?_⟩
  · rw [encode_unlimited longNamed rfl, hrefusal]
    rfl
  · have hcut := shortAt_of_mem_sizes (flatten_pieces hrefusal) hmem
    exact ⟨_, hmem, rfl, rfl, Int.ofNat_inj.mp hcut⟩
  · intro hdecode
    -- whatever is read has names that fit their fields
    obtain ⟨_, used, rest, hspelled, _⟩ := spelled_of_decode hdecode
    have hle := (hspelled.1.routine _ (List.mem_cons_of_mem _ List.mem_cons_self)).name_le
    rw [length_longName] at hle
    omega

end Module

end Stackling
