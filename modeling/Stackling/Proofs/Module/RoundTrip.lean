import Mathlib.Data.List.TakeWhile
import Stackling.Proofs.Module.Spelling

/-!
# Encoding and decoding are inverse

What is written of a module spells it without the fields that its operations
have no use for (`Module.spelled_clear`). Conversely, any bytes that spell a
module are its written form, but for the bytes that are passed over
(`Module.Spelled.matches`). So

* **decoding inverts encoding** — `Module.decode_encode`;
* **encoding inverts decoding** — `Module.encode_decode`.
-/

namespace Stackling

/-! ## Unused fields -/

namespace Code

/-- Whether the operation is qualified by a kind. -/
def hasKind (c : Code) : Bool :=
  match c.opcode? with
  | some .pushText | some .load | some .store | some .print => true
  | _ => false

/-- Whether the operation is qualified by a relation. -/
def hasRelation (c : Code) : Bool := c.opcode? = some .branch

/-- The instruction without the fields that its operation has no use for. -/
def clear (c : Code) : Code :=
  { c with
    kind := if c.hasKind then c.kind else ⟨0⟩
    relation := if c.hasRelation then c.relation else ⟨0⟩ }

/-- Which bytes of an instruction are passed over: the second, if nothing
qualifies the operation. -/
def idle (c : Code) : List Bool :=
  [false, !c.hasKind && !c.hasRelation, false, false, false, false]

end Code

namespace Frame

/-- The routine without fields that its operations have no use for. -/
def clear (r : Frame) : Frame := { r with code := r.code.map Code.clear }

/-- Which bytes of a routine are passed over. Ten bytes and the name come before
its code. -/
def idle (r : Frame) : List Bool :=
  List.replicate (10 + r.name.length) false ++ r.code.toList.flatMap Code.idle

end Frame

namespace Module

/-- The module without fields that its operations have no use for. -/
def clear (m : Module) : Module := { m with routines := m.routines.map Frame.clear }

/-- Which bytes of an encoded module are passed over. -/
def idle (m : Module) : List Bool :=
  List.replicate (4 + (8 + m.name.length + m.pool.length)) false ++ m.routines.flatMap Frame.idle

end Module

/-- The bytes in which those that are passed over are zero. -/
def Bytes.wipe (idle : List Bool) (bytes : Bytes) : Bytes :=
  List.zipWith (fun isIdle b => if isIdle then 0 else b) idle bytes

theorem Bytes.wipe_append {idle idle' : List Bool} {bytes bytes' : Bytes}
    (h : idle.length = bytes.length) :
    wipe (idle ++ idle') (bytes ++ bytes') = wipe idle bytes ++ wipe idle' bytes' :=
  List.zipWith_append h

theorem Bytes.wipe_replicate (bytes : Bytes) :
    wipe (List.replicate bytes.length false) bytes = bytes := by
  induction bytes with
  | nil => rfl
  | cons b bytes ih => exact congrArg (b :: ·) ih

/-! ## Instructions -/

namespace Decode

/-- Only what qualifies the operation is kept. -/
theorem codeOf_qualifier (c : Code) : codeOf c.op (Encode.qualifier c) c.operand = c.clear := by
  unfold codeOf Encode.qualifier Code.clear Code.hasKind Code.hasRelation Code.opcode?
  cases Opcode.ofByte? c.op with
  | none => rfl
  | some op => cases op <;> rfl

theorem clear_codeOf (op qualifier : UInt8) (operand : Int32) :
    (codeOf op qualifier operand).clear = codeOf op qualifier operand := by
  unfold Code.clear Code.hasKind Code.hasRelation Code.opcode?
  rw [op_codeOf]
  unfold codeOf
  cases Opcode.ofByte? op with
  | none => rfl
  | some op => cases op <;> rfl

theorem qualifier_codeOf (op qualifier : UInt8) (operand : Int32) :
    Encode.qualifier (codeOf op qualifier operand) =
      if !(codeOf op qualifier operand).hasKind && !(codeOf op qualifier operand).hasRelation
      then 0 else qualifier := by
  unfold Encode.qualifier Code.hasKind Code.hasRelation Code.opcode?
  rw [op_codeOf]
  unfold codeOf
  cases Opcode.ofByte? op with
  | none => rfl
  | some op => cases op <;> rfl

end Decode

/-- An instruction is written as one of its spellings. -/
theorem Code.spelled_clear (c : Code) : c.clear.Spelled (Encode.code c).flatten := by
  refine ⟨Encode.qualifier c, ?_, ?_⟩
  · show Decode.codeOf c.op (Encode.qualifier c) c.operand = c.clear
    exact Decode.codeOf_qualifier c
  · simp [Encode.code, Code.clear]

/-- A value that has no unused fields, and bytes that are its written form but
for those that are passed over. -/
structure Encode.Matches {α : Type} (clear : α → α) (idle : α → List Bool) (written : α → Bytes)
    (a : α) (used : Bytes) : Prop where
  clear_eq : clear a = a
  length_eq : (idle a).length = used.length
  wipe_eq : Bytes.wipe (idle a) used = written a

theorem Code.Spelled.matches {c : Code} {used : Bytes} (h : c.Spelled used) :
    Encode.Matches Code.clear Code.idle (fun c => (Encode.code c).flatten) c used := by
  obtain ⟨qualifier, hc, rfl⟩ := h
  have hlength : (Encode.long c.operand.toUInt32.toNat).length = 4 := Bytes.length_bigEndian 4 _
  refine ⟨?_, by simp [Code.idle, hlength], ?_⟩
  · rw [← hc]
    exact Decode.clear_codeOf _ _ _
  · have hqualifier : Encode.qualifier c
        = if !c.hasKind && !c.hasRelation then 0 else qualifier := by
      have h := Decode.qualifier_codeOf c.op qualifier c.operand
      rwa [hc] at h
    have hoperand := Bytes.wipe_replicate (Encode.long c.operand.toUInt32.toNat)
    rw [hlength] at hoperand
    show c.op :: (if !c.hasKind && !c.hasRelation then 0 else qualifier)
        :: Bytes.wipe (List.replicate 4 false) (Encode.long c.operand.toUInt32.toNat) = _
    rw [hoperand, ← hqualifier]
    simp [Encode.code]

/-! ## Values in a row -/

section Rows

variable {α : Type} {Spells : α → Bytes → Prop} {clear : α → α} {idle : α → List Bool}
  {written : α → Bytes}

theorem Decode.spellsAll_map {as : List α} (h : ∀ a ∈ as, Spells (clear a) (written a)) :
    SpellsAll Spells (as.map clear) (as.flatMap written) := by
  induction as with
  | nil => exact spellsAll_nil.mpr rfl
  | cons a as ih =>
    rw [List.forall_mem_cons] at h
    exact spellsAll_cons.mpr ⟨_, h.1, _, ih h.2, rfl⟩

theorem Decode.SpellsAll.matches (h : ∀ a used, Spells a used →
    Encode.Matches clear idle written a used) {as : List α} {used : Bytes}
    (hused : SpellsAll Spells as used) :
    Encode.Matches (List.map clear) (List.flatMap idle) (List.flatMap written) as used := by
  induction as generalizing used with
  | nil =>
    obtain rfl := spellsAll_nil.mp hused
    exact ⟨rfl, rfl, rfl⟩
  | cons a as ih =>
    obtain ⟨first, hfirst, second, hsecond, rfl⟩ := spellsAll_cons.mp hused
    obtain ⟨hclear, hlength, hwipe⟩ := h a first hfirst
    obtain ⟨hclears, hlengths, hwipes⟩ := ih hsecond
    refine ⟨?_, ?_, ?_⟩
    · rw [List.map_cons, hclear, hclears]
    · rw [List.flatMap_cons, List.length_append, List.length_append, hlength, hlengths]
    · rw [List.flatMap_cons, List.flatMap_cons, Bytes.wipe_append hlength, hwipe, hwipes]

end Rows

/-! ## Routines -/

namespace Frame

theorem flatten_frame (r : Frame) : (Encode.frame r).flatten =
    r.front ++ r.code.toList.flatMap fun c => (Encode.code c).flatten := by
  rw [Encode.frame, List.flatten_append, front, List.flatMap_def, List.flatMap_def,
    List.flatten_flatten, List.map_map]
  rfl

theorem length_front (r : Frame) : r.front.length = 10 + r.name.length := by
  simp only [front, Encode.short, Encode.shortInt, Encode.long, List.flatten_cons, List.flatten_nil,
    List.length_append, List.length_nil, Bytes.length_bigEndian]
  omega

theorem spelled_clear {r : Frame} (h : r.Sized) : r.clear.Spelled (Encode.frame r).flatten := by
  refine ⟨⟨h.name_le, h.maxStack_nonneg, h.maxStack_le, h.maxLocals_nonneg, h.maxLocals_le, ?_⟩, ?_⟩
  · simpa [clear] using h.code_lt
  · rw [flatten_frame]
    refine ⟨r.code.toList.flatMap fun c => (Encode.code c).flatten, ?_, ?_⟩
    · rw [clear, Array.toList_map]
      exact Decode.spellsAll_map fun c _ => c.spelled_clear
    · simp [clear, front]

theorem Spelled.matches {r : Frame} {used : Bytes} (h : r.Spelled used) :
    Encode.Matches clear idle (fun r => (Encode.frame r).flatten) r used := by
  obtain ⟨_, codes, hcodes, rfl⟩ := h
  obtain ⟨hclear, hlength, hwipe⟩ := Decode.SpellsAll.matches (fun _ _ h => h.matches) hcodes
  have hfront : (List.replicate (10 + r.name.length) false).length = r.front.length := by
    rw [List.length_replicate, length_front]
  refine ⟨?_, ?_, ?_⟩
  · have hcode : r.code.map Code.clear = r.code := by
      apply Array.toList_inj.mp
      rw [Array.toList_map, hclear]
    rw [clear, hcode]
  · rw [idle, List.length_append, List.length_append, hfront, hlength]
  · rw [idle, Bytes.wipe_append hfront, hwipe, flatten_frame, ← length_front, Bytes.wipe_replicate]

end Frame

/-! ## Modules -/

theorem Encode.fits_iff {r : Frame} :
    fits r = true ↔ r.maxStack ≤ 65535 ∧ r.maxLocals ≤ 65535 := by
  rw [fits, Bool.and_eq_true, decide_eq_true_eq, decide_eq_true_eq]
  rfl

/-- The encoder looks at all sizes but those of the names of routines. -/
theorem Encode.refusal_eq_none_iff {m : Module} : (ofModule m).refusal = none ↔
    m.name.length ≤ maxShort ∧ m.routines.length ≤ maxShort ∧ ∀ r ∈ m.routines, fits r = true := by
  unfold ofModule
  by_cases hlarge : m.name.length > maxShort ∨ m.routines.length > maxShort
  · rw [if_pos hlarge]
    constructor
    · intro h
      cases h
    · rintro ⟨hname, hroutines, _⟩
      omega
  · rw [if_neg hlarge]
    show (frames m.routines).refusal = none ↔ _
    unfold frames
    rw [Option.map_eq_none_iff, List.find?_eq_none]
    constructor
    · intro h
      exact ⟨by omega, by omega, fun r hr => by simpa using h r hr⟩
    · rintro ⟨_, _, h⟩ r hr
      simp [h r hr]

namespace Module

theorem length_front (m : Module) : m.front.length = 8 + m.name.length + m.pool.length := by
  simp only [front, Encode.short, Encode.long, List.length_append, Bytes.length_bigEndian]
  omega

theorem sized_clear {m : Module} (h : m.Sized) : m.clear.Sized := by
  refine ⟨h.name_le, h.constants_lt, h.constant_lt, by simpa [clear] using h.routines_le, ?_⟩
  intro r hr
  obtain ⟨r, hmem, rfl⟩ := List.mem_map.mp hr
  exact (Frame.spelled_clear (h.routine r hmem)).1

theorem Sized.refusal_eq_none {m : Module} (h : m.Sized) : (Encode.ofModule m).refusal = none := by
  refine Encode.refusal_eq_none_iff.mpr ⟨h.name_le, h.routines_le, ?_⟩
  intro r hr
  exact Encode.fits_iff.mpr ⟨(h.routine r hr).maxStack_le, (h.routine r hr).maxLocals_le⟩

/-- What is written of a module that is not refused. -/
theorem flatten_pieces {m : Module} (h : (Encode.ofModule m).refusal = none) :
    (Encode.ofModule m).pieces.flatten
      = Encode.magic ++ (m.front ++ m.routines.flatMap fun r => (Encode.frame r).flatten) := by
  obtain ⟨hname, hroutines, hfits⟩ := Encode.refusal_eq_none_iff.mp h
  have hsmall : ¬(m.name.length > Encode.maxShort ∨ m.routines.length > Encode.maxShort) := by
    omega
  have hall : m.routines.takeWhile Encode.fits = m.routines := List.takeWhile_eq_self_iff.mpr hfits
  rw [Encode.ofModule, if_neg hsmall]
  simp [Encode.frames, hall, front, pool, List.flatMap_def, List.flatten_flatten,
    Function.comp_def]

end Module

/-! ## Outputs without a limit -/

namespace Output

/-- An output without a limit takes all pieces. -/
theorem writeAll_eq {output : Output} (h : output.limit = none) (pieces : List Bytes) :
    output.writeAll pieces = (output.append pieces.flatten, true) := by
  induction pieces generalizing output with
  | nil => simp [writeAll, append]
  | cons piece pieces ih =>
    have haccepts : output.accepts piece.length = true := by
      simp [accepts, h]
    have hnext : (output.append piece).limit = none := h
    rw [writeAll, if_pos haccepts, ih hnext, append_append, List.flatten_cons]

end Output

/-! ## Round trips -/

namespace Module

/-- What is written of a module spells the module without its unused fields. -/
theorem spelled_clear {m : Module} (h : m.Sized) :
    m.clear.Spelled (m.front ++ m.routines.flatMap fun r => (Encode.frame r).flatten) := by
  refine ⟨sized_clear h, _,
    Decode.spellsAll_map fun r hr => Frame.spelled_clear (h.routine r hr), ?_⟩
  simp [clear, front, pool]

/-- To an output without a limit all pieces are written, and only a refusal of the
module is an error. -/
theorem encode_unlimited (m : Module) {output : Output} (hlimit : output.limit = none) :
    m.encode output = (output.append (Encode.ofModule m).pieces.flatten,
      (Encode.ofModule m).refusal.map .refused) := by
  simp only [encode, Output.writeAll_eq hlimit]
  cases (Encode.ofModule m).refusal with
  | none | some refusal => rfl

theorem encode_of_sized {m : Module} (h : m.Sized) {output : Output}
    (hlimit : output.limit = none) :
    m.encode output = (output.append (Encode.magic
      ++ (m.front ++ m.routines.flatMap fun r => (Encode.frame r).flatten)), none) := by
  have hrefusal := h.refusal_eq_none
  rw [encode_unlimited m hlimit, hrefusal, flatten_pieces hrefusal]
  rfl

theorem Spelled.matches {m : Module} {used : Bytes} (h : m.Spelled used) :
    Encode.Matches clear idle (fun m => Encode.magic
      ++ (m.front ++ m.routines.flatMap fun r => (Encode.frame r).flatten)) m
      (Encode.magic ++ used) := by
  obtain ⟨_, frames, hframes, rfl⟩ := h
  obtain ⟨hclear, hlength, hwipe⟩ := Decode.SpellsAll.matches (fun _ _ h => h.matches) hframes
  -- nothing is passed over before the routines
  have hfront : 4 + (8 + m.name.length + m.pool.length) = (Encode.magic ++ m.front).length := by
    rw [List.length_append, length_front]
    rfl
  have hidle : m.idle = List.replicate (Encode.magic ++ m.front).length false
      ++ m.routines.flatMap Frame.idle := by
    rw [← hfront]
    rfl
  refine ⟨by rw [clear, hclear], ?_, ?_⟩
  · rw [hidle, ← List.append_assoc, List.length_append, List.length_replicate, hlength,
      @List.length_append _ _ frames]
  · rw [hidle, ← List.append_assoc, Bytes.wipe_append (by simp), Bytes.wipe_replicate, hwipe,
      List.append_assoc]

/-- Decoding inverts encoding: a module whose sizes fit their fields is written
without a refusal, and from what is written, whatever follows it, the module is
read again without its unused fields, or what is wrong with it is found. -/
theorem decode_encode {m : Module} (h : m.Sized) (output : Output) (hlimit : output.limit = none) :
    ∃ bytes, m.encode output = (output.append bytes, none) ∧
      ∀ rest failure, decode { unread := bytes ++ rest, failure }
        = m.clear.defect?.elim (.ok m.clear) fun defect => .error (.invalid defect) := by
  refine ⟨_, encode_of_sized h hlimit, ?_⟩
  intro rest failure
  rw [List.append_assoc]
  exact decode_of_spelled (spelled_clear h) rest failure

/-- A module with unused fields that are not zero, and a constant that is no
text. -/
def sample : Module where
  name := ascii "sample"
  constants := #[[0xFF, 10]]
  routines :=
    [{ name := entryName
       maxStack := 2
       maxLocals := 0
       code :=
        #[{ op := Opcode.openOutput.byte, kind := ⟨9⟩ },
          { op := Opcode.pushText.byte, kind := .ref, relation := ⟨7⟩ },
          { op := Opcode.print.byte, kind := .ref, operand := -1 }, { op := Opcode.ret.byte }] }]

theorem sample_sized : sample.Sized := by
  refine ⟨by decide, by decide, by decide, by decide, ?_⟩
  intro r hr
  obtain rfl := List.mem_singleton.mp hr
  exact ⟨by decide, by decide, by decide, by decide, by decide, by decide⟩

theorem decode_encode_sample : sample.Sized ∧ sample.clear ≠ sample ∧
    ∃ bytes, sample.encode {} = (Output.append {} bytes, none) ∧
      decode { unread := bytes ++ [1, 2], failure := some [3] } = .ok sample.clear := by
  obtain ⟨bytes, hencode, hdecode⟩ := Module.decode_encode sample_sized {} rfl
  have hdefect : sample.clear.defect? = none := by decide +kernel
  refine ⟨sample_sized, by decide +kernel, bytes, hencode, ?_⟩
  rw [hdecode, hdefect]
  rfl

/-- Encoding inverts decoding: a module that was read is written without a
refusal, as the bytes that it was read from, but for those that are passed over,
which are zero; and from what is written the module is read again. -/
theorem encode_decode {b : Bytes} {failure : Option Bytes} {m : Module}
    (h : decode { unread := b, failure } = .ok m) (output : Output) (hlimit : output.limit = none) :
    ∃ bytes, m.encode output = (output.append bytes, none) ∧
      m.idle.length = bytes.length ∧ bytes.length ≤ b.length ∧
      bytes = Bytes.wipe m.idle (b.take bytes.length) ∧ decode (.ofBytes bytes) = .ok m := by
  obtain ⟨hdefect, used, rest, hspelled, hb⟩ := spelled_of_decode h
  dsimp only at hb
  obtain ⟨hclear, hlength, hwipe⟩ := hspelled.matches
  -- wiping keeps the length, so what is written is as long as what was read
  have hwritten := congrArg List.length hwipe
  rw [Bytes.wipe, List.length_zipWith, hlength, Nat.min_self] at hwritten
  have hb' : b = (Encode.magic ++ used) ++ rest := by rw [hb, List.append_assoc]
  refine ⟨_, encode_of_sized hspelled.1 hlimit, hlength.trans hwritten, ?_, ?_, ?_⟩
  · rw [← hwritten, hb', @List.length_append _ _ rest]
    exact Nat.le_add_right _ _
  · rw [← hwritten, hb', List.take_left, hwipe]
  · have hread := decode_of_spelled (spelled_clear hspelled.1) [] none
    rw [hclear, hdefect, List.append_nil] at hread
    exact hread

/-- The bytes of a module of one return, whose second byte is not zero, and bytes
after it. -/
def padded : Bytes :=
  ascii "KCM1" ++ [0, 1, 77, 0, 0, 0, 0, 0, 1, 0, 4] ++ entryName
    ++ [0, 0, 0, 0, 0, 0, 0, 1, 17, 9, 0, 0, 0, 5, 8]

theorem encode_decode_padded : ∃ m, decode (.ofBytes padded) = .ok m ∧
    ∃ bytes, m.encode {} = (Output.append {} bytes, none) ∧ bytes.length + 1 = padded.length ∧
      bytes = Bytes.wipe m.idle (padded.take bytes.length) ∧ decode (.ofBytes bytes) = .ok m := by
  have hread : decode (.ofBytes padded) = .ok
      { name := [77], constants := #[]
        routines := [{ name := entryName, maxStack := 0, maxLocals := 0
                       code := #[{ op := Opcode.ret.byte, operand := 5 }] }] } := by
    decide
  obtain ⟨bytes, hencode, hlength, _, hbytes, hdecode⟩ :=
    Module.encode_decode hread {} rfl
  exact ⟨_, hread, bytes, hencode, by rw [← hlength]; decide, hbytes, hdecode⟩

end Module

end Stackling
