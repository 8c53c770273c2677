import Mathlib.Data.List.Basic
import Mathlib.Data.List.TakeWhile
import Mathlib.Tactic.Common
import Stackling.Proofs.Machine.Kind
import Stackling.Proofs.Module.Loadable

/-!
# Modules that were written in part

Writing a module can end early: the output is full, or a frame is refused after
other routines have been written. What was written until then is never read as a
module (`Module.rejects_of_partial`).

* **readers** — a reader that takes bytes for a value fails on all that comes
  before their end (`Decode.Takes.error_of_cut`);
* **streams** — whatever the frames of a module are, the pieces that are written
  of it start a stream that spells a module (`Module.Measured.stream_eq`);
* **outputs** — a piece that an output refuses is not empty, so something of the
  stream is missing (`Output.writeAll_cases`).
-/

namespace Stackling

/-! ## Readers -/

/-- Nothing that ends before a spelling does is taken for a value: the rest of
the spelling would otherwise be left over when all of it is read. -/
theorem Decode.Takes.error_of_cut {α : Type} {reader : Reader α} {Spells : α → Bytes → Prop}
    (h : Takes reader Spells) {a : α} {held missing : Bytes} (hspells : Spells a (held ++ missing))
    (hmissing : missing ≠ []) : ∃ shortage, reader held = .error shortage := by
  cases hheld : reader held with
  | error shortage => exact ⟨shortage, rfl⟩
  | ok result =>
    exfalso
    obtain ⟨first, hfirst, hsplit⟩ := (h held result.1 result.2).mp hheld
    have hwhole : reader (held ++ missing) = .ok (a, []) :=
      (h _ _ _).mpr ⟨_, hspells, (List.append_nil _).symm⟩
    have hagain : reader (held ++ missing) = .ok (result.1, result.2 ++ missing) := by
      apply (h _ _ _).mpr
      exact ⟨first, hfirst, by rw [hsplit, List.append_assoc]⟩
    rw [hwhole] at hagain
    obtain ⟨_, hnil⟩ := Prod.mk.inj (Except.ok.inj hagain)
    exact hmissing (List.append_eq_nil_iff.mp hnil.symm).2

/-- Bytes that are not read as a module, however they end. The error is that of a
bad module. -/
def Decode.Rejects (bytes : Bytes) : Prop :=
  ∀ failure, ∃ e, Module.decode { unread := bytes, failure } = .error e ∧ e.kind = .badModule

/-- The mark and a part of what spells a module are not read as a module. -/
theorem Module.Spelled.rejects {m : Module} {held missing : Bytes}
    (h : m.Spelled (held ++ missing)) (hmissing : missing ≠ []) :
    Decode.Rejects (Encode.magic ++ held) := by
  intro failure
  have hmark : Decode.fixed 4 (Encode.magic ++ held) = .ok (Encode.magic, held) :=
    (Decode.takes_fixed 4 _ _ _).mpr ⟨_, ⟨rfl, rfl⟩, rfl⟩
  obtain ⟨shortage, hcontent⟩ := Decode.takes_content.error_of_cut h hmissing
  refine ⟨.short (shortageMessage { unread := Encode.magic ++ held, failure } shortage), ?_, rfl⟩
  simp only [decode, hmark, hcontent, ne_eq, not_true_eq_false, if_false]

/-- A part of the mark is not read as a module. -/
theorem Decode.rejects_of_mark {held missing : Bytes} (h : Encode.magic = held ++ missing)
    (hmissing : missing ≠ []) : Rejects held := by
  intro failure
  obtain ⟨shortage, hmark⟩ := (takes_fixed 4).error_of_cut
    (a := Encode.magic) ⟨rfl, h.symm⟩ hmissing
  refine ⟨.short (Module.shortageMessage { unread := held, failure } shortage), ?_, rfl⟩
  simp only [Module.decode, hmark]

/-! ## Streams -/

namespace Frame

/-- The routine with the sizes that are written of its frame. -/
def wrapped (r : Frame) : Frame :=
  { r with maxStack := r.maxStack.emod 65536, maxLocals := r.maxLocals.emod 65536 }

theorem frame_wrapped (r : Frame) : Encode.frame r.wrapped = Encode.frame r := by
  have hsame : ∀ n : Int, Encode.shortInt (n.emod 65536) = Encode.shortInt n := by
    intro n
    show Encode.short (n % 65536 % 65536).toNat = Encode.short (n % 65536).toNat
    rw [Int.emod_emod]
  simp only [Encode.frame, wrapped, hsame]

end Frame

namespace Module

/-- A module whose names and counts fit their fields. The frames of its routines
may have any sizes. -/
structure Measured (m : Module) : Prop where
  name_le : m.name.length ≤ 65535
  constants_lt : m.constants.size < 2 ^ 32
  constant_lt : ∀ text ∈ m.constants, text.length < 2 ^ 32
  routines_le : m.routines.length ≤ 65535
  routine_name_le : ∀ r ∈ m.routines, r.name.length ≤ 65535
  code_lt : ∀ r ∈ m.routines, r.code.size < 2 ^ 32

/-- The module with the sizes that are written of its frames. -/
def wrapped (m : Module) : Module := { m with routines := m.routines.map Frame.wrapped }

theorem Measured.sized_wrapped {m : Module} (h : m.Measured) : m.wrapped.Sized := by
  refine ⟨h.name_le, h.constants_lt, h.constant_lt, ?_, ?_⟩
  · show (m.routines.map Frame.wrapped).length ≤ 65535
    rw [List.length_map]
    exact h.routines_le
  · intro r hr
    obtain ⟨r, hmem, rfl⟩ := List.mem_map.mp hr
    have hrange : ∀ n : Int, 0 ≤ n.emod 65536 ∧ n.emod 65536 ≤ 65535 := by
      intro n
      show 0 ≤ n % 65536 ∧ n % 65536 ≤ 65535
      omega
    exact ⟨h.routine_name_le r hmem, (hrange _).1, (hrange _).2, (hrange _).1, (hrange _).2,
      h.code_lt r hmem⟩

/-- All that would be written of a module if no frame were refused, after the
mark. -/
def stream (m : Module) : Bytes := m.front ++ m.routines.flatMap fun r => (Encode.frame r).flatten

theorem Measured.spelled_stream {m : Module} (h : m.Measured) :
    m.wrapped.clear.Spelled m.stream := by
  have hsame : m.wrapped.front ++ m.wrapped.routines.flatMap (fun r => (Encode.frame r).flatten)
      = m.stream := by
    simp only [stream, front, wrapped, pool, List.length_map, List.flatMap_map,
      Frame.frame_wrapped]
  rw [← hsame]
  exact spelled_clear h.sized_wrapped

/-- What is written of a module is the stream, without the routines from the first
refused one on. -/
theorem Measured.stream_eq {m : Module} (h : m.Measured) :
    ∃ missing, Encode.magic ++ m.stream = (Encode.ofModule m).pieces.flatten ++ missing ∧
      ((Encode.ofModule m).refusal ≠ none → missing ≠ []) := by
  have hname := h.name_le
  have hroutines := h.routines_le
  have hsmall : ¬(m.name.length > Encode.maxShort ∨ m.routines.length > Encode.maxShort) := by
    unfold Encode.maxShort
    omega
  refine ⟨(m.routines.dropWhile Encode.fits).flatMap fun r => (Encode.frame r).flatten, ?_, ?_⟩
  · -- the routines that fit and the others
    have hsplit : m.routines.flatMap (fun r => (Encode.frame r).flatten)
        = ((m.routines.takeWhile Encode.fits).flatMap fun r => (Encode.frame r).flatten)
          ++ (m.routines.dropWhile Encode.fits).flatMap fun r => (Encode.frame r).flatten := by
      rw [← List.flatMap_append, List.takeWhile_append_dropWhile]
    rw [stream, hsplit, Encode.ofModule, if_neg hsmall]
    simp [Encode.frames, front, pool, List.flatMap_def, List.flatten_flatten, Function.comp_def]
  · intro hrefusal hmissing
    apply hrefusal
    rw [Encode.refusal_eq_none_iff]
    refine ⟨by unfold Encode.maxShort; omega, by unfold Encode.maxShort; omega, ?_⟩
    -- a routine takes at least the ten bytes of its sizes, so none is missing
    have hnone : m.routines.dropWhile Encode.fits = [] := by
      cases hdrop : m.routines.dropWhile Encode.fits with
      | nil => rfl
      | cons r rest =>
        rw [hdrop, List.flatMap_cons, List.append_eq_nil_iff, Frame.flatten_frame,
          List.append_eq_nil_iff] at hmissing
        have hlength := r.length_front
        rw [hmissing.1.1, List.length_nil] at hlength
        omega
    exact List.dropWhile_eq_nil_iff.mp hnone

/-- A part of the stream of a module is not read as a module. -/
theorem Measured.rejects_of_cut {m : Module} (h : m.Measured) {held missing : Bytes}
    (hstream : Encode.magic ++ m.stream = held ++ missing) (hmissing : missing ≠ []) :
    Decode.Rejects held := by
  rcases List.append_eq_append_iff.mp hstream with ⟨part, rfl, hpart⟩ | ⟨part, hmark, hpart⟩
  · -- the mark is there, and part of what follows it
    have hspelled := h.spelled_stream
    rw [hpart] at hspelled
    exact hspelled.rejects hmissing
  · cases part with
    | nil =>
      -- the mark is there, and nothing else
      have hspelled := h.spelled_stream
      rw [List.nil_append] at hpart
      rw [← hpart, ← List.nil_append missing] at hspelled
      rw [List.append_nil] at hmark
      rw [← hmark, ← List.append_nil Encode.magic]
      exact hspelled.rejects hmissing
    | cons b part => exact Decode.rejects_of_mark hmark (List.cons_ne_nil b part)

end Module

/-! ## Outputs -/

namespace Output

theorem accepts_append {output : Output} {piece : Bytes} (h : output.accepts piece.length = true) :
    (output.append piece).accepts 0 = true := by
  have hsize : (output.content ++ piece).size = output.content.size + piece.length := by
    rw [← Array.length_toList, Array.toList_appendList, List.length_append, Array.length_toList]
  unfold accepts at h ⊢
  cases hlimit : output.limit with
  | none => simp only [append, hlimit]
  | some limit =>
    rw [hlimit] at h
    simpa only [append, hlimit, hsize, Nat.add_zero] using h

/-- An output that has not passed its limit takes all pieces, or those before one
that is not empty. -/
theorem writeAll_cases {output : Output} (h : output.accepts 0 = true) (pieces : List Bytes) :
    output.writeAll pieces = (output.append pieces.flatten, true) ∨
      ∃ written piece rest, pieces = written ++ piece :: rest ∧ piece ≠ [] ∧
        output.writeAll pieces = (output.append written.flatten, false) := by
  induction pieces generalizing output with
  | nil => exact .inl (by simp [writeAll, append])
  | cons piece pieces ih =>
    by_cases hpiece : output.accepts piece.length = true
    · rw [writeAll, if_pos hpiece]
      rcases ih (accepts_append hpiece) with hall | ⟨written, refused, rest, rfl, hrefused, hpart⟩
      · left
        rw [hall, append_append, List.flatten_cons]
      · right
        refine ⟨piece :: written, refused, rest, rfl, hrefused, ?_⟩
        rw [hpart, append_append, List.flatten_cons]
    · right
      refine ⟨[], piece, pieces, rfl, ?_, ?_⟩
      · rintro rfl
        exact hpiece h
      · rw [writeAll, if_neg hpiece]
        simp [append]

end Output

/-! ## Encoding -/

namespace Module

/-- Whether or not a module is refused, all that it has of pieces is offered to the
output. -/
theorem output_encode (m : Module) (output : Output) :
    (m.encode output).1 = (output.writeAll (Encode.ofModule m).pieces).1 := by
  unfold encode
  cases hrefusal : (Encode.ofModule m).refusal with
  | none => simp only [hrefusal]
  | some refusal => simp only [hrefusal]

/-- **What was written in part is never loaded.** A module whose names and counts
fit their fields is written to an empty output with any limit. If that fails, the
output holds no module: reading one from it fails, and the error is that of a bad
module. If it succeeds, the same is true of every part of what was written. -/
theorem rejects_of_partial {m : Module} (h : m.Measured) (limit : Option Nat) :
    (∀ output e, m.encode { limit } = (output, some e) → Decode.Rejects output.bytes) ∧
      ∀ output, m.encode { limit } = (output, none) →
        ∀ held, held <+: output.bytes → held ≠ output.bytes → Decode.Rejects held := by
  have hempty : Output.accepts { limit } 0 = true := by
    cases limit with
    | none => rfl
    | some n => exact decide_eq_true (Nat.zero_le n)
  have hbytes : ∀ bytes : Bytes, (Output.append { limit } bytes).bytes = bytes := by
    intro bytes
    simp [Output.append, Output.bytes]
  obtain ⟨missing, hstream, hrefused⟩ := h.stream_eq
  constructor
  · intro output e hencode
    have houtput : output = (Output.writeAll { limit } (Encode.ofModule m).pieces).1 := by
      rw [← output_encode, hencode]
    rcases Output.writeAll_cases hempty (Encode.ofModule m).pieces with
      hall | ⟨written, piece, rest, hpieces, hpiece, hpart⟩
    · -- everything was written, so a frame was refused and its routine is missing
      have hrefusal : (Encode.ofModule m).refusal ≠ none := by
        intro hnone
        simp [encode, hall, hnone] at hencode
      rw [houtput, hall, hbytes]
      exact h.rejects_of_cut hstream (hrefused hrefusal)
    · -- a piece was refused, and it is not empty
      have hcut : Encode.magic ++ m.stream
          = written.flatten ++ (piece ++ (rest.flatten ++ missing)) := by
        rw [hstream, hpieces, List.flatten_append, List.flatten_cons]
        simp only [List.append_assoc]
      rw [houtput, hpart, hbytes]
      exact h.rejects_of_cut hcut (by simp [hpiece])
  · intro output hencode held hheld hne
    obtain ⟨_, houtput⟩ := encode_eq_none hencode
    obtain ⟨rest, hrest⟩ := hheld
    rw [houtput, hbytes] at hrest hne
    have hcut : Encode.magic ++ m.stream = held ++ (rest ++ missing) := by
      rw [hstream, ← hrest, List.append_assoc]
    apply h.rejects_of_cut hcut
    intro hnil
    rw [(List.append_eq_nil_iff.mp hnil).1, List.append_nil] at hrest
    exact hne hrest

/-- A routine that could be run, and one whose frame is refused after it. -/
def torn : Module where
  name := ascii "torn"
  constants := #[]
  routines :=
    [{ name := entryName, maxStack := 0, maxLocals := 0, code := #[{ op := Opcode.ret.byte }] },
      { name := ascii "huge", maxStack := 65536, maxLocals := -1, code := #[] }]

theorem rejects_of_partial_torn :
    torn.Measured ∧
      (∃ output, torn.encode {} = (output, some (.refused (.frame (ascii "huge")))) ∧
        Decode.Rejects output.bytes) ∧
      (∃ output, sample.encode { limit := some 30 } = (output, some .full) ∧
        Decode.Rejects output.bytes) ∧
      ∃ output, sample.encode {} = (output, none) ∧ Decode.Rejects (output.bytes.take 50) := by
  have htorn : torn.Measured :=
    ⟨by decide, by decide, by decide, by decide, by decide, by decide⟩
  have hsample : sample.Measured :=
    ⟨by decide, by decide, by decide, by decide, by decide, by decide⟩
  refine ⟨htorn, ⟨_, rfl, (Module.rejects_of_partial htorn none).1 _ _ rfl⟩,
    ⟨_, rfl, (Module.rejects_of_partial hsample (some 30)).1 _ _ rfl⟩, _, rfl, ?_⟩
  apply (Module.rejects_of_partial hsample none).2 _ rfl
  · exact List.take_prefix _ _
  · decide +kernel

end Module

end Stackling
