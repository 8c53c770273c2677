import Mathlib.Tactic.Common
import Stackling.Build
import Stackling.Proofs.Module.RoundTrip

/-!
# What a binary sink writes

Units are handed to a binary sink one after another; its output has no limit.

* **modules** — a module that is too large as a whole is refused before anything is
  written of it (`Encode.ofModule_of_large`); a frame that is too large is found
  only when its routine is reached, after the mark and more
  (`Encode.ofModule_of_small`);
* **one unit** — so a unit that cannot be taken leaves no trace unless its error is
  that of a frame (`Sink.Taken`, `Sink.taken`);
* **many units** — this is so after any units before it
  (`Sink.binary_traceless_iff`).

A frame that is too large does leave a trace (`Sink.roomy_leaves_trace`).
-/

namespace Stackling

/-! ## Modules -/

namespace Encode

theorem ofModule_of_large {m : Module}
    (h : m.name.length > maxShort ∨ m.routines.length > maxShort) :
    ofModule m = { pieces := [], refusal := some .tooLarge } :=
  if_pos h

theorem ofModule_of_small {m : Module}
    (h : ¬(m.name.length > maxShort ∨ m.routines.length > maxShort)) :
    (∃ rest, (ofModule m).pieces.flatten = magic ++ rest) ∧
      (ofModule m).refusal = (m.routines.find? (!fits ·)).map fun r => .frame r.name := by
  rw [ofModule, if_neg h]
  exact ⟨⟨_, rfl⟩, rfl⟩

/-- Nothing is written of a module that is too large as a whole. -/
theorem pieces_of_tooLarge {m : Module} (h : (ofModule m).refusal = some .tooLarge) :
    (ofModule m).pieces = [] := by
  by_cases hlarge : m.name.length > maxShort ∨ m.routines.length > maxShort
  · rw [ofModule_of_large hlarge]
  · rw [(ofModule_of_small hlarge).2] at h
    obtain ⟨r, _, hr⟩ := Option.map_eq_some_iff.mp h
    cases hr

/-- When a frame is refused, the mark at least has been written. -/
theorem pieces_of_frame {m : Module} {name : Bytes}
    (h : (ofModule m).refusal = some (.frame name)) : (ofModule m).pieces.flatten ≠ [] := by
  by_cases hlarge : m.name.length > maxShort ∨ m.routines.length > maxShort
  · rw [ofModule_of_large hlarge] at h
    cases h
  · obtain ⟨⟨rest, hrest⟩, _⟩ := ofModule_of_small hlarge
    rw [hrest]
    exact List.cons_ne_nil _ _

/-- A frame is refused if it does not fit and the module is not too large as a whole. -/
theorem refusal_eq_frame_iff {m : Module} :
    (∃ name, (ofModule m).refusal = some (.frame name)) ↔
      m.name.length ≤ 65535 ∧ m.routines.length ≤ 65535 ∧
        ∃ r ∈ m.routines, 65535 < r.maxStack ∨ 65535 < r.maxLocals := by
  by_cases hlarge : m.name.length > maxShort ∨ m.routines.length > maxShort
  · rw [ofModule_of_large hlarge]
    unfold maxShort at hlarge
    constructor
    · rintro ⟨name, h⟩
      cases h
    · rintro ⟨hname, hroutines, _⟩
      omega
  · rw [(ofModule_of_small hlarge).2]
    unfold maxShort at hlarge
    have hfits : ∀ r : Frame, (!fits r) = true ↔ 65535 < r.maxStack ∨ 65535 < r.maxLocals := by
      intro r
      rw [Bool.not_eq_true', ← Bool.not_eq_true, fits_iff]
      omega
    constructor
    · rintro ⟨name, h⟩
      obtain ⟨r, hr, _⟩ := Option.map_eq_some_iff.mp h
      have hbig : (!fits r) = true := List.find?_some (p := fun r => !fits r) hr
      exact ⟨by omega, by omega, r, List.mem_of_find?_eq_some hr, (hfits r).mp hbig⟩
    · rintro ⟨_, _, r, hr, hbig⟩
      have hsome : (m.routines.find? (!fits ·)).isSome = true :=
        List.find?_isSome.mpr ⟨r, hr, (hfits r).mpr hbig⟩
      obtain ⟨first, hfirst⟩ := Option.isSome_iff_exists.mp hsome
      exact ⟨first.name, by rw [hfirst]; rfl⟩

end Encode

theorem Output.append_eq_self_iff {output : Output} {bytes : Bytes} :
    output.append bytes = output ↔ bytes = [] := by
  constructor
  · intro h
    have hlength := congrArg (fun o : Output => o.content.toList.length) h
    simp only [append, Array.toList_appendList, List.length_append] at hlength
    exact List.eq_nil_of_length_eq_zero (by omega)
  · rintro rfl
    simp [append]

/-! ## One unit -/

namespace Sink

/-- What comes of handing a unit to a binary sink: the state after it, and the error. -/
inductive Taken (s : SinkState) (unit : AsmUnit) : SinkState × Option SinkError → Prop
  | unassembled {e : Assemble.Error} (hassemble : unit.assemble = .error e) :
      Taken s unit (s, some (.assemble e))
  | tooLarge {m : Module} (hassemble : unit.assemble = .ok m)
      (hrefusal : (Encode.ofModule m).refusal = some .tooLarge) :
      Taken s unit (s, some (.encode (.refused .tooLarge)))
  | frame {m : Module} {name bytes : Bytes} (hassemble : unit.assemble = .ok m)
      (hrefusal : (Encode.ofModule m).refusal = some (.frame name)) (hbytes : bytes ≠ []) :
      Taken s unit
        ({ s with output := s.output.append bytes }, some (.encode (.refused (.frame name))))
  | written {m : Module} {bytes : Bytes} (hassemble : unit.assemble = .ok m)
      (hrefusal : (Encode.ofModule m).refusal = none)
      (hencode : m.encode {} = (Output.append {} bytes, none)) :
      Taken s unit ({ output := s.output.append bytes, written := some m }, none)

variable {s : SinkState} {unit : AsmUnit}

theorem taken (hlimit : s.output.limit = none) (unit : AsmUnit) :
    Taken s unit (binary.take s unit) := by
  unfold take
  cases hassemble : unit.assemble with
  | error e =>
    rw [persist_of_assemble_error hassemble]
    exact .unassembled hassemble
  | ok m =>
    rw [persist_of_assemble hassemble, Module.encode_unlimited m hlimit]
    cases hrefusal : (Encode.ofModule m).refusal with
    | none =>
      refine .written hassemble hrefusal ?_
      rw [Module.encode_unlimited m rfl, hrefusal]
      rfl
    | some refusal =>
      cases refusal with
      | tooLarge =>
        have hbytes := Encode.pieces_of_tooLarge hrefusal
        simp only [hbytes, List.flatten_nil, Output.append_eq_self_iff.mpr]
        exact .tooLarge hassemble hrefusal
      | frame name => exact .frame hassemble hrefusal (Encode.pieces_of_frame hrefusal)

/-- The error is that of a frame exactly if the module of the unit is refused for it. -/
theorem Taken.frame_iff {result : SinkState × Option SinkError} (h : Taken s unit result) :
    (∃ name, result.2 = some (.encode (.refused (.frame name)))) ↔
      ∃ m, unit.assemble = .ok m ∧ ∃ name, (Encode.ofModule m).refusal = some (.frame name) := by
  cases h with
  | unassembled hassemble => simp [hassemble]
  | tooLarge hassemble hrefusal => simp [hassemble, hrefusal]
  | frame hassemble hrefusal => simp [hassemble, hrefusal]
  | written hassemble hrefusal => simp [hassemble, hrefusal]

/-! ## Many units -/

/-- The state after units have been handed to a sink one after another. -/
def takeAll (sink : Sink) (state : SinkState) (units : List AsmUnit) : SinkState :=
  units.foldl (fun s unit => (sink.take s unit).1) state

theorem limit_takeAll {state : SinkState} (h : state.output.limit = none) (units : List AsmUnit) :
    (binary.takeAll state units).output.limit = none := by
  induction units generalizing state with
  | nil => exact h
  | cons unit units ih =>
    apply ih
    show (binary.take state unit).1.output.limit = none
    have htaken := taken h unit
    generalize binary.take state unit = result at htaken ⊢
    cases htaken with
    | _ => exact h

/-- **Only a frame that is too large leaves a trace.** Units are handed to a binary
sink one after another; its output has no limit. If one of them is taken, exactly the
encoded module is written, and that module is the last one from then on. If not, the
last module stays, and nothing is written exactly if the error is not that of a frame.
The error is that of a frame exactly if the unit is assembled to a module that is not
refused as a whole, but has a routine whose frame does not fit. -/
theorem binary_traceless_iff {start : SinkState} (hlimit : start.output.limit = none)
    (before : List AsmUnit) (unit : AsmUnit) {s t : SinkState} {e? : Option SinkError}
    (hs : binary.takeAll start before = s) (ht : binary.take s unit = (t, e?)) :
    (e? = none → ∃ m bytes, unit.assemble = .ok m ∧
      m.encode {} = (Output.append {} bytes, none) ∧
      t = { output := s.output.append bytes, written := some m }) ∧
    (∀ e, e? = some e → t.written = s.written ∧
      (t.output = s.output ↔ ∀ name, e ≠ .encode (.refused (.frame name)))) ∧
    ((∃ name, e? = some (.encode (.refused (.frame name)))) ↔
      ∃ m, unit.assemble = .ok m ∧ m.name.length ≤ 65535 ∧ m.routines.length ≤ 65535 ∧
        ∃ r ∈ m.routines, 65535 < r.maxStack ∨ 65535 < r.maxLocals) := by
  have htaken := taken (hs ▸ limit_takeAll hlimit before) unit
  rw [ht] at htaken
  refine ⟨?_, ?_, ?_⟩
  · rintro rfl
    cases htaken with
    | written hassemble _ hencode => exact ⟨_, _, hassemble, hencode, rfl⟩
  · rintro e rfl
    cases htaken with
    | unassembled | tooLarge => exact ⟨rfl, iff_of_true rfl fun name h => by cases h⟩
    | frame _ _ hbytes =>
      refine ⟨rfl, iff_of_false ?_ fun h => h _ rfl⟩
      exact fun h => hbytes (Output.append_eq_self_iff.mp h)
  · have hframe := htaken.frame_iff
    simp only [Encode.refusal_eq_frame_iff] at hframe
    exact hframe

/-- A unit that returns at once. -/
def plain : AsmUnit where
  name := ascii "plain"
  routines := [{ name := entryName, locals := 0, code := [.ret] }]

/-- A unit that asks for one slot more than its field can tell. -/
def roomy : AsmUnit where
  name := ascii "roomy"
  routines := [{ name := entryName, locals := 65536, code := [.ret] }]

theorem binary_traceless_iff_roomy :
    Output.limit {} = none ∧
    ∃ s t, binary.takeAll { output := {} } [plain] = s ∧
      binary.take s roomy = (t, some (.encode (.refused (.frame entryName)))) ∧
      s.written.isSome = true ∧ t.written = s.written ∧ t.output ≠ s.output := by
  have hplain : (binary.takeAll { output := {} } [plain]).written.isSome = true := by
    decide +kernel
  have herror : (binary.take (binary.takeAll { output := {} } [plain]) roomy).2
      = some (.encode (.refused (.frame entryName))) := by
    decide +kernel
  have ht : binary.take (binary.takeAll { output := {} } [plain]) roomy
      = ((binary.take (binary.takeAll { output := {} } [plain]) roomy).1,
          some (.encode (.refused (.frame entryName)))) :=
    Prod.ext rfl herror
  obtain ⟨_, hfailed, _⟩ := @binary_traceless_iff { output := {} } rfl [plain] roomy _ _ _ rfl ht
  obtain ⟨hwritten, houtput⟩ := hfailed _ rfl
  exact ⟨rfl, _, _, rfl, ht, hplain, hwritten, fun h => houtput.mp h entryName rfl⟩

/-- A frame that is too large is refused too late: the mark, the name and both counts
have been written before the error. -/
theorem roomy_leaves_trace : ∃ s, binary.take { output := {} } roomy
      = (s, some (.encode (.refused (.frame entryName)))) ∧
    s.output.bytes = ascii "KCM1" ++ [0, 5] ++ ascii "roomy" ++ [0, 0, 0, 0, 0, 1] := by
  refine ⟨(binary.take { output := {} } roomy).1, Prod.ext rfl ?_, ?_⟩
  · decide +kernel
  · decide +kernel

end Sink

end Stackling
