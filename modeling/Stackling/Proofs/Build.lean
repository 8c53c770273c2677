import Mathlib.Algebra.Order.Group.Nat
import Mathlib.Data.List.Forall2
import Mathlib.Tactic.Common
import Stackling.Build
import Stackling.Proofs.Module.Loadable
import Stackling.Proofs.Program.Readable

/-!
# The two ways to build a program

A program text is built as an encoded module, or as text assembly. Both lead to
the same module: what is decoded from the one is what the other is assembled to
(`Build.paths_agree`). For the encoded module this needs that compiled code can
be loaded (`Program.decode_of_encode`), for the text that it can be read
(`Program.compile_readable`).
-/

namespace Stackling

open Assemble

/-! ## Builds -/

namespace Build

/-- What is compiled has been parsed first. -/
theorem compile_ok {path : Option Bytes} {text : Input} {log : List LogRecord} {c : Compiled}
    (h : compile path text = (log, .ok c)) :
    ∃ p, Program.ofInput text = .ok p ∧ p.compile = .ok c := by
  unfold compile at h
  split at h
  · cases (Prod.mk.inj h).2
  · rename_i p hread
    split at h
    · cases (Prod.mk.inj h).2
    · rename_i c' hcompile
      obtain rfl := Except.ok.inj (Prod.mk.inj h).2
      exact ⟨p, hread, hcompile⟩

/-- A binary build that succeeds has taken every step to the encoded module. -/
theorem source_binary_ok {path : Option Bytes} {text : Input} {output : Output} {built : Built}
    (h : (source path text .binary output).result = .ok built) :
    ∃ p m, Program.ofInput text = .ok p ∧ p.compile = .ok built.compiled ∧
      built.compiled.unit.assemble = .ok m ∧ built.written = some m ∧
      m.encode output = ((source path text .binary output).output, none) := by
  unfold source at h ⊢
  split at h
  · cases h
  · rename_i log c hcompile
    obtain ⟨p, hread, hp⟩ := compile_ok hcompile
    cases hassemble : c.unit.assemble with
    | error e => simp [Sink.persist_of_assemble_error hassemble] at h
    | ok m =>
      rw [Sink.persist_of_assemble hassemble] at h
      cases hencode : m.encode output with
      | mk output' refused =>
        cases refused with
        | some e => simp [hencode] at h
        | none =>
          simp only [hencode, Option.elim_none, Except.ok.injEq] at h
          subst h
          refine ⟨p, m, hread, hp, hassemble, rfl, ?_⟩
          simp [Sink.persist_of_assemble hassemble, hencode]

/-- A text build writes the unit, if the output takes it. -/
theorem source_text {path : Option Bytes} {text : Input} {p : Program} {c : Compiled}
    (hread : Program.ofInput text = .ok p) (hcompile : p.compile = .ok c) {output : Output}
    (hlimit : output.limit = none) :
    (source path text .text output).output = output.append c.unit.format ∧
      (source path text .text output).result = .ok { compiled := c, written := none } := by
  have hpersist : Sink.text.persist c.unit output = (output.append c.unit.format, .ok none) := by
    simp [Sink.persist, Sink.writing, Output.writeAll, Output.accepts, hlimit]
  simp only [source, compile, hread, hcompile, hpersist, and_self]

end Build

/-! ## Compiled programs as encoded modules -/

namespace Program

variable {p : Program} {c : Compiled} {m : Module}

/-- A compiled program that was encoded has slots that can be numbered. -/
theorem slots_le_of_assemble (hcompile : p.compile = .ok c) (hassemble : c.unit.assemble = .ok m)
    (hrefusal : (Encode.ofModule m).refusal = none) : c.slots ≤ 65535 := by
  obtain ⟨_, code, supply, _, hsupply, hunit⟩ := compile_spec hcompile
  obtain ⟨_, _, hfits⟩ := Encode.refusal_eq_none_iff.mp hrefusal
  rw [hunit] at hassemble
  obtain ⟨r, hr, f, hentry, _, hasm⟩ := AsmUnit.assemble_entry hassemble
  obtain rfl := List.mem_singleton.mp hr
  obtain ⟨_, hfit⟩ := Encode.fits_iff.mp (hfits f (List.mem_of_find?_eq_some hentry))
  rw [hasm.maxLocals] at hfit
  have hlocals : (supply.slot : Int) ≤ slots (.main supply.slot code) := locals_le_slots _
  omega

/-- What was written of a compiled program is read as the module that it was
assembled to. -/
theorem decode_of_encode {input : Input} (hread : Program.ofInput input = .ok p)
    (hcompile : p.compile = .ok c) (hassemble : c.unit.assemble = .ok m)
    (hcount : c.unit.instructionCount < 2 ^ 31)
    (htexts : ∀ text ∈ c.unit.constants, text.length < 2 ^ 32)
    {output output' : Output} (hencode : m.encode output = (output', none)) :
    c.unit.IsReadable ∧
      ∃ bytes, output' = output.append bytes ∧ Module.decode (.ofBytes bytes) = .ok m := by
  obtain ⟨hrefusal, _⟩ := Module.encode_eq_none hencode
  -- the encoder has refused no size, so slots and labels can be written as numbers
  have hslots := slots_le_of_assemble hcompile hassemble hrefusal
  have hreadable := compile_readable hread hcompile (by omega)
  obtain ⟨_, code, supply, _, _, hunit⟩ := compile_spec hcompile
  have hmain : ∀ r ∈ c.unit.routines, r = .main supply.slot code := by
    intro r hr
    rw [hunit] at hr
    exact List.mem_singleton.mp hr
  have hsized : m.Sized := by
    apply AsmUnit.sized_of_assemble hassemble hrefusal hcount htexts
    intro r hr
    have hname : entryName.length ≤ 65535 := by decide
    refine ⟨?_, (hreadable.routine r hr).locals_nonneg⟩
    rw [hmain r hr]
    exact hname
  have hdefect : m.defect? = none := by
    refine (AsmUnit.defect?_eq_none_iff hassemble hsized ?_).mpr ⟨?_, ?_⟩
    · intro r hr i hi
      have hi := (hreadable.routine r hr).code i hi
      exact Instruction.isMeaningful_iff.mpr ⟨hi.sound, hi.qualified⟩
    · obtain ⟨_, hconstants, _⟩ := AsmUnit.assemble_spec hassemble
      omega
    · -- a return follows all labels
      intro r hr
      have hspan := AsmUnit.span_le_instructionCount hr
      rw [hmain r hr] at hspan ⊢
      exact enclosed_concat rfl (Nat.le_of_lt (Nat.lt_of_le_of_lt hspan hcount))
  obtain ⟨bytes, houtput, hdecode⟩ :=
    Module.decode_of_encode hencode hsized (AsmUnit.clear_of_assemble hassemble)
  rw [hdefect] at hdecode
  exact ⟨hreadable, bytes, houtput, hdecode⟩

end Program

/-! ## Both ways -/

/-- The two ways to build a program text agree: from what a binary build has
written, the module is decoded that the text assembly of the same program is
assembled to. -/
theorem Build.paths_agree {path path' : Option Bytes} {text : Input} {output : Output}
    {built : Built} (h : (source path text .binary output).result = .ok built)
    (hcount : built.compiled.unit.instructionCount < 2 ^ 31)
    (htexts : ∀ t ∈ built.compiled.unit.constants, t.length < 2 ^ 32) :
    ∃ written asm unit m,
      (source path text .binary output).output = output.append written ∧
      Module.decode (.ofBytes written) = .ok m ∧
      (∀ target : Output, target.limit = none →
        (source path' text .text target).output = target.append asm ∧
        (source path' text .text target).result = .ok { built with written := none }) ∧
      Assembly.read (.ofBytes asm) = .ok unit ∧ unit.assemble = .ok m ∧ built.written = some m := by
  obtain ⟨p, m, hread, hcompile, hassemble, hwritten, hencode⟩ := source_binary_ok h
  obtain ⟨hreadable, written, houtput, hdecode⟩ :=
    Program.decode_of_encode hread hcompile hassemble hcount htexts hencode
  refine ⟨written, built.compiled.unit.format, built.compiled.unit, m, houtput, hdecode, ?_,
    Assembly.read_format hreadable, hassemble, hwritten⟩
  intro target hlimit
  exact source_text hread hcompile hlimit

/-- A program text with a choice in it, and texts with a quote, a tab, a letter
outside ASCII and a byte that is no text. -/
def Build.mixed : Bytes :=
  ascii "PROGRAM mixed\nDECLARE INTEGER n\nBEGIN\nREAD n\nIF n > 0 THEN\nPRINT \""
    ++ [92, 34, 9, 0xC3, 0xA9] ++ ascii "\"\nELSE\nPRINT \"" ++ [0xFF] ++ ascii "\"\nENDIF\nEND\n"

theorem Build.paths_agree_mixed :
    ∃ built, (source none (.ofBytes mixed) .binary {}).result = .ok built ∧
      built.compiled.unit.instructionCount < 2 ^ 31 ∧
      (∀ t ∈ built.compiled.unit.constants, t.length < 2 ^ 32) ∧
      ∃ written asm unit m,
        (source none (.ofBytes mixed) .binary {}).output = Output.append {} written ∧
        Module.decode (.ofBytes written) = .ok m ∧
        (source none (.ofBytes mixed) .text {}).output = Output.append {} asm ∧
        Assembly.read (.ofBytes asm) = .ok unit ∧ unit.assemble = .ok m ∧
        m.constants = #[[0xFF], [92, 34, 9, 0xC3, 0xA9]] := by
  have hview : (source none (.ofBytes mixed) .binary {}).result.toOption.map (fun built =>
      (built.compiled.unit.instructionCount, built.compiled.unit.constants,
        built.written.map (·.constants)))
      = some (16, [[0xFF], [92, 34, 9, 0xC3, 0xA9]], some #[[0xFF], [92, 34, 9, 0xC3, 0xA9]]) := by
    decide +kernel
  cases hresult : (source none (.ofBytes mixed) .binary {}).result with
  | error e => rw [hresult] at hview; cases hview
  | ok built =>
    rw [hresult] at hview
    simp only [Except.toOption, Option.map_some, Option.some.injEq, Prod.mk.injEq] at hview
    obtain ⟨hcount, hconstants, hwritten⟩ := hview
    have hcount' : built.compiled.unit.instructionCount < 2 ^ 31 := by
      rw [hcount]
      decide
    have htexts : ∀ t ∈ built.compiled.unit.constants, t.length < 2 ^ 32 := by
      rw [hconstants]
      decide
    obtain ⟨written, asm, unit, m, hbinary, hdecode, htext, hread, hassemble, hm⟩ :=
      @Build.paths_agree none none _ _ _ hresult hcount' htexts
    rw [hm, Option.map_some] at hwritten
    exact ⟨built, rfl, hcount', htexts, written, asm, unit, m, hbinary, hdecode, (htext {} rfl).1,
      hread, hassemble, Option.some.inj hwritten⟩

end Stackling
