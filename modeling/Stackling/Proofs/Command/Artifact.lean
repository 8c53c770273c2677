import Mathlib.Algebra.Order.Group.Nat
import Mathlib.Tactic.Common
import Stackling.Proofs.Build
import Stackling.Proofs.Command.Arguments

/-!
# What the compiler command leaves behind

A compilation works on a temporary file, which is where nothing was before. It
changes no other file until the temporary file is renamed, and that is the last
thing that can fail. So

* **failures** — a command that does not succeed leaves all files as they were, if
  the temporary file can be removed;
* **successes** — a compilation that succeeds changes the file at the path of the
  result and no other, and what it writes there is the program of the source
  (`Compiler.Request.Delivered`).

Both are stated for any lawful file system, and in terms of the arguments and the
settings (`Compiler.command_artifact`).
-/

namespace Stackling

open FileView

/-! ## Builds -/

/-- A text that was parsed was read to its end. -/
theorem Program.failure_of_ofInput {input : Input} {p : Program}
    (h : Program.ofInput input = .ok p) : input.failure = none := by
  obtain ⟨toks, htoks, _⟩ := Parser.program_eq_ok_of_ofInput h
  unfold Token.ofInput Lexer.read at htoks
  dsimp only at htoks
  split at htoks
  · cases htoks
  · split at htoks
    · cases htoks
    · assumption

namespace Compiler

/-- `Yields asText text p c bytes`: the text is that of a program `p`, which compiles to
`c`, and the bytes are its text assembly or, if that is not asked for, an encoded module
that is read as the module of the program, if its code is not too long to be addressed. -/
structure Yields (asText : Bool) (text : Bytes) (p : Program) (c : Compiled) (bytes : Bytes) :
    Prop where
  parsed : Program.ofInput (.ofBytes text) = .ok p
  compiled : p.compile = .ok c
  assembly : asText = true → bytes = c.unit.format
  encoded : asText = false → ∃ m, c.unit.assemble = .ok m ∧
    (c.unit.instructionCount < 2 ^ 31 → (∀ t ∈ c.unit.constants, t.length < 2 ^ 32) →
      Module.decode (.ofBytes bytes) = .ok m)

/-- An empty text is no program. -/
theorem Yields.ne_nil {asText : Bool} {text bytes : Bytes} {p : Program} {c : Compiled}
    (h : Yields asText text p c bytes) : text ≠ [] := by
  rintro rfl
  cases h.parsed

/-- A binary sink that writes all of a module has written what is decoded to it. -/
theorem decode_writing {input : Input} {p : Program} {c : Compiled}
    (hread : Program.ofInput input = .ok p) (hcompile : p.compile = .ok c)
    (h : (Sink.binary.writing c.unit).failure = none) : ∃ m, c.unit.assemble = .ok m ∧
      (c.unit.instructionCount < 2 ^ 31 → (∀ t ∈ c.unit.constants, t.length < 2 ^ 32) →
        Module.decode (.ofBytes (Sink.binary.writing c.unit).pieces.flatten) = .ok m) := by
  unfold Sink.writing at h ⊢
  cases hassemble : c.unit.assemble with
  | error e => simp [hassemble] at h
  | ok m =>
    simp only [hassemble, Option.map_eq_none_iff] at h
    refine ⟨m, rfl, fun hcount htexts => ?_⟩
    have hencode := @Module.encode_unlimited m {} rfl
    rw [h] at hencode
    obtain ⟨_, bytes, houtput, hdecode⟩ :=
      Program.decode_of_encode hread hcompile hassemble hcount htexts hencode
    have hbytes := congrArg Output.bytes houtput
    rw [Output.bytes_append, Output.bytes_append] at hbytes
    rw [List.append_cancel_left hbytes]
    exact hdecode

/-- All that a job writes for a program is what it asks for. -/
theorem Job.yields {job : Job} {input : Input} {p : Program} {c : Compiled}
    (hread : Program.ofInput input = .ok p) (hcompile : p.compile = .ok c)
    (h : (job.sink.writing c.unit).failure = none) :
    Yields job.settings.emitText input.unread p c (job.sink.writing c.unit).pieces.flatten := by
  have hinput : input = .ofBytes input.unread := by
    obtain ⟨unread, failure⟩ := input
    obtain rfl : failure = none := Program.failure_of_ofInput hread
    rfl
  refine ⟨hinput ▸ hread, hcompile, fun htext => ?_, fun hbinary => ?_⟩
  · simp [sink, htext, Sink.writing]
  · have hsink : job.sink = .binary := by simp [sink, hbinary]
    rw [hsink] at h ⊢
    exact decode_writing hread hcompile h

section Delivered

variable {σ : Type} [FileView σ]

/-- `job.Sourced s c bytes`: the file at the path of the program text yields the
bytes. -/
def Job.Sourced (job : Job) (s : σ) (c : Compiled) (bytes : Bytes) : Prop :=
  ∃ source text p, find? s job.path = some source ∧ get? s source = some (.file text) ∧
    Yields job.settings.emitText text p c bytes

/-- The program text does not come from an empty file. -/
theorem Job.Sourced.of_sameBut {job : Job} {s s₁ : σ} {place : Spot σ} {c : Compiled}
    {bytes : Bytes} (h : job.Sourced s₁ c bytes) (hbut : SameBut place s s₁)
    (hempty : get? s₁ place = some (.file [])) : job.Sourced s c bytes := by
  obtain ⟨source, text, p, hsource, htext, hyields⟩ := h
  have hne : source ≠ place := by
    rintro rfl
    obtain rfl := Entry.file.inj (Option.some.inj (htext.symm.trans hempty))
    exact hyields.ne_nil rfl
  exact ⟨source, text, p, (hbut.find? _).symm.trans hsource,
    (hbut.get? source hne).symm.trans htext, hyields⟩

/-- `job.Writes place s s' result`: at most the file at the place is written. If there is a
result, that file has what the job asks for. -/
structure Job.Writes (job : Job) (place : Spot σ) (s s' : σ)
    (result : Except Failure Compiled) : Prop where
  rewritten : Rewritten place s s'
  content : ∀ c, result = .ok c →
    ∃ bytes, job.Sourced s c bytes ∧ get? s' place = some (.file bytes)

theorem Job.Writes.of_error {job : Job} {s s' : σ} {place : Spot σ} {e : Failure}
    (h : Rewritten place s s') : job.Writes place s s' (.error e) :=
  ⟨h, fun c hc => by cases hc⟩

/-- Where the result goes: to the path that the arguments give, or else to a file with
the given name in the directory of the settings, or else beside the program text. -/
inductive Request.IsTarget (request : Request) (settings : Settings) (name : Bytes) :
    Bytes → Prop
  | given (h : request.output ≠ []) : IsTarget request settings name request.output
  | inDirectory (h : request.output = []) (hdir : settings.outputDir ≠ []) :
      IsTarget request settings name (Path.join settings.outputDir name)
  | beside (h : request.output = []) (hdir : settings.outputDir = []) :
      IsTarget request settings name (Path.join (Path.dir request.path) name)

/-- `request.Delivered settings s s' target`: in state `s'` the result stands at a place,
which the path of the result leads to; nothing else is different from state `s`, in
which the program text is read. -/
structure Request.Delivered (request : Request) (settings : Settings) (s s' : σ)
    (target : Spot σ) : Prop where
  same : SameBut target s s'
  result : ∃ source text p c bytes path,
    find? s request.path = some source ∧ get? s source = some (.file text) ∧
    Yields (settings.emitText || request.emitText) text p c bytes ∧
    request.IsTarget settings
      (p.name ++ if settings.emitText || request.emitText then ascii ".kca" else ascii ".kcm")
      path ∧
    find? s path = some target ∧ get? s' target = some (.file bytes)

theorem Request.isTarget_target {request : Request} {settings : Settings} (program : Bytes) :
    request.IsTarget settings
      (program ++ if settings.emitText || request.emitText then ascii ".kca" else ascii ".kcm")
      ((request.job settings).target program) := by
  unfold Job.target Job.dir Job.suffix
  by_cases houtput : request.output = []
  · by_cases hdir : settings.outputDir = []
    · simp only [job, houtput, hdir, ne_eq, not_true_eq_false, if_false]
      exact .beside houtput hdir
    · simp only [job, houtput, hdir, ne_eq, not_true_eq_false, if_false, not_false_eq_true, if_true]
      exact .inDirectory houtput hdir
  · simp only [job, houtput, ne_eq, not_false_eq_true, if_true]
    exact .given houtput

theorem Request.Delivered.congr {request : Request} {settings : Settings} {s s₁ s₂ s' : σ}
    {target : Spot σ} (hbefore : Same s s₁) (h : request.Delivered settings s₁ s₂ target)
    (hafter : Same s₂ s') : request.Delivered settings s s' target := by
  obtain ⟨hbut, source, text, p, c, bytes, path, hsource, htext, hyields, hpath, hfind, hget⟩ := h
  rw [hbefore.find?] at hsource hfind
  rw [hbefore.get?] at htext
  exact ⟨(hbefore.sameBut.trans hbut).trans hafter.sameBut, source, text, p, c, bytes, path,
    hsource, htext, hyields, hpath, hfind, (hafter.get? target).trans hget⟩

end Delivered

/-! ## Parts of the command -/

section Parts

variable {σ : Type} [MonadFiles (StateM σ)] {s s' : σ}

/-- A run is a compilation, after which the temporary file is removed. -/
theorem Job.run_cases {job : Job} {report : Report} (h : Runs job.run s report s') :
    ∃ temp? s₁, Runs job.compile s (temp?, report) s₁ ∧ ((temp? = none ∧ s' = s₁) ∨
      ∃ temp removed, temp? = some temp ∧ Runs (MonadFiles.removeFile temp) s₁ removed s') := by
  unfold run at h
  obtain ⟨⟨temp?, compiled⟩, s₁, hcompile, h⟩ := runs_bind.mp h
  split at h
  · rename_i heq
    obtain ⟨rfl, rfl⟩ := Prod.mk.inj heq
    obtain ⟨rfl, rfl⟩ := runs_pure.mp h
    exact ⟨none, s₁, hcompile, .inl ⟨rfl, rfl⟩⟩
  · rename_i heq
    obtain ⟨rfl, rfl⟩ := Prod.mk.inj heq
    obtain ⟨removed, s₂, hremove, h⟩ := runs_bind.mp h
    obtain ⟨rfl, rfl⟩ := runs_pure.mp h
    exact ⟨_, s₁, hcompile, .inr ⟨_, removed, rfl, hremove⟩⟩

/-- A command ends with its preparation, or runs the job. -/
theorem command_cases {args : List Bytes} {result : CommandResult}
    (h : Runs (command args) s result s') :
    Runs (prepare args) s (.error result) s' ∨ ∃ job s₁ report, Runs (prepare args) s (.ok job) s₁ ∧
      Runs (Job.run job) s₁ report s' ∧ result = conclude job report := by
  unfold command at h
  obtain ⟨prepared, s₁, hprepare, h⟩ := runs_bind.mp h
  split at h
  · obtain ⟨rfl, rfl⟩ := runs_pure.mp h
    exact .inl hprepare
  · obtain ⟨report, s₂, hrun, h⟩ := runs_bind.mp h
    obtain ⟨rfl, rfl⟩ := runs_pure.mp h
    exact .inr ⟨_, s₁, report, hprepare, hrun, rfl⟩

end Parts

theorem exit_conclude {job : Job} {report : Report} :
    (conclude job report).exit = 0 ↔ report.failure = none := by
  unfold conclude
  dsimp only
  split
  · rename_i hnone
    exact iff_of_true rfl hnone
  · rename_i hsome
    exact iff_of_false Nat.one_ne_zero (by simp [hsome])

end Compiler

/-! ## Runs of the command -/

section Runs

variable {σ : Type} [FileView σ] [MonadFiles (StateM σ)] [LawfulFiles σ] {s s' : σ}

theorem Settings.load_same {path : Bytes} {result : Except LoadError Settings}
    (h : Runs (Settings.load path) s result s') : Same s s' := by
  unfold Settings.load at h
  split at h
  · obtain ⟨_, rfl⟩ := runs_pure.mp h
    exact .refl s
  · obtain ⟨opened, s₁, hopen, h⟩ := runs_bind.mp h
    have hsame := LawfulFiles.open_same hopen
    suffices hrest : s₁ = s' from hrest ▸ hsame
    split at h
    · exact (runs_pure.mp h).2
    · split at h
      · exact (runs_pure.mp h).2
      · exact (runs_pure.mp h).2

namespace Compiler

theorem prepare_same {args : List Bytes} {result : Except CommandResult Job}
    (h : Runs (prepare args) s result s') : Same s s' := by
  unfold prepare at h
  split at h
  · obtain ⟨_, rfl⟩ := runs_pure.mp h
    exact .refl s
  · split at h
    · obtain ⟨loaded, s₁, hload, h⟩ := runs_bind.mp h
      have hsame := Settings.load_same hload
      suffices hrest : s₁ = s' from hrest ▸ hsame
      split at h
      · exact (runs_pure.mp h).2
      · exact (runs_pure.mp h).2
    · obtain ⟨_, rfl⟩ := runs_pure.mp h
      exact .refl s

/-- Pieces that are all taken stand at the end of the file. Whatever happens, no other
file is changed. -/
theorem appendAll_spec {path old : Bytes} {place : Spot σ} {pieces : List Bytes}
    {e? : Option FileError} (hfind : find? s path = some place)
    (hfile : get? s place = some (.file old)) (h : Runs (appendAll path pieces) s e? s') :
    Rewritten place s s' ∧
      (e? = none → get? s' place = some (.file (old ++ pieces.flatten))) := by
  induction pieces generalizing s old with
  | nil =>
    obtain ⟨_, rfl⟩ := runs_pure.mp h
    exact ⟨⟨(Same.refl s).sameBut, old, hfile⟩, fun _ => by simpa using hfile⟩
  | cons piece pieces ih =>
    unfold appendAll at h
    obtain ⟨written, s₁, hwrite, h⟩ := runs_bind.mp h
    obtain ⟨hrewritten, hcontent⟩ := LawfulFiles.appendFile hfind hfile hwrite
    split at h
    · obtain ⟨rfl, rfl⟩ := runs_pure.mp h
      exact ⟨hrewritten, fun hnone => by cases hnone⟩
    · obtain ⟨hrest, hall⟩ := ih ((hrewritten.find? path).trans hfind) (hcontent rfl) h
      refine ⟨hrewritten.toSameBut.rewritten hrest, fun hnone => ?_⟩
      rw [hall hnone, List.flatten_cons, List.append_assoc]

namespace Job

variable {job : Job} {temp : Bytes} {place : Spot σ} {report : Report}

/-- A unit is written to the temporary file and no other. If nothing fails, the sink has
written all of it. -/
theorem persist_spec {unit : AsmUnit} {e? : Option Failure} (hfind : find? s temp = some place)
    (hfile : get? s place = some (.file [])) (h : Runs (job.persist temp unit) s e? s') :
    Rewritten place s s' ∧ (e? = none → (job.sink.writing unit).failure = none ∧
      get? s' place = some (.file (job.sink.writing unit).pieces.flatten)) := by
  unfold persist at h
  obtain ⟨appended, s₁, happend, h⟩ := runs_bind.mp h
  obtain ⟨hrewritten, hcontent⟩ := appendAll_spec hfind hfile happend
  split at h
  · obtain ⟨rfl, rfl⟩ := runs_pure.mp h
    exact ⟨hrewritten, fun hnone => by cases hnone⟩
  · obtain ⟨rfl, rfl⟩ := runs_pure.mp h
    exact ⟨hrewritten, fun hnone => by cases hnone⟩
  · rename_i hfailure
    obtain ⟨_, rfl⟩ := runs_pure.mp h
    exact ⟨hrewritten, fun _ => ⟨hfailure, hcontent rfl⟩⟩

theorem compileFile_writes (hfind : find? s temp = some place)
    (hfile : get? s place = some (.file [])) {log : List LogRecord}
    {result : Except Failure Compiled}
    (h : Runs (compileFile job.path (job.persist temp)) s (log, result) s') :
    job.Writes place s s' result := by
  unfold compileFile at h
  obtain ⟨opened, s₁, hopen, h⟩ := runs_bind.mp h
  have hsame := LawfulFiles.open_same hopen
  have hfile' : get? s₁ place = some (.file []) := (hsame.get? place).trans hfile
  have hunchanged : Rewritten place s s₁ := ⟨hsame.sameBut, [], hfile'⟩
  split at h
  · obtain ⟨heq, rfl⟩ := runs_pure.mp h
    obtain ⟨_, rfl⟩ := Prod.mk.inj heq
    exact .of_error hunchanged
  · rename_i input
    split at h
    · obtain ⟨heq, rfl⟩ := runs_pure.mp h
      obtain ⟨_, rfl⟩ := Prod.mk.inj heq
      exact .of_error hunchanged
    · rename_i c hcompiled
      obtain ⟨persisted, s₂, hpersist, h⟩ := runs_bind.mp h
      obtain ⟨hrewritten, hwritten⟩ :=
        persist_spec ((hsame.find? temp).trans hfind) hfile' hpersist
      have hchanged := hsame.sameBut.rewritten hrewritten
      split at h
      · obtain ⟨heq, rfl⟩ := runs_pure.mp h
        obtain ⟨_, rfl⟩ := Prod.mk.inj heq
        exact .of_error hchanged
      · obtain ⟨heq, rfl⟩ := runs_pure.mp h
        obtain ⟨_, rfl⟩ := Prod.mk.inj heq
        refine ⟨hchanged, fun c' hc => ?_⟩
        obtain rfl := Except.ok.inj hc
        obtain ⟨hfailure, hcontent⟩ := hwritten rfl
        obtain ⟨p, hread, hcompile⟩ := Build.compile_ok hcompiled
        obtain ⟨source, hsource, htext⟩ :=
          LawfulFiles.open_ok hopen (Program.failure_of_ofInput hread)
        exact ⟨_, ⟨source, input.unread, p, hsource, htext, yields hread hcompile hfailure⟩,
          hcontent⟩

/-- Also a file that cannot be closed is the only one that is written. -/
theorem build_writes (hfind : find? s temp = some place) (hfile : get? s place = some (.file []))
    {log : List LogRecord} {result : Except Failure Compiled}
    (h : Runs (job.build temp) s (log, result) s') : job.Writes place s s' result := by
  unfold build at h
  obtain ⟨⟨log', compiled⟩, s₁, hcompile, h⟩ := runs_bind.mp h
  obtain ⟨closed, s₂, hclose, h⟩ := runs_bind.mp h
  have hwrites := compileFile_writes hfind hfile hcompile
  obtain ⟨content, hcontent⟩ := hwrites.rewritten.isFile
  have hfind' : find? s₁ temp = some place := (hwrites.rewritten.find? temp).trans hfind
  have hchanged := hwrites.rewritten.toSameBut.rewritten
    (LawfulFiles.closeFile hfind' hcontent hclose).1
  split at h
  · obtain ⟨heq, rfl⟩ := runs_pure.mp h
    obtain ⟨_, rfl⟩ := Prod.mk.inj heq
    exact .of_error hchanged
  · obtain ⟨heq, rfl⟩ := runs_pure.mp h
    obtain ⟨_, rfl⟩ := Prod.mk.inj heq
    exact .of_error hchanged
  · obtain ⟨heq, rfl⟩ := runs_pure.mp h
    obtain ⟨_, rfl⟩ := Prod.mk.inj heq
    refine ⟨hchanged, fun c hc => ?_⟩
    obtain ⟨bytes, hsourced, hbytes⟩ := hwrites.content c hc
    exact ⟨bytes, hsourced, (LawfulFiles.closeFile hfind' hbytes hclose).2 rfl⟩

/-- What becomes of an empty temporary file: it is written if the compilation fails,
and goes to the path of the result if it succeeds. -/
theorem finish_spec (hfind : find? s temp = some place) (hfile : get? s place = some (.file []))
    (h : Runs (job.finish temp) s report s') :
    (report.failure ≠ none → Rewritten place s s') ∧
      (report.failure = none → ∃ c bytes target, job.Sourced s c bytes ∧
        find? s (job.target c.unit.name) = some target ∧ Moved place target bytes s s') := by
  unfold finish at h
  obtain ⟨⟨log, result⟩, s₁, hbuild, h⟩ := runs_bind.mp h
  obtain ⟨hrewritten, hbuilt⟩ := build_writes hfind hfile hbuild
  split at h
  · obtain ⟨rfl, rfl⟩ := runs_pure.mp h
    exact ⟨fun _ => hrewritten, fun hnone => by cases hnone⟩
  · rename_i heq
    obtain ⟨_, rfl⟩ := Prod.mk.inj heq
    obtain ⟨bytes, hsourced, hbytes⟩ := hbuilt _ rfl
    split at h
    · obtain ⟨rfl, rfl⟩ := runs_pure.mp h
      exact ⟨fun _ => hrewritten, fun hnone => by cases hnone⟩
    · obtain ⟨renamed, s₂, hrename, h⟩ := runs_bind.mp h
      split at h
      · obtain ⟨rfl, rfl⟩ := runs_pure.mp h
        exact ⟨fun _ => hrewritten.same (LawfulFiles.renameFile_error hrename),
          fun hnone => by cases hnone⟩
      · obtain ⟨rfl, rfl⟩ := runs_pure.mp h
        refine ⟨fun hsome => (hsome rfl).elim, fun _ => ?_⟩
        obtain ⟨target, htarget, hmoved⟩ :=
          LawfulFiles.renameFile_ok ((hrewritten.find? temp).trans hfind) hbytes hrename
        exact ⟨_, bytes, target, hsourced, (hrewritten.find? _).symm.trans htarget,
          hrewritten.toSameBut.moved hmoved⟩

/-- A compilation fails before it has changed anything, or goes on with an empty file
where nothing was. -/
theorem compile_cases {temp? : Option Bytes} (h : Runs job.compile s (temp?, report) s') :
    (temp? = none ∧ report.failure ≠ none ∧ Same s s') ∨
      ∃ temp place s₁, temp? = some temp ∧ find? s temp = some place ∧ get? s place = none ∧
        SameBut place s s₁ ∧ get? s₁ place = some (.file []) ∧
        Runs (job.finish temp) s₁ report s' := by
  unfold compile at h
  obtain ⟨created, s₁, hcreate, h⟩ := runs_bind.mp h
  split at h
  · obtain ⟨heq, rfl⟩ := runs_pure.mp h
    obtain ⟨rfl, rfl⟩ := Prod.mk.inj heq
    exact .inl ⟨rfl, by simp, LawfulFiles.createTemp_error hcreate⟩
  · rename_i temp
    obtain ⟨finished, s₂, hfinish, h⟩ := runs_bind.mp h
    obtain ⟨heq, rfl⟩ := runs_pure.mp h
    obtain ⟨rfl, rfl⟩ := Prod.mk.inj heq
    obtain ⟨place, hfind, hnone, hempty, hbut⟩ := LawfulFiles.createTemp_ok hcreate
    exact .inr ⟨temp, place, s₁, rfl, hfind, hnone, hbut, hempty, hfinish⟩

/-- A compilation that fails changes its temporary file at most. -/
theorem compile_failed {temp? : Option Bytes} (h : Runs job.compile s (temp?, report) s')
    (hfailed : report.failure ≠ none) :
    (temp? = none ∧ Same s s') ∨ ∃ temp place, temp? = some temp ∧
      find? s temp = some place ∧ get? s place = none ∧ Rewritten place s s' := by
  rcases compile_cases h with
    ⟨hnone, _, hsame⟩ | ⟨temp, place, s₁, rfl, hfind, hnone, hbut, hempty, hfinish⟩
  · exact .inl ⟨hnone, hsame⟩
  · have hlater := (finish_spec ((hbut.find? temp).trans hfind) hempty hfinish).1 hfailed
    exact .inr ⟨temp, place, rfl, hfind, hnone, hbut.rewritten hlater⟩

/-- A compilation that succeeds has brought its result to the path of the result. Nothing
is left at the place of the temporary file, unless the result stands there. -/
theorem compile_ok {temp? : Option Bytes} (h : Runs job.compile s (temp?, report) s')
    (hok : report.failure = none) : ∃ temp place c bytes target, temp? = some temp ∧
      find? s temp = some place ∧ job.Sourced s c bytes ∧
      find? s (job.target c.unit.name) = some target ∧ SameBut target s s' ∧
      get? s' target = some (.file bytes) ∧ (place ≠ target → get? s' place = none) := by
  rcases compile_cases h with
    ⟨_, hfailed, _⟩ | ⟨temp, place, s₁, rfl, hfind, hnone, hbut, hempty, hfinish⟩
  · exact (hfailed hok).elim
  · obtain ⟨c, bytes, target, hsourced, htarget, hmoved⟩ :=
      (finish_spec ((hbut.find? temp).trans hfind) hempty hfinish).2 hok
    exact ⟨temp, place, c, bytes, target, rfl, hfind, hsourced.of_sameBut hbut hempty,
      (hbut.find? _).symm.trans htarget, hbut.sameBut_of_moved hnone hmoved, hmoved.arrived,
      hmoved.gone⟩

/-- A run that fails leaves everything as it was, unless its temporary file cannot be
removed. -/
theorem run_failed (h : Runs job.run s report s') (hfailed : report.failure ≠ none) :
    Same s s' ∨ ¬RemovesFiles σ ∧ ∃ temp place, find? s temp = some place ∧
      get? s place = none ∧ Rewritten place s s' := by
  obtain ⟨temp?, s₁, hcompile, hend⟩ := run_cases h
  rcases compile_failed hcompile hfailed with
    ⟨rfl, hsame⟩ | ⟨temp, place, rfl, hfind, hnone, hrewritten⟩
  · obtain ⟨_, rfl⟩ | ⟨temp, _, htemp, _⟩ := hend
    · exact .inl hsame
    · cases htemp
  · obtain ⟨htemp, _⟩ | ⟨_, removed, htemp, hremove⟩ := hend
    · cases htemp
    obtain rfl := Option.some.inj htemp
    have hfind' : find? s₁ temp = some place := (hrewritten.find? temp).trans hfind
    cases removed with
    | ok _ =>
      obtain ⟨hgone, hlast⟩ := LawfulFiles.removeFile_ok hfind' hremove
      exact .inl ((hrewritten.toSameBut.trans hlast).same (hgone.trans hnone.symm))
    | error e =>
      obtain ⟨content, hcontent⟩ := hrewritten.isFile
      exact .inr ⟨fun hremoves => hremoves hfind' hcontent hremove, temp, place, hfind, hnone,
        hrewritten.same (LawfulFiles.removeFile_error hremove)⟩

end Job

/-- A compilation that a request asks for, and that succeeds, delivers its result. Nothing
is left at the place of the temporary file, unless the result stands there. -/
theorem Request.compile_ok {request : Request} {settings : Settings} {temp? : Option Bytes}
    {report : Report} (h : Runs (request.job settings).compile s (temp?, report) s')
    (hok : report.failure = none) : ∃ temp place target, temp? = some temp ∧
      find? s temp = some place ∧ request.Delivered settings s s' target ∧
      (place ≠ target → get? s' place = none) := by
  obtain ⟨temp, place, c, bytes, target, htemp, hfind, hsourced, htarget, hbut, hget, hgone⟩ :=
    Job.compile_ok h hok
  obtain ⟨source, text, p, hsource, htext, hyields⟩ := hsourced
  have hname : c.unit.name = p.name := by
    obtain ⟨_, _, _, _, _, hunit⟩ := Program.compile_spec hyields.compiled
    rw [hunit]
  rw [hname] at htarget
  exact ⟨temp, place, target, htemp, hfind, ⟨hbut, source, text, p, c, bytes, _, hsource, htext,
    hyields, isTarget_target p.name, htarget, hget⟩, hgone⟩

/-- Whatever the arguments and the files are: a command that exits with another status
than zero leaves all files as they were, and makes no new ones. If files cannot always be
removed, its temporary file may stay.

For a request that is read from the arguments, with the settings that it names, the
command exits with zero exactly if the compilation succeeds. Then the result is
delivered when the compilation ends, and also when the command ends, unless the path of
the result happens to lead to the temporary file, which does not outlive the command.
Without a request or its settings nothing is changed. -/
theorem command_artifact {args : List Bytes} {result : CommandResult}
    (h : Runs (command args) s result s') :
    (RemovesFiles σ → result.exit ≠ 0 → Same s s') ∧
    (result.exit ≠ 0 → Same s s' ∨ ∃ temp place, find? s temp = some place ∧
      get? s place = none ∧ Rewritten place s s') ∧
    (∀ {request : Request} {settings : Settings} {s₁ : σ}, Request.Reads {} args request →
      Runs (Settings.load request.config) s (.ok settings) s₁ →
      ∃ temp? report s₂, Runs (request.job settings).compile s₁ (temp?, report) s₂ ∧
        (result.exit = 0 ↔ report.failure = none) ∧
        (report.failure = none → ∃ temp target, temp? = some temp ∧
          request.Delivered settings s s₂ target ∧
          (find? s temp ≠ some target → request.Delivered settings s s' target))) ∧
    ((∀ {request : Request} {settings : Settings} {s₁ : σ}, Request.Reads {} args request →
      ¬Runs (Settings.load request.config) s (.ok settings) s₁) → Same s s') := by
  have hfailed : result.exit ≠ 0 → Same s s' ∨ ¬RemovesFiles σ ∧ ∃ temp place,
      find? s temp = some place ∧ get? s place = none ∧ Rewritten place s s' := by
    intro hexit
    rcases command_cases h with hprepare | ⟨job, s₁, report, hprepare, hrun, rfl⟩
    · exact .inl (prepare_same hprepare)
    · have hsame := prepare_same hprepare
      refine (Job.run_failed hrun (mt exit_conclude.mpr hexit)).imp hsame.trans ?_
      rintro ⟨hnot, temp, place, hfind, hnone, hrewritten⟩
      exact ⟨hnot, temp, place, (hsame.find? temp).symm.trans hfind,
        (hsame.get? place).symm.trans hnone, hsame.sameBut.rewritten hrewritten⟩
  refine ⟨fun hremoves hexit => (hfailed hexit).resolve_right fun hnot => hnot.1 hremoves,
    fun hexit => (hfailed hexit).imp_right And.right,
    fun {request settings s₁} hreads hload => ?_, fun hnot => ?_⟩
  · have hprepare := prepare_ok_iff.mpr ⟨request, settings, hreads, hload, rfl⟩
    rcases command_cases h with hstop | ⟨job, s₁', report, hprepare', hrun, rfl⟩
    · cases (hprepare.unique hstop).1
    obtain ⟨heq, rfl⟩ := hprepare.unique hprepare'
    obtain rfl := Except.ok.inj heq
    obtain ⟨temp?, s₂, hcompile, hend⟩ := Job.run_cases hrun
    refine ⟨temp?, report, s₂, hcompile, exit_conclude, fun hok => ?_⟩
    have hsame := prepare_same hprepare
    obtain ⟨temp, place, target, rfl, hfind, hdelivered, hgone⟩ := Request.compile_ok hcompile hok
    refine ⟨temp, target, rfl, hdelivered.congr hsame (.refl s₂), fun hne => ?_⟩
    obtain ⟨htemp, _⟩ | ⟨_, _, htemp, hremove⟩ := hend
    · cases htemp
    obtain rfl := Option.some.inj htemp
    -- the temporary file has gone to another place, so there is nothing to remove
    have hplace : place ≠ target := by
      rintro rfl
      exact hne ((hsame.find? temp).symm.trans hfind)
    exact hdelivered.congr hsame (LawfulFiles.removeFile_none
      ((hdelivered.same.find? temp).trans hfind) (hgone hplace) hremove)
  · rcases command_cases h with hprepare | ⟨job, s₁, report, hprepare, _⟩
    · exact prepare_same hprepare
    · obtain ⟨request, settings, hreads, hload, _⟩ := prepare_ok_iff.mp hprepare
      exact (hnot hreads hload).elim

end Compiler

end Runs

/-- A short program text. -/
def Program.oneText : Bytes :=
  ascii "PROGRAM one\nDECLARE INTEGER n\nBEGIN\nSET n := 1\nPRINT n\nEND\n"

/-- A tree with two program texts, of which the second uses a name that it does not
declare, and with the result of an earlier compilation. There may be a limit to the
length of files. -/
def FileTree.workshop (room : Option Nat) : FileTree where
  room := room
  entries :=
    [([ascii "src"], .directory), ([ascii "out"], .directory),
      ([ascii "src", ascii "one.kc"], .file Program.oneText),
      ([ascii "src", ascii "two.kc"], .file (ascii "PROGRAM two\nBEGIN\nPRINT n\nEND\n")),
      ([ascii "kcc.yaml"], .file (ascii "output_dir: out\n")),
      ([ascii "out", ascii "one.kca"], .file (ascii "old"))]

namespace Compiler

/-- Arguments that ask for text assembly in the directory of the settings. -/
def workshopArgs (source : Bytes) : List Bytes :=
  [ascii "-S", ascii "-config", ascii "kcc.yaml", source]

def workshopRequest : Request where
  emitText := true
  config := ascii "kcc.yaml"
  path := ascii "src/one.kc"

theorem workshopRequest_reads :
    Request.Reads {} (workshopArgs (ascii "src/one.kc")) workshopRequest := by
  have htext : Flags.Takes ⟨ascii "S", .switch⟩ (.switch true) [ascii "-S"] := .alone rfl .one
  have hconfig : Flags.Takes ⟨ascii "config", .text⟩ (.text (ascii "kcc.yaml"))
      [ascii "-config", ascii "kcc.yaml"] := .apart (by decide) .one .text
  exact .flag htext .emitText (.flag hconfig .config (.path (.other (by decide))))

theorem workshopRequest_target {room : Option Nat} {s' : FileTree} {target : Spot FileTree}
    (h : workshopRequest.Delivered { outputDir := ascii "out" } (.workshop room) s' target) :
    target = [ascii "out", ascii "one.kca"] := by
  obtain ⟨source, text, p, c, bytes, path, hsource, htext, hyields, hpath, hfind, _⟩ := h.result
  have hlocate : (FileTree.workshop room).locate (ascii "src/one.kc")
      = .ok [ascii "src", ascii "one.kc"] := by
    rfl
  obtain rfl := Option.some.inj (hsource.symm.trans (FileTree.find?_of_locate hlocate))
  obtain rfl : Program.oneText = text := Entry.file.inj (Option.some.inj htext)
  have hname : (Program.ofInput (.ofBytes Program.oneText)).toOption.map (·.name)
      = some (ascii "one") := by
    decide +kernel
  rw [hyields.parsed] at hname
  obtain hname : p.name = ascii "one" := Option.some.inj hname
  cases hpath with
  | given h => exact (h rfl).elim
  | beside _ hdir => cases hdir
  | inDirectory =>
    rw [hname] at hfind
    have hlocate : (FileTree.workshop room).locate (ascii "out/one.kca")
        = .ok [ascii "out", ascii "one.kca"] := by
      rfl
    exact Option.some.inj (hfind.symm.trans (FileTree.find?_of_locate hlocate))

/-- The command fails on a text with an error, and where the result is too long for a
file. It replaces an earlier result by a new one, and does nothing without arguments. -/
theorem command_artifact_workshop :
    (∃ result s', Runs (command (workshopArgs (ascii "src/two.kc"))) (.workshop none) result s' ∧
      result.exit ≠ 0 ∧ Same (FileTree.workshop none) s') ∧
    (∃ result s',
      Runs (command (workshopArgs (ascii "src/one.kc"))) (.workshop (some 10)) result s' ∧
      result.exit ≠ 0 ∧ Same (FileTree.workshop (some 10)) s') ∧
    (∃ result s', Runs (command (workshopArgs (ascii "src/one.kc"))) (.workshop none) result s' ∧
      result.exit = 0 ∧ workshopRequest.Delivered { outputDir := ascii "out" }
        (FileTree.workshop none) s' [ascii "out", ascii "one.kca"]) ∧
    ∃ result s', Runs (command []) (.workshop none) result s' ∧
      Same (FileTree.workshop none) s' := by
  have hfails : ∀ (t : FileTree) (args : List Bytes),
      ((command args : StateM FileTree _) t).1.exit ≠ 0 →
      ∃ result s', Runs (command args) t result s' ∧ result.exit ≠ 0 ∧ Same t s' := by
    intro t args hexit
    exact ⟨_, _, rfl, hexit, (command_artifact rfl).1 FileTree.removesFiles hexit⟩
  refine ⟨hfails _ _ (by decide +kernel), hfails _ _ (by decide +kernel), ?_, ?_⟩
  · obtain ⟨result, s', hrun⟩ :=
      exists_runs (command (workshopArgs (ascii "src/one.kc"))) (FileTree.workshop none)
    have hload : Runs (Settings.load workshopRequest.config) (FileTree.workshop none)
        (.ok { outputDir := ascii "out" }) (.workshop none) := by
      refine Prod.ext ?_ ?_
      · decide +kernel
      · decide +kernel
    obtain ⟨temp?, report, s₂, hcompile, hexit, hok⟩ :=
      (command_artifact hrun).2.2.1 workshopRequest_reads hload
    have hzero : ((command (workshopArgs (ascii "src/one.kc")) : StateM FileTree _)
        (.workshop none)).1.exit = 0 := by
      decide +kernel
    rw [show _ = (result, s') from hrun] at hzero
    obtain ⟨temp, target, rfl, hfirst, hend⟩ := hok (hexit.mp hzero)
    obtain rfl := workshopRequest_target hfirst
    have htemp : (((workshopRequest.job { outputDir := ascii "out" }).compile : StateM FileTree _)
        (.workshop none)).1.1 = some (ascii "out/.kcc-*") := by
      decide +kernel
    rw [show _ = ((some temp, report), s₂) from hcompile] at htemp
    obtain rfl := Option.some.inj htemp
    have hother : find? (FileTree.workshop none) (ascii "out/.kcc-*")
        = some [ascii "out", ascii ".kcc-*"] := rfl
    refine ⟨result, s', hrun, hzero, hend ?_⟩
    rw [hother]
    exact fun heq => absurd (Option.some.inj heq) (by decide)
  · obtain ⟨result, s', hrun⟩ := exists_runs (command []) (FileTree.workshop none)
    refine ⟨result, s', hrun, (command_artifact hrun).2.2.2 fun hreads _ => ?_⟩
    obtain ⟨flags, hflags, hmade⟩ := hreads.made
    obtain rfl := Except.ok.inj hflags
    cases hmade.path

end Compiler

end Stackling
