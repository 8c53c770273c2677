import Mathlib.Tactic.Common
import Stackling.Proofs.Assembly.Words
import Stackling.Proofs.Machine.Safety
import Stackling.Proofs.Program.Labels
import Stackling.Proofs.Program.Scope

/-!
# Units that run safely

A unit is sound when its instructions have a meaning and its slots can be
numbered. There are two ways to get a unit, and both give sound ones:

* **reading** — text assembly has words for the operations with a meaning only,
  and refuses negative slots (`Assembly.read_sound`);
* **compiling** — a program uses the slots from zero on, and machine integers can
  number them if there are not too many (`Program.compile_sound`).

A sound unit that can be assembled runs safely whatever its input is, and
however long it runs (`AsmUnit.run_safe`). A program with more variables than machine
integers can number does not (`Program.crowd_leaves_frame`).
-/

namespace Stackling

open StackDepth Assemble

/-- A routine without an instruction that cannot be executed, whose slots can be
numbered by machine integers. -/
structure Routine.IsSound (r : Routine) : Prop where
  locals_nonneg : 0 ≤ r.locals
  locals_le : r.locals ≤ 2 ^ 31
  code : ∀ i ∈ r.code, i.isSound = true

/-- A unit of sound routines. -/
def AsmUnit.IsSound (unit : AsmUnit) : Prop := ∀ r ∈ unit.routines, r.IsSound

/-! ## Text assembly -/

namespace Assembly

/-- What is known of an item that a line gives. -/
def Item.IsSound : Item → Prop
  | .unit _ => True
  | .routine _ locals => 0 ≤ locals.toInt
  | .code i => i.isMeaningful = true

/-- Only kinds with a meaning have a word. -/
theorem isKnown_of_kind? {word : Bytes} {kind : Kind} (h : kind? word = some kind) :
    kind.isKnown = true := by
  have hmem := mem_of_lookup h
  simp only [List.mem_cons, Prod.mk.injEq, List.not_mem_nil, or_false] at hmem
  rcases hmem with ⟨_, rfl⟩ | ⟨_, rfl⟩ <;> rfl

/-- Only relations with a meaning have a word. -/
theorem isKnown_of_relation? {word : Bytes} {relation : Relation}
    (h : relation? word = some relation) : relation.isKnown = true := by
  have hmem := mem_of_lookup h
  simp only [List.mem_cons, Prod.mk.injEq, List.not_mem_nil, or_false] at hmem
  rcases hmem with ⟨_, rfl⟩ | ⟨_, rfl⟩ | ⟨_, rfl⟩ | ⟨_, rfl⟩ | ⟨_, rfl⟩ | ⟨_, rfl⟩ <;> rfl

/-- A keyword that stands for an instruction with a meaning, if it stands for one. -/
def Keyword.isSound : Keyword → Bool
  | .plain i => i.isMeaningful
  | _ => true

theorem isSound_of_keyword? {word : Bytes} {keyword : Keyword}
    (h : keyword? word = some keyword) : keyword.isSound = true := by
  have hall : ∀ entry ∈ keywords, entry.2.isSound = true := by decide
  exact hall _ (mem_of_lookup h)

theorem readInstruction_sound {word line : Bytes} {keyword : Keyword} {i : Instruction}
    (hword : keyword? word = some keyword) (h : readInstruction keyword line = .ok i) :
    i.isMeaningful = true := by
  have hslot : ∀ {slot : Int32}, ¬slot < 0 → decide (0 ≤ slot.toInt) = true := by
    intro slot hslot
    simpa [Int32.lt_iff_toInt_lt] using hslot
  rcases readInstruction_eq_ok_iff.mp h with ⟨hspells, _⟩ | ⟨_, _, _, _, rfl⟩
  · generalize (takeWords keyword.arity line).1 = ws at hspells
    cases hspells with
    | load hkind _ hnonneg | store hkind _ hnonneg =>
      exact Instruction.isMeaningful_iff.mpr ⟨hslot hnonneg, isKnown_of_kind? hkind⟩
    | branch hrelation => exact isKnown_of_relation? hrelation
    | print hkind => exact isKnown_of_kind? hkind
    | plain => exact isSound_of_keyword? hword
    | pushInt | jump | label => rfl
  · rfl

theorem readLine_sound {progress : Progress} {line : Bytes} {item : Item}
    (h : readLine progress line = .ok (some item)) : item.IsSound := by
  obtain ⟨keyword, hword, _, hunit | hroutine | ⟨i, rfl, hi⟩⟩ := readLine_cases h
  · obtain ⟨_, _, rfl⟩ := readUnit_eq_ok hunit
    trivial
  · obtain ⟨locals, hlocals, _, _, _, rfl⟩ := readRoutine_eq_ok hroutine
    exact hlocals
  · exact readInstruction_sound hword hi

/-- Routines are made of the instructions between their lines. -/
theorem mem_group {items : List Item} :
    (∀ i ∈ (group items).1, .code i ∈ items) ∧
      ∀ r ∈ (group items).2, ∃ locals, .routine r.name locals ∈ items ∧
        r.locals = locals.toInt ∧ ∀ i ∈ r.code, .code i ∈ items := by
  induction items with
  | nil => simp [group]
  | cons item items ih =>
    obtain ⟨hcode, hroutines⟩ := ih
    have hcode' : ∀ i ∈ (group items).1, .code i ∈ item :: items :=
      fun i hi => List.mem_cons_of_mem _ (hcode i hi)
    have hroutines' : ∀ r ∈ (group items).2, ∃ locals, .routine r.name locals ∈ item :: items ∧
        r.locals = locals.toInt ∧ ∀ i ∈ r.code, .code i ∈ item :: items := by
      intro r hr
      obtain ⟨locals, hmem, hlocals, hall⟩ := hroutines r hr
      exact ⟨locals, List.mem_cons_of_mem _ hmem, hlocals,
        fun i hi => List.mem_cons_of_mem _ (hall i hi)⟩
    cases item with
    | unit name => exact ⟨hcode', hroutines'⟩
    | routine name locals =>
      exact ⟨by simp [group], List.forall_mem_cons.mpr
        ⟨⟨locals, List.mem_cons_self, rfl, hcode'⟩, hroutines'⟩⟩
    | code i => exact ⟨List.forall_mem_cons.mpr ⟨List.mem_cons_self, hcode'⟩, hroutines'⟩

/-- Text assembly gives sound routines, of instructions with a meaning only. -/
theorem read_spec {input : Input} {unit : AsmUnit} (h : read input = .ok unit) :
    ∀ r ∈ unit.routines, r.IsSound ∧ ∀ i ∈ r.code, i.isMeaningful = true := by
  obtain ⟨items, hitems, _, hroutines⟩ := read_eq_ok h
  have hsound : ∀ item ∈ items, item.IsSound := by
    intro item hitem
    obtain ⟨_, _, _, hline⟩ := mem_readLines hitems item hitem
    exact readLine_sound hline
  intro r hr
  rw [hroutines] at hr
  obtain ⟨locals, hmem, hlocals, hcode⟩ := mem_group.2 r hr
  have hnonneg : 0 ≤ locals.toInt := hsound _ hmem
  have hlt := locals.toInt_lt
  have hmeaning : ∀ i ∈ r.code, i.isMeaningful = true := fun i hi => hsound _ (hcode i hi)
  refine ⟨⟨by omega, by omega, ?_⟩, hmeaning⟩
  intro i hi
  exact (Instruction.isMeaningful_iff.mp (hmeaning i hi)).1

/-- Text assembly gives sound units. -/
theorem read_sound {input : Input} {unit : AsmUnit} (h : read input = .ok unit) :
    unit.IsSound := fun r hr => (read_spec h r hr).1

end Assembly

/-! ## Programs -/

/-- Compiling gives a sound unit, as long as machine integers can number its
slots. -/
theorem Program.compile_sound {p : Program} {c : Compiled} (h : p.compile = .ok c)
    (hslots : c.slots ≤ 2 ^ 31) : c.unit.IsSound := by
  obtain ⟨hlists, code, supply, hemits, hsupply, hunit⟩ := compile_spec h
  have hle : p.declarations.length ≤ supply.slot := hemits.supply_le.2
  intro r hr
  obtain rfl : r = .main supply.slot code := by simpa [hunit] using hr
  refine ⟨Int.natCast_nonneg _, by simp only [Routine.main]; omega, fun i hi => ?_⟩
  rcases List.mem_append.mp hi with hi | hi
  · have hbelongs := hemits.belongs i hi
    have hnonneg : ∀ slot, i.slot? = some slot → 0 ≤ slot.toInt := by
      intro slot hslot
      obtain ⟨n, hn, rfl⟩ := hbelongs.slot_lt hlists hle hslot
      rw [Int32.toInt_ofNat_of_lt (by omega)]
      omega
    cases i with
    | load kind slot | store kind slot => simpa [Instruction.isSound] using hnonneg slot rfl
    | undefined => exact hbelongs.elim
    | _ => rfl
  · rw [List.mem_singleton.mp hi]
    rfl

/-! ## Runs -/

/-- Memory has room for the frames of sound routines, so a run can start. -/
theorem Assemble.Assembled.begin_eq_ok {m : Module} {r : Routine} {f : Frame}
    (h : Assembled m.constants r f) (hentry : m.entry? = some f) (hr : r.IsSound)
    (hspan : span r.code < 2 ^ 31) (last : State) :
    Machine.begin m last = .ok (f, { slots := Array.replicate f.maxLocals.toNat .null,
                                     input := last.input, output := last.output }) := by
  have hlocals := locals_le_slots r
  have hslots := slots_le r
  have hle := hr.locals_le
  have hnonneg := hr.locals_nonneg
  have hroom : Machine.hasRoom f.maxLocals = true := by
    rw [h.maxLocals]
    unfold Machine.hasRoom Machine.room
    simp only [Bool.and_eq_true, decide_eq_true_eq]
    omega
  rw [h.begin_eq hentry hspan, if_pos hroom]

/-- Where a run of a frame may be: at an address of the code, with as many
operands as were recorded for the address. -/
def Status.Within (f : Frame) (depths : Array (Option Nat)) : Status → Prop
  | .running s =>
    s.pc < f.code.size ∧ recorded depths s.pc = some s.stack.size ∧
      (s.stack.size : Int) ≤ f.maxStack ∧ (s.slots.size : Int) = f.maxLocals
  | .stopped outcome _ => ∀ kind, outcome.kind? = some kind → kind.isStructural = false

/-- A unit that comes from text assembly. -/
def AsmUnit.IsRead (unit : AsmUnit) : Prop := ∃ input, Assembly.read input = .ok unit

/-- A unit that comes from a program. -/
def AsmUnit.IsCompiled (unit : AsmUnit) : Prop := ∃ p c, Program.compile p = .ok c ∧ c.unit = unit

theorem AsmUnit.IsCompiled.sound {unit : AsmUnit} (h : unit.IsCompiled)
    (hlocals : ∀ r ∈ unit.routines, r.locals ≤ 2 ^ 31) : unit.IsSound := by
  obtain ⟨p, c, hcompile, rfl⟩ := h
  obtain ⟨_, code, supply, _, hslots, hunit⟩ := Program.compile_spec hcompile
  have hle : (supply.slot : Int) ≤ 2 ^ 31 := hlocals (.main supply.slot code) (by simp [hunit])
  exact Program.compile_sound hcompile (by omega)

theorem Status.Safe.within {m : Module} {f : Frame} {depths : Array (Option Nat)}
    (hf : f.Sound m depths)
    (hpath : ∀ pc depth, recorded depths pc = some depth → Path f.code pc depth) {status : Status}
    (h : status.Safe f depths) : status.Within f depths := by
  cases status with
  | running s =>
    obtain ⟨c, hc, _⟩ := hf.consistent.agrees s.pc s.stack.size h.depth
    have hdeep := hf.consistent.le_of_path (hpath s.pc s.stack.size h.depth)
    have hnonneg := hf.maxStack_nonneg
    exact ⟨(Array.getElem?_eq_some_iff.mp hc).1, h.depth, by omega, h.slots⟩
  | stopped outcome s => exact h

/-- An assembled unit runs safely: a run can start, and however long it is, with
whatever input, output and limits, each state in it is at an address of the code
with the depth that was recorded for the address, and it does not end for a
reason that lies in the module. All its loads and stores are about slots that
the frame has. A unit that was compiled must not have more slots than machine
integers can number. -/
theorem AsmUnit.run_safe {unit : AsmUnit} {m : Module}
    (hmade : unit.IsRead ∨ unit.IsCompiled ∧ ∀ r ∈ unit.routines, r.locals ≤ 2 ^ 31)
    (hcount : unit.instructionCount < 2 ^ 31) (hm : unit.assemble = .ok m) (last : State)
    (limits : Limits) :
    ∃ f s depths, Machine.begin m last = .ok (f, s) ∧
      explore f.code = .ok (depths, f.maxStack.toNat) ∧
      (∀ (pc : Nat) (c : Code), f.code[pc]? = some c →
        c.opcode? = some .load ∨ c.opcode? = some .store →
        0 ≤ c.operand.toInt ∧ c.operand.toInt < f.maxLocals) ∧
      ∀ n, (Machine.advance m f limits n (.running s)).Within f depths := by
  have hunit : unit.IsSound := by
    rcases hmade with ⟨input, hread⟩ | ⟨hcompiled, hlocals⟩
    · exact Assembly.read_sound hread
    · exact hcompiled.sound hlocals
  obtain ⟨_, hconstants, _⟩ := assemble_spec hm
  obtain ⟨r, hr, f, hentry, _, hasm⟩ := assemble_entry hm
  have hsound := hunit r hr
  have hspan : span r.code < 2 ^ 31 := Nat.lt_of_le_of_lt (span_le_instructionCount hr) hcount
  obtain ⟨depths, hexplore, hf⟩ := hasm.sound hsound.code (by omega)
  obtain ⟨hconsistent, hpath, _⟩ := explore_ok hexplore
  refine ⟨f, _, depths, hasm.begin_eq_ok hentry hsound hspan last, hexplore, hf.slot, fun n => ?_⟩
  refine (Machine.advance_safe hf limits n ?_).within hf hpath
  refine ⟨hconsistent.start, ?_⟩
  have hnonneg := locals_le_slots r
  have hlocals := hsound.locals_nonneg
  rw [← hasm.maxLocals] at hnonneg
  simp only [Array.size_replicate]
  omega

theorem Program.countdown_assembles : ∃ c m, countdown.compile = .ok c ∧
    c.slots < 2 ^ 31 ∧ c.unit.instructionCount < 2 ^ 31 ∧ c.unit.assemble = .ok m := by
  have h : (match countdown.compile with
      | .ok c => decide (c.slots < 2 ^ 31) && decide (c.unit.instructionCount < 2 ^ 31)
        && c.unit.assemble.isOk
      | .error _ => false) = true := by
    decide +kernel
  split at h
  · rename_i c hc
    simp only [Bool.and_eq_true, decide_eq_true_eq] at h
    obtain ⟨⟨hslots, hcount⟩, hok⟩ := h
    cases hm : c.unit.assemble with
    | ok m => exact ⟨c, m, hc, hslots, hcount, hm⟩
    | error e => simp [hm, Except.isOk, Except.toBool] at hok
  · simp at h

theorem AsmUnit.run_safe_countdown : ∃ c m, Program.countdown.compile = .ok c ∧
    (∀ r ∈ c.unit.routines, r.locals ≤ 2 ^ 31) ∧ c.unit.instructionCount < 2 ^ 31 ∧
    c.unit.assemble = .ok m ∧
    ∃ f s depths, Machine.begin m { input := .ofBytes (ascii "2") } = .ok (f, s) ∧
      explore f.code = .ok (depths, f.maxStack.toNat) ∧
      (∀ (pc : Nat) (c : Code), f.code[pc]? = some c →
        c.opcode? = some .load ∨ c.opcode? = some .store →
        0 ≤ c.operand.toInt ∧ c.operand.toInt < f.maxLocals) ∧
      ∀ n, (Machine.advance m f { maxSteps := 20 } n (.running s)).Within f depths := by
  obtain ⟨c, m, hc, hslots, hcount, hm⟩ := Program.countdown_assembles
  have hlocals : ∀ r ∈ c.unit.routines, r.locals ≤ 2 ^ 31 := by
    obtain ⟨_, code, supply, _, hsupply, hunit⟩ := Program.compile_spec hc
    intro r hr
    obtain rfl : r = .main supply.slot code := by simpa [hunit] using hr
    show (supply.slot : Int) ≤ 2 ^ 31
    omega
  exact ⟨c, m, hc, hlocals, hcount, hm,
    AsmUnit.run_safe (.inr ⟨⟨_, c, hc, rfl⟩, hlocals⟩) hcount hm _ _⟩

/-! ## Too many variables -/

namespace Program

/-- A program that declares one variable more than the given number, and assigns the
last one. -/
def crowd (n : Nat) : Program where
  name := ascii "crowd"
  line := 1
  declarations := (List.range (n + 1)).map fun i =>
    { typeName := ascii "INTEGER", name := Label.numbered (ascii "v") i, line := i + 2 }
  body := [.set (n + 4) (Label.numbered (ascii "v") n) (.number (n + 4) 1)]

theorem crowd_wellScoped (n : Nat) : (crowd n).WellScoped where
  types d hd := by
    obtain ⟨i, _, rfl⟩ := List.mem_map.mp hd
    exact .inl rfl
  nodup := by
    rw [crowd, List.map_map]
    exact List.Nodup.map (fun i j h => Label.numbered_inj h) List.nodup_range
  declared u hu := by
    obtain rfl : u = ⟨Label.numbered (ascii "v") n, n + 4⟩ := by
      simpa [uses, crowd, Stmt.usesAll, Stmt.uses, Expr.uses] using hu
    exact ⟨_, List.mem_map_of_mem (List.mem_range.mpr (Nat.lt_succ_self n)), rfl⟩

/-- The variable that is assigned has the last slot. -/
theorem crowd_store {n : Nat} {table : SymbolTable} (h : table.Lists (crowd n).declarations) :
    ∃ v, table.find? (Label.numbered (ascii "v") n) = some v ∧
      v.store = .store .int (Int32.ofInt n) := by
  have hlast : (crowd n).declarations[n]? = some
      { typeName := ascii "INTEGER", name := Label.numbered (ascii "v") n, line := n + 2 } := by
    simp [crowd]
  obtain ⟨v, hfind, hslot⟩ := h.find?_name hlast
  have htype : v.type = .integer := by
    have hmem : some v.type ∈ table.vars.map (some ·.type) :=
      List.mem_map_of_mem (List.mem_of_find?_eq_some hfind)
    rw [h.types] at hmem
    obtain ⟨d, hd, htype⟩ := List.mem_map.mp hmem
    obtain ⟨i, _, rfl⟩ := List.mem_map.mp hd
    exact (Option.some.inj htype).symm
  refine ⟨v, hfind, ?_⟩
  rw [Variable.store, Variable.slot32, htype, hslot]
  rfl

theorem crowd_compile (n : Nat) : ∃ c, (crowd n).compile = .ok c ∧
    c.unit = { name := ascii "crowd"
               routines := [.main (n + 1) [.pushInt 1, .store .int (Int32.ofInt n)]] } := by
  cases hsymbols : (crowd n).symbols with
  | error e =>
    have hblames := @blames_of_declareAll _ {} [] (crowd n).declarations 0 e rfl rfl hsymbols
    exact (hblames.not_wellScoped (crowd_wellScoped n)).elim
  | ok table =>
    obtain ⟨v, hfind, hstore⟩ := crowd_store (symbols_spec hsymbols)
    have hresolve : ∀ line, table.resolve (Label.numbered (ascii "v") n) line = .ok v :=
      fun _ => SymbolTable.resolve_eq_ok.mpr hfind
    have hcode : Stmt.codeAll table { slot := n + 1 } (crowd n).body
        = .ok ([.pushInt 1, .store .int (Int32.ofInt n)], { slot := n + 1 }) := by
      simp only [crowd, Stmt.codeAll, Stmt.code, hresolve, Expr.code, bind, Except.bind, hstore]
      rfl
    have hlength : (crowd n).declarations.length = n + 1 := by simp [crowd]
    rw [compile, hsymbols, hlength]
    simp only [Except.mapError, bind, Except.bind, hcode]
    exact ⟨_, rfl, rfl⟩

end Program

/-- The module of a crowd that has one slot too many: it stores to a slot whose number
is negative. -/
def Module.crowd : Module where
  name := ascii "crowd"
  constants := #[]
  routines :=
    [{ name := entryName, maxStack := 1, maxLocals := 2 ^ 31 + 1
       code := #[{ op := 1, operand := 1 }, { op := 4, operand := -2 ^ 31 }, { op := 17 }] }]

/-- With one slot more than machine integers can number, a program compiles and is
assembled, but its second instruction stores to a slot that no frame has. -/
theorem Program.crowd_leaves_frame : ∃ c m f s outcome t, (crowd (2 ^ 31)).compile = .ok c ∧
    c.unit.instructionCount < 2 ^ 31 ∧ c.unit.assemble = .ok m ∧ m.constants = #[] ∧
    Machine.begin m {} = .ok (f, s) ∧
    Machine.advance m f {} 2 (.running s) = .stopped outcome t ∧
    outcome.kind? = some .badModule := by
  obtain ⟨c, hcompile, hunit⟩ := crowd_compile (2 ^ 31)
  have hassemble : c.unit.assemble = .ok Module.crowd := by
    rw [hunit]
    decide +kernel
  refine ⟨c, Module.crowd, _, _, _, _, hcompile, ?_, hassemble, rfl, rfl, rfl, rfl⟩
  rw [hunit]
  decide +kernel

end Stackling
