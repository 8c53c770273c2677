import Mathlib.Tactic.Common
import Stackling.Proofs.Program.Depth
import Stackling.Proofs.Program.Pieces

/-!
# How slots are given out

The slots of a program are read off its tree. Variables have the slots of their
positions among the declarations, and after them each `READ`, in the order of
the code, has a slot for its handle. The code of a choice has the part after
`ELSE` first.

* **accesses** — the loads and stores of a program, listed from its tree, are
  those of its code, one by one (`Stmt.Emits.accesses`);
* **handles** — statements take as many slots as they hold `READ`s
  (`Stmt.Emits.slot_eq`), and the slot of a handle is used by one `READ` only
  (`InPieces.hasRead`);
* **frames** — so a program has a slot for each declaration and each `READ`,
  and its frame has no other (`Program.allocates_slots`).
-/

namespace Stackling

open Assemble

/-! ## Reads and accesses of trees -/

mutual

/-- How many `READ`s a statement holds, however deep. -/
def Stmt.reads : Stmt → Nat
  | .read _ _ => 1
  | .choice _ _ yes no => Stmt.readsAll no + Stmt.readsAll yes
  | .loop _ _ body => Stmt.readsAll body
  | .set _ _ _ | .print _ _ | .inc _ _ _ | .missing => 0

/-- How many `READ`s statements in a row hold. -/
def Stmt.readsAll : List Stmt → Nat
  | [] => 0
  | stmt :: stmts => stmt.reads + Stmt.readsAll stmts

end

def Program.reads (p : Program) : Nat := Stmt.readsAll p.body

/-- What a slot is for. -/
inductive Purpose where
  /-- It holds the value of the variable of that name. -/
  | value (name : Bytes)
  /-- It holds the handle of the `READ` of that number. -/
  | handle (number : Nat)
  deriving DecidableEq, Repr

/-- The slot for a purpose: first come the variables, then the handles. -/
def Purpose.slot? (ds : List Declaration) : Purpose → Option Nat
  | value x => (ds.map (·.name)).idxOf? x
  | handle number => some (ds.length + number)

/-- A load or a store, with what its slot is for. -/
inductive Access where
  | load (purpose : Purpose)
  | store (purpose : Purpose)
  deriving DecidableEq, Repr

/-- The loads of an expression. -/
def Expr.accesses : Expr → List Access
  | number _ _ | text _ _ | missing => []
  | name _ x => [.load (.value x)]
  | paren _ inner => inner.accesses
  | binary _ _ left right | comparison _ _ left right => left.accesses ++ right.accesses

mutual

/-- The loads and stores of a statement, in the order of its code, if `number` is
the number of its first `READ`. -/
def Stmt.accesses (number : Nat) : Stmt → List Access
  | .set _ x e | .inc _ x e => e.accesses ++ [.store (.value x)]
  | .print _ e => e.accesses
  | .read _ x => [.store (.handle number), .load (.handle number), .store (.value x)]
  | .choice _ c yes no =>
    c.left.accesses ++ c.right.accesses ++ Stmt.accessesAll number no
      ++ Stmt.accessesAll (number + Stmt.readsAll no) yes
  | .loop _ c body => c.left.accesses ++ c.right.accesses ++ Stmt.accessesAll number body
  | .missing => []

/-- The loads and stores of statements in a row. -/
def Stmt.accessesAll (number : Nat) : List Stmt → List Access
  | [] => []
  | stmt :: stmts => stmt.accesses number ++ Stmt.accessesAll (number + stmt.reads) stmts

end

def Program.accesses (p : Program) : List Access := Stmt.accessesAll 0 p.body

/-! ## Accesses of code -/

/-- The loads and stores of code. -/
def Assemble.accesses (code : List Instruction) : List Instruction :=
  code.filter fun i => i.slot?.isSome

theorem Assemble.accesses_append (first rest : List Instruction) :
    accesses (first ++ rest) = accesses first ++ accesses rest := List.filter_append ..

theorem Assemble.accesses_cons_of_some {i : Instruction} {slot : Int32} (hi : i.slot? = some slot)
    (code : List Instruction) : accesses (i :: code) = i :: accesses code :=
  List.filter_cons_of_pos (by simp [hi])

theorem Assemble.accesses_cons_of_none {i : Instruction} (hi : i.slot? = none)
    (code : List Instruction) : accesses (i :: code) = accesses code :=
  List.filter_cons_of_neg (by simp [hi])

/-- The instruction for an access, which has the slot for its purpose. -/
inductive Access.Is (ds : List Declaration) : Access → Instruction → Prop
  | load {purpose : Purpose} {n : Nat} (kind : Kind) (place : purpose.slot? ds = some n) :
      Is ds (.load purpose) (.load kind (.ofNat n))
  | store {purpose : Purpose} {n : Nat} (kind : Kind) (place : purpose.slot? ds = some n) :
      Is ds (.store purpose) (.store kind (.ofNat n))

/-- The accesses are those of the code, in order. -/
def Access.Lists (ds : List Declaration) (as : List Access) (code : List Instruction) : Prop :=
  List.Forall₂ (Access.Is ds) as (accesses code)

namespace Access.Lists

variable {ds : List Declaration} {as bs : List Access} {code first rest : List Instruction}

theorem nil : Lists ds [] [] := List.Forall₂.nil

theorem append (hfirst : Lists ds as first) (hrest : Lists ds bs rest) :
    Lists ds (as ++ bs) (first ++ rest) := by
  rw [Lists, accesses_append]
  exact List.rel_append hfirst hrest

/-- An instruction that is about no slot. -/
theorem skip {i : Instruction} (hi : i.slot? = none) (h : Lists ds as code) :
    Lists ds as (i :: code) := by
  rwa [Lists, accesses_cons_of_none hi]

theorem cons {a : Access} {i : Instruction} (hi : a.Is ds i) (h : Lists ds as code) :
    Lists ds (a :: as) (i :: code) := by
  have hslot : ∃ slot, i.slot? = some slot := by
    cases hi <;> exact ⟨_, rfl⟩
  obtain ⟨slot, hslot⟩ := hslot
  rw [Lists, accesses_cons_of_some hslot]
  exact .cons hi h

end Access.Lists

/-! ## Variables -/

section Lists

variable {table : SymbolTable} {ds : List Declaration}

/-- A variable has the slot of the position at which its name is declared. -/
theorem SymbolTable.Lists.slot?_value (h : table.Lists ds) {x : Bytes} {v : Variable}
    (hx : table.find? x = some v) :
    ∃ n, (Purpose.value x).slot? ds = some n ∧ v.slot32 = .ofNat n := by
  obtain ⟨rfl, i, hi, hslot, hv⟩ := h.slot_of_find? hx
  refine ⟨i, ?_, Variable.slot32_eq hslot⟩
  have hname : (table.vars.map (·.name))[i]? = some v.name := by simp [hv]
  obtain ⟨hlt, hget⟩ := List.getElem?_eq_some_iff.mp hname
  rw [Purpose.slot?, ← h.names, List.idxOf?_eq_some_iff]
  refine ⟨hlt, hget, fun j hj heq => ?_⟩
  -- no name stands at two positions
  have hji : j = i := (List.getElem_inj h.nodup).mp (heq.trans hget.symm)
  omega

end Lists

/-! ## Emitted code -/

section Emits

variable {table : SymbolTable} {ds : List Declaration}

theorem SymbolTable.Lists.load_is (h : table.Lists ds) {x : Bytes} {v : Variable}
    (hx : table.find? x = some v) (kind : Kind) :
    (Access.load (.value x)).Is ds (.load kind v.slot32) := by
  obtain ⟨n, hplace, hslot⟩ := h.slot?_value hx
  exact hslot ▸ .load kind hplace

theorem SymbolTable.Lists.store_is (h : table.Lists ds) {x : Bytes} {v : Variable}
    (hx : table.find? x = some v) (kind : Kind) :
    (Access.store (.value x)).Is ds (.store kind v.slot32) := by
  obtain ⟨n, hplace, hslot⟩ := h.slot?_value hx
  exact hslot ▸ .store kind hplace

theorem Expr.Emits.accesses {label label' : Nat} {e : Expr} {code : List Instruction}
    (h : e.Emits table label code label') (hlists : table.Lists ds) :
    Access.Lists ds e.accesses code := by
  induction h with
  | number | text => exact .nil
  | name found => exact .cons (hlists.load_is found _) .nil
  | paren _ ih => exact ih
  | binary _ _ ihLeft ihRight =>
    refine ihLeft.append ?_
    simpa using ihRight.append (.skip rfl .nil)
  | comparison _ _ _ ihLeft ihRight =>
    refine ihLeft.append ?_
    simpa using ihRight.append (.skip rfl (.skip rfl (.skip rfl (.skip rfl (.skip rfl
      (.skip rfl .nil))))))

theorem Expr.EmitsOperand.accesses {e : Expr} {i : Instruction} (h : e.EmitsOperand table i)
    (hlists : table.Lists ds) : Access.Lists ds e.accesses [i] := by
  cases h with
  | number => exact .skip rfl .nil
  | name found => exact .cons (hlists.load_is found _) .nil

/-- Statements take one slot for each `READ`. -/
theorem Stmt.Emits.slot_eq {supply supply' : Supply} {stmts : List Stmt} {code : List Instruction}
    (h : Stmt.Emits table supply stmts code supply') :
    supply'.slot = supply.slot + Stmt.readsAll stmts := by
  induction h with
  | nil => rfl
  | set _ _ _ _ ih | inc _ _ _ _ ih | printName _ _ ih | printText _ ih =>
    rw [ih, Stmt.readsAll, Stmt.reads, Nat.zero_add]
  | read _ _ ih =>
    simp only [ih, Stmt.readsAll, Stmt.reads]
    omega
  | choice _ _ _ _ _ _ ihNo ihYes ih =>
    simp only [ih, ihYes, ihNo, Stmt.readsAll, Stmt.reads]
    omega
  | loop _ _ _ _ _ ihBody ih =>
    simp only [ih, ihBody, Stmt.readsAll, Stmt.reads]
    omega

/-- The loads and stores of emitted code are those of its statements. -/
theorem Stmt.Emits.accesses {supply supply' : Supply} {stmts : List Stmt}
    {code : List Instruction} (h : Stmt.Emits table supply stmts code supply')
    (hlists : table.Lists ds) {number : Nat} (hnumber : supply.slot = ds.length + number) :
    Access.Lists ds (Stmt.accessesAll number stmts) code := by
  induction h generalizing number with
  | nil => exact .nil
  | set type found value _ ih | inc type found value _ ih =>
    rw [Stmt.accessesAll, Stmt.accesses, Stmt.reads, List.append_assoc]
    exact (value.accesses hlists).append (.cons (hlists.store_is found _) (ih hnumber))
  | printName found _ ih =>
    exact .skip rfl (.cons (hlists.load_is found _) (.skip rfl (ih hnumber)))
  | printText _ ih => exact .skip rfl (.skip rfl (.skip rfl (ih hnumber)))
  | @read _ _ _ _ v _ _ found _ ih =>
    have hplace : (Purpose.handle number).slot? ds = some (ds.length + number) := rfl
    have hreader : v.reader.slot? = none := by
      unfold Variable.reader
      split <;> rfl
    rw [hnumber]
    refine .skip rfl (.cons (.store _ hplace) (.cons (.load _ hplace) (.skip hreader ?_)))
    exact .cons (hlists.store_is found _) (ih (by simp only [hnumber, Stmt.reads]; omega))
  | choice _ leftOperand rightOperand noPart yesPart _ ihNo ihYes ih =>
    have hno := noPart.slot_eq
    have hyes := yesPart.slot_eq
    simp only [Stmt.accessesAll, Stmt.accesses, Stmt.reads, List.append_assoc]
    refine (leftOperand.accesses hlists).append ((rightOperand.accesses hlists).append
      (.skip rfl ((ihNo hnumber).append (.skip rfl (.skip rfl ((ihYes ?_).append (.skip rfl
        (ih ?_))))))))
    · simp only [hno, hnumber]; omega
    · simp only [hyes, hno, hnumber]; omega
  | loop _ leftOperand rightOperand bodyPart _ ihBody ih =>
    have hbody := bodyPart.slot_eq
    simp only [Stmt.accessesAll, Stmt.accesses, Stmt.reads, List.append_assoc]
    refine .skip rfl ((leftOperand.accesses hlists).append ((rightOperand.accesses hlists).append
      (.skip rfl ((ihBody hnumber).append (.skip rfl (.skip rfl (ih ?_)))))))
    simp only [hbody, hnumber]; omega

end Emits

/-! ## Handles -/

/-- The `READ` of that number in code has the slot for its handle, and no other
instruction of the code is about the slot. -/
def Assemble.HasRead (code : List Instruction) (number : Nat) (slot : Int32) : Prop :=
  ∃ before reader after, code = before ++ .openInput :: .store .ref slot :: .load .ref slot
      :: reader :: after ∧
    before.count .openInput = number ∧ (reader = .readInt ∨ reader = .readLine) ∧
    ∀ i ∈ before ++ reader :: after, i.slot? ≠ some slot

section Handles

variable {table : SymbolTable} {ds : List Declaration} {low high slot : Nat}
  {code : List Instruction}

/-- Code is about no slot but those of variables and of its own handles. -/
theorem InPieces.slot?_ne (h : InPieces table low code high) (hlists : table.Lists ds)
    (hbound : high ≤ 2 ^ 31) (hlength : ds.length ≤ slot) (hslot : slot < 2 ^ 31)
    (hout : slot < low ∨ high ≤ slot) : ∀ i ∈ code, i.slot? ≠ some (.ofNat slot) := by
  intro i hi heq
  have hslotInt : (Int32.ofNat slot).toInt = slot := Int32.toInt_ofNat_of_lt hslot
  rcases h.slot_cases hi heq with ⟨x, v, found, hv⟩ | ⟨n, hn, hn', hv⟩
  · obtain ⟨_, n, hn, hvslot, _⟩ := hlists.slot_of_find? found
    rw [hv, Variable.slot32_eq hvslot, Int32.toInt_ofNat_of_lt (by omega)] at hslotInt
    omega
  · rw [hv, Int32.toInt_ofNat_of_lt (by omega)] at hslotInt
    omega

theorem InPieces.hasRead (h : InPieces table ds.length code high) (hlists : table.Lists ds)
    (hbound : high ≤ 2 ^ 31) {number : Nat} (hnumber : ds.length + number < high) :
    HasRead code number (.ofNat (ds.length + number)) := by
  obtain ⟨before, reader, after, rfl, hreader, hbefore, hafter⟩ :=
    h.exists_read (Nat.le_add_right _ number) hnumber
  have hcount := hbefore.count_openInput
  refine ⟨before, reader, after, rfl, by omega, hreader, ?_⟩
  rw [List.forall_mem_append, List.forall_mem_cons]
  refine ⟨?_, ?_, ?_⟩
  · exact hbefore.slot?_ne hlists (by omega) (by omega) (by omega) (.inr (Nat.le_refl _))
  · rcases hreader with rfl | rfl <;> simp [Instruction.slot?]
  · exact hafter.slot?_ne hlists hbound (by omega) (by omega) (.inl (Nat.lt_succ_self _))

end Handles

/-! ## Programs -/

namespace Program.Lowered

variable {p : Program} {c : Compiled} {code : List Instruction} {supply : Supply} {m : Module}
  {f : Frame}

theorem slot_eq (h : p.Lowered c code supply m f) :
    supply.slot = p.declarations.length + p.reads := h.emits.slot_eq

/-- The code of a program with the return after it. -/
theorem inPieces (h : p.Lowered c code supply m f) :
    InPieces c.symbols p.declarations.length (code ++ [.ret]) supply.slot :=
  h.emits.inPieces.append (.plain trivial .nil)

theorem accesses (h : p.Lowered c code supply m f) :
    Access.Lists p.declarations p.accesses (code ++ [.ret]) := by
  have hbody : Access.Lists p.declarations p.accesses code := h.emits.accesses h.lists rfl
  have hall := hbody.append (.skip rfl .nil : Access.Lists p.declarations [] [.ret])
  rwa [List.append_nil] at hall

/-- A frame has the slots that the program takes, and no other. -/
theorem maxLocals_eq (h : p.Lowered c code supply m f) (hslots : supply.slot < 2 ^ 31) :
    f.maxLocals = supply.slot := by
  have hle : p.declarations.length ≤ supply.slot := h.emits.supply_le.2
  rw [h.assembled.maxLocals]
  refine slots_eq_locals fun i hi slot hslot => ?_
  have hlt : ∃ n < supply.slot, slot = .ofNat n := by
    rcases h.inPieces.slot_cases hi hslot with ⟨x, v, found, rfl⟩ | ⟨n, _, hn, rfl⟩
    · obtain ⟨_, n, hn, heq, _⟩ := h.lists.slot_of_find? found
      exact ⟨n, by omega, Variable.slot32_eq heq⟩
    · exact ⟨n, hn, rfl⟩
  obtain ⟨n, hn, rfl⟩ := hlt
  rw [Int32.toInt_ofNat_of_lt (by omega)]
  exact Int.ofNat_lt.mpr hn

end Program.Lowered

/-- A variable has the slot of its position. The `READ` of each number has the
slot with that number after the variables for its handle, which is used for
nothing else; all other loads and stores are about the variables that the tree
names there. A program asks for a slot for each declaration and each `READ`,
and its frame has no other. -/
theorem Program.allocates_slots {p : Program} {c : Compiled} (h : p.compile = .ok c)
    (hslots : p.declarations.length + p.reads < 2 ^ 31)
    (hcount : c.unit.instructionCount < 2 ^ 31) :
    c.symbols.vars.length = p.declarations.length ∧
      (∀ (i : Nat) (d : Declaration), p.declarations[i]? = some d →
        ∃ v, c.symbols.vars[i]? = some v ∧ v.name = d.name ∧ v.slot = i) ∧
      c.slots = p.declarations.length + p.reads ∧
      ∃ r m f, c.unit.routines = [r] ∧ r.locals = (p.declarations.length + p.reads : Nat) ∧
        Access.Lists p.declarations p.accesses r.code ∧
        (∀ number < p.reads, HasRead r.code number (.ofNat (p.declarations.length + number))) ∧
        c.unit.assemble = .ok m ∧ m.entry? = some f ∧
        f.maxLocals = (p.declarations.length + p.reads : Nat) := by
  obtain ⟨code, supply, m, f, hlow⟩ := exists_lowered h hcount
  have hslot := hlow.slot_eq
  refine ⟨hlow.lists.length, fun i d hd => ?_, by rw [hlow.slots, hslot], .main supply.slot code, m,
    f, by rw [hlow.unit], by rw [← hslot]; rfl, ?_, fun number hnumber => ?_, hlow.assemble,
    hlow.entry, by rw [hlow.maxLocals_eq (by omega), hslot]⟩
  · have hname := congrArg (·[i]?) hlow.lists.names
    simp only [List.getElem?_map, hd, Option.map_some, Option.map_eq_some_iff] at hname
    obtain ⟨v, hv, hname⟩ := hname
    exact ⟨v, hv, hname, hlow.lists.slot i v hv⟩
  · exact hlow.accesses
  · exact hlow.inPieces.hasRead hlow.lists (by omega) (by omega)

/-- A program with `READ`s in all parts of a choice and in a loop. -/
def Program.survey : Program where
  name := ascii "survey"
  line := 1
  declarations :=
    [{ typeName := ascii "INTEGER", name := ascii "n", line := 2 },
      { typeName := ascii "STRING", name := ascii "s", line := 3 }]
  body :=
    [.read 5 (ascii "n"),
      .choice 6 { line := 6, left := .name 6 (ascii "n"), comparator := ascii ">",
                  right := .number 6 0 }
        [.read 7 (ascii "s"), .print 8 (.name 8 (ascii "s"))]
        [.loop 10 { line := 10, left := .name 10 (ascii "n"), comparator := ascii "<>",
                    right := .number 10 0 }
          [.read 11 (ascii "n")]],
      .read 13 (ascii "s")]

theorem Program.survey_compiles : ∃ c, survey.compile = .ok c ∧ c.slots < 2 ^ 31 ∧
    c.unit.instructionCount < 2 ^ 31 := by
  have h : (match survey.compile with
      | .ok c => decide (c.slots < 2 ^ 31) && decide (c.unit.instructionCount < 2 ^ 31)
      | .error _ => false) = true := by
    decide +kernel
  split at h
  · rename_i c hc
    rw [Bool.and_eq_true, decide_eq_true_eq, decide_eq_true_eq] at h
    exact ⟨c, hc, h.1, h.2⟩
  · simp at h

/-- The part after `ELSE` comes first in the code, so its handle is the one with
the number one. -/
theorem Program.allocates_slots_survey : ∃ c, survey.compile = .ok c ∧
    survey.declarations.length + survey.reads < 2 ^ 31 ∧ c.unit.instructionCount < 2 ^ 31 ∧
    c.symbols.vars.length = 2 ∧
    (∀ (i : Nat) (d : Declaration), survey.declarations[i]? = some d →
      ∃ v, c.symbols.vars[i]? = some v ∧ v.name = d.name ∧ v.slot = i) ∧
    c.slots = 6 ∧ ∃ r m f, c.unit.routines = [r] ∧ r.locals = 6 ∧
      Access.Lists survey.declarations
        [.store (.handle 0), .load (.handle 0), .store (.value (ascii "n")),
          .load (.value (ascii "n")), .load (.value (ascii "n")), .store (.handle 1),
          .load (.handle 1), .store (.value (ascii "n")), .store (.handle 2), .load (.handle 2),
          .store (.value (ascii "s")), .load (.value (ascii "s")), .store (.handle 3),
          .load (.handle 3), .store (.value (ascii "s"))] r.code ∧
      (∀ number < 4, HasRead r.code number (.ofNat (2 + number))) ∧
      c.unit.assemble = .ok m ∧ m.entry? = some f ∧ f.maxLocals = 6 := by
  obtain ⟨c, hc, _, hcount⟩ := survey_compiles
  exact ⟨c, hc, by decide, hcount, Program.allocates_slots hc (by decide) hcount⟩

end Stackling
