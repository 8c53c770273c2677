import Mathlib.Tactic.Common
import Stackling.Proofs.Machine.Budget
import Stackling.Proofs.Program.Depth

/-!
# Where programs jump to

The addresses of a program's code are read off its tree, and with them the places
of its loops. All jumps go forward but those at the ends of loops, which go back
to the condition of their loop.

* **places** — code takes as many addresses as its tree says
  (`Stmt.Emits.span_eq`);
* **chart** — a stretch of code is charted when its jumps go forward or close one
  of its loops, and the loops are where the tree puts them; stretches in a row
  are charted if each of them is (`Charted.append`), so the code of a program is
  (`Stmt.Emits.charted`);
* **runs** — where all jumps go forward, each turn leads to a later address
  (`Machine.le_pc_of_running`), so a run is no longer than its code
  (`Machine.exists_stopped_of_forward`).
-/

namespace Stackling

open Assemble

/-! ## Addresses of trees -/

/-- How many addresses the code of an expression takes. -/
def Expr.size : Expr → Nat
  | number _ _ | text _ _ | name _ _ => 1
  | paren _ inner => inner.size
  | binary _ _ left right => left.size + right.size + 1
  | comparison _ _ left right => left.size + right.size + 4
  | missing => 0

mutual

/-- How many addresses the code of a statement takes. -/
def Stmt.size : Stmt → Nat
  | .set _ _ value | .inc _ _ value => value.size + 1
  | .print _ _ => 3
  | .read _ _ => 5
  | .choice _ _ yes no => 3 + Stmt.sizeAll no + 1 + Stmt.sizeAll yes
  | .loop _ _ body => 3 + Stmt.sizeAll body + 1
  | .missing => 0

/-- How many addresses the code of statements in a row takes. -/
def Stmt.sizeAll : List Stmt → Nat
  | [] => 0
  | stmt :: stmts => stmt.size + Stmt.sizeAll stmts

end

/-- A loop and where it stands. -/
structure LoopPlace where
  condition : Condition
  /-- The address of the first instruction of its condition. -/
  start : Nat
  /-- The address of the jump at its end. -/
  back : Nat
  deriving DecidableEq, Repr

mutual

/-- The loops of a statement whose code starts at `base`, however deep. -/
def Stmt.loops (base : Nat) : Stmt → List LoopPlace
  | .choice _ _ yes no =>
    Stmt.loopsAll (base + 3) no ++ Stmt.loopsAll (base + 3 + Stmt.sizeAll no + 1) yes
  | .loop _ c body =>
    { condition := c, start := base, back := base + 3 + Stmt.sizeAll body }
      :: Stmt.loopsAll (base + 3) body
  | .set _ _ _ | .print _ _ | .read _ _ | .inc _ _ _ | .missing => []

/-- The loops of statements in a row. -/
def Stmt.loopsAll (base : Nat) : List Stmt → List LoopPlace
  | [] => []
  | stmt :: stmts => stmt.loops base ++ Stmt.loopsAll (base + stmt.size) stmts

end

/-- The loops of a program, however deep. -/
def Program.loops (p : Program) : List LoopPlace := Stmt.loopsAll 0 p.body

/-! ## Jumps of resolved code -/

namespace Assemble

/-- Only instructions with a target jump, and they jump to its address. -/
theorem Resolves.target_of_jumps {address : Label → Option Nat} {pool : Pool} {i : Instruction}
    {c : Code} (h : Resolves address pool i c) (hjumps : c.Jumps) :
    ∃ l a, i.target? = some l ∧ address l = some a ∧ c.operand = .ofNat a := by
  cases h with
  | branch relation place => exact ⟨_, _, rfl, place, rfl⟩
  | jump place => exact ⟨_, _, rfl, place, rfl⟩
  | arith op => cases op <;> simp [Code.Jumps, Code.opcode?, Arith.opcode] at hjumps
  | undefined op hop => simp [Code.Jumps, Code.opcode?, hop] at hjumps
  | _ => simp [Code.Jumps, Code.opcode?] at hjumps

end Assemble

theorem Expr.Emits.span_eq {table : SymbolTable} {label label' : Nat} {e : Expr}
    {code : List Instruction} (h : e.Emits table label code label') : span code = e.size := by
  induction h with
  | number | text | name => rfl
  | paren _ ih => exact ih
  | binary _ _ ihLeft ihRight | comparison _ _ _ ihLeft ihRight =>
    rw [span_append, span_append, ihLeft, ihRight, Expr.size, Nat.add_assoc]
    rfl

/-- Code takes as many addresses as its statements say. -/
theorem Stmt.Emits.span_eq {table : SymbolTable} {supply supply' : Supply} {stmts : List Stmt}
    {code : List Instruction} (h : Stmt.Emits table supply stmts code supply') :
    span code = Stmt.sizeAll stmts := by
  induction h with
  | nil => rfl
  | set _ _ value _ ih | inc _ _ value _ ih =>
    rw [span_append, span_cons rfl, value.span_eq, ih, Stmt.sizeAll, Stmt.size]
    omega
  | printName _ _ ih | printText _ ih =>
    rw [span_cons rfl, span_cons rfl, span_cons rfl, ih, Stmt.sizeAll, Stmt.size]
    omega
  | @read _ _ _ _ v _ _ _ _ ih =>
    rw [span_cons rfl, span_cons rfl, span_cons rfl, span_cons v.isLabel_reader, span_cons rfl, ih,
      Stmt.sizeAll, Stmt.size]
    omega
  | choice _ leftOperand rightOperand _ _ _ ihNo ihYes ih =>
    rw [span_cons leftOperand.isLabel, span_cons rightOperand.isLabel, span_cons rfl, span_append,
      span_cons rfl, span_cons_label, span_append, span_cons_label, ihNo, ihYes, ih, Stmt.sizeAll,
      Stmt.size]
    omega
  | loop _ leftOperand rightOperand _ _ ihBody ih =>
    rw [span_cons_label, span_cons leftOperand.isLabel, span_cons rightOperand.isLabel,
      span_cons rfl, span_append, span_cons rfl, span_cons_label, ihBody, ih, Stmt.sizeAll,
      Stmt.size]
    omega

/-! ## Charted code -/

/-- The code that pushes an operand of a condition. -/
inductive Expr.PushedBy (table : SymbolTable) : Expr → Code → Prop
  | number {line : Int} {value : Int32} :
      PushedBy table (.number line value) { op := Opcode.pushInt.byte, operand := value }
  | name {line : Int} {x : Bytes} {v : Variable} (found : table.find? x = some v) :
      PushedBy table (.name line x) { op := Opcode.load.byte, kind := .int, operand := v.slot32 }

/-- A loop as code has it: first its condition with a branch out of it, and last a
jump back to the condition. -/
structure LoopPlace.IsIn (place : LoopPlace) (table : SymbolTable) (codes : Array Code) : Prop where
  left : ∃ c, codes[place.start]? = some c ∧ place.condition.left.PushedBy table c
  right : ∃ c, codes[place.start + 1]? = some c ∧ place.condition.right.PushedBy table c
  exit : ∃ c, codes[place.start + 2]? = some c ∧ c.opcode? = some .branch ∧
    c.operand.toInt = (place.back + 1 : Nat)
  back : ∃ c, codes[place.back]? = some c ∧ c.opcode? = some .jump ∧
    c.operand.toInt = place.start

/-- What the code at an address goes to lies further on, or is the start of a loop
that the code closes. -/
def Code.Advances (places : List LoopPlace) (address : Nat) (c : Code) : Prop :=
  (address : Int) < c.operand.toInt ∨
    ∃ place ∈ places, address = place.back ∧ c.opcode? = some .jump ∧
      c.operand.toInt = place.start

/-- Code from `low` to `high` whose loops are at the given places: all else that
jumps goes forward. -/
structure Charted (table : SymbolTable) (codes : Array Code) (places : List LoopPlace)
    (low high : Nat) : Prop where
  standing : ∀ place ∈ places, place.IsIn table codes
  advances : ∀ (pc : Nat) (c : Code), low ≤ pc → pc < high → codes[pc]? = some c → c.Jumps →
    c.Advances places pc

namespace Charted

variable {table : SymbolTable} {codes : Array Code} {places more : List LoopPlace}
  {low middle high : Nat}

theorem nil (base : Nat) : Charted table codes [] base base :=
  ⟨by simp, fun pc c hlow hhigh => by omega⟩

theorem mono (h : Charted table codes places low high) (hsub : places ⊆ more)
    (hmore : ∀ place ∈ more, place.IsIn table codes) : Charted table codes more low high := by
  refine ⟨hmore, fun pc c hlow hhigh hc hjumps => ?_⟩
  rcases h.advances pc c hlow hhigh hc hjumps with hahead | ⟨place, hplace, hback⟩
  · exact .inl hahead
  · exact .inr ⟨place, hsub hplace, hback⟩

/-- Stretches in a row. -/
theorem append (hfirst : Charted table codes places low middle)
    (hrest : Charted table codes more middle high) :
    Charted table codes (places ++ more) low high := by
  have hall : ∀ place ∈ places ++ more, place.IsIn table codes :=
    List.forall_mem_append.mpr ⟨hfirst.standing, hrest.standing⟩
  refine ⟨hall, fun pc c hlow hhigh hc hjumps => ?_⟩
  rcases Nat.lt_or_ge pc middle with hlt | hge
  · exact (hfirst.mono (List.subset_append_left _ _) hall).advances pc c hlow hlt hc hjumps
  · exact (hrest.mono (List.subset_append_right _ _) hall).advances pc c hge hhigh hc hjumps

end Charted

theorem Expr.EmitsOperand.pushedBy {table : SymbolTable} {e : Expr} {i : Instruction}
    (h : e.EmitsOperand table i) {address : Label → Option Nat} {pool : Pool} {c : Code}
    (hc : Resolves address pool i c) : e.PushedBy table c := by
  cases h with
  | number =>
    cases hc
    exact .number
  | name found =>
    cases hc
    exact .name found

section Emitted

variable {table : SymbolTable} {whole : List Instruction} {pool : Pool} {codes : Array Code}
  (hres : Resolved pool whole codes) (hspan : span whole < 2 ^ 31)
include hres

/-- An instruction that goes nowhere else. -/
theorem Charted.plain {base : Nat} {i : Instruction} {code : List Instruction}
    (hat : StandsAt whole base (i :: code)) (hi : i.isLabel = false) (htarget : i.target? = none) :
    Charted table codes [] base (base + 1) := by
  refine ⟨by simp, fun pc c hlow hhigh hc hjumps => ?_⟩
  obtain rfl : pc = base := by omega
  obtain ⟨c', hc', hresolves⟩ := hres.code_at hat hi
  obtain rfl : c = c' := Option.some.inj (hc.symm.trans hc')
  obtain ⟨l, _, hl, _⟩ := hresolves.target_of_jumps hjumps
  rw [htarget] at hl
  cases hl

include hspan

/-- An instruction that goes forward. -/
theorem Charted.forward {base a : Nat} {i : Instruction} {l : Label} {code : List Instruction}
    (hat : StandsAt whole base (i :: code)) (htarget : i.target? = some l)
    (haddress : address? whole l = some a) (hlt : base < a) :
    Charted table codes [] base (base + 1) := by
  have hi : i.isLabel = false := by
    cases i <;> simp_all [Instruction.target?, Instruction.isLabel]
  refine ⟨by simp, fun pc c hlow hhigh hc hjumps => .inl ?_⟩
  obtain rfl : pc = base := by omega
  obtain ⟨c', hc', hresolves⟩ := hres.code_at hat hi
  obtain rfl : c = c' := Option.some.inj (hc.symm.trans hc')
  obtain ⟨l', a', hl', ha', hoperand⟩ := hresolves.target_of_jumps hjumps
  obtain rfl : l = l' := Option.some.inj (htarget.symm.trans hl')
  obtain rfl : a = a' := Option.some.inj (haddress.symm.trans ha')
  rw [hoperand, toInt_of_address? haddress hspan]
  omega

theorem Expr.Emits.charted {label label' : Nat} {e : Expr} {code rest : List Instruction}
    (h : e.Emits table label code label') {base : Nat} (hat : StandsAt whole base (code ++ rest)) :
    Charted table codes [] base (base + e.size) := by
  induction h generalizing base rest with
  | number | text | name => exact .plain hres hat rfl rfl
  | paren _ ih => exact ih hat
  | binary leftValue rightValue ihLeft ihRight =>
    simp only [List.append_assoc] at hat
    have hright := hat.append
    have hop := hright.append
    rw [leftValue.span_eq] at hright hop
    rw [rightValue.span_eq] at hop
    rw [Expr.size, ← Nat.add_assoc, ← Nat.add_assoc]
    exact (ihLeft hat).append ((ihRight hright).append (.plain hres hop rfl rfl))
  | comparison known leftValue rightValue ihLeft ihRight =>
    simp only [List.append_assoc] at hat
    have hright := hat.append
    have hbranch := hright.append
    rw [leftValue.span_eq] at hright hbranch
    rw [rightValue.span_eq] at hbranch
    have hzero := hbranch.next rfl
    have hjump := hzero.next rfl
    have htrue := hjump.next rfl
    have hone := htrue.afterLabel
    have hend := hone.next rfl
    rw [Expr.size, ← Nat.add_assoc, ← Nat.add_assoc]
    refine (ihLeft hat).append ((ihRight hright).append ?_)
    exact (((Charted.forward hres hspan hbranch rfl (hres.address_at htrue) (by omega)).append
      (.plain hres hzero rfl rfl)).append
      (.forward hres hspan hjump rfl (hres.address_at hend) (by omega))).append
      (.plain hres hone rfl rfl)

/-- The test of a condition, which may go forward. -/
theorem Charted.test {base a : Nat} {condition : Condition} {relation : Relation}
    {left right : Instruction} {l : Label} {code : List Instruction}
    (leftOperand : condition.left.EmitsOperand table left)
    (rightOperand : condition.right.EmitsOperand table right)
    (hat : StandsAt whole base (left :: right :: .branch relation l :: code))
    (haddress : address? whole l = some a) (hlt : base + 2 < a) :
    Charted table codes [] base (base + 3) := by
  have hright := hat.next leftOperand.isLabel
  have hbranch := hright.next rightOperand.isLabel
  exact ((Charted.plain hres hat leftOperand.isLabel leftOperand.target?).append
    (.plain hres hright rightOperand.isLabel rightOperand.target?)).append
    (.forward hres hspan hbranch rfl haddress hlt)

section Loop

variable {base size : Nat} {condition : Condition} {relation : Relation} {left right : Instruction}
  {begin exit : Label} {body more : List Instruction}
  (leftOperand : condition.left.EmitsOperand table left)
  (rightOperand : condition.right.EmitsOperand table right)
  (hat : StandsAt whole base (.label begin :: left :: right :: .branch relation exit
    :: (body ++ .jump begin :: .label exit :: more)))
  (hsize : span body = size)
include leftOperand rightOperand hat hsize

/-- The code of a loop, with the addresses that its labels stand for. -/
theorem LoopPlace.isIn_of_standsAt :
    (LoopPlace.mk condition base (base + 3 + size)).IsIn table codes := by
  have hleft := hat.afterLabel
  have hright := hleft.next leftOperand.isLabel
  have hbranch := hright.next rightOperand.isLabel
  have hjump := (hbranch.next rfl).append
  rw [hsize] at hjump
  have hbegin := hres.address_at hat
  have hexit := hres.address_at (hjump.next rfl)
  obtain ⟨cl, hcl, hleftCode⟩ := hres.code_at hleft leftOperand.isLabel
  obtain ⟨cr, hcr, hrightCode⟩ := hres.code_at hright rightOperand.isLabel
  obtain ⟨cb, hcb, hbranchCode⟩ := hres.code_at hbranch rfl
  obtain ⟨cj, hcj, hjumpCode⟩ := hres.code_at hjump rfl
  refine ⟨⟨cl, hcl, leftOperand.pushedBy hleftCode⟩, ⟨cr, hcr, rightOperand.pushedBy hrightCode⟩,
    ⟨cb, hcb, ?_⟩, ⟨cj, hcj, ?_⟩⟩
  · cases hbranchCode with
    | branch _ place =>
      obtain rfl := Option.some.inj (hexit.symm.trans place)
      exact ⟨rfl, toInt_of_address? hexit hspan⟩
  · cases hjumpCode with
    | jump place =>
      obtain rfl := Option.some.inj (hbegin.symm.trans place)
      exact ⟨rfl, toInt_of_address? hbegin hspan⟩

/-- A loop whose body is charted. -/
theorem Charted.loop {places : List LoopPlace}
    (hbody : Charted table codes places (base + 3) (base + 3 + size)) :
    Charted table codes
      ({ condition, start := base, back := base + 3 + size } :: places) base
      (base + 3 + size + 1) := by
  have hplace := LoopPlace.isIn_of_standsAt hres hspan leftOperand rightOperand hat hsize
  have hall : ∀ place ∈ LoopPlace.mk condition base (base + 3 + size) :: places,
      place.IsIn table codes := List.forall_mem_cons.mpr ⟨hplace, hbody.standing⟩
  have hleft := hat.afterLabel
  have hjump := (((hleft.next leftOperand.isLabel).next rightOperand.isLabel).next rfl).append
  have hexit := hres.address_at (hjump.next rfl)
  have hbefore : Charted table codes places base (base + 3 + size) :=
    (Charted.test hres hspan leftOperand rightOperand hleft hexit (by omega)).append hbody
  refine ⟨hall, fun pc c hlow hhigh hc hjumps => ?_⟩
  -- the one jump that does not go forward is the last one
  rcases Nat.lt_or_ge pc (base + 3 + size) with hlt | hge
  · exact (hbefore.mono (List.subset_cons_self _ _) hall).advances pc c hlow hlt hc hjumps
  · obtain rfl : pc = base + 3 + size := by omega
    obtain ⟨c', hc', hback⟩ := hplace.back
    obtain rfl : c = c' := Option.some.inj (hc.symm.trans hc')
    exact .inr ⟨_, List.mem_cons_self, rfl, hback⟩

end Loop

/-- Emitted code jumps forward, but for the ends of its loops. -/
theorem Stmt.Emits.charted {supply supply' : Supply} {stmts : List Stmt}
    {code rest : List Instruction} (h : Stmt.Emits table supply stmts code supply') {base : Nat}
    (hat : StandsAt whole base (code ++ rest)) :
    Charted table codes (Stmt.loopsAll base stmts) base (base + Stmt.sizeAll stmts) := by
  induction h generalizing base rest with
  | nil => exact .nil base
  | set _ _ value _ ih | inc _ _ value _ ih =>
    rw [List.append_assoc] at hat
    have hstore := hat.append
    rw [value.span_eq] at hstore
    rw [Stmt.sizeAll, ← Nat.add_assoc]
    exact ((value.charted hres hspan hat).append (.plain hres hstore rfl rfl)).append
      (ih (hstore.next rfl))
  | printName _ _ ih | printText _ ih =>
    have hvalue := hat.next rfl
    have hprint := hvalue.next rfl
    rw [Stmt.sizeAll, ← Nat.add_assoc]
    exact (((Charted.plain hres hat rfl rfl).append (.plain hres hvalue rfl rfl)).append
      (.plain hres hprint rfl rfl)).append (ih (hprint.next rfl))
  | @read _ _ _ _ v _ _ _ _ ih =>
    have hstore := hat.next rfl
    have hload := hstore.next rfl
    have hreader := hload.next rfl
    have hassign := hreader.next v.isLabel_reader
    rw [Stmt.sizeAll, ← Nat.add_assoc]
    exact (((((Charted.plain hres hat rfl rfl).append (.plain hres hstore rfl rfl)).append
      (.plain hres hload rfl rfl)).append
      (.plain hres hreader v.isLabel_reader v.target?_reader)).append
      (.plain hres hassign rfl rfl)).append (ih (hassign.next rfl))
  | choice _ leftOperand rightOperand noPart yesPart _ ihNo ihYes ih =>
    simp only [List.cons_append, List.append_assoc] at hat
    have hno := ((hat.next leftOperand.isLabel).next rightOperand.isLabel).next rfl
    have hjump := hno.append
    rw [noPart.span_eq] at hjump
    have hthen := hjump.next rfl
    have hyes := hthen.afterLabel
    have hend := hyes.append
    rw [yesPart.span_eq] at hend
    simp only [Stmt.sizeAll, Stmt.size, Stmt.loopsAll, Stmt.loops, ← Nat.add_assoc]
    exact (((Charted.test hres hspan leftOperand rightOperand hat (hres.address_at hthen)
        (by omega)).append (ihNo hno)).append
      ((Charted.forward hres hspan hjump rfl (hres.address_at hend) (by omega)).append
        (ihYes hyes))).append (ih hend.afterLabel)
  | loop _ leftOperand rightOperand bodyPart _ ihBody ih =>
    simp only [List.cons_append, List.append_assoc] at hat
    have hbody := ((hat.afterLabel.next leftOperand.isLabel).next rightOperand.isLabel).next rfl
    have hjump := hbody.append
    rw [bodyPart.span_eq] at hjump
    simp only [Stmt.sizeAll, Stmt.size, Stmt.loopsAll, Stmt.loops, ← Nat.add_assoc]
    exact (Charted.loop hres hspan leftOperand rightOperand hat bodyPart.span_eq
      (ihBody hbody)).append (ih (hjump.next rfl).afterLabel)

end Emitted

/-! ## Runs -/

/-- All jumps of a frame go forward. -/
def Frame.Forward (f : Frame) : Prop :=
  ∀ (pc : Nat) (c : Code), f.code[pc]? = some c → c.Jumps → (pc : Int) < c.operand.toInt

namespace Machine

variable {m : Module} {f : Frame} {limits : Limits} {s t : State}

theorem Turned.lt_pc (h : Turned m f limits s (.running t)) (hf : f.Forward) : s.pc < t.pc := by
  cases h with
  | next hcode _ hlawful =>
    obtain ⟨_, hpc | ⟨hjumps, hpc⟩⟩ := hlawful
    · exact Nat.lt_of_lt_of_eq (Nat.lt_succ_self s.pc) hpc.symm
    · have hlt := hf s.pc _ hcode hjumps
      omega

/-- A run that goes forward has passed an address with every turn. -/
theorem le_pc_of_running (hf : f.Forward) {n : Nat}
    (h : advance m f limits n (.running s) = .running t) : s.pc + n ≤ t.pc := by
  induction n generalizing s with
  | zero =>
    cases h
    exact Nat.le_refl _
  | succ n ih =>
    rw [advance_succ] at h
    cases hs : turn m f limits s with
    | stopped outcome u =>
      rw [hs, advance_stopped] at h
      cases h
    | running u =>
      have hturn := turned m f limits s
      rw [hs] at h hturn
      have hlt := hturn.lt_pc hf
      have hle := ih h
      omega

/-- A return ends the run. -/
theorem turn_ret {c : Code} (hcode : f.code[s.pc]? = some c) (hc : c.opcode? = some .ret) :
    turn m f limits s ≠ .running t := by
  simp only [turn, hcode, State.execute, hc]
  split_ifs <;> simp

/-- A run that goes forward takes no more turns than there are instructions. -/
theorem exists_stopped_of_forward (hf : f.Forward) {last : Nat} (hsize : f.code.size = last + 1)
    {c : Code} (hcode : f.code[last]? = some c) (hc : c.opcode? = some .ret) (s : State) :
    ∃ outcome t, advance m f limits (last + 1) (.running s) = .stopped outcome t := by
  cases h : advance m f limits (last + 1) (.running s) with
  | stopped outcome t => exact ⟨outcome, t, rfl⟩
  | running t =>
    exfalso
    rw [advance_add] at h
    cases hrun : advance m f limits last (.running s) with
    | stopped outcome u =>
      rw [hrun, advance_stopped] at h
      cases h
    | running u =>
      rw [hrun, advance_succ, advance_zero] at h
      have hle := le_pc_of_running hf hrun
      have hturn := turned m f limits u
      rw [h] at hturn
      cases hturn with
      | next hcode' _ _ =>
        -- the last turn was at the last address, where the return is
        have hlt := (Array.getElem?_eq_some_iff.mp hcode').1
        obtain rfl : u.pc = last := by omega
        exact turn_ret hcode hc h

/-- A run is cut off by its budget only after as many turns. -/
theorem maxSteps_lt_of_stepLimit {n k : Nat}
    (h : advance m f limits n (.running s) = .stopped (.stepLimit k) t) :
    0 < limits.maxSteps ∧ limits.maxSteps < s.steps + n := by
  obtain ⟨j, u, hj, hrun, hlast⟩ := exists_turn_of_stopped h
  have hsteps := steps_of_running hrun
  have hturn := turned m f limits u
  rw [hlast] at hturn
  cases hturn with
  | stepLimit hspent =>
    have hle := hspent.2
    exact ⟨hspent.1, by omega⟩

end Machine

/-! ## Programs -/

namespace Program.Lowered

variable {p : Program} {c : Compiled} {code : List Instruction} {supply : Supply} {m : Module}
  {f : Frame}

theorem size_code (h : p.Lowered c code supply m f) :
    f.code.size = Stmt.sizeAll p.body + 1 ∧ c.unit.instructionCount = Stmt.sizeAll p.body + 1 := by
  have hspan : span (code ++ [.ret]) = Stmt.sizeAll p.body + 1 := by
    rw [span_append, h.emits.span_eq]
    rfl
  exact ⟨h.assembled.size_code.trans hspan, h.instructionCount_eq.trans hspan⟩

/-- The return at the end of a program. -/
theorem code_ret (h : p.Lowered c code supply m f) :
    ∃ ret, f.code[Stmt.sizeAll p.body]? = some ret ∧ ret.opcode? = some .ret := by
  have hat : StandsAt (Routine.main supply.slot code).code (Stmt.sizeAll p.body) [.ret] :=
    ⟨code, rfl, h.emits.span_eq⟩
  obtain ⟨ret, hret, hresolves⟩ := h.assembled.code_at hat rfl
  cases hresolves
  exact ⟨_, hret, rfl⟩

theorem charted (h : p.Lowered c code supply m f) (hcount : c.unit.instructionCount < 2 ^ 31) :
    Charted c.symbols f.code p.loops 0 (Stmt.sizeAll p.body) := by
  have hat : StandsAt (Routine.main supply.slot code).code 0 (code ++ [.ret]) := ⟨[], rfl, rfl⟩
  have hspan : span (Routine.main supply.slot code).code < 2 ^ 31 := h.instructionCount_eq ▸ hcount
  have hall := h.emits.charted h.assembled.toResolved hspan hat
  rwa [Nat.zero_add] at hall

/-- What a program goes to lies further on, or is the start of one of its loops. -/
theorem advances (h : p.Lowered c code supply m f) (hcount : c.unit.instructionCount < 2 ^ 31)
    {pc : Nat} {i : Code} (hi : f.code[pc]? = some i) (hjumps : i.Jumps) :
    i.Advances p.loops pc := by
  have hlt := (Array.getElem?_eq_some_iff.mp hi).1
  rw [h.size_code.1] at hlt
  rcases Nat.lt_succ_iff_lt_or_eq.mp hlt with hlt | rfl
  · exact (h.charted hcount).advances pc i (Nat.zero_le pc) hlt hi hjumps
  · obtain ⟨ret, hret, hop⟩ := h.code_ret
    obtain rfl : i = ret := Option.some.inj (hi.symm.trans hret)
    simp [Code.Jumps, hop] at hjumps

theorem forward (h : p.Lowered c code supply m f) (hcount : c.unit.instructionCount < 2 ^ 31)
    (hloops : p.loops = []) : f.Forward := by
  intro pc i hi hjumps
  rcases h.advances hcount hi hjumps with hahead | ⟨place, hplace, _⟩
  · exact hahead
  · rw [hloops] at hplace
    cases hplace

/-- A run can start if memory has room for the slots of the program. -/
theorem exists_begin (h : p.Lowered c code supply m f) (hcount : c.unit.instructionCount < 2 ^ 31)
    (hslots : c.slots ≤ Machine.room) (last : State) :
    ∃ s, Machine.begin m last = .ok (f, s) := by
  have hroom : Machine.hasRoom f.maxLocals = true := by
    have hge : (supply.slot : Int) ≤ _ := locals_le_slots (.main supply.slot code)
    have hle : _ ≤ max (supply.slot : Int) _ := slots_le (.main supply.slot code)
    rw [h.slots, Machine.room] at hslots
    rw [h.assembled.maxLocals]
    unfold Machine.hasRoom Machine.room
    simp only [Bool.and_eq_true, decide_eq_true_eq]
    omega
  exact ⟨_, by rw [h.assembled.begin_eq h.entry (h.instructionCount_eq ▸ hcount), if_pos hroom]⟩

end Program.Lowered

/-- Only loops go back. Every jump of a program goes forward, but for the one at
the end of each loop, which goes to the first instruction of the loop's condition.
A program without loops therefore ends, whatever its input is, with no more steps
than it has instructions; and a budget of as many steps is never used up. Its runs
start unless it has more slots than there is room for in memory. -/
theorem Program.only_loops_go_back {p : Program} {c : Compiled} (h : p.compile = .ok c)
    (hcount : c.unit.instructionCount < 2 ^ 31) :
    ∃ m f, c.unit.assemble = .ok m ∧ m.entry? = some f ∧
      (∀ (pc : Nat) (i : Code), f.code[pc]? = some i → i.Jumps → i.Advances p.loops pc) ∧
      (∀ place ∈ p.loops, place.IsIn c.symbols f.code) ∧
      (∀ last, c.slots ≤ Machine.room → ∃ s, Machine.begin m last = .ok (f, s)) ∧
      (p.loops = [] → ∀ (last s : State) (limits : Limits), Machine.begin m last = .ok (f, s) →
        ∃ outcome t,
          Machine.advance m f limits c.unit.instructionCount (.running s) = .stopped outcome t ∧
          t.steps ≤ c.unit.instructionCount ∧
          (limits.maxSteps ≤ 0 ∨ c.unit.instructionCount ≤ limits.maxSteps →
            ∀ k, outcome ≠ .stepLimit k)) := by
  obtain ⟨code, supply, m, f, hlow⟩ := exists_lowered h hcount
  refine ⟨m, f, hlow.assemble, hlow.entry, fun pc i => hlow.advances hcount,
    (hlow.charted hcount).standing, fun last hslots => hlow.exists_begin hcount hslots last,
    fun hloops last s limits hbegin => ?_⟩
  obtain ⟨ret, hret, hop⟩ := hlow.code_ret
  obtain ⟨outcome, t, hstop⟩ := Machine.exists_stopped_of_forward
    (hlow.forward hcount hloops) hlow.size_code.1 hret hop s
  rw [← hlow.size_code.2] at hstop
  have hzero : s.steps = 0 := by
    obtain ⟨_, _, rfl⟩ := Machine.begin_eq_ok_iff.mp hbegin
    rfl
  refine ⟨outcome, t, hstop, ?_, fun hbudget k hk => ?_⟩
  · have hle := Machine.steps_le m f limits c.unit.instructionCount s
    rw [hstop, hzero, Nat.zero_add] at hle
    exact hle
  · subst hk
    have hlt := Machine.maxSteps_lt_of_stepLimit hstop
    omega

/-- A program that reads a number and says what sign it has. -/
def Program.sign : Program where
  name := ascii "sign"
  line := 1
  declarations := [{ typeName := ascii "INTEGER", name := ascii "n", line := 2 }]
  body :=
    [.read 4 (ascii "n"),
      .choice 5 { line := 5, left := .name 5 (ascii "n"), comparator := ascii "<",
                  right := .number 5 0 }
        [.print 6 (.text 6 (ascii "\"minus\""))]
        [.print 7 (.text 7 (ascii "\"plus\""))]]

theorem Program.only_loops_go_back_sign :
    (∃ c m f place, countdown.compile = .ok c ∧ c.unit.assemble = .ok m ∧ m.entry? = some f ∧
      countdown.loops = [place] ∧ place.start = 5 ∧ place.back = 15 ∧
      (∀ (pc : Nat) (i : Code), f.code[pc]? = some i → i.Jumps → i.Advances [place] pc) ∧
      place.IsIn c.symbols f.code) ∧
    ∃ c m f s, sign.compile = .ok c ∧ c.unit.instructionCount = 16 ∧ c.unit.assemble = .ok m ∧
      m.entry? = some f ∧ sign.loops = [] ∧
      Machine.begin m { input := .ofBytes (ascii "-7") } = .ok (f, s) ∧
      ∃ outcome t, Machine.advance m f { maxSteps := 16 } 16 (.running s) = .stopped outcome t ∧
        t.steps ≤ 16 ∧ ∀ k, outcome ≠ .stepLimit k := by
  constructor
  · obtain ⟨c, _, hc, _, hcount, _⟩ := countdown_assembles
    obtain ⟨m, f, hm, hf, hadvances, hstanding, _⟩ := Program.only_loops_go_back hc hcount
    exact ⟨c, m, f, _, hc, hm, hf, rfl, rfl, rfl, hadvances, hstanding _ List.mem_cons_self⟩
  · have h : (match sign.compile with
        | .ok c => decide (c.unit.instructionCount = 16) && decide (c.slots ≤ Machine.room)
        | .error _ => false) = true := by
      decide +kernel
    split at h
    · rename_i c hc
      rw [Bool.and_eq_true, decide_eq_true_eq, decide_eq_true_eq] at h
      obtain ⟨hcount, hslots⟩ := h
      obtain ⟨m, f, hm, hf, _, _, hbegin, hruns⟩ :=
        Program.only_loops_go_back hc (by rw [hcount]; decide)
      obtain ⟨s, hs⟩ := hbegin { input := .ofBytes (ascii "-7") } hslots
      obtain ⟨outcome, t, hstop, hsteps, hlimit⟩ := hruns rfl _ s { maxSteps := 16 } hs
      rw [hcount] at hstop hsteps hlimit
      exact ⟨c, m, f, s, hc, hcount, hm, hf, rfl, hs, outcome, t, hstop, hsteps,
        hlimit (.inr (by decide))⟩
    · simp at h

end Stackling
