import Mathlib.Tactic.Common
import Stackling.Proofs.Marked
import Stackling.Proofs.Program.Labels
import Stackling.Proofs.SoundUnit

/-!
# How deep the stack of a program gets

The depth of a program is read off its tree: a right operand is evaluated on top
of the left one, and every statement starts and ends with an empty stack. The
code of a program is marked with the depths construct by construct, and the
peak of the marks is the depth of the tree. Hence compiled programs can always
be assembled, and their frames are as large as the tree says
(`Program.assembles`).
-/

namespace Stackling

open Assemble StackDepth

/-! ## The depth of trees -/

/-- How many operands the evaluation of an expression needs at once. -/
def Expr.depth : Expr → Nat
  | number _ _ | text _ _ | name _ _ => 1
  | paren _ inner => inner.depth
  | binary _ _ left right | comparison _ _ left right => max left.depth (1 + right.depth)
  | missing => 0

mutual

/-- How many operands a statement needs at once. -/
def Stmt.depth : Stmt → Nat
  | .set _ _ value | .inc _ _ value => value.depth
  | .read _ _ => 1
  | .print _ _ => 2
  | .choice _ _ yes no => max 2 (max (Stmt.depthAll yes) (Stmt.depthAll no))
  | .loop _ _ body => max 2 (Stmt.depthAll body)
  | .missing => 0

/-- How many operands statements in a row need at once. -/
def Stmt.depthAll : List Stmt → Nat
  | [] => 0
  | stmt :: stmts => max stmt.depth (Stmt.depthAll stmts)

end

theorem Expr.Emits.depth_pos {table : SymbolTable} {label label' : Nat} {e : Expr}
    {code : List Instruction} (h : e.Emits table label code label') : 1 ≤ e.depth := by
  induction h with
  | number | text | name => exact Nat.le_refl 1
  | paren _ ih => exact ih
  | binary _ _ ihLeft _ => exact Nat.le_trans ihLeft (Nat.le_max_left _ _)
  | comparison _ _ _ ihLeft _ => exact Nat.le_trans ihLeft (Nat.le_max_left _ _)

/-! ## Marking code -/

namespace Marked

/-- Marks for a piece of code that is entered with depth `start`, left with depth
`out`, and reaches depth `top`. -/
structure Marks (marked : Marked) (code : List Instruction) (start out top : Nat) : Prop where
  code : marked.code = code
  entry : marked.entry out = start
  flow : ∀ whole : Marked, marked ⊆ whole → Flow whole marked out
  peak : marked.peak = top

theorem Marks.nil (depth : Nat) : Marks [] [] depth depth 0 :=
  ⟨rfl, rfl, fun _ _ => trivial, rfl⟩

theorem Marks.congr {marked : Marked} {code : List Instruction} {start out top top' : Nat}
    (h : Marks marked code start out top) (htop : top = top') :
    Marks marked code start out top' := htop ▸ h

theorem Marks.append {first rest : Marked} {code code' : List Instruction}
    {start middle out top top' : Nat} (hfirst : Marks first code start middle top)
    (hrest : Marks rest code' middle out top') :
    Marks (first ++ rest) (code ++ code') start out (max top top') := by
  refine
    { code := by rw [code_append, hfirst.code, hrest.code]
      entry := by rw [entry_append, hrest.entry, hfirst.entry]
      flow := fun whole hsub => ?_
      peak := by rw [peak_append, hfirst.peak, hrest.peak] }
  rw [flow_append, hrest.entry]
  exact ⟨hfirst.flow whole fun _ h => hsub (List.mem_append_left _ h),
    hrest.flow whole fun _ h => hsub (List.mem_append_right _ h)⟩

/-- An instruction that goes to no label. -/
theorem Marks.cons {rest : Marked} {i : Instruction} {code : List Instruction}
    {start out top : Nat} (hlabel : i.isLabel = false) (htarget : i.target? = none)
    (enough : Opcode.popsOf i.op ≤ start)
    (hrest : Marks rest code (i.leaves start) out top) :
    Marks ((start, i) :: rest) (i :: code) start out (max (i.leaves start) top) := by
  refine
    { code := by rw [code_cons, hrest.code]
      entry := rfl
      flow := fun whole hsub => ⟨⟨enough, fun _ => hrest.entry, by simp [htarget]⟩, ?_⟩
      peak := by simp [Marked.peak, hlabel, hrest.peak] }
  exact hrest.flow whole fun _ h => hsub (List.mem_cons_of_mem _ h)

end Marked

private theorem marks_arith (op : Arith) (depth : Nat) :
    Marked.Marks [(depth + 2, .arith op)] [.arith op] (depth + 2) (depth + 1) (depth + 1) := by
  have hleaves : (Instruction.arith op).leaves (depth + 2) = depth + 1 := by
    cases op <;> simp [Instruction.leaves, Instruction.op, Arith.opcode, Opcode.pops,
      Opcode.pushes]
  have hpops : Opcode.popsOf (Instruction.arith op).op ≤ depth + 2 := by
    cases op <;> simp [Instruction.op, Arith.opcode, Opcode.pops]
  have hmarks := Marked.Marks.cons rfl rfl hpops (.nil _)
  rw [hleaves] at hmarks
  exact hmarks.congr (Nat.max_eq_left (Nat.zero_le _))

/-- The depths of the instructions that make an integer of a comparison. -/
private theorem marks_comparison (relation : Relation) (yes done : Label) (depth : Nat) :
    Marked.Marks [(depth + 2, .branch relation yes), (depth, .pushInt 0), (depth + 1, .jump done),
        (depth, .label yes), (depth, .pushInt 1), (depth + 1, .label done)]
      [.branch relation yes, .pushInt 0, .jump done, .label yes, .pushInt 1, .label done]
      (depth + 2) (depth + 1) (depth + 1) := by
  refine ⟨rfl, rfl, fun whole hsub => ?_, ?_⟩
  · have hyes : (depth, Instruction.label yes) ∈ whole := hsub (by simp)
    have hdone : (depth + 1, Instruction.label done) ∈ whole := hsub (by simp)
    simpa [Marked.Flow, Instruction.goesOn, Instruction.leaves, Instruction.op, Instruction.target?,
      Opcode.pops, Opcode.pushes] using ⟨hyes, hdone⟩
  · simp [Marked.peak, Instruction.isLabel, Instruction.leaves, Instruction.op, Opcode.pops,
      Opcode.pushes]

/-- The code of an expression adds one operand, and reaches as deep as the
expression is. -/
theorem Expr.Emits.marks {table : SymbolTable} {label label' : Nat} {e : Expr}
    {code : List Instruction} (h : e.Emits table label code label') (depth : Nat) :
    ∃ marked : Marked, marked.Marks code depth (depth + 1) (depth + e.depth) := by
  induction h generalizing depth with
  | number | text => exact ⟨_, .cons rfl rfl (by simp [Instruction.op, Opcode.pops]) (.nil _)⟩
  | name => exact ⟨_, .cons rfl rfl (by simp [Variable.load, Instruction.op, Opcode.pops]) (.nil _)⟩
  | paren _ ih => exact ih depth
  | binary leftValue rightValue ihLeft ihRight =>
    obtain ⟨left, hleft⟩ := ihLeft depth
    obtain ⟨right, hright⟩ := ihRight (depth + 1)
    have hpos := rightValue.depth_pos
    refine ⟨_, (hleft.append (hright.append (marks_arith _ depth))).congr ?_⟩
    simp only [Expr.depth]
    omega
  | comparison _ leftValue rightValue ihLeft ihRight =>
    obtain ⟨left, hleft⟩ := ihLeft depth
    obtain ⟨right, hright⟩ := ihRight (depth + 1)
    have hpos := rightValue.depth_pos
    refine ⟨_, (hleft.append (hright.append (marks_comparison _ _ _ depth))).congr ?_⟩
    simp only [Expr.depth]
    omega

/-- An instruction that pushes one operand and pops none. -/
structure Instruction.Pushes (i : Instruction) : Prop where
  isLabel : i.isLabel = false
  target? : i.target? = none
  pops : Opcode.popsOf i.op = 0
  leaves : ∀ depth, i.leaves depth = depth + 1

theorem Expr.EmitsOperand.pushes {table : SymbolTable} {e : Expr} {i : Instruction}
    (h : e.EmitsOperand table i) : i.Pushes := by
  cases h <;> exact ⟨rfl, rfl, rfl, fun _ => rfl⟩

theorem Variable.load_pushes (v : Variable) : v.load.Pushes := ⟨rfl, rfl, rfl, fun _ => rfl⟩

theorem Variable.reader_leaves (v : Variable) :
    Opcode.popsOf v.reader.op = 1 ∧ v.reader.leaves 1 = 1 := by
  unfold reader
  split <;> exact ⟨rfl, rfl⟩

namespace Marked

variable {rest : Marked} {code : List Instruction} {start out top : Nat}

theorem flow_push {whole : Marked} {i : Instruction} (hi : i.Pushes)
    (hnext : entry rest out = start + 1) (hrest : Flow whole rest out) :
    Flow whole ((start, i) :: rest) out := by
  refine ⟨⟨by rw [hi.pops]; exact Nat.zero_le _, fun _ => ?_, by simp [hi.target?]⟩, hrest⟩
  rw [hnext, hi.leaves]

theorem peak_push {i : Instruction} (hi : i.Pushes) :
    peak ((start, i) :: rest) = max (start + 1) (peak rest) := by
  simp [peak, hi.isLabel, hi.leaves]

theorem Marks.push {i : Instruction} (hi : i.Pushes)
    (hrest : Marks rest code (start + 1) out top) :
    Marks ((start, i) :: rest) (i :: code) start out (max (start + 1) top) := by
  refine ⟨by rw [code_cons, hrest.code], rfl, fun whole hsub => ?_, ?_⟩
  · exact flow_push hi hrest.entry (hrest.flow whole fun _ h => hsub (List.mem_cons_of_mem _ h))
  · rw [peak_push hi, hrest.peak]

theorem Marks.store (kind : Kind) (slot : Int32) (hrest : Marks rest code 0 out top) :
    Marks ((1, .store kind slot) :: rest) (.store kind slot :: code) 1 out top :=
  (Marks.cons (i := .store kind slot) rfl rfl (Nat.le_refl 1) hrest).congr (Nat.zero_max top)

theorem Marks.print {i : Instruction} (kind : Kind) (hi : i.Pushes)
    (hrest : Marks rest code 0 out top) :
    Marks ((0, .openOutput) :: (1, i) :: (2, .print kind) :: rest)
      (.openOutput :: i :: .print kind :: code) 0 out (max 2 top) := by
  have hprint : Marks ((2, .print kind) :: rest) (.print kind :: code) 2 out (max 0 top) :=
    .cons rfl rfl (Nat.le_refl 2) hrest
  have hopen : Instruction.openOutput.Pushes := ⟨rfl, rfl, rfl, fun _ => rfl⟩
  refine (Marks.push hopen (Marks.push hi hprint)).congr ?_
  omega

theorem Marks.read (v : Variable) (slot : Int32) (hrest : Marks rest code 0 out top) :
    ∃ marked : Marked, marked.Marks
      (.openInput :: .store .ref slot :: .load .ref slot :: v.reader :: v.store :: code) 0 out
      (max 1 top) := by
  have hopen : Instruction.openInput.Pushes := ⟨rfl, rfl, rfl, fun _ => rfl⟩
  have hload : (Instruction.load .ref slot).Pushes := ⟨rfl, rfl, rfl, fun _ => rfl⟩
  obtain ⟨hpops, hleaves⟩ := v.reader_leaves
  have hstore : Marks _ (v.store :: code) 1 out top := .store v.type.kind v.slot32 hrest
  rw [← hleaves] at hstore
  have hreader := Marks.cons v.isLabel_reader v.target?_reader (Nat.le_of_eq hpops) hstore
  refine ⟨_, (Marks.push hopen (Marks.store .ref slot (Marks.push hload hreader))).congr ?_⟩
  omega

/-- A choice: both parts and what follows start with an empty stack. -/
theorem Marks.choice {no yes : Marked} {left right : Instruction}
    {noCode yesCode : List Instruction} {noTop yesTop : Nat} (relation : Relation)
    (yesLabel endLabel : Label) (hleft : left.Pushes) (hright : right.Pushes)
    (hno : Marks no noCode 0 0 noTop) (hyes : Marks yes yesCode 0 0 yesTop)
    (hrest : Marks rest code 0 0 top) :
    ∃ marked : Marked, marked.Marks
      (left :: right :: .branch relation yesLabel
        :: (noCode ++ .jump endLabel :: .label yesLabel :: (yesCode ++ .label endLabel :: code)))
      0 0 (max 2 (max (max yesTop noTop) top)) := by
  have htest : Marks ((2, .branch relation yesLabel) :: (no ++ (0, .jump endLabel)
        :: (0, .label yesLabel) :: (yes ++ (0, .label endLabel) :: rest)))
      (.branch relation yesLabel :: (noCode ++ .jump endLabel :: .label yesLabel
        :: (yesCode ++ .label endLabel :: code))) 2 0 (max noTop (max yesTop top)) := by
    refine ⟨by simp [hno.code, hyes.code, hrest.code], rfl, fun whole hsub => ?_, ?_⟩
    · -- control comes to both labels with an empty stack
      have hyesMem : (0, Instruction.label yesLabel) ∈ whole := hsub (by simp)
      have hendMem : (0, Instruction.label endLabel) ∈ whole := hsub (by simp)
      have hnoFlow := hno.flow whole fun _ h => hsub (by simp [h])
      have hyesFlow := hyes.flow whole fun _ h => hsub (by simp [h])
      have hrestFlow := hrest.flow whole fun _ h => hsub (by simp [h])
      simp [Flow, flow_append, hno.entry, hyes.entry, hrest.entry, hnoFlow, hyesFlow, hrestFlow,
        hyesMem, hendMem, Instruction.goesOn, Instruction.leaves, Instruction.op,
        Instruction.target?, Opcode.pops, Opcode.pushes]
    · simp [Marked.peak, hno.peak, hyes.peak, hrest.peak, Instruction.isLabel, Instruction.leaves,
        Instruction.op, Opcode.pops, Opcode.pushes]
  refine ⟨_, (Marks.push hleft (Marks.push hright htest)).congr ?_⟩
  omega

/-- A loop: the body and what follows start with an empty stack. -/
theorem Marks.loop {body : Marked} {left right : Instruction} {bodyCode : List Instruction}
    {bodyTop : Nat} (relation : Relation) (beginLabel exitLabel : Label) (hleft : left.Pushes)
    (hright : right.Pushes) (hbody : Marks body bodyCode 0 0 bodyTop)
    (hrest : Marks rest code 0 0 top) :
    ∃ marked : Marked, marked.Marks
      (.label beginLabel :: left :: right :: .branch relation exitLabel
        :: (bodyCode ++ .jump beginLabel :: .label exitLabel :: code))
      0 0 (max 2 (max bodyTop top)) := by
  refine ⟨(0, .label beginLabel) :: (0, left) :: (1, right) :: (2, .branch relation exitLabel)
    :: (body ++ (0, .jump beginLabel) :: (0, .label exitLabel) :: rest),
    by simp [hbody.code, hrest.code], rfl, fun whole hsub => ?_, ?_⟩
  · have hbeginMem : (0, Instruction.label beginLabel) ∈ whole := hsub (by simp)
    have hexitMem : (0, Instruction.label exitLabel) ∈ whole := hsub (by simp)
    have hbodyFlow := hbody.flow whole fun _ h => hsub (by simp [h])
    have hrestFlow := hrest.flow whole fun _ h => hsub (by simp [h])
    refine ⟨⟨Nat.zero_le _, fun _ => rfl, by simp [Instruction.target?]⟩, ?_⟩
    refine flow_push hleft rfl (flow_push hright rfl ?_)
    simp [Flow, flow_append, hbody.entry, hrest.entry, hbodyFlow, hrestFlow, hbeginMem, hexitMem,
      Instruction.goesOn, Instruction.leaves, Instruction.op, Instruction.target?, Opcode.pops,
      Opcode.pushes]
  · have hpeak : Marked.peak ((2, .branch relation exitLabel) :: (body ++ (0, .jump beginLabel)
        :: (0, .label exitLabel) :: rest)) = max bodyTop top := by
      simp [Marked.peak, hbody.peak, hrest.peak, Instruction.isLabel, Instruction.leaves,
        Instruction.op, Opcode.pops, Opcode.pushes]
    have hlabel : (Instruction.label beginLabel).isLabel = true := rfl
    rw [Marked.peak, if_pos hlabel, peak_push hleft, peak_push hright, hpeak]
    omega

end Marked

/-- The code of statements starts and ends with an empty stack, and reaches as
deep as the statements are. -/
theorem Stmt.Emits.marks {table : SymbolTable} {supply supply' : Supply} {stmts : List Stmt}
    {code : List Instruction} (h : Stmt.Emits table supply stmts code supply') :
    ∃ marked : Marked, marked.Marks code 0 0 (Stmt.depthAll stmts) := by
  induction h with
  | nil => exact ⟨[], .nil 0⟩
  | set type _ value _ ih | inc type _ value _ ih =>
    obtain ⟨first, hfirst⟩ := value.marks 0
    obtain ⟨rest, hrest⟩ := ih
    refine ⟨_, (hfirst.append (.store type.kind _ hrest)).congr ?_⟩
    simp only [Stmt.depthAll, Stmt.depth, Nat.zero_add]
  | printName _ _ ih =>
    obtain ⟨rest, hrest⟩ := ih
    exact ⟨_, .print _ (Variable.load_pushes _) hrest⟩
  | printText _ ih =>
    obtain ⟨rest, hrest⟩ := ih
    exact ⟨_, .print .ref ⟨rfl, rfl, rfl, fun _ => rfl⟩ hrest⟩
  | read _ _ ih =>
    obtain ⟨rest, hrest⟩ := ih
    exact Marked.Marks.read _ _ hrest
  | choice _ leftOperand rightOperand _ _ _ ihNo ihYes ih =>
    obtain ⟨no, hno⟩ := ihNo
    obtain ⟨yes, hyes⟩ := ihYes
    obtain ⟨rest, hrest⟩ := ih
    obtain ⟨marked, hmarked⟩ := Marked.Marks.choice _ _ _ leftOperand.pushes rightOperand.pushes
      hno hyes hrest
    refine ⟨marked, hmarked.congr ?_⟩
    simp only [Stmt.depthAll, Stmt.depth]
    omega
  | loop _ leftOperand rightOperand _ _ ihBody ih =>
    obtain ⟨body, hbody⟩ := ihBody
    obtain ⟨rest, hrest⟩ := ih
    obtain ⟨marked, hmarked⟩ := Marked.Marks.loop _ _ _ leftOperand.pushes rightOperand.pushes
      hbody hrest
    refine ⟨marked, hmarked.congr ?_⟩
    simp only [Stmt.depthAll, Stmt.depth]
    omega

/-! ## Reached code -/

theorem Expr.Emits.entered {table : SymbolTable} {label label' : Nat} {e : Expr}
    {code : List Instruction} (h : e.Emits table label code label') :
    ∀ {seen : List Label} {rest : List Instruction}, Marked.Entered seen rest →
      Marked.Entered seen (code ++ rest) := by
  induction h with
  | number | text | name => exact fun hrest => hrest
  | paren _ ih => exact ih
  | binary _ _ ihLeft ihRight =>
    intro seen rest hrest
    rw [List.append_assoc, List.append_assoc]
    exact ihLeft (ihRight hrest)
  | comparison _ _ _ ihLeft ihRight =>
    intro seen rest hrest
    rw [List.append_assoc, List.append_assoc]
    refine ihLeft (ihRight ⟨⟨_, by simp, _, rfl⟩, ?_⟩)
    exact hrest.mono (by simp)

theorem Expr.EmitsOperand.entered {table : SymbolTable} {e : Expr} {i : Instruction}
    (h : e.EmitsOperand table i) {seen : List Label} {rest : List Instruction}
    (hrest : Marked.Entered seen rest) : Marked.Entered seen (i :: rest) := by
  cases h <;> exact hrest

/-- In emitted code every jump is followed by a label that a branch goes to. -/
theorem Stmt.Emits.entered {table : SymbolTable} {supply supply' : Supply} {stmts : List Stmt}
    {code : List Instruction} (h : Stmt.Emits table supply stmts code supply') :
    ∀ {seen : List Label} {rest : List Instruction}, Marked.Entered seen rest →
      Marked.Entered seen (code ++ rest) := by
  induction h with
  | nil => exact fun hrest => hrest
  | set _ _ value _ ih | inc _ _ value _ ih =>
    intro seen rest hrest
    rw [List.append_assoc]
    exact value.entered (ih hrest)
  | printName _ _ ih | printText _ ih => exact fun hrest => ih hrest
  | @read _ _ _ _ v _ _ _ _ ih =>
    intro seen rest hrest
    have hreader := ih hrest
    unfold Variable.reader
    split <;> exact hreader
  | choice _ leftOperand rightOperand _ _ _ ihNo ihYes ih =>
    intro seen rest hrest
    rw [List.cons_append, List.cons_append, List.cons_append, List.append_assoc, List.cons_append,
      List.cons_append, List.append_assoc]
    -- after the jump comes the label of the branch, which was met before
    refine leftOperand.entered (rightOperand.entered (ihNo ⟨⟨_, by simp, _, rfl⟩, ihYes ?_⟩))
    exact ih (hrest.mono (by simp))
  | loop _ leftOperand rightOperand _ _ ihBody ih =>
    intro seen rest hrest
    rw [List.cons_append, List.cons_append, List.cons_append, List.cons_append, List.append_assoc]
    refine leftOperand.entered (rightOperand.entered (ihBody ⟨⟨_, by simp, _, rfl⟩, ?_⟩))
    exact ih (hrest.mono (by simp))

/-! ## Programs -/

/-- The marks of a whole program: those of its body and of the return. -/
theorem Stmt.Emits.whole {table : SymbolTable} {supply supply' : Supply} {stmts : List Stmt}
    {code : List Instruction} (h : Stmt.Emits table supply stmts code supply') :
    ∃ marked : Marked, marked.Whole ∧ marked.code = code ++ [.ret] ∧
      marked.peak = Stmt.depthAll stmts := by
  obtain ⟨body, hbody⟩ := h.marks
  have hret : Marked.Marks [(0, .ret)] [.ret] 0 0 0 :=
    .congr (.cons rfl rfl (Nat.zero_le _) (.nil 0)) rfl
  have hall := hbody.append hret
  refine ⟨body ++ [(0, .ret)], ⟨hall.entry, hall.flow _ fun _ h => h, body, 0, rfl⟩, hall.code, ?_⟩
  rw [hall.peak, Nat.max_zero]

section Main

variable {table : SymbolTable} {supply supply' : Supply} {stmts : List Stmt}
  {code : List Instruction}

/-- The greatest depth of a program's routine is the depth of the tree. -/
theorem Stmt.Emits.main_depth (h : Stmt.Emits table supply stmts code supply') {slots : Nat}
    (hspan : span (Routine.main slots code).code < 2 ^ 31) {pool : Pool} {codes : Array Code}
    (hresolved : Resolved pool (Routine.main slots code).code codes) :
    compute codes = .ok (Stmt.depthAll stmts) := by
  obtain ⟨marked, hwhole, hcode, hpeak⟩ := h.whole
  have hret : Marked.Entered [] [.ret] := rfl
  have hentered : Marked.Entered [] (Routine.main slots code).code := h.entered hret
  rw [Routine.main, ← hcode] at hspan hentered hresolved
  rw [← hpeak]
  exact hwhole.compute_eq_peak hresolved hspan hentered

end Main

/-- What becomes of a program: the code of its body, the supply that is left after
it, and the module and the frame that it is assembled to. -/
structure Program.Lowered (p : Program) (c : Compiled) (code : List Instruction) (supply : Supply)
    (m : Module) (f : Frame) : Prop where
  lists : c.symbols.Lists p.declarations
  emits : Stmt.Emits c.symbols { slot := p.declarations.length } p.body code supply
  slots : c.slots = supply.slot
  unit : c.unit = { name := p.name, routines := [.main supply.slot code] }
  assemble : c.unit.assemble = .ok m
  entry : m.entry? = some f
  assembled : Assembled m.constants (.main supply.slot code) f

/-- Every compiled program is assembled, if machine integers can number its
instructions. -/
theorem Program.exists_lowered {p : Program} {c : Compiled} (h : p.compile = .ok c)
    (hcount : c.unit.instructionCount < 2 ^ 31) :
    ∃ code supply m f, p.Lowered c code supply m f := by
  obtain ⟨hlists, code, supply, hemits, hslots, hunit⟩ := compile_spec h
  have hspan : span (Routine.main supply.slot code).code < 2 ^ 31 :=
    Nat.lt_of_le_of_lt (AsmUnit.span_le_instructionCount (by simp [hunit])) hcount
  obtain ⟨m, _, hm, _, _⟩ := @AsmUnit.assemble_single p.name _ _ rfl fun pool =>
    routine_ok pool (hemits.main_nodup supply.slot) (hemits.main_closed supply.slot)
      fun _ _ hresolved => hemits.main_depth hspan hresolved
  obtain ⟨r, hr, f, hf, _, hasm⟩ := AsmUnit.assemble_entry hm
  obtain rfl : r = .main supply.slot code := List.mem_singleton.mp hr
  exact ⟨code, supply, m, f, hlists, hemits, hslots, hunit, hunit ▸ hm, hf, hasm⟩

theorem Program.Lowered.instructionCount_eq {p : Program} {c : Compiled} {code : List Instruction}
    {supply : Supply} {m : Module} {f : Frame} (h : p.Lowered c code supply m f) :
    c.unit.instructionCount = span (code ++ [.ret]) := by
  simp [h.unit, AsmUnit.instructionCount, span, Routine.main]

/-- Compiled programs can be assembled. Each label is defined once, and the frame
of the program has room for as many operands as the tree needs. -/
theorem Program.assembles {p : Program} {c : Compiled} (h : p.compile = .ok c)
    (hcount : c.unit.instructionCount < 2 ^ 31) :
    ∃ m f, c.unit.assemble = .ok m ∧ m.entry? = some f ∧ f.maxStack = Stmt.depthAll p.body ∧
      ∀ r ∈ c.unit.routines, ∀ l ∈ labels r.code ++ targets r.code,
        (labels r.code).count l = 1 := by
  obtain ⟨_, code, supply, hemits, _, hunit⟩ := compile_spec h
  have hnodup := hemits.main_nodup supply.slot
  have hclosed := hemits.main_closed supply.slot
  have hspan : span (Routine.main supply.slot code).code < 2 ^ 31 :=
    Nat.lt_of_le_of_lt (AsmUnit.span_le_instructionCount (by simp [hunit])) hcount
  obtain ⟨m, f, hm, hf, hmax⟩ := AsmUnit.assemble_single rfl fun pool =>
    routine_ok pool hnodup hclosed fun _ _ hresolved => hemits.main_depth hspan hresolved
  refine ⟨m, f, hunit ▸ hm, hf, hmax, ?_⟩
  rw [hunit]
  intro r hr l hl
  obtain rfl : r = .main supply.slot code := List.mem_singleton.mp hr
  refine List.count_eq_one_of_mem hnodup ?_
  rcases List.mem_append.mp hl with hl | hl
  · exact hl
  · exact hclosed hl

theorem Program.countdown_depth : ∃ c, countdown.compile = .ok c ∧
    c.unit.instructionCount < 2 ^ 31 ∧ ∃ m f, c.unit.assemble = .ok m ∧ m.entry? = some f ∧
      f.maxStack = 2 ∧ ∀ r ∈ c.unit.routines, ∀ l ∈ labels r.code ++ targets r.code,
        (labels r.code).count l = 1 := by
  obtain ⟨c, _, hc, _, hcount, _⟩ := countdown_assembles
  have hdepth : Stmt.depthAll countdown.body = 2 := by
    simp [countdown, Stmt.depthAll, Stmt.depth, Expr.depth]
  obtain ⟨m, f, hm, hf, hmax, hlabels⟩ := Program.assembles hc hcount
  exact ⟨c, hc, hcount, m, f, hm, hf, by rw [hmax, hdepth]; rfl, hlabels⟩

end Stackling
