import Mathlib.Tactic.Common
import Stackling.Program.Code

/-!
# The code of programs as a relation

`Emits` says which code stands for an expression or for statements in a row,
one rule for each construct, without the errors that making the code may run
into. Everything that is proved of emitted code is proved by induction on it.

* **expressions, statements** — code that was made is emitted
  (`Expr.emits_of_code`, `Stmt.emits_of_codeAll`);
* **variables** — the variables of a program are its declarations, each in the
  slot of its position (`Program.symbols_spec`);
* **programs** — `Program.compile_spec` says all of this of a compiled program;
* **supply** — labels and slots are only ever used up (`Stmt.Emits.supply_le`);
* **slots** — emitted code addresses the slots of variables and those that it
  has taken from the supply (`Stmt.Emits.belongs`).
-/

namespace Stackling

/-! ## The relation -/

/-- The labels of a comparison, a choice and a loop that take two numbers from
`label` on. -/
def Label.comparisonTrue (label : Nat) : Label := .numbered (ascii "cmp_true") label
def Label.comparisonEnd (label : Nat) : Label := .numbered (ascii "cmp_end") (label + 1)
def Label.choiceThen (label : Nat) : Label := .numbered (ascii "if_then") label
def Label.choiceEnd (label : Nat) : Label := .numbered (ascii "if_end") (label + 1)
def Label.loopBegin (label : Nat) : Label := .numbered (ascii "while_begin") label
def Label.loopExit (label : Nat) : Label := .numbered (ascii "while_exit") (label + 1)

/-- `e.Emits table label code label'`: the code leaves the value of `e` on the
stack and uses up the label numbers from `label` to `label'`. -/
inductive Expr.Emits (table : SymbolTable) : Nat → Expr → List Instruction → Nat → Prop
  | number {label : Nat} {line : Int} {value : Int32} :
      Emits table label (.number line value) [.pushInt value] label
  | text {label : Nat} {line : Int} {raw : Bytes} :
      Emits table label (.text line raw) [.pushText (stripQuotes raw)] label
  | name {label : Nat} {line : Int} {x : Bytes} {v : Variable} (found : table.find? x = some v) :
      Emits table label (.name line x) [v.load] label
  | paren {label label' : Nat} {line : Int} {inner : Expr} {code : List Instruction}
      (value : Emits table label inner code label') :
      Emits table label (.paren line inner) code label'
  | binary {label label₁ label₂ : Nat} {line : Int} {op : Arith} {left right : Expr}
      {leftCode rightCode : List Instruction} (leftValue : Emits table label left leftCode label₁)
      (rightValue : Emits table label₁ right rightCode label₂) :
      Emits table label (.binary line (.arith op) left right)
        (leftCode ++ (rightCode ++ [.arith op])) label₂
  | comparison {label label₁ label₂ : Nat} {line : Int} {comparator : Bytes}
      {relation : Relation} {left right : Expr} {leftCode rightCode : List Instruction}
      (known : Relation.ofComparator? comparator = some relation)
      (leftValue : Emits table label left leftCode label₁)
      (rightValue : Emits table label₁ right rightCode label₂) :
      Emits table label (.comparison line comparator left right)
        (leftCode ++ (rightCode ++ [.branch relation (.comparisonTrue label₂), .pushInt 0,
          .jump (.comparisonEnd label₂), .label (.comparisonTrue label₂), .pushInt 1,
          .label (.comparisonEnd label₂)])) (label₂ + 2)

/-- The instruction that pushes an operand of a condition. -/
inductive Expr.EmitsOperand (table : SymbolTable) : Expr → Instruction → Prop
  | number {line : Int} {value : Int32} : EmitsOperand table (.number line value) (.pushInt value)
  | name {line : Int} {x : Bytes} {v : Variable} (found : table.find? x = some v) :
      EmitsOperand table (.name line x) (.load .int v.slot32)

/-- The instruction that a variable is read with. -/
def Variable.reader (v : Variable) : Instruction := if v.type = .text then .readLine else .readInt

/-- The code of statements in a row, with the supply before and after it. -/
inductive Stmt.Emits (table : SymbolTable) :
    Supply → List Stmt → List Instruction → Supply → Prop
  | nil {supply : Supply} : Emits table supply [] [] supply
  | set {supply supply' : Supply} {line : Int} {x : Bytes} {e : Expr} {v : Variable} {label : Nat}
      {code more : List Instruction} {rest : List Stmt} (type : VarType)
      (found : table.find? x = some v) (value : e.Emits table supply.label code label)
      (next : Emits table { supply with label } rest more supply') :
      Emits table supply (.set line x e :: rest) (code ++ .store type.kind v.slot32 :: more) supply'
  | inc {supply supply' : Supply} {line : Int} {x : Bytes} {e : Expr} {v : Variable} {label : Nat}
      {code more : List Instruction} {rest : List Stmt} (type : VarType)
      (found : table.find? x = some v) (value : e.Emits table supply.label code label)
      (next : Emits table { supply with label } rest more supply') :
      Emits table supply (.inc line x e :: rest) (code ++ .store type.kind v.slot32 :: more) supply'
  | printName {supply supply' : Supply} {line line' : Int} {x : Bytes} {v : Variable}
      {more : List Instruction} {rest : List Stmt} (found : table.find? x = some v)
      (next : Emits table supply rest more supply') :
      Emits table supply (.print line (.name line' x) :: rest)
        (.openOutput :: v.load :: .print v.type.kind :: more) supply'
  | printText {supply supply' : Supply} {line line' : Int} {raw : Bytes}
      {more : List Instruction} {rest : List Stmt} (next : Emits table supply rest more supply') :
      Emits table supply (.print line (.text line' raw) :: rest)
        (.openOutput :: .pushText (stripQuotes raw) :: .print .ref :: more) supply'
  | read {supply supply' : Supply} {line : Int} {x : Bytes} {v : Variable}
      {more : List Instruction} {rest : List Stmt} (found : table.find? x = some v)
      (next : Emits table { supply with slot := supply.slot + 1 } rest more supply') :
      Emits table supply (.read line x :: rest)
        (.openInput :: .store .ref (.ofNat supply.slot) :: .load .ref (.ofNat supply.slot)
          :: v.reader :: v.store :: more) supply'
  | choice {supply supply₁ supply₂ supply' : Supply} {line : Int} {c : Condition}
      {yes no rest : List Stmt} {relation : Relation} {left right : Instruction}
      {yesCode noCode more : List Instruction}
      (known : Relation.ofComparator? c.comparator = some relation)
      (leftOperand : c.left.EmitsOperand table left)
      (rightOperand : c.right.EmitsOperand table right)
      (noPart : Emits table { supply with label := supply.label + 2 } no noCode supply₁)
      (yesPart : Emits table supply₁ yes yesCode supply₂)
      (next : Emits table supply₂ rest more supply') :
      Emits table supply (.choice line c yes no :: rest)
        (left :: right :: .branch relation (.choiceThen supply.label)
          :: (noCode ++ .jump (.choiceEnd supply.label) :: .label (.choiceThen supply.label)
          :: (yesCode ++ .label (.choiceEnd supply.label) :: more))) supply'
  | loop {supply supply₁ supply' : Supply} {line : Int} {c : Condition} {body rest : List Stmt}
      {relation : Relation} {left right : Instruction} {bodyCode more : List Instruction}
      (known : Relation.ofComparator? c.comparator = some relation)
      (leftOperand : c.left.EmitsOperand table left)
      (rightOperand : c.right.EmitsOperand table right)
      (bodyPart : Emits table { supply with label := supply.label + 2 } body bodyCode supply₁)
      (next : Emits table supply₁ rest more supply') :
      Emits table supply (.loop line c body :: rest)
        (.label (.loopBegin supply.label) :: left :: right
          :: .branch relation.negate (.loopExit supply.label)
          :: (bodyCode ++ .jump (.loopBegin supply.label) :: .label (.loopExit supply.label)
          :: more)) supply'

/-! ## Code that was made is emitted -/

/-- A computation in two parts that succeeds, one part at a time. -/
theorem bind_eq_ok {ε α β : Type} {x : Except ε α} {f : α → Except ε β} {b : β} :
    x >>= f = .ok b ↔ ∃ a, x = .ok a ∧ f a = .ok b := by
  cases x <;> simp [bind, Except.bind]

theorem SymbolTable.resolve_eq_ok {table : SymbolTable} {x : Bytes} {line : Int} {v : Variable} :
    table.resolve x line = .ok v ↔ table.find? x = some v := by
  unfold resolve lookup
  cases table.find? x <;> simp [Except.mapError]

theorem Relation.ofComparator_eq_ok {comparator : Bytes} {ifHolds : Bool} {line : Int}
    {r : Relation} :
    ((ofComparator comparator ifHolds line).mapError CompileError.semantic) = .ok r ↔
      ∃ known, ofComparator? comparator = some known ∧
        r = if ifHolds then known else known.negate := by
  unfold ofComparator
  cases ofComparator? comparator <;> simp [Except.mapError, eq_comm]

theorem Expr.emits_of_code {table : SymbolTable} {label label' : Nat} {e : Expr}
    {code : List Instruction} (h : e.code table label = .ok (code, label')) :
    e.Emits table label code label' := by
  fun_induction Expr.code table label e generalizing code label' with
  | case1 label line value =>
    simp only [Except.ok.injEq, Prod.mk.injEq] at h
    obtain ⟨rfl, rfl⟩ := h
    exact .number
  | case2 label line raw =>
    simp only [Except.ok.injEq, Prod.mk.injEq] at h
    obtain ⟨rfl, rfl⟩ := h
    exact .text
  | case3 label line x =>
    obtain ⟨v, hv, h⟩ := bind_eq_ok.mp h
    simp only [Except.ok.injEq, Prod.mk.injEq] at h
    obtain ⟨rfl, rfl⟩ := h
    exact .name (SymbolTable.resolve_eq_ok.mp hv)
  | case4 label line inner ih => exact .paren (ih h)
  | case5 label line op left right ihLeft ihRight =>
    obtain ⟨⟨leftCode, label₁⟩, hleft, h⟩ := bind_eq_ok.mp h
    obtain ⟨⟨rightCode, label₂⟩, hright, h⟩ := bind_eq_ok.mp h
    simp only [Except.ok.injEq, Prod.mk.injEq, List.append_assoc] at h
    obtain ⟨rfl, rfl⟩ := h
    exact .binary (ihLeft hleft) (ihRight label₁ hright)
  | case6 => simp at h
  | case7 label line comparator left right ihLeft ihRight =>
    obtain ⟨relation, hrelation, h⟩ := bind_eq_ok.mp h
    obtain ⟨known, hknown, rfl⟩ := Relation.ofComparator_eq_ok.mp hrelation
    obtain ⟨⟨leftCode, label₁⟩, hleft, h⟩ := bind_eq_ok.mp h
    obtain ⟨⟨rightCode, label₂⟩, hright, h⟩ := bind_eq_ok.mp h
    simp only [Except.ok.injEq, Prod.mk.injEq, List.append_assoc] at h
    obtain ⟨rfl, rfl⟩ := h
    exact .comparison hknown (ihLeft hleft) (ihRight label₁ hright)
  | case8 => simp at h

theorem Expr.emitsOperand_of_code {table : SymbolTable} {e : Expr} {i : Instruction}
    (h : e.operandCode table = .ok i) : e.EmitsOperand table i := by
  cases e with
  | number line value =>
    simp only [operandCode, Except.ok.injEq] at h
    exact h ▸ .number
  | name line x =>
    obtain ⟨v, hv, h⟩ := bind_eq_ok.mp h
    simp only [Except.ok.injEq] at h
    exact h ▸ .name (SymbolTable.resolve_eq_ok.mp hv)
  | _ => simp [operandCode] at h

/-- The code of a condition is its two operands and a branch. -/
theorem Condition.emits_of_code {table : SymbolTable} {c : Condition} {ifHolds : Bool}
    {target : Label} {code : List Instruction} (h : c.code table ifHolds target = .ok code) :
    ∃ relation left right, Relation.ofComparator? c.comparator = some relation ∧
      c.left.EmitsOperand table left ∧ c.right.EmitsOperand table right ∧
      code = [left, right, .branch (if ifHolds then relation else relation.negate) target] := by
  obtain ⟨relation, hrelation, h⟩ := bind_eq_ok.mp h
  obtain ⟨known, hknown, rfl⟩ := Relation.ofComparator_eq_ok.mp hrelation
  obtain ⟨left, hleft, h⟩ := bind_eq_ok.mp h
  obtain ⟨right, hright, h⟩ := bind_eq_ok.mp h
  simp only [Except.ok.injEq] at h
  exact ⟨known, left, right, hknown, Expr.emitsOperand_of_code hleft,
    Expr.emitsOperand_of_code hright, h.symm⟩

mutual

/-- A statement puts its code in front of the code of those that follow. -/
theorem Stmt.emits_of_code {table : SymbolTable} :
    ∀ (stmt : Stmt) {supply supply₁ supply₂ : Supply} {rest : List Stmt}
      {code more : List Instruction}, stmt.code table supply = .ok (code, supply₁) →
      Stmt.Emits table supply₁ rest more supply₂ →
      Stmt.Emits table supply (stmt :: rest) (code ++ more) supply₂
  | .set line x e => by
    intro h next
    obtain ⟨v, hv, h⟩ := bind_eq_ok.mp h
    have found := SymbolTable.resolve_eq_ok.mp hv
    -- a text that is assigned has code of its own
    split at h
    · simp only [Except.ok.injEq, Prod.mk.injEq] at h
      obtain ⟨rfl, rfl⟩ := h
      exact .set .text found .text next
    · obtain ⟨⟨valueCode, label⟩, hvalue, h⟩ := bind_eq_ok.mp h
      simp only [Except.ok.injEq, Prod.mk.injEq] at h
      obtain ⟨rfl, rfl⟩ := h
      rw [List.append_assoc]
      exact .set v.type found (Expr.emits_of_code hvalue) next
  | .print line (.name line' x) => by
    intro h next
    obtain ⟨v, hv, h⟩ := bind_eq_ok.mp h
    simp only [Except.ok.injEq, Prod.mk.injEq] at h
    obtain ⟨rfl, rfl⟩ := h
    exact .printName (SymbolTable.resolve_eq_ok.mp hv) next
  | .print line (.text line' raw) => by
    intro h next
    simp only [Stmt.code, Except.ok.injEq, Prod.mk.injEq] at h
    obtain ⟨rfl, rfl⟩ := h
    exact .printText next
  | .print line (.number line' value) => by simp [Stmt.code]
  | .print line (.paren line' inner) => by simp [Stmt.code]
  | .print line (.binary line' op left right) => by simp [Stmt.code]
  | .print line (.comparison line' comparator left right) => by simp [Stmt.code]
  | .print line .missing => by simp [Stmt.code]
  | .read line x => by
    intro h next
    obtain ⟨v, hv, h⟩ := bind_eq_ok.mp h
    simp only [Except.ok.injEq, Prod.mk.injEq] at h
    obtain ⟨rfl, rfl⟩ := h
    exact .read (SymbolTable.resolve_eq_ok.mp hv) next
  | .inc line x e => by
    intro h next
    obtain ⟨v, hv, h⟩ := bind_eq_ok.mp h
    obtain ⟨⟨valueCode, label⟩, hvalue, h⟩ := bind_eq_ok.mp h
    simp only [Except.ok.injEq, Prod.mk.injEq] at h
    obtain ⟨rfl, rfl⟩ := h
    rw [List.append_assoc]
    exact .inc .integer (SymbolTable.resolve_eq_ok.mp hv) (Expr.emits_of_code hvalue) next
  | .choice line c yes no => by
    intro h next
    obtain ⟨test, htest, h⟩ := bind_eq_ok.mp h
    obtain ⟨relation, left, right, known, hleft, hright, rfl⟩ := Condition.emits_of_code htest
    obtain ⟨⟨noCode, supply₃⟩, hno, h⟩ := bind_eq_ok.mp h
    obtain ⟨⟨yesCode, supply₄⟩, hyes, h⟩ := bind_eq_ok.mp h
    simp only [Except.ok.injEq, Prod.mk.injEq] at h
    obtain ⟨rfl, rfl⟩ := h
    have hchoice : Stmt.Emits table _ (.choice line c yes no :: _) _ _ :=
      .choice known hleft hright (Stmt.emits_of_codeAll no hno) (Stmt.emits_of_codeAll yes hyes)
        next
    simpa [Label.choiceThen, Label.choiceEnd] using hchoice
  | .loop line c body => by
    intro h next
    obtain ⟨test, htest, h⟩ := bind_eq_ok.mp h
    obtain ⟨relation, left, right, known, hleft, hright, rfl⟩ := Condition.emits_of_code htest
    obtain ⟨⟨bodyCode, supply₃⟩, hbody, h⟩ := bind_eq_ok.mp h
    simp only [Except.ok.injEq, Prod.mk.injEq] at h
    obtain ⟨rfl, rfl⟩ := h
    have hloop : Stmt.Emits table _ (.loop line c body :: _) _ _ :=
      .loop known hleft hright (Stmt.emits_of_codeAll body hbody) next
    simpa [Label.loopBegin, Label.loopExit] using hloop
  | .missing => by simp [Stmt.code]

theorem Stmt.emits_of_codeAll {table : SymbolTable} :
    ∀ (stmts : List Stmt) {supply supply' : Supply} {code : List Instruction},
      Stmt.codeAll table supply stmts = .ok (code, supply') →
      Stmt.Emits table supply stmts code supply'
  | [] => by
    intro h
    simp only [Stmt.codeAll, Except.ok.injEq, Prod.mk.injEq] at h
    obtain ⟨rfl, rfl⟩ := h
    exact .nil
  | stmt :: stmts => by
    intro h
    simp only [Stmt.codeAll] at h
    obtain ⟨⟨first, supply₁⟩, hfirst, h⟩ := bind_eq_ok.mp h
    obtain ⟨⟨more, supply₂⟩, hmore, h⟩ := bind_eq_ok.mp h
    simp only [Except.ok.injEq, Prod.mk.injEq] at h
    obtain ⟨rfl, rfl⟩ := h
    exact Stmt.emits_of_code stmt hfirst (Stmt.emits_of_codeAll stmts hmore)

end

/-! ## Variables -/

/-- The table has one variable for each declaration, in order, and no name
twice. -/
structure SymbolTable.Lists (table : SymbolTable) (ds : List Declaration) : Prop where
  names : table.vars.map (·.name) = ds.map (·.name)
  types : table.vars.map (some ·.type) = ds.map (VarType.ofName? ·.typeName)
  nodup : (table.vars.map (·.name)).Nodup
  slot : ∀ (i : Nat) (v : Variable), table.vars[i]? = some v → v.slot = i

theorem SymbolTable.declare_ok {table table' : SymbolTable} {name typeName : Bytes}
    {slot line : Int} {v : Variable} (h : table.declare name typeName slot line = .ok (v, table')) :
    v.name = name ∧ VarType.ofName? typeName = some v.type ∧ v.slot = slot ∧
      table.find? name = none ∧ table' = { vars := table.vars ++ [v] } := by
  unfold declare at h
  split at h
  · simp at h
  · rename_i type htype
    split at h
    · simp at h
    · rename_i hnew
      simp only [Except.ok.injEq, Prod.mk.injEq] at h
      obtain ⟨rfl, rfl⟩ := h
      exact ⟨rfl, htype, rfl, hnew, rfl⟩

/-- Declaring keeps what was declared and adds the new declarations. -/
theorem Program.declareAll_spec {table table' : SymbolTable} {done ds : List Declaration}
    (hdone : table.Lists done) (h : declareAll table done.length ds = .ok table') :
    table'.Lists (done ++ ds) := by
  induction ds generalizing table done with
  | nil =>
    simp only [declareAll, Except.ok.injEq] at h
    simpa [← h] using hdone
  | cons d ds ih =>
    obtain ⟨⟨v, table₁⟩, hdeclare, h⟩ := bind_eq_ok.mp h
    obtain ⟨hname, htype, hslot, hnew, rfl⟩ := SymbolTable.declare_ok hdeclare
    have hlength : table.vars.length = done.length := by
      simpa using congrArg List.length hdone.names
    have hfresh : v.name ∉ table.vars.map (·.name) := by
      simpa [SymbolTable.find?, hname] using hnew
    have hnext : SymbolTable.Lists { vars := table.vars ++ [v] } (done ++ [d]) := by
      refine
        { names := by simp [hdone.names, hname]
          types := by simpa [htype] using hdone.types
          nodup := ?_
          slot := ?_ }
      · rw [List.map_append, List.nodup_append]
        refine ⟨hdone.nodup, by simp, fun a ha b hb hab => hfresh ?_⟩
        rw [List.map_singleton, List.mem_singleton] at hb
        rw [← hb, ← hab]
        exact ha
      · intro i w hw
        rcases Nat.lt_trichotomy i table.vars.length with hlt | rfl | hgt
        · exact hdone.slot i w (by simpa [List.getElem?_append_left hlt] using hw)
        · obtain rfl : v = w := by simpa using hw
          rw [hslot, hlength]
        · have hbound := (List.getElem?_eq_some_iff.mp hw).1
          simp only [List.length_append, List.length_singleton] at hbound
          omega
    simpa using ih hnext (by simpa using h)

theorem Program.symbols_spec {p : Program} {table : SymbolTable} (h : p.symbols = .ok table) :
    table.Lists p.declarations := by
  have hempty : SymbolTable.Lists {} [] := ⟨rfl, rfl, by simp, by simp⟩
  exact declareAll_spec hempty h

/-- If no two elements have the same key, the key of an element finds it. -/
theorem find?_eq_of_nodup {α : Type} {key : α → Bytes} {l : List α} (h : (l.map key).Nodup) {a : α}
    (ha : a ∈ l) : (l.find? fun b => key b == key a) = some a := by
  induction l with
  | nil => simp at ha
  | cons b l ih =>
    rw [List.map_cons, List.nodup_cons] at h
    rcases List.mem_cons.mp ha with rfl | ha
    · simp
    · have hne : key b ≠ key a := fun heq => h.1 (heq ▸ List.mem_map_of_mem ha)
      rw [List.find?_cons_of_neg (by simpa using hne), ih h.2 ha]

section Lists

variable {table : SymbolTable} {ds : List Declaration}

theorem SymbolTable.Lists.length (h : table.Lists ds) : table.vars.length = ds.length := by
  simpa using congrArg List.length h.names

/-- A variable that is found lies in the slot of its position. -/
theorem SymbolTable.Lists.slot_of_find? (h : table.Lists ds) {x : Bytes} {v : Variable}
    (hx : table.find? x = some v) :
    v.name = x ∧ ∃ i < ds.length, v.slot = (i : Nat) ∧ table.vars[i]? = some v := by
  obtain ⟨i, hlt, hget⟩ := List.getElem_of_mem (List.mem_of_find?_eq_some hx)
  have hi : table.vars[i]? = some v := by rw [List.getElem?_eq_getElem hlt, hget]
  exact ⟨by simpa using List.find?_some hx, i, h.length ▸ hlt, h.slot i v hi, hi⟩

/-- A declared name leads to the variable in the slot of the declaration. -/
theorem SymbolTable.Lists.find?_name (h : table.Lists ds) {i : Nat} {d : Declaration}
    (hd : ds[i]? = some d) : ∃ v, table.find? d.name = some v ∧ v.slot = (i : Nat) := by
  have hname := congrArg (·[i]?) h.names
  simp only [List.getElem?_map, hd, Option.map_some, Option.map_eq_some_iff] at hname
  obtain ⟨v, hv, hname⟩ := hname
  refine ⟨v, ?_, h.slot i v hv⟩
  rw [find?, ← hname]
  exact find?_eq_of_nodup h.nodup (List.mem_of_getElem? hv)

/-- The type of a variable is that of the declaration of its name. -/
theorem SymbolTable.Lists.type_eq (h : table.Lists ds) {x : Bytes} {v : Variable}
    (hx : table.find? x = some v) :
    ((ds.find? fun d => d.name == x).bind fun d => VarType.ofName? d.typeName) = some v.type := by
  obtain ⟨rfl, i, _, _, hv⟩ := h.slot_of_find? hx
  have hname := congrArg (·[i]?) h.names
  have htype := congrArg (·[i]?) h.types
  simp only [List.getElem?_map, hv, Option.map_some] at hname htype
  obtain ⟨d, hd, hname⟩ := Option.map_eq_some_iff.mp hname.symm
  have hnodup := h.names ▸ h.nodup
  rw [← hname, find?_eq_of_nodup hnodup (List.mem_of_getElem? hd)]
  simpa [hd] using htype.symm

/-- Different names have different slots. -/
theorem SymbolTable.Lists.eq_of_slot_eq (h : table.Lists ds) {x y : Bytes} {v w : Variable}
    (hx : table.find? x = some v) (hy : table.find? y = some w) (hslot : v.slot = w.slot) :
    x = y := by
  obtain ⟨hv, i, _, hi, hgetv⟩ := h.slot_of_find? hx
  obtain ⟨hw, j, _, hj, hgetw⟩ := h.slot_of_find? hy
  obtain rfl : i = j := by omega
  obtain rfl : v = w := Option.some.inj (hgetv.symm.trans hgetw)
  rw [← hv, hw]

end Lists

/-- The one routine of a compiled program. -/
def Routine.main (slots : Nat) (body : List Instruction) : Routine :=
  { name := entryName, locals := slots, code := body ++ [.ret] }

/-- A compiled program is one routine: the code of its body and a return. -/
theorem Program.compile_spec {p : Program} {c : Compiled} (h : p.compile = .ok c) :
    c.symbols.Lists p.declarations ∧ ∃ code supply,
      Stmt.Emits c.symbols { slot := p.declarations.length } p.body code supply ∧
      c.slots = supply.slot ∧
      c.unit = { name := p.name, routines := [.main supply.slot code] } := by
  obtain ⟨table, htable, h⟩ := bind_eq_ok.mp h
  obtain ⟨⟨code, supply⟩, hcode, h⟩ := bind_eq_ok.mp h
  simp only [Except.ok.injEq] at h
  subst h
  have hsymbols : p.symbols = .ok table := by
    cases hs : p.symbols <;> simp_all [Except.mapError]
  exact ⟨symbols_spec hsymbols, code, supply, Stmt.emits_of_codeAll _ hcode, rfl, rfl⟩

/-- A program that reads a number and counts down from it. -/
def Program.countdown : Program where
  name := ascii "countdown"
  line := 1
  declarations := [{ typeName := ascii "INTEGER", name := ascii "n", line := 2 }]
  body :=
    [.read 4 (ascii "n"),
      .loop 5 { line := 5, left := .name 5 (ascii "n"), comparator := ascii ">",
                right := .number 5 0 }
        [.print 6 (.name 6 (ascii "n")),
          .set 7 (ascii "n")
            (.binary 7 (.arith .sub) (.name 7 (ascii "n")) (.number 7 1))],
      .print 9 (.text 9 (ascii "\"done\""))]

/-! ## The supply -/

theorem Expr.Emits.label_le {table : SymbolTable} {label label' : Nat} {e : Expr}
    {code : List Instruction} (h : e.Emits table label code label') : label ≤ label' := by
  induction h with
  | number | text | name => exact Nat.le_refl _
  | paren _ ih => exact ih
  | binary _ _ ihLeft ihRight => omega
  | comparison _ _ _ ihLeft ihRight => omega

theorem Stmt.Emits.supply_le {table : SymbolTable} {supply supply' : Supply} {stmts : List Stmt}
    {code : List Instruction} (h : Stmt.Emits table supply stmts code supply') :
    supply.label ≤ supply'.label ∧ supply.slot ≤ supply'.slot := by
  induction h with
  | nil => exact ⟨Nat.le_refl _, Nat.le_refl _⟩
  | set _ _ value _ ih | inc _ _ value _ ih =>
    have hvalue := value.label_le
    exact ⟨by simp_all; omega, ih.2⟩
  | printName _ _ ih | printText _ ih => exact ih
  | read _ _ ih => exact ⟨ih.1, by have hslot := ih.2; simp at hslot; omega⟩
  | choice _ _ _ _ _ _ ihNo ihYes ih => simp_all; omega
  | loop _ _ _ _ _ ihBody ih => simp_all; omega

/-! ## What emitted code holds -/

/-- An instruction that the code of a program may hold: a load or a store is
about a variable, or about one of the slots from `low` to `high`. -/
def Instruction.Belongs (table : SymbolTable) (low high : Nat) : Instruction → Prop
  | .load _ slot | .store _ slot =>
    (∃ x v, table.find? x = some v ∧ slot = v.slot32) ∨
      ∃ n, low ≤ n ∧ n < high ∧ slot = .ofNat n
  | .ret | .undefined _ _ => False
  | _ => True

theorem Instruction.Belongs.mono {table : SymbolTable} {low low' high high' : Nat}
    {i : Instruction} (h : i.Belongs table low high) (hlow : low' ≤ low) (hhigh : high ≤ high') :
    i.Belongs table low' high' := by
  cases i with
  | load kind slot | store kind slot =>
    rcases h with h | ⟨n, hn, hn', heq⟩
    · exact .inl h
    · exact .inr ⟨n, by omega, by omega, heq⟩
  | ret | undefined => exact h
  | _ => trivial

theorem Variable.slot32_eq {v : Variable} {n : Nat} (h : v.slot = n) : v.slot32 = .ofNat n := by
  rw [slot32, h, Int32.ofInt_eq_ofNat]

/-- Every slot of the code is one of the first `high`, if the variables are. -/
theorem Instruction.Belongs.slot_lt {table : SymbolTable} {ds : List Declaration}
    {low high : Nat} {i : Instruction} {slot : Int32} (h : i.Belongs table low high)
    (hlists : table.Lists ds) (hlength : ds.length ≤ high) (hslot : i.slot? = some slot) :
    ∃ n < high, slot = .ofNat n := by
  have hplace : (∃ x v, table.find? x = some v ∧ slot = v.slot32) ∨
      ∃ n, low ≤ n ∧ n < high ∧ slot = .ofNat n := by
    cases i with
    | load kind _ | store kind _ =>
      obtain rfl := Option.some.inj hslot
      exact h
    | _ => simp [slot?] at hslot
  rcases hplace with ⟨x, v, found, rfl⟩ | ⟨n, _, hn, rfl⟩
  · obtain ⟨_, n, hn, heq, _⟩ := hlists.slot_of_find? found
    exact ⟨n, by omega, Variable.slot32_eq heq⟩
  · exact ⟨n, hn, rfl⟩

theorem Expr.Emits.belongs {table : SymbolTable} {label label' : Nat} {e : Expr}
    {code : List Instruction} (h : e.Emits table label code label') (low high : Nat) :
    ∀ i ∈ code, i.Belongs table low high := by
  induction h with
  | number | text => simp [Instruction.Belongs]
  | name found => simpa [Variable.load, Instruction.Belongs] using .inl ⟨_, _, found, rfl⟩
  | paren _ ih => exact ih
  | binary _ _ ihLeft ihRight =>
    simp only [List.forall_mem_append]
    exact ⟨ihLeft, ihRight, by simp [Instruction.Belongs]⟩
  | comparison _ _ _ ihLeft ihRight =>
    simp only [List.forall_mem_append]
    exact ⟨ihLeft, ihRight, by simp [Instruction.Belongs]⟩

theorem Expr.EmitsOperand.belongs {table : SymbolTable} {e : Expr} {i : Instruction}
    (h : e.EmitsOperand table i) (low high : Nat) : i.Belongs table low high := by
  cases h with
  | number => trivial
  | name found => exact .inl ⟨_, _, found, rfl⟩

theorem Variable.reader_belongs (v : Variable) (table : SymbolTable) (low high : Nat) :
    v.reader.Belongs table low high := by
  unfold reader
  split <;> trivial

/-- Emitted code addresses variables and the slots that it has taken from the
supply, and holds no return. -/
theorem Stmt.Emits.belongs {table : SymbolTable} {supply supply' : Supply} {stmts : List Stmt}
    {code : List Instruction} (h : Stmt.Emits table supply stmts code supply') :
    ∀ i ∈ code, i.Belongs table supply.slot supply'.slot := by
  induction h with
  | nil => simp
  | set _ found value _ ih | inc _ found value _ ih =>
    simp only [List.forall_mem_append, List.forall_mem_cons]
    exact ⟨value.belongs _ _, .inl ⟨_, _, found, rfl⟩, ih⟩
  | printName found _ ih =>
    simp only [List.forall_mem_cons]
    exact ⟨trivial, .inl ⟨_, _, found, rfl⟩, trivial, ih⟩
  | printText _ ih =>
    simp only [List.forall_mem_cons]
    exact ⟨trivial, trivial, trivial, ih⟩
  | @read supply supply' _ _ v _ _ found next ih =>
    have hslot : supply.slot + 1 ≤ supply'.slot := next.supply_le.2
    simp only [List.forall_mem_cons]
    exact ⟨trivial, .inr ⟨supply.slot, Nat.le_refl _, by omega, rfl⟩,
      .inr ⟨supply.slot, Nat.le_refl _, by omega, rfl⟩, v.reader_belongs _ _ _,
      .inl ⟨_, _, found, rfl⟩, fun i hi => (ih i hi).mono (by simp) (Nat.le_refl _)⟩
  | choice _ leftOperand rightOperand noPart yesPart next ihNo ihYes ih =>
    have hno := noPart.supply_le.2
    have hyes := yesPart.supply_le.2
    have hnext := next.supply_le.2
    simp only [List.forall_mem_append, List.forall_mem_cons]
    refine ⟨leftOperand.belongs _ _, rightOperand.belongs _ _, trivial, ?_, trivial, trivial, ?_,
      trivial, ?_⟩
    · exact fun i hi => (ihNo i hi).mono (Nat.le_refl _) (by omega)
    · exact fun i hi => (ihYes i hi).mono hno (by omega)
    · exact fun i hi => (ih i hi).mono (by simp at hno; omega) (Nat.le_refl _)
  | loop _ leftOperand rightOperand bodyPart next ihBody ih =>
    have hbody := bodyPart.supply_le.2
    have hnext := next.supply_le.2
    simp only [List.forall_mem_append, List.forall_mem_cons]
    refine ⟨trivial, leftOperand.belongs _ _, rightOperand.belongs _ _, trivial, ?_, trivial,
      trivial, ?_⟩
    · exact fun i hi => (ihBody i hi).mono (Nat.le_refl _) hnext
    · exact fun i hi => (ih i hi).mono hbody (Nat.le_refl _)

end Stackling
