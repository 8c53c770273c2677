import Mathlib.Tactic.Common
import Stackling.Proofs.Program.Emits
import Stackling.Proofs.Program.Parsing

/-!
# Which programs can be compiled

A program has one flat scope. It is well scoped when its declarations have types
of the language, no name is declared twice, and every name that it uses is
declared. That is all a program text can get wrong:

* **trees of texts** — a tree that was parsed is proper: no node is missing, every
  operator has a meaning, and conditions and `PRINT` have operands of their kinds
  (`Program.allProper_of_ofInput`);
* **names** — making code of a proper tree goes well if the names in it are
  declared, and tells one that is not otherwise (`Stmt.resolves_codeAll`);
* **declarations** — so does declaring (`Program.blames_of_declareAll`);
* **programs** — a text compiles if and only if it is well scoped, and the error is
  about a place that is to blame otherwise (`Program.compiles_iff_wellScoped`).
-/

namespace Stackling

/-! ## Uses of names -/

/-- A name where it is used, with the line of the node that holds it. -/
structure Use where
  name : Bytes
  line : Int
  deriving DecidableEq, Repr

/-- The names in an expression. -/
def Expr.uses : Expr → List Use
  | .name line x => [⟨x, line⟩]
  | .paren _ inner => inner.uses
  | .binary _ _ left right | .comparison _ _ left right => left.uses ++ right.uses
  | .number _ _ | .text _ _ | .missing => []

def Condition.uses (c : Condition) : List Use := c.left.uses ++ c.right.uses

mutual

/-- The names in a statement. A target stands on the line of its statement. -/
def Stmt.uses : Stmt → List Use
  | .set line target value | .inc line target value => ⟨target, line⟩ :: value.uses
  | .print _ value => value.uses
  | .read line target => [⟨target, line⟩]
  | .choice _ condition yes no => condition.uses ++ Stmt.usesAll yes ++ Stmt.usesAll no
  | .loop _ condition body => condition.uses ++ Stmt.usesAll body
  | .missing => []

def Stmt.usesAll : List Stmt → List Use
  | [] => []
  | stmt :: stmts => stmt.uses ++ Stmt.usesAll stmts

end

namespace Program

def uses (p : Program) : List Use := Stmt.usesAll p.body

/-- A program that keeps the rules of the language for its names. -/
structure WellScoped (p : Program) : Prop where
  types : ∀ d ∈ p.declarations, d.typeName = ascii "INTEGER" ∨ d.typeName = ascii "STRING"
  nodup : (p.declarations.map (·.name)).Nodup
  declared : ∀ u ∈ p.uses, ∃ d ∈ p.declarations, d.name = u.name

instance (p : Program) : Decidable p.WellScoped :=
  decidable_of_iff
    ((∀ d ∈ p.declarations, d.typeName = ascii "INTEGER" ∨ d.typeName = ascii "STRING") ∧
      (p.declarations.map (·.name)).Nodup ∧ ∀ u ∈ p.uses, ∃ d ∈ p.declarations, d.name = u.name)
    ⟨fun ⟨types, nodup, declared⟩ => ⟨types, nodup, declared⟩,
      fun h => ⟨h.types, h.nodup, h.declared⟩⟩

/-- `p.Blames e`: there is a place in the program that breaks the rule that the error
tells, and it stands on the line of the error. -/
inductive Blames (p : Program) : SemanticError → Prop
  | type {d : Declaration} (mem : d ∈ p.declarations)
      (unsupported : d.typeName ≠ ascii "INTEGER" ∧ d.typeName ≠ ascii "STRING") :
      Blames p { cause := .unsupportedType d.typeName d.name, line := d.line }
  | duplicate {before after : List Declaration} {first d : Declaration}
      (order : p.declarations = before ++ d :: after) (mem : first ∈ before)
      (same : first.name = d.name) :
      Blames p { cause := .duplicate d.name first.line, line := d.line }
  | undeclared {u : Use} (mem : u ∈ p.uses) (missing : ∀ d ∈ p.declarations, d.name ≠ u.name) :
      Blames p { cause := .undeclared u.name, line := u.line }

theorem Blames.not_wellScoped {p : Program} {e : SemanticError} (h : p.Blames e) :
    ¬p.WellScoped := by
  intro hp
  cases h with
  | type mem unsupported => exact (hp.types _ mem).elim unsupported.1 unsupported.2
  | @duplicate before after first d order mem same =>
    have hnodup := hp.nodup
    rw [order, List.map_append, List.nodup_append] at hnodup
    exact hnodup.2.2 _ (List.mem_map_of_mem mem) _ (List.mem_map_of_mem List.mem_cons_self) same
  | undeclared mem missing =>
    obtain ⟨d, hd, hname⟩ := hp.declared _ mem
    exact missing d hd hname

end Program

/-! ## Proper trees -/

/-- An expression with no missing node, whose operators have a meaning. -/
def Expr.IsProper : Expr → Prop
  | .number _ _ | .text _ _ | .name _ _ => True
  | .paren _ inner => inner.IsProper
  | .binary _ op left right => op ≠ .compare ∧ left.IsProper ∧ right.IsProper
  | .comparison _ comparator left right =>
    (Relation.ofComparator? comparator).isSome ∧ left.IsProper ∧ right.IsProper
  | .missing => False

/-- A name or a number. -/
def Expr.IsOperand : Expr → Prop
  | .number _ _ | .name _ _ => True
  | _ => False

/-- A name or a text. -/
def Expr.IsPrinted : Expr → Prop
  | .name _ _ | .text _ _ => True
  | _ => False

structure Condition.IsProper (c : Condition) : Prop where
  left : c.left.IsOperand
  known : (Relation.ofComparator? c.comparator).isSome
  right : c.right.IsOperand

mutual

/-- A statement of proper parts. -/
def Stmt.IsProper : Stmt → Prop
  | .set _ _ value | .inc _ _ value => value.IsProper
  | .print _ value => value.IsPrinted
  | .read _ _ => True
  | .choice _ condition yes no => condition.IsProper ∧ Stmt.AllProper yes ∧ Stmt.AllProper no
  | .loop _ condition body => condition.IsProper ∧ Stmt.AllProper body
  | .missing => False

def Stmt.AllProper : List Stmt → Prop
  | [] => True
  | stmt :: stmts => stmt.IsProper ∧ Stmt.AllProper stmts

end

/-! ### Signs of comparisons -/

/-- A sign that compares is one of the comparing words. -/
theorem Lexeme.read_sign {a : UInt8} {s : Bytes} {kind : TokenKind} {length : Nat}
    (h : Lexeme.read a s = .ok (kind, length)) (hkind : kind ∈ Grammar.operators 0) :
    (Relation.ofComparator? (a :: s.take length)).isSome := by
  cases shape_of_read h with
  | mark mem =>
    have hmarks : ∀ m ∈ marks, m.2 ∈ Grammar.operators 0 →
        (Relation.ofComparator? [m.1]).isSome := by
      decide
    exact hmarks _ mem hkind
  | less first =>
    subst first
    rfl
  | notEqual first next =>
    obtain ⟨rest, rfl⟩ := List.head?_eq_some_iff.mp next
    subst first
    rfl
  | _ => simp [Grammar.operators] at hkind

/-- Whether a token that compares is one of the signs that there are. -/
def Token.IsSign (t : Token) : Prop :=
  t.kind ∈ Grammar.operators 0 → (Relation.ofComparator? t.content).isSome

theorem Token.isSign_of_ofInput {input : Input} {toks : List Token}
    (h : Token.ofInput input = .ok toks) : ∀ t ∈ toks, t.IsSign := by
  apply @forall_of_read Token.IsSign
  · intro line pos a s kind length hread hkind
    exact Lexeme.read_sign hread hkind
  · exact h

/-! ### Trees of derivations -/

namespace Grammar

theorem Operand.isOperand_expr (o : Operand) : o.expr.IsOperand := by
  cases o <;> trivial

theorem Operand.isProper_expr (o : Operand) : o.expr.IsProper := by
  cases o <;> trivial

theorem isProper_joined {line : Int} {level : Nat} {op : TokenIn (operators level)}
    {left right : Expr} (hop : op.val.IsSign) (hleft : left.IsProper) (hright : right.IsProper) :
    (joined line op.val left right).IsProper := by
  unfold joined
  split
  case h_5 hplus hminus htimes hdivide =>
    refine ⟨hop ?_, hleft, hright⟩
    -- the other levels have no other operators
    have hmem := op.property
    match level with
    | 0 => exact hmem
    | 1 | 2 => simp_all [operators]
    | _ + 3 => simp [operators] at hmem
  all_goals exact ⟨by simp, hleft, hright⟩

theorem Phrase.isProper_expr {level : Nat} (e : Phrase level) (h : ∀ t ∈ e.yield, t.IsSign) :
    e.expr.IsProper := by
  induction e with
  | operand o => exact o.isProper_expr
  | paren left inner right ih =>
    exact ih fun t ht => h t (by simp [Phrase.yield, ht])
  | lift inner ih => exact ih h
  | join left op right ihLeft ihRight =>
    refine isProper_joined (h _ (by simp [Phrase.yield])) (ihLeft fun t ht => h t ?_)
      (ihRight fun t ht => h t ?_)
    · simp [Phrase.yield, ht]
    · simp [Phrase.yield, ht]

theorem Test.isProper_condition (test : Test) (h : ∀ t ∈ test.yield, t.IsSign) :
    test.condition.IsProper where
  left := test.left.isOperand_expr
  known := h test.sign.val (by simp [Test.yield]) test.sign.property
  right := test.right.isOperand_expr

theorem Assigned.isProper_expr (v : Assigned) (h : ∀ t ∈ v.yield, t.IsSign) :
    v.expr.IsProper := by
  cases v with
  | phrase e => exact e.isProper_expr h
  | text t => trivial

theorem Printed.isPrinted_expr (v : Printed) : v.expr.IsPrinted := by
  cases v <;> trivial

mutual

theorem Statement.isProper_stmt :
    ∀ s : Statement, (∀ t ∈ s.yield, t.IsSign) → s.stmt.IsProper
  | .set word target sign value, h => by
    simp only [Statement.stmt, Stmt.IsProper]
    exact value.isProper_expr fun t ht => h t (by simp [Statement.yield, ht])
  | .print word value, _ => by
    simp only [Statement.stmt, Stmt.IsProper]
    exact value.isPrinted_expr
  | .read word target, _ => by
    simp only [Statement.stmt, Stmt.IsProper]
  | .inc word target sign value, h => by
    simp only [Statement.stmt, Stmt.IsProper]
    exact value.isProper_expr fun t ht => h t (by simp [Statement.yield, ht])
  | .choice word test thenWord yes otherwise, h => by
    simp only [Statement.stmt, Stmt.IsProper]
    refine ⟨test.isProper_condition fun t ht => h t ?_, yes.allProper_stmts fun t ht => h t ?_,
      otherwise.allProper_stmts fun t ht => h t ?_⟩ <;>
    simp [Statement.yield, ht]
  | .loop word test doWord body endWord, h => by
    simp only [Statement.stmt, Stmt.IsProper]
    refine ⟨test.isProper_condition fun t ht => h t ?_, body.allProper_stmts fun t ht => h t ?_⟩ <;>
    simp [Statement.yield, ht]

theorem Block.allProper_stmts :
    ∀ b : Block, (∀ t ∈ b.yield, t.IsSign) → Stmt.AllProper b.stmts
  | .one s, h => by
    simp only [Block.stmts, Stmt.AllProper]
    exact ⟨s.isProper_stmt fun t ht => h t (by simp [Block.yield, ht]), trivial⟩
  | .cons s more, h => by
    simp only [Block.stmts, Stmt.AllProper]
    exact ⟨s.isProper_stmt fun t ht => h t (by simp [Block.yield, ht]),
      more.allProper_stmts fun t ht => h t (by simp [Block.yield, ht])⟩

theorem Otherwise.allProper_stmts :
    ∀ o : Otherwise, (∀ t ∈ o.yield, t.IsSign) → Stmt.AllProper o.stmts
  | .none endWord, _ => by simp only [Otherwise.stmts, Stmt.AllProper]
  | .some elseWord no endWord, h => by
    simp only [Otherwise.stmts]
    exact no.allProper_stmts fun t ht => h t (by simp [Otherwise.yield, ht])

end

end Grammar

/-- A tree that was parsed is proper. -/
theorem Program.allProper_of_ofInput {input : Input} {p : Program}
    (h : Program.ofInput input = .ok p) : Stmt.AllProper p.body := by
  obtain ⟨toks, htoks, hp⟩ := Parser.program_eq_ok_of_ofInput h
  obtain ⟨d, rfl, rfl⟩ := (Parser.program_eq_ok_iff (Token.isDigits_of_number htoks)).mp hp
  have hsigns := Token.isSign_of_ofInput htoks
  unfold Grammar.Derivation.program
  cases hbody : d.body with
  | none => simp only [Option.elim, Stmt.AllProper]
  | some b =>
    refine b.allProper_stmts fun t ht => hsigns t ?_
    simp [Grammar.Derivation.yield, hbody, ht]

/-! ## Names that are looked up -/

/-- What making code comes to when the given names are looked up: it goes well if
all of them are declared, and tells one that is not otherwise. -/
inductive SymbolTable.Resolves {α : Type} (table : SymbolTable) (uses : List Use) :
    Except CompileError α → Prop
  | found {a : α} (all : ∀ u ∈ uses, (table.find? u.name).isSome) : Resolves table uses (.ok a)
  | lost {u : Use} (mem : u ∈ uses) (missing : table.find? u.name = none) :
      Resolves table uses (.error (.semantic { cause := .undeclared u.name, line := u.line }))

namespace SymbolTable

variable {α β : Type} {table : SymbolTable} {uses more : List Use} {x : Except CompileError α}

theorem resolves_ok (a : α) : table.Resolves [] (.ok a) := .found (by simp)

theorem resolves_resolve (name : Bytes) (line : Int) :
    table.Resolves [⟨name, line⟩] (table.resolve name line) := by
  unfold resolve lookup
  cases hfind : table.find? name with
  | none => exact .lost List.mem_cons_self hfind
  | some v => exact .found (by simp [hfind])

/-- One part after the other. -/
theorem Resolves.bind {f : α → Except CompileError β} (h : table.Resolves uses x)
    (hf : ∀ a, table.Resolves more (f a)) : table.Resolves (uses ++ more) (x >>= f) := by
  cases h with
  | lost mem missing => exact .lost (List.mem_append_left _ mem) missing
  | @found a all =>
    show table.Resolves (uses ++ more) (f a)
    have hnext := hf a
    generalize f a = y at hnext ⊢
    cases hnext with
    | found all' => exact .found fun u hu => (List.mem_append.mp hu).elim (all u) (all' u)
    | lost mem missing => exact .lost (List.mem_append_right _ mem) missing

/-- Only which names are looked up counts. -/
theorem Resolves.congr {uses' : List Use} (h : table.Resolves uses x)
    (hmem : ∀ u, u ∈ uses ↔ u ∈ uses') : table.Resolves uses' x := by
  cases h with
  | found all => exact .found fun u hu => all u ((hmem u).mpr hu)
  | lost mem missing => exact .lost ((hmem _).mp mem) missing

theorem Resolves.bind_ok {f : α → β} (h : table.Resolves uses x) :
    table.Resolves uses (x >>= fun a => .ok (f a)) := by
  simpa using h.bind fun a => resolves_ok (f a)

end SymbolTable

open SymbolTable

variable {table : SymbolTable}

/-- The relation of a comparing word that there is looks no name up. -/
theorem Relation.resolves_ofComparator {comparator : Bytes}
    (h : (ofComparator? comparator).isSome) (ifHolds : Bool) (line : Int) :
    table.Resolves [] ((ofComparator comparator ifHolds line).mapError .semantic) := by
  obtain ⟨r, hr⟩ := Option.isSome_iff_exists.mp h
  unfold ofComparator
  rw [hr]
  exact resolves_ok _

theorem Expr.resolves_code : ∀ (e : Expr) (label : Nat), e.IsProper →
    table.Resolves e.uses (e.code table label)
  | .number _ _, _, _ | .text _ _, _, _ => resolves_ok _
  | .name line x, _, _ => (resolves_resolve x line).bind_ok
  | .paren _ inner, label, h => inner.resolves_code label h
  | .binary _ (.arith op) left right, label, h => by
    refine (left.resolves_code label h.2.1).bind ?_
    rintro ⟨leftCode, label₁⟩
    exact (right.resolves_code label₁ h.2.2).bind_ok
  | .binary _ .compare _ _, _, h => (h.1 rfl).elim
  | .comparison line _ left right, label, h => by
    refine (Relation.resolves_ofComparator h.1 true line).bind fun relation => ?_
    refine (left.resolves_code label h.2.1).bind ?_
    rintro ⟨leftCode, label₁⟩
    exact (right.resolves_code label₁ h.2.2).bind_ok

theorem Expr.resolves_operandCode {e : Expr} (h : e.IsOperand) :
    table.Resolves e.uses (e.operandCode table) := by
  cases e with
  | number line value => exact resolves_ok _
  | name line x => exact (resolves_resolve x line).bind_ok
  | _ => exact h.elim

theorem Condition.resolves_code {c : Condition} (h : c.IsProper) (ifHolds : Bool)
    (target : Label) : table.Resolves c.uses (c.code table ifHolds target) := by
  refine (Relation.resolves_ofComparator h.known ifHolds c.line).bind fun relation => ?_
  refine (Expr.resolves_operandCode h.left).bind fun left => ?_
  exact (Expr.resolves_operandCode h.right).bind_ok

mutual

theorem Stmt.resolves_code : ∀ (stmt : Stmt) (supply : Supply), stmt.IsProper →
    table.Resolves stmt.uses (stmt.code table supply)
  | .set line x e, supply, h => by
    refine (resolves_resolve x line).bind fun v => ?_
    split
    · exact resolves_ok _
    · exact (e.resolves_code supply.label h).bind_ok
  | .print _ (.name line x), _, _ => (resolves_resolve x line).bind_ok
  | .print _ (.text _ _), _, _ => resolves_ok _
  | .read line x, _, _ => (resolves_resolve x line).bind_ok
  | .inc line x e, supply, h => by
    refine (resolves_resolve x line).bind fun v => ?_
    exact (e.resolves_code supply.label h).bind_ok
  | .choice line c yes no, supply, h => by
    -- the code of the last part is made first
    have hcode : table.Resolves (c.uses ++ (Stmt.usesAll no ++ Stmt.usesAll yes))
        ((Stmt.choice line c yes no).code table supply) := by
      refine (Condition.resolves_code h.1 true (.choiceThen supply.label)).bind fun test => ?_
      refine (Stmt.resolves_codeAll no _ h.2.2).bind ?_
      rintro ⟨noCode, supply₁⟩
      exact (Stmt.resolves_codeAll yes supply₁ h.2.1).bind_ok
    refine hcode.congr fun u => ?_
    simp only [Stmt.uses, List.mem_append]
    tauto
  | .loop _ c body, supply, h => by
    refine (Condition.resolves_code h.1 false (.loopExit supply.label)).bind fun test => ?_
    exact (Stmt.resolves_codeAll body _ h.2).bind_ok

theorem Stmt.resolves_codeAll : ∀ (stmts : List Stmt) (supply : Supply), Stmt.AllProper stmts →
    table.Resolves (Stmt.usesAll stmts) (Stmt.codeAll table supply stmts)
  | [], _, _ => resolves_ok _
  | stmt :: stmts, supply, h => by
    refine (stmt.resolves_code supply h.1).bind ?_
    rintro ⟨code, supply₁⟩
    exact (Stmt.resolves_codeAll stmts supply₁ h.2).bind_ok

end

/-! ## Declarations -/

/-- The table has the names of the declarations, in order, each with its line. -/
def SymbolTable.Records (table : SymbolTable) (ds : List Declaration) : Prop :=
  table.vars.map (fun v => (v.name, v.line)) = ds.map fun d => (d.name, d.line)

theorem VarType.ofName?_eq_none {word : Bytes} (h : ofName? word = none) :
    word ≠ ascii "INTEGER" ∧ word ≠ ascii "STRING" := by
  unfold ofName? at h
  split at h
  · cases h
  · rename_i hinteger
    split at h
    · cases h
    · rename_i htext
      exact ⟨hinteger, htext⟩

theorem VarType.word_of_ofName? {word : Bytes} {type : VarType} (h : ofName? word = some type) :
    word = ascii "INTEGER" ∨ word = ascii "STRING" := by
  unfold ofName? at h
  split at h
  · rename_i hinteger
    exact .inl hinteger
  · split at h
    · rename_i htext
      exact .inr htext
    · cases h

/-- A declaration that is refused is to blame. -/
theorem Program.blames_of_declareAll {p : Program} {table : SymbolTable}
    {done ds : List Declaration} {slot : Nat} {e : SemanticError}
    (hp : p.declarations = done ++ ds) (htable : table.Records done)
    (h : declareAll table slot ds = .error e) : p.Blames e := by
  induction ds generalizing table done slot with
  | nil => cases h
  | cons d ds ih =>
    have hmem : d ∈ p.declarations := by simp [hp]
    rw [declareAll, SymbolTable.declare] at h
    cases htype : VarType.ofName? d.typeName with
    | none =>
      rw [htype] at h
      obtain rfl := Except.error.inj h
      exact .type hmem (VarType.ofName?_eq_none htype)
    | some type =>
      rw [htype] at h
      cases hfind : table.find? d.name with
      | some previous =>
        rw [hfind] at h
        obtain rfl := Except.error.inj h
        have hprevious : (previous.name, previous.line) ∈ done.map fun d => (d.name, d.line) := by
          rw [← htable]
          exact List.mem_map_of_mem (List.mem_of_find?_eq_some hfind)
        obtain ⟨first, hfirst, heq⟩ := List.mem_map.mp hprevious
        obtain ⟨hname, hline⟩ := Prod.mk.inj heq
        have hfound : previous.name = d.name := by simpa using List.find?_some hfind
        exact hline ▸ .duplicate hp hfirst (hname.trans hfound)
      | none =>
        rw [hfind] at h
        refine @ih _ (done ++ [d]) _ (by simp [hp]) ?_ h
        simpa [SymbolTable.Records] using htable

theorem SymbolTable.Lists.isSome_find?_iff {ds : List Declaration} (h : table.Lists ds)
    {x : Bytes} : (table.find? x).isSome ↔ ∃ d ∈ ds, d.name = x := by
  have hnames : (∃ v ∈ table.vars, v.name = x) ↔ ∃ d ∈ ds, d.name = x := by
    rw [← List.mem_map, ← List.mem_map, h.names]
  rw [← hnames]
  simp [find?]

/-! ## Programs -/

namespace Program

/-- A program that was parsed compiles and is well scoped, or has a place to blame. -/
theorem compile_cases {p : Program} (hproper : Stmt.AllProper p.body) :
    (p.WellScoped ∧ ∃ c, p.compile = .ok c) ∨
      ∃ e, p.Blames e ∧ p.compile = .error (.semantic e) := by
  cases hsymbols : p.symbols with
  | error e =>
    refine .inr ⟨e, @blames_of_declareAll p {} [] p.declarations 0 e rfl rfl hsymbols, ?_⟩
    rw [compile, hsymbols]
    rfl
  | ok table =>
    have hlists := symbols_spec hsymbols
    have hcode := @Stmt.resolves_codeAll table p.body { slot := p.declarations.length } hproper
    have hcompile : p.compile = Stmt.codeAll table { slot := p.declarations.length } p.body >>=
        fun result => .ok
          { unit := { name := p.name, routines := [.main result.2.slot result.1] }
            symbols := table
            slots := result.2.slot } := by
      rw [compile, hsymbols]
      rfl
    rw [hcompile]
    generalize Stmt.codeAll table { slot := p.declarations.length } p.body = result at hcode ⊢
    cases hcode with
    | found all =>
      refine .inl ⟨⟨fun d hd => ?_, ?_, fun u hu => ?_⟩, _, rfl⟩
      · obtain ⟨v, _, htype⟩ := List.mem_map.mp
          (hlists.types ▸ List.mem_map_of_mem hd : VarType.ofName? d.typeName ∈ _)
        exact VarType.word_of_ofName? htype.symm
      · exact hlists.names ▸ hlists.nodup
      · exact hlists.isSome_find?_iff.mp (all u hu)
    | @lost u mem missing =>
      refine .inr ⟨_, .undeclared mem fun d hd hname => ?_, rfl⟩
      have hsome := hlists.isSome_find?_iff.mpr ⟨d, hd, hname⟩
      simp [missing] at hsome

/-- A program text compiles if and only if the types of its declarations are
`INTEGER` or `STRING`, no name is declared twice, and every name that is used is
declared. Otherwise the error is that a type is not supported, that a name is declared
twice or that a name is not declared, and it tells a place where that is so. -/
theorem compiles_iff_wellScoped {input : Input} {p : Program} (h : ofInput input = .ok p) :
    ((∃ c, p.compile = .ok c) ↔ p.WellScoped) ∧
      (¬p.WellScoped → ∃ e, p.compile = .error (.semantic e) ∧ p.Blames e) := by
  rcases compile_cases (allProper_of_ofInput h) with ⟨hscoped, hcompile⟩ | ⟨e, hblames, herror⟩
  · exact ⟨iff_of_true hcompile hscoped, fun hnot => (hnot hscoped).elim⟩
  · refine ⟨iff_of_false ?_ hblames.not_wellScoped, fun _ => ⟨e, herror, hblames⟩⟩
    rintro ⟨c, hc⟩
    rw [herror] at hc
    cases hc

/-- A text whose only fault is a name in parentheses, on a line of its own. -/
def strayText : Bytes :=
  ascii "PROGRAM stray\nDECLARE INTEGER n STRING s\nBEGIN\nREAD s\nIF n > 0 THEN\nPRINT s\n"
    ++ ascii "WHILE n <> 5 DO\nINC n := (n +\nm) * 2\nENDWHILE\nENDIF\nEND\n"

theorem compiles_iff_wellScoped_stray : ∃ p, ofInput (.ofBytes strayText) = .ok p ∧
    ¬p.WellScoped ∧ ((∃ c, p.compile = .ok c) ↔ p.WellScoped) ∧
    p.compile = .error (.semantic { cause := .undeclared (ascii "m"), line := 9 }) ∧
    p.Blames { cause := .undeclared (ascii "m"), line := 9 } := by
  have h : (match ofInput (.ofBytes strayText) with
      | .ok p => decide (¬p.WellScoped ∧
          p.compile = .error (.semantic { cause := .undeclared (ascii "m"), line := 9 }))
      | .error _ => false) = true := by
    decide +kernel
  split at h
  · rename_i p hp
    obtain ⟨hnot, hcompile⟩ := of_decide_eq_true h
    obtain ⟨hiff, hblames⟩ := compiles_iff_wellScoped hp
    obtain ⟨e, he, hblame⟩ := hblames hnot
    obtain rfl := CompileError.semantic.inj (Except.error.inj (he.symm.trans hcompile))
    exact ⟨p, hp, hnot, hiff, hcompile, hblame⟩
  · cases h

end Program

end Stackling
