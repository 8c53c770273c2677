import Mathlib.Tactic.Common
import Stackling.Program.Parser
import Stackling.Proofs.Program.Folding

/-!
# The grammar of programs

The grammar is given by its derivation trees. A tree holds the tokens that it
derives, each in a place for tokens of its kind, so every tree is a derivation;
`yield` is the list of tokens that it derives, and the program that it stands
for takes the line of every node from the first token of the node's yield.

    program    ::=  PROGRAM name [DECLARE (type name)+] BEGIN statement* END
    type       ::=  INTEGER | STRING | name
    statement  ::=  SET name := (phrase₀ | text)  |  PRINT (name | text)  |  READ name
                 |  INC name := phrase₀
                 |  IF test THEN statement+ [ELSE statement+] ENDIF
                 |  WHILE test DO statement+ ENDWHILE
    test       ::=  operand comparator operand
    operand    ::=  name | number                      (at most 2147483647)
    phrase₀    ::=  phrase₁ | phrase₀ (> | < | = | <>) phrase₁
    phrase₁    ::=  phrase₂ | phrase₁ (+ | -) phrase₂
    phrase₂    ::=  phrase₃ | phrase₂ (* | /) phrase₃
    phrase₃    ::=  operand | ( phrase₀ )

* **one tree** — tokens have no more than one derivation
  (`Derivation.eq_of_yield_eq`). Phrases are told apart by their chains of
  operators and terms, since a chain has one tree that is ordered.
-/

namespace Stackling.Grammar

/-! ## Derivation trees -/

/-- A token of one of the given kinds. -/
abbrev TokenIn (kinds : List TokenKind) : Type := { t : Token // t.kind ∈ kinds }

/-- The token in a place for more kinds. -/
def TokenIn.widen {kinds kinds' : List TokenKind} (t : TokenIn kinds) (h : kinds ⊆ kinds') :
    TokenIn kinds' := ⟨t.val, h t.property⟩

/-- A token in the place for tokens of its kind. -/
def TokenIn.single {kind : TokenKind} (t : Token) (h : t.kind = kind) : TokenIn [kind] :=
  ⟨t, List.mem_singleton.mpr h⟩

@[simp] theorem TokenIn.val_single {kind : TokenKind} (t : Token) (h : t.kind = kind) :
    (TokenIn.single t h).val = t := rfl

theorem TokenIn.kind_eq {kind : TokenKind} (t : TokenIn [kind]) : t.val.kind = kind :=
  List.mem_singleton.mp t.property

/-- The operators that join phrases of a level. -/
def operators : Nat → List TokenKind
  | 0 => [.greater, .less, .equal, .notEqual]
  | 1 => [.plus, .minus]
  | 2 => [.times, .divide]
  | _ => []

/-- A name, or a number that is not too large. -/
inductive Operand where
  | name (t : TokenIn [.name])
  | number (t : TokenIn [.number]) (fits : Decimal.value t.val.content ≤ 2147483647)

/-- An expression of a level: three for those that bind tightest. -/
inductive Phrase : Nat → Type where
  | operand (o : Operand) : Phrase 3
  | paren (left : TokenIn [.leftParen]) (inner : Phrase 0) (right : TokenIn [.rightParen]) :
      Phrase 3
  | lift {level : Nat} (inner : Phrase (level + 1)) : Phrase level
  | join {level : Nat} (left : Phrase level) (op : TokenIn (operators level))
      (right : Phrase (level + 1)) : Phrase level

/-- A comparison of two operands. -/
structure Test where
  left : Operand
  sign : TokenIn (operators 0)
  right : Operand

/-- What a name is set to. -/
inductive Assigned where
  | phrase (e : Phrase 0)
  | text (t : TokenIn [.text])

/-- What is printed. -/
inductive Printed where
  | name (t : TokenIn [.name])
  | text (t : TokenIn [.text])

mutual

/-- A statement. -/
inductive Statement where
  | set (word : TokenIn [.keyword .set]) (target : TokenIn [.name]) (sign : TokenIn [.assign])
      (value : Assigned)
  | print (word : TokenIn [.keyword .print]) (value : Printed)
  | read (word : TokenIn [.keyword .read]) (target : TokenIn [.name])
  | inc (word : TokenIn [.keyword .inc]) (target : TokenIn [.name]) (sign : TokenIn [.assign])
      (value : Phrase 0)
  | choice (word : TokenIn [.keyword .ifWord]) (test : Test)
      (thenWord : TokenIn [.keyword .thenWord]) (yes : Block) (otherwise : Otherwise)
  | loop (word : TokenIn [.keyword .whileWord]) (test : Test) (doWord : TokenIn [.keyword .doWord])
      (body : Block) (endWord : TokenIn [.keyword .endWhile])

/-- One or more statements. -/
inductive Block where
  | one (s : Statement)
  | cons (s : Statement) (more : Block)

/-- The end of a choice, with or without another part. -/
inductive Otherwise where
  | none (endWord : TokenIn [.keyword .endIf])
  | some (elseWord : TokenIn [.keyword .elseWord]) (no : Block)
      (endWord : TokenIn [.keyword .endIf])

end

/-- A type and a name. -/
structure Declared where
  type : TokenIn [.keyword .integer, .keyword .string, .name]
  name : TokenIn [.name]

/-- One or more declarations. -/
structure DeclarePart where
  word : TokenIn [.keyword .declare]
  first : Declared
  more : List Declared

/-- A derivation of a program. -/
structure Derivation where
  word : TokenIn [.keyword .program]
  name : TokenIn [.name]
  declarePart : Option DeclarePart
  beginWord : TokenIn [.keyword .beginBody]
  body : Option Block
  endWord : TokenIn [.keyword .endBody]

/-! ## Yields -/

def Operand.yield : Operand → List Token
  | name t | number t _ => [t.val]

def Phrase.yield {level : Nat} : Phrase level → List Token
  | operand o => o.yield
  | paren left inner right => left.val :: (inner.yield ++ [right.val])
  | lift inner => inner.yield
  | join left op right => left.yield ++ op.val :: right.yield

def Test.yield (t : Test) : List Token := t.left.yield ++ t.sign.val :: t.right.yield

def Assigned.yield : Assigned → List Token
  | phrase e => e.yield
  | text t => [t.val]

def Printed.yield : Printed → List Token
  | name t | text t => [t.val]

mutual

def Statement.yield : Statement → List Token
  | .set word target sign value => word.val :: target.val :: sign.val :: value.yield
  | .print word value => word.val :: value.yield
  | .read word target => [word.val, target.val]
  | .inc word target sign value => word.val :: target.val :: sign.val :: value.yield
  | .choice word test thenWord yes otherwise =>
    word.val :: (test.yield ++ thenWord.val :: (yes.yield ++ otherwise.yield))
  | .loop word test doWord body endWord =>
    word.val :: (test.yield ++ doWord.val :: (body.yield ++ [endWord.val]))

def Block.yield : Block → List Token
  | .one s => s.yield
  | .cons s more => s.yield ++ more.yield

def Otherwise.yield : Otherwise → List Token
  | .none endWord => [endWord.val]
  | .some elseWord no endWord => elseWord.val :: (no.yield ++ [endWord.val])

end

def Declared.yield (d : Declared) : List Token := [d.type.val, d.name.val]

def DeclarePart.yield (d : DeclarePart) : List Token :=
  d.word.val :: (d.first.yield ++ d.more.flatMap Declared.yield)

def Derivation.yield (d : Derivation) : List Token :=
  d.word.val :: d.name.val :: (d.declarePart.elim [] DeclarePart.yield
    ++ d.beginWord.val :: (d.body.elim [] Block.yield ++ [d.endWord.val]))

theorem Operand.exists_yield (o : Operand) : ∃ t : TokenIn [.name, .number], o.yield = [t.val] := by
  cases o with
  | name t | number t => exact ⟨t.widen (by decide), rfl⟩

/-! ## The program of a derivation -/

/-- The line that tokens start on. -/
def startLine : List Token → Int
  | [] => 0
  | t :: _ => t.line

def Operand.expr (o : Operand) : Expr :=
  match o with
  | name t => .name (startLine o.yield) t.val.content
  | number t _ => .number (startLine o.yield) (.ofNat (Decimal.value t.val.content))

theorem Operand.line_expr (o : Operand) : o.expr.line = startLine o.yield := by
  cases o <;> rfl

/-- The expression that an operator makes of two others. -/
def joined (line : Int) (op : Token) (left right : Expr) : Expr :=
  match op.kind with
  | .plus => .binary line (.arith .add) left right
  | .minus => .binary line (.arith .sub) left right
  | .times => .binary line (.arith .mul) left right
  | .divide => .binary line (.arith .div) left right
  | _ => .comparison line op.content left right

theorem line_joined (line : Int) (op : Token) (left right : Expr) :
    (joined line op left right).line = line := by
  unfold joined
  split <;> rfl

def Phrase.expr {level : Nat} : Phrase level → Expr
  | operand o => o.expr
  | paren left inner right => .paren (startLine (paren left inner right).yield) inner.expr
  | lift inner => inner.expr
  | join left op right => joined (startLine (join left op right).yield) op.val left.expr right.expr

def Test.condition (t : Test) : Condition where
  line := startLine t.yield
  left := t.left.expr
  comparator := t.sign.val.content
  right := t.right.expr

/-- A test starts where its left operand starts. -/
theorem Test.line_left (t : Test) : t.left.expr.line = startLine t.yield := by
  obtain ⟨first, h⟩ := t.left.exists_yield
  rw [t.left.line_expr, Test.yield, h]
  rfl

def Assigned.expr (v : Assigned) : Expr :=
  match v with
  | phrase e => e.expr
  | text t => .text (startLine v.yield) t.val.content

def Printed.expr (v : Printed) : Expr :=
  match v with
  | name t => .name (startLine v.yield) t.val.content
  | text t => .text (startLine v.yield) t.val.content

mutual

def Statement.stmt (s : Statement) : Stmt :=
  match s with
  | .set _ target _ value => .set (startLine s.yield) target.val.content value.expr
  | .print _ value => .print (startLine s.yield) value.expr
  | .read _ target => .read (startLine s.yield) target.val.content
  | .inc _ target _ value => .inc (startLine s.yield) target.val.content value.expr
  | .choice _ test _ yes otherwise =>
    .choice (startLine s.yield) test.condition yes.stmts otherwise.stmts
  | .loop _ test _ body _ => .loop (startLine s.yield) test.condition body.stmts

def Block.stmts : Block → List Stmt
  | .one s => [s.stmt]
  | .cons s more => s.stmt :: more.stmts

def Otherwise.stmts : Otherwise → List Stmt
  | .none _ => []
  | .some _ no _ => no.stmts

end

/-- A statement and the statements after it, if there are any. -/
def Block.of (s : Statement) (more : Option Block) : Block := more.elim (.one s) (.cons s)

theorem Block.exists_of (b : Block) : ∃ s more, b = .of s more := by
  cases b with
  | one s => exact ⟨s, none, rfl⟩
  | cons s more => exact ⟨s, some more, rfl⟩

theorem Block.yield_of (s : Statement) (more : Option Block) :
    (Block.of s more).yield = s.yield ++ more.elim [] Block.yield := by
  cases more <;> simp [Block.of, Block.yield]

theorem Block.stmts_of (s : Statement) (more : Option Block) :
    (Block.of s more).stmts = s.stmt :: more.elim [] Block.stmts := by
  cases more <;> simp [Block.of, Block.stmts]

theorem Block.stmts_ne_nil (b : Block) : b.stmts ≠ [] := by
  obtain ⟨s, more, rfl⟩ := b.exists_of
  simp [Block.stmts_of]

def Declared.declaration (d : Declared) : Declaration where
  typeName := d.type.val.content
  name := d.name.val.content
  line := startLine d.yield

def DeclarePart.declarations (d : DeclarePart) : List Declaration :=
  d.first.declaration :: d.more.map Declared.declaration

/-- The program that a derivation stands for. -/
def Derivation.program (d : Derivation) : Program where
  name := d.name.val.content
  line := startLine d.yield
  declarations := d.declarePart.elim [] DeclarePart.declarations
  body := d.body.elim [] Block.stmts

/-! ## Chains of phrases -/

open Chain (Tree Link)

/-- The operator that a token stands for, if it stands for one. -/
def link (t : Token) : Link :=
  match t.kind with
  | .plus => .arith .add
  | .minus => .arith .sub
  | .times => .arith .mul
  | .divide => .arith .div
  | _ => .compare t.content

theorem joined_eq_join (op : Token) (left right : Expr) :
    joined left.line op left right = (link op).join left right := by
  unfold joined link
  split <;> simp_all [Link.join]

/-- How tightly the operator of a token binds. -/
def priority (t : Token) : Nat := (link t).priority

/-- Whether a token is an operator. -/
def IsOperator (t : Token) : Prop := ∃ level, t.kind ∈ operators level

theorem priority_eq {level : Nat} (op : TokenIn (operators level)) : priority op.val = level := by
  obtain ⟨t, ht⟩ := op
  unfold operators at ht
  split at ht
  all_goals simp only [List.mem_cons, List.not_mem_nil, or_false] at ht
  · rcases ht with h | h | h | h <;> simp [priority, link, h, Link.priority]
  · rcases ht with h | h <;> simp [priority, link, h, Link.priority]
  · rcases ht with h | h <;> simp [priority, link, h, Link.priority]

theorem level_le_of_mem_operators {level : Nat} {kind : TokenKind} (h : kind ∈ operators level) :
    level ≤ 2 := by
  unfold operators at h
  split at h <;> simp_all

namespace Phrase

theorem level_le {level : Nat} (e : Phrase level) : level ≤ 3 := by
  induction e with
  | operand | paren => exact Nat.le_refl 3
  | lift inner ih => exact Nat.le_of_succ_le ih
  | join left op right ihLeft ihRight => exact ihLeft

/-- The phrases that bind tightest are operands and phrases in parentheses. -/
theorem cases_term (e : Phrase 3) :
    (∃ o, e = .operand o) ∨ ∃ left inner right, e = .paren left inner right := by
  cases e with
  | operand o => exact .inl ⟨o, rfl⟩
  | paren left inner right => exact .inr ⟨left, inner, right, rfl⟩
  | lift inner => exact absurd inner.level_le (by decide)
  | join left op right => exact absurd op.property (by simp [operators])

/-- The tree of operators over phrases that bind tightest. -/
def shape {level : Nat} : Phrase level → Tree Token (Phrase 3)
  | operand o => .leaf (.operand o)
  | paren left inner right => .leaf (.paren left inner right)
  | lift inner => inner.shape
  | join left op right => .node left.shape op.val right.shape

theorem ordered_shape {level : Nat} (e : Phrase level) : e.shape.Ordered priority level := by
  induction e with
  | operand | paren => exact .leaf
  | lift inner ih => exact ih.mono (Nat.le_succ _)
  | join left op right ihLeft ihRight =>
    have hop := priority_eq op
    exact .node (Nat.le_of_eq hop.symm) (by rw [hop]; exact ihLeft) (by rw [hop]; exact ihRight)

/-- A phrase of a higher level has no operator of a lower one at its root. -/
theorem shape_ne_node {level : Nat} (e : Phrase (level + 1)) (op : TokenIn (operators level))
    (left right : Tree Token (Phrase 3)) : e.shape ≠ .node left op.val right := by
  intro h
  have hordered := e.ordered_shape
  rw [h] at hordered
  cases hordered with
  | node tight _ _ =>
    rw [priority_eq op] at tight
    omega

/-- A phrase is determined by its level and its shape. -/
theorem eq_of_shape_eq {level : Nat} {e e' : Phrase level} (h : e.shape = e'.shape) : e = e' := by
  induction e with
  | operand | paren =>
    rcases e'.cases_term with ⟨o, rfl⟩ | ⟨left, inner, right, rfl⟩
    · exact Tree.leaf.inj h
    · exact Tree.leaf.inj h
  | lift inner ih =>
    -- what is lifted binds tighter at its root than the operators of this level
    cases e' with
    | operand | paren => exact absurd inner.level_le (by decide)
    | lift inner' => rw [ih h]
    | join left op right => exact absurd h (inner.shape_ne_node op _ _)
  | join left op right ihLeft ihRight =>
    cases e' with
    | operand | paren => simp [shape] at h
    | lift inner' => exact absurd h.symm (inner'.shape_ne_node op _ _)
    | join left' op' right' =>
      obtain ⟨hleft, hop, hright⟩ := Tree.node.inj h
      rw [ihLeft hleft, Subtype.ext hop, ihRight hright]

theorem exists_lift {low high : Nat} (e : Phrase high) (hle : low ≤ high) :
    ∃ e' : Phrase low, e'.shape = e.shape := by
  induction hle with
  | refl => exact ⟨e, rfl⟩
  | step _ ih => exact ih (.lift e)

/-- Every ordered tree of operators over terms is the shape of a phrase. -/
theorem exists_of_ordered {level : Nat} {t : Tree Token (Phrase 3)}
    (h : t.Ordered priority level) (hops : t.All IsOperator fun _ => True) (hlevel : level ≤ 3) :
    ∃ e : Phrase level, e.shape = t := by
  induction h with
  | @leaf level term =>
    obtain ⟨e, he⟩ := term.exists_lift hlevel
    refine ⟨e, he.trans ?_⟩
    rcases term.cases_term with ⟨o, rfl⟩ | ⟨left, inner, right, rfl⟩
    · rfl
    · rfl
  | @node level left right op tight _ _ ihLeft ihRight =>
    -- the root joins phrases of its own level, which may be higher than the one asked for
    obtain ⟨hleft, ⟨opLevel, hop⟩, hright⟩ := hops
    have hpriority : priority op = opLevel := priority_eq ⟨op, hop⟩
    have hle := level_le_of_mem_operators hop
    rw [hpriority] at tight ihLeft ihRight
    obtain ⟨leftPhrase, rfl⟩ := ihLeft hleft (by omega)
    obtain ⟨rightPhrase, rfl⟩ := ihRight hright (by omega)
    exact exists_lift (.join leftPhrase ⟨op, hop⟩ rightPhrase) tight

/-- The tokens of a chain after its first term. -/
def chainYield (links : List (Token × Phrase 3)) : List Token :=
  links.flatMap fun link => link.1 :: link.2.yield

theorem yield_eq {level : Nat} (e : Phrase level) :
    e.yield = e.shape.first.yield ++ chainYield e.shape.more := by
  induction e with
  | operand | paren => simp [shape, yield, Tree.first, Tree.more, chainYield]
  | lift inner ih => exact ih
  | join left op right ihLeft ihRight =>
    simp [shape, yield, ihLeft, ihRight, Tree.first, Tree.more, chainYield]

theorem all_shape {level : Nat} (e : Phrase level) : e.shape.All IsOperator fun _ => True := by
  induction e with
  | operand | paren => trivial
  | lift inner ih => exact ih
  | @join level left op right ihLeft ihRight => exact ⟨ihLeft, ⟨level, op.property⟩, ihRight⟩

/-- Every chain of operators and terms is the chain of a phrase. -/
theorem exists_of_chain (term : Phrase 3) {links : List (Token × Phrase 3)}
    (h : ∀ link ∈ links, IsOperator link.1) :
    ∃ e : Phrase 0, e.shape.first = term ∧ e.shape.more = links := by
  have hfirst : (Tree.ofChain priority term links).first = term := Tree.first_ofChain term links
  have hmore : (Tree.ofChain priority term links).more = links := Tree.more_ofChain term links
  obtain ⟨e, he⟩ := exists_of_ordered (Tree.ordered_ofChain term links)
    (Tree.all_iff.mpr ⟨trivial, by rw [hmore]; exact fun link hlink => ⟨h link hlink, trivial⟩⟩)
    (Nat.zero_le 3)
  exact ⟨e, by rw [he, hfirst], by rw [he, hmore]⟩

/-! ### Expressions of chains -/

theorem exists_yield {level : Nat} (e : Phrase level) :
    ∃ (t : TokenIn [.name, .number, .leftParen]) (tail : List Token), e.yield = t.val :: tail := by
  induction e with
  | operand o =>
    obtain ⟨t, ht⟩ := o.exists_yield
    exact ⟨t.widen (by decide), [], ht⟩
  | paren left inner right => exact ⟨left.widen (by decide), _, rfl⟩
  | lift inner ih => exact ih
  | join left op right ihLeft ihRight =>
    obtain ⟨t, tail, h⟩ := ihLeft
    exact ⟨t, tail ++ op.val :: right.yield, by simp [yield, h]⟩

theorem line_expr {level : Nat} (e : Phrase level) : e.expr.line = startLine e.yield := by
  induction e with
  | operand o => exact o.line_expr
  | paren => rfl
  | lift inner ih => exact ih
  | join => exact line_joined _ _ _ _

/-- The expression of a phrase is that of its shape. -/
theorem expr_eq_toExpr {level : Nat} (e : Phrase level) :
    e.expr = (e.shape.map link Phrase.expr).toExpr := by
  induction e with
  | operand | paren => rfl
  | lift inner ih => exact ih
  | join left op right ihLeft ihRight =>
    obtain ⟨t, tail, htail⟩ := left.exists_yield
    have hline : startLine (join left op right).yield = left.expr.line := by
      rw [left.line_expr, yield, htail]
      rfl
    rw [expr, hline, joined_eq_join, ihLeft, ihRight]
    rfl

/-- The expression of a phrase is that of its chain. -/
theorem expr_eq {level : Nat} (e : Phrase level) :
    e.expr = Chain.expr e.shape.first.expr
      (e.shape.more.map fun link => (Grammar.link link.1, link.2.expr)) := by
  have hshape := congrArg (Chain.Tree.map link Phrase.expr)
    (Tree.ofChain_eq_of_ordered e.ordered_shape)
  have hpriority : ∀ op, (link op).priority = priority op := fun _ => rfl
  rw [Tree.map_ofChain hpriority] at hshape
  rw [e.expr_eq_toExpr, ← hshape, Chain.expr_eq_toExpr]

end Phrase

/-! ## One derivation -/

/-- Tokens of different kinds are different. -/
theorem TokenIn.val_ne {kinds kinds' : List TokenKind} (t : TokenIn kinds) (t' : TokenIn kinds')
    (h : ∀ k ∈ kinds, k ∉ kinds') : t.val ≠ t'.val := by
  intro heq
  exact h _ t.property (heq ▸ t'.property)

/-- The first tokens of equal lists, in places for the same kinds. -/
theorem TokenIn.cons_inj {kinds : List TokenKind} {t t' : TokenIn kinds} {rest rest' : List Token}
    (h : t.val :: rest = t'.val :: rest') : t = t' ∧ rest = rest' :=
  ⟨Subtype.ext (List.cons.inj h).1, (List.cons.inj h).2⟩

/-- Tokens that do not go on with an operator. -/
def Stops (rest : List Token) : Prop := ∀ t, rest.head? = some t → ¬ IsOperator t

theorem stops_cons {kinds : List TokenKind} (t : TokenIn kinds)
    (h : ∀ k ∈ kinds, ∀ level ≤ 2, k ∉ operators level) (rest : List Token) :
    Stops (t.val :: rest) := by
  rintro _ ⟨⟩ ⟨level, hlevel⟩
  exact h _ t.property level (level_le_of_mem_operators hlevel) hlevel

/-- What is derived from the front of some tokens is the same as what is derived
from the front of the same tokens in another way. -/
theorem Operand.eq_of_yield {o o' : Operand} {rest rest' : List Token}
    (h : o.yield ++ rest = o'.yield ++ rest') : o = o' ∧ rest = rest' := by
  cases o with
  | name t =>
    cases o' with
    | name t' =>
      obtain ⟨rfl, hrest⟩ := TokenIn.cons_inj h
      exact ⟨rfl, hrest⟩
    | number t' => exact absurd (List.cons.inj h).1 (t.val_ne t' (by decide))
  | number t =>
    cases o' with
    | name t' => exact absurd (List.cons.inj h).1 (t.val_ne t' (by decide))
    | number t' =>
      obtain ⟨rfl, hrest⟩ := TokenIn.cons_inj h
      exact ⟨rfl, hrest⟩

theorem Operand.yield_ne_paren (o : Operand) (left : TokenIn [.leftParen])
    (rest rest' : List Token) : o.yield ++ rest ≠ left.val :: rest' := by
  obtain ⟨t, ht⟩ := o.exists_yield
  rw [ht]
  intro h
  exact t.val_ne left (by decide) (List.cons.inj h).1

namespace Phrase

/-- A term is the only one that the tokens start with. -/
def Unique (e : Phrase 3) : Prop :=
  ∀ (e' : Phrase 3) (rest rest' : List Token), e.yield ++ rest = e'.yield ++ rest' →
    e = e' ∧ rest = rest'

theorem chain_unique {links links' : List (Token × Phrase 3)} {rest rest' : List Token}
    (hlinks : ∀ link ∈ links, IsOperator link.1 ∧ Unique link.2)
    (hlinks' : ∀ link ∈ links', IsOperator link.1) (hstop : Stops rest) (hstop' : Stops rest')
    (h : chainYield links ++ rest = chainYield links' ++ rest') :
    links = links' ∧ rest = rest' := by
  induction links generalizing links' with
  | nil =>
    cases links' with
    | nil => exact ⟨rfl, h⟩
    | cons link' links' =>
      -- one chain ends where the other goes on with an operator
      have hrest : rest.head? = some link'.1 := by
        rw [show rest = _ from h]
        rfl
      exact absurd (List.forall_mem_cons.mp hlinks').1 (hstop _ hrest)
  | cons link links ih =>
    rw [List.forall_mem_cons] at hlinks
    cases links' with
    | nil =>
      have hrest : rest'.head? = some link.1 := by
        rw [← show _ = rest' from h]
        rfl
      exact absurd hlinks.1.1 (hstop' _ hrest)
    | cons link' links' =>
      rw [List.forall_mem_cons] at hlinks'
      obtain ⟨op, term⟩ := link
      obtain ⟨op', term'⟩ := link'
      simp only [chainYield, List.flatMap_cons, List.cons_append, List.append_assoc] at h
      obtain ⟨rfl, hterm⟩ := List.cons.inj h
      obtain ⟨rfl, hmore⟩ := hlinks.1.2 term' _ _ hterm
      obtain ⟨rfl, hrest⟩ := ih hlinks.2 hlinks'.2 hmore
      exact ⟨rfl, hrest⟩

/-- Phrases that are derived from the front of the same tokens are equal, if
their terms are the only ones. -/
theorem eq_of_unique {level : Nat} {e e' : Phrase level} {rest rest' : List Token}
    (hterms : e.shape.All IsOperator Unique) (hstop : Stops rest) (hstop' : Stops rest')
    (h : e.yield ++ rest = e'.yield ++ rest') : e = e' ∧ rest = rest' := by
  obtain ⟨hfirst, hmore⟩ := Tree.all_iff.mp hterms
  obtain ⟨-, hmore'⟩ := Tree.all_iff.mp e'.all_shape
  rw [e.yield_eq, e'.yield_eq, List.append_assoc, List.append_assoc] at h
  obtain ⟨hfirst, h⟩ := hfirst _ _ _ h
  obtain ⟨hmore, hrest⟩ :=
    chain_unique hmore (fun link hlink => (hmore' link hlink).1) hstop hstop' h
  refine ⟨eq_of_shape_eq ?_, hrest⟩
  rw [← Tree.ofChain_eq_of_ordered e.ordered_shape, ← Tree.ofChain_eq_of_ordered e'.ordered_shape,
    hfirst, hmore]

theorem unique_terms {level : Nat} (e : Phrase level) : e.shape.All IsOperator Unique := by
  induction e with
  | operand o =>
    intro e' rest rest' h
    rcases e'.cases_term with ⟨o', rfl⟩ | ⟨left, inner, right, rfl⟩
    · obtain ⟨rfl, hrest⟩ := Operand.eq_of_yield h
      exact ⟨rfl, hrest⟩
    · exact absurd h (o.yield_ne_paren left _ _)
  | paren left inner right ih =>
    intro e' rest rest' h
    rcases e'.cases_term with ⟨o', rfl⟩ | ⟨left', inner', right', rfl⟩
    · exact absurd h.symm (o'.yield_ne_paren left _ _)
    · -- the closing parenthesis is no operator, so it ends both inner phrases
      simp only [yield, List.cons_append, List.append_assoc, List.nil_append] at h
      obtain ⟨rfl, hinner⟩ := TokenIn.cons_inj h
      obtain ⟨rfl, hend⟩ := eq_of_unique ih (stops_cons right (by decide) _)
        (stops_cons right' (by decide) _) hinner
      obtain ⟨rfl, hrest⟩ := TokenIn.cons_inj hend
      exact ⟨rfl, hrest⟩
  | lift inner ih => exact ih
  | @join level left op right ihLeft ihRight => exact ⟨ihLeft, ⟨level, op.property⟩, ihRight⟩

theorem eq_of_yield {e e' : Phrase 0} {rest rest' : List Token} (hstop : Stops rest)
    (hstop' : Stops rest') (h : e.yield ++ rest = e'.yield ++ rest') : e = e' ∧ rest = rest' :=
  eq_of_unique e.unique_terms hstop hstop' h

end Phrase

/-- The words that statements start with. -/
def openings : List TokenKind :=
  [.keyword .set, .keyword .print, .keyword .read, .keyword .inc, .keyword .ifWord,
    .keyword .whileWord]

/-- The words that end statements in a row. -/
def closings : List TokenKind :=
  [.keyword .elseWord, .keyword .endIf, .keyword .endWhile, .keyword .endBody]

/-- Tokens that start with a word that ends statements in a row. -/
def Closes (rest : List Token) : Prop :=
  ∃ (t : TokenIn closings) (tail : List Token), rest = t.val :: tail

theorem closes_cons {kinds : List TokenKind} (t : TokenIn kinds) (h : kinds ⊆ closings)
    (rest : List Token) : Closes (t.val :: rest) :=
  ⟨t.widen h, rest, rfl⟩

theorem Closes.stops {rest : List Token} (h : Closes rest) : Stops rest := by
  obtain ⟨t, tail, rfl⟩ := h
  exact stops_cons t (by decide) tail

theorem Phrase.yield_ne_text {level : Nat} (e : Phrase level) (t : TokenIn [.text])
    (rest rest' : List Token) : e.yield ++ rest ≠ t.val :: rest' := by
  obtain ⟨t', tail, h⟩ := e.exists_yield
  rw [h]
  intro heq
  exact t'.val_ne t (by decide) (List.cons.inj heq).1

theorem Statement.exists_yield (s : Statement) :
    ∃ (t : TokenIn openings) (tail : List Token), s.yield = t.val :: tail := by
  cases s with
  | set word | print word | read word | inc word | choice word | loop word =>
    unfold yield
    exact ⟨word.widen (by decide), _, rfl⟩

theorem Statement.yield_ne_nil (s : Statement) : s.yield ≠ [] := by
  obtain ⟨t, tail, h⟩ := s.exists_yield
  simp [h]

theorem Block.exists_yield (b : Block) :
    ∃ (t : TokenIn openings) (tail : List Token), b.yield = t.val :: tail := by
  cases b with
  | one s =>
    unfold yield
    exact s.exists_yield
  | cons s more =>
    obtain ⟨t, tail, h⟩ := s.exists_yield
    exact ⟨t, tail ++ more.yield, by simp [yield, h]⟩

theorem Block.stops_yield (b : Block) (rest : List Token) : Stops (b.yield ++ rest) := by
  obtain ⟨t, tail, h⟩ := b.exists_yield
  rw [h]
  exact stops_cons t (by decide) _

theorem Closes.stops_yield {rest : List Token} (h : Closes rest) (b : Option Block) :
    Stops (b.elim [] Block.yield ++ rest) := by
  cases b with
  | none => exact h.stops
  | some b => exact b.stops_yield rest

theorem Block.yield_ne_closes (b : Block) {rest rest' : List Token} (h : Closes rest') :
    b.yield ++ rest ≠ rest' := by
  obtain ⟨t, tail, htail⟩ := b.exists_yield
  obtain ⟨t', tail', rfl⟩ := h
  rw [htail]
  intro heq
  exact t.val_ne t' (by decide) (List.cons.inj heq).1

theorem Test.eq_of_yield {t t' : Test} {rest rest' : List Token}
    (h : t.yield ++ rest = t'.yield ++ rest') : t = t' ∧ rest = rest' := by
  obtain ⟨left, sign, right⟩ := t
  obtain ⟨left', sign', right'⟩ := t'
  simp only [Test.yield, List.append_assoc, List.cons_append] at h
  obtain ⟨rfl, h₁⟩ := Operand.eq_of_yield h
  obtain ⟨rfl, h₂⟩ := TokenIn.cons_inj h₁
  obtain ⟨rfl, hrest⟩ := Operand.eq_of_yield h₂
  exact ⟨rfl, hrest⟩

theorem Assigned.eq_of_yield {v v' : Assigned} {rest rest' : List Token} (hstop : Stops rest)
    (hstop' : Stops rest') (h : v.yield ++ rest = v'.yield ++ rest') : v = v' ∧ rest = rest' := by
  cases v with
  | phrase e =>
    cases v' with
    | phrase e' =>
      obtain ⟨rfl, hrest⟩ := Phrase.eq_of_yield hstop hstop' h
      exact ⟨rfl, hrest⟩
    | text t' => exact absurd h (e.yield_ne_text t' _ _)
  | text t =>
    cases v' with
    | phrase e' => exact absurd h.symm (e'.yield_ne_text t _ _)
    | text t' =>
      obtain ⟨rfl, hrest⟩ := TokenIn.cons_inj h
      exact ⟨rfl, hrest⟩

theorem Printed.eq_of_yield {v v' : Printed} {rest rest' : List Token}
    (h : v.yield ++ rest = v'.yield ++ rest') : v = v' ∧ rest = rest' := by
  cases v with
  | name t =>
    cases v' with
    | name t' =>
      obtain ⟨rfl, hrest⟩ := TokenIn.cons_inj h
      exact ⟨rfl, hrest⟩
    | text t' => exact absurd (List.cons.inj h).1 (t.val_ne t' (by decide))
  | text t =>
    cases v' with
    | name t' => exact absurd (List.cons.inj h).1 (t.val_ne t' (by decide))
    | text t' =>
      obtain ⟨rfl, hrest⟩ := TokenIn.cons_inj h
      exact ⟨rfl, hrest⟩

theorem Otherwise.closes_yield (o : Otherwise) (rest : List Token) : Closes (o.yield ++ rest) := by
  cases o with
  | none endWord => exact closes_cons endWord (by decide) rest
  | some elseWord no endWord => exact closes_cons elseWord (by decide) _

mutual

theorem Statement.eq_of_yield : ∀ (s s' : Statement) {rest rest' : List Token}, Stops rest →
    Stops rest' → s.yield ++ rest = s'.yield ++ rest' → s = s' ∧ rest = rest'
  | .set word target sign value, s' => by
    intro hstop hstop' h
    cases s' with
    | set =>
      obtain ⟨rfl, h₁⟩ := TokenIn.cons_inj h
      obtain ⟨rfl, h₂⟩ := TokenIn.cons_inj h₁
      obtain ⟨rfl, h₃⟩ := TokenIn.cons_inj h₂
      obtain ⟨rfl, hrest⟩ := Assigned.eq_of_yield hstop hstop' h₃
      exact ⟨rfl, hrest⟩
    | _ => exact absurd (List.cons.inj h).1 (TokenIn.val_ne _ _ (by decide))
  | .print word value, s' => by
    intro _ _ h
    cases s' with
    | print =>
      obtain ⟨rfl, h₁⟩ := TokenIn.cons_inj h
      obtain ⟨rfl, hrest⟩ := Printed.eq_of_yield h₁
      exact ⟨rfl, hrest⟩
    | _ => exact absurd (List.cons.inj h).1 (TokenIn.val_ne _ _ (by decide))
  | .read word target, s' => by
    intro _ _ h
    cases s' with
    | read =>
      obtain ⟨rfl, h₁⟩ := TokenIn.cons_inj h
      obtain ⟨rfl, hrest⟩ := TokenIn.cons_inj h₁
      exact ⟨rfl, hrest⟩
    | _ => exact absurd (List.cons.inj h).1 (TokenIn.val_ne _ _ (by decide))
  | .inc word target sign value, s' => by
    intro hstop hstop' h
    cases s' with
    | inc =>
      obtain ⟨rfl, h₁⟩ := TokenIn.cons_inj h
      obtain ⟨rfl, h₂⟩ := TokenIn.cons_inj h₁
      obtain ⟨rfl, h₃⟩ := TokenIn.cons_inj h₂
      obtain ⟨rfl, hrest⟩ := Phrase.eq_of_yield hstop hstop' h₃
      exact ⟨rfl, hrest⟩
    | _ => exact absurd (List.cons.inj h).1 (TokenIn.val_ne _ _ (by decide))
  | .choice word test thenWord yes otherwise, s' => by
    intro _ _ h
    cases s' with
    | choice _ _ _ yes' otherwise' =>
      simp only [Statement.yield, List.cons_append, List.append_assoc] at h
      obtain ⟨rfl, h₁⟩ := TokenIn.cons_inj h
      obtain ⟨rfl, h₂⟩ := Test.eq_of_yield h₁
      obtain ⟨rfl, h₃⟩ := TokenIn.cons_inj h₂
      obtain ⟨rfl, h₄⟩ := Block.eq_of_yield yes yes' (otherwise.closes_yield _)
        (otherwise'.closes_yield _) h₃
      obtain ⟨rfl, hrest⟩ := Otherwise.eq_of_yield otherwise otherwise' h₄
      exact ⟨rfl, hrest⟩
    | _ => exact absurd (List.cons.inj h).1 (TokenIn.val_ne _ _ (by decide))
  | .loop word test doWord body endWord, s' => by
    intro _ _ h
    cases s' with
    | loop _ _ _ body' endWord' =>
      simp only [Statement.yield, List.cons_append, List.append_assoc, List.nil_append] at h
      obtain ⟨rfl, h₁⟩ := TokenIn.cons_inj h
      obtain ⟨rfl, h₂⟩ := Test.eq_of_yield h₁
      obtain ⟨rfl, h₃⟩ := TokenIn.cons_inj h₂
      obtain ⟨rfl, h₄⟩ := Block.eq_of_yield body body' (closes_cons endWord (by decide) _)
        (closes_cons endWord' (by decide) _) h₃
      obtain ⟨rfl, hrest⟩ := TokenIn.cons_inj h₄
      exact ⟨rfl, hrest⟩
    | _ => exact absurd (List.cons.inj h).1 (TokenIn.val_ne _ _ (by decide))

theorem Block.eq_of_yield : ∀ (b b' : Block) {rest rest' : List Token}, Closes rest →
    Closes rest' → b.yield ++ rest = b'.yield ++ rest' → b = b' ∧ rest = rest'
  | .one s, b' => by
    intro hclose hclose' h
    cases b' with
    | one s' =>
      obtain ⟨rfl, hrest⟩ := Statement.eq_of_yield s s' hclose.stops hclose'.stops h
      exact ⟨rfl, hrest⟩
    | cons s' more' =>
      simp only [Block.yield, List.append_assoc] at h
      -- a closing word comes after one of them and a statement after the other
      obtain ⟨rfl, hrest⟩ := Statement.eq_of_yield s s' hclose.stops (more'.stops_yield _) h
      exact absurd hrest.symm (more'.yield_ne_closes hclose)
  | .cons s more, b' => by
    intro hclose hclose' h
    cases b' with
    | one s' =>
      simp only [Block.yield, List.append_assoc] at h
      obtain ⟨rfl, hrest⟩ := Statement.eq_of_yield s s' (more.stops_yield _) hclose'.stops h
      exact absurd hrest (more.yield_ne_closes hclose')
    | cons s' more' =>
      simp only [Block.yield, List.append_assoc] at h
      obtain ⟨rfl, hmore⟩ := Statement.eq_of_yield s s' (more.stops_yield _) (more'.stops_yield _) h
      obtain ⟨rfl, hrest⟩ := Block.eq_of_yield more more' hclose hclose' hmore
      exact ⟨rfl, hrest⟩

theorem Otherwise.eq_of_yield : ∀ (o o' : Otherwise) {rest rest' : List Token},
    o.yield ++ rest = o'.yield ++ rest' → o = o' ∧ rest = rest'
  | .none endWord, o' => by
    intro h
    cases o' with
    | none =>
      obtain ⟨rfl, hrest⟩ := TokenIn.cons_inj h
      exact ⟨rfl, hrest⟩
    | some => exact absurd (List.cons.inj h).1 (TokenIn.val_ne _ _ (by decide))
  | .some elseWord no endWord, o' => by
    intro h
    cases o' with
    | none => exact absurd (List.cons.inj h).1 (TokenIn.val_ne _ _ (by decide))
    | some _ no' endWord' =>
      simp only [Otherwise.yield, List.cons_append, List.append_assoc, List.nil_append] at h
      obtain ⟨rfl, h₁⟩ := TokenIn.cons_inj h
      obtain ⟨rfl, h₂⟩ := Block.eq_of_yield no no' (closes_cons endWord (by decide) _)
        (closes_cons endWord' (by decide) _) h₁
      obtain ⟨rfl, hrest⟩ := TokenIn.cons_inj h₂
      exact ⟨rfl, hrest⟩

end

/-- Declarations in a row are determined by their tokens up to `BEGIN`. -/
theorem Declared.eq_of_yields {ds ds' : List Declared} {word word' : TokenIn [.keyword .beginBody]}
    {rest rest' : List Token}
    (h : ds.flatMap yield ++ word.val :: rest = ds'.flatMap yield ++ word'.val :: rest') :
    ds = ds' ∧ word = word' ∧ rest = rest' := by
  induction ds generalizing ds' with
  | nil =>
    cases ds' with
    | nil =>
      obtain ⟨rfl, hrest⟩ := TokenIn.cons_inj h
      exact ⟨rfl, rfl, hrest⟩
    | cons d' ds' => exact absurd (List.cons.inj h).1 (word.val_ne d'.type (by decide))
  | cons d ds ih =>
    cases ds' with
    | nil => exact absurd (List.cons.inj h).1 (d.type.val_ne word' (by decide))
    | cons d' ds' =>
      obtain ⟨type, name⟩ := d
      obtain ⟨type', name'⟩ := d'
      simp only [List.flatMap_cons, Declared.yield, List.cons_append, List.nil_append] at h
      obtain ⟨rfl, h₁⟩ := TokenIn.cons_inj h
      obtain ⟨rfl, h₂⟩ := TokenIn.cons_inj h₁
      obtain ⟨rfl, hrest⟩ := ih h₂
      exact ⟨rfl, hrest⟩

theorem DeclarePart.eq_of_yield {d d' : Option DeclarePart}
    {word word' : TokenIn [.keyword .beginBody]} {rest rest' : List Token}
    (h : d.elim [] yield ++ word.val :: rest = d'.elim [] yield ++ word'.val :: rest') :
    d = d' ∧ word = word' ∧ rest = rest' := by
  cases d with
  | none =>
    cases d' with
    | none =>
      obtain ⟨rfl, hrest⟩ := TokenIn.cons_inj h
      exact ⟨rfl, rfl, hrest⟩
    | some d' => exact absurd (List.cons.inj h).1 (word.val_ne d'.word (by decide))
  | some d =>
    cases d' with
    | none => exact absurd (List.cons.inj h).1 (d.word.val_ne word' (by decide))
    | some d' =>
      obtain ⟨declare, first, more⟩ := d
      obtain ⟨declare', first', more'⟩ := d'
      obtain ⟨rfl, h₁⟩ := TokenIn.cons_inj h
      have hall : (first :: more).flatMap Declared.yield ++ word.val :: rest
          = (first' :: more').flatMap Declared.yield ++ word'.val :: rest' := h₁
      obtain ⟨hds, hrest⟩ := Declared.eq_of_yields hall
      obtain ⟨rfl, rfl⟩ := List.cons.inj hds
      exact ⟨rfl, hrest⟩

theorem Block.eq_of_yield_end {b b' : Option Block} {word word' : TokenIn [.keyword .endBody]}
    (h : b.elim [] yield ++ [word.val] = b'.elim [] yield ++ [word'.val]) :
    b = b' ∧ word = word' := by
  have hclose := closes_cons word (by decide) []
  have hclose' := closes_cons word' (by decide) []
  cases b with
  | none =>
    cases b' with
    | none =>
      obtain ⟨rfl, -⟩ := TokenIn.cons_inj h
      exact ⟨rfl, rfl⟩
    | some b' => exact absurd h.symm (b'.yield_ne_closes hclose)
  | some b =>
    cases b' with
    | none => exact absurd h (b.yield_ne_closes hclose')
    | some b' =>
      obtain ⟨rfl, hword⟩ := Block.eq_of_yield b b' hclose hclose' h
      obtain ⟨rfl, -⟩ := TokenIn.cons_inj hword
      exact ⟨rfl, rfl⟩

/-- Tokens have no more than one derivation. -/
theorem Derivation.eq_of_yield_eq {d d' : Derivation} (h : d.yield = d'.yield) : d = d' := by
  obtain ⟨word, name, declarePart, beginWord, body, endWord⟩ := d
  obtain ⟨word', name', declarePart', beginWord', body', endWord'⟩ := d'
  obtain ⟨rfl, h₁⟩ := TokenIn.cons_inj h
  obtain ⟨rfl, h₂⟩ := TokenIn.cons_inj h₁
  obtain ⟨rfl, rfl, h₃⟩ := DeclarePart.eq_of_yield h₂
  obtain ⟨rfl, rfl⟩ := Block.eq_of_yield_end h₃
  rfl

end Stackling.Grammar
