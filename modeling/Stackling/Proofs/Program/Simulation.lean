import Mathlib.Tactic.Common
import Stackling.Proofs.Direct
import Stackling.Proofs.Program.Labels
import Stackling.Proofs.Program.Semantics

/-!
# Contracts of the code of programs

What the pieces of a program's code do when they are executed directly. A piece
may stand anywhere in the whole code `C`, which only has to have no label twice,
so nothing here depends on what surrounds the piece.

* **contracts** — `Direct.Leads` says of a place in an execution what comes of
  it, for a computation that yields a value or an error; contracts compose as
  the computations do (`Direct.Leads.bind`);
* **values** — arithmetic, comparisons and scanning are what they mean
  (`Arith.result?_eq`, `Relation.holds_of_comparator`, `Scan.Agrees`);
* **expressions** — the code of an expression leads to its value on the stack
  (`Expr.Emits.leads`), and that of a condition to where it sends control
  (`Condition.leads`).
-/

namespace Stackling

open Assemble

namespace Direct

/-! ## Contracts -/

/-- What comes of an execution from `c` on, for a computation `x`. If `x` yields
a value then after some turns the execution is in a configuration that `post`
allows; if `x` fails, the execution stops with its error in a configuration that
`failed` allows. -/
def Leads {α : Type} (C : List Instruction) (failed : Config → Prop) (c : Config)
    (x : Except ErrorKind α) (post : α → Config → Prop) : Prop :=
  match x with
  | .ok a => ∃ n d, 0 < n ∧ advance C n (.running c) = .running d ∧ post a d
  | .error k => ∃ n d, advance C n (.running c) = .stopped (some k) d ∧ failed d

namespace Leads

variable {α β : Type} {C : List Instruction} {failed : Config → Prop} {c d : Config}
  {x : Except ErrorKind α} {post : α → Config → Prop} {post' : β → Config → Prop}

/-- A turn that yields the value. -/
theorem ok {a : α} (h : turn C c = .running d) (hd : post a d) : Leads C failed c (.ok a) post :=
  ⟨1, d, Nat.one_pos, by simp [h], hd⟩

/-- A turn that fails. -/
theorem error {k : ErrorKind} (h : turn C c = .stopped (some k) d) (hd : failed d) :
    Leads C failed c (.error k) post :=
  ⟨1, d, by simp [h], hd⟩

/-- A turn before the others. -/
theorem step (h : turn C c = .running d) (hd : Leads C failed d x post) :
    Leads C failed c x post := by
  cases x with
  | ok a =>
    obtain ⟨n, e, _, hrun, he⟩ := hd
    exact ⟨n + 1, e, Nat.succ_pos n, by rw [advance_succ, h, hrun], he⟩
  | error k =>
    obtain ⟨n, e, hrun, he⟩ := hd
    exact ⟨n + 1, e, by rw [advance_succ, h, hrun], he⟩

/-- What leads to the first value and on from there leads to the second. -/
theorem bind {f : α → Except ErrorKind β} (hx : Leads C failed c x post)
    (hf : ∀ a d, post a d → Leads C failed d (f a) post') : Leads C failed c (x >>= f) post' := by
  cases x with
  | error k => exact hx
  | ok a =>
    obtain ⟨n, d, hn, hrun, hd⟩ := hx
    have hnext := hf a d hd
    show Leads C failed c (f a) post'
    cases hfa : f a with
    | ok b =>
      rw [hfa] at hnext
      obtain ⟨m, e, _, hrun', he⟩ := hnext
      exact ⟨n + m, e, Nat.add_pos_left hn m, by rw [advance_add, hrun, hrun'], he⟩
    | error k =>
      rw [hfa] at hnext
      obtain ⟨m, e, hrun', he⟩ := hnext
      exact ⟨n + m, e, by rw [advance_add, hrun, hrun'], he⟩

theorem mono {post₁ : α → Config → Prop} (hx : Leads C failed c x post)
    (h : ∀ a d, x = .ok a → post a d → post₁ a d) : Leads C failed c x post₁ := by
  cases x with
  | ok a =>
    obtain ⟨n, d, hn, hrun, hd⟩ := hx
    exact ⟨n, d, hn, hrun, h a d rfl hd⟩
  | error k => exact hx

end Leads

theorem turn_eq {C : List Instruction} {c : Config} {i : Instruction} {rest : List Instruction}
    (h : c.rest = i :: rest) : turn C c = perform C { c with rest := skip rest } i := by
  simp only [turn, h]

/-- A jump goes on after its label, wherever the label stands. -/
theorem after?_of_suffix {C rest : List Instruction} {l : Label} (hnodup : (labels C).Nodup)
    (h : .label l :: rest <:+ C) : after? l C = some rest := by
  obtain ⟨first, rfl⟩ := h
  refine after?_of_split (fun hl => ?_) rest
  rw [labels_append, labels_cons_label, List.nodup_append] at hnodup
  exact hnodup.2.2 l hl l (List.mem_cons_self) rfl

end Direct

/-! ## Values -/

/-- A value as the machine has it. -/
def Datum.value : Datum → Value
  | int n => .int n
  | text bytes => .text bytes

/-- What a slot holds, whose name may have no value. -/
def Value.ofDatum? : Option Datum → Value
  | none => .null
  | some d => d.value

theorem Datum.render_value (d : Datum) : d.value.render = d.render := by
  cases d <;> rfl

/-- Machine arithmetic is that of the integers, brought back into 32 bits. -/
theorem Arith.result?_eq (op : Arith) (a b : Int32) :
    op.result? a b = (op.unwrapped? a.toInt b.toInt).map Int32.ofInt := by
  cases op with
  | add => simp [result?, unwrapped?, Int32.ofInt_add]
  | sub => simp [result?, unwrapped?, Int32.ofInt_sub]
  | mul => simp [result?, unwrapped?, Int32.ofInt_mul]
  | div =>
    have hzero : b.toInt = 0 ↔ b = 0 := by rw [← Int32.toInt_zero, Int32.toInt_inj]
    have hdiv : Int32.ofInt (a.toInt.tdiv b.toInt) = a / b := by
      rw [← Int32.toInt_inj, Int32.toInt_ofInt, Int32.toInt_div]
    by_cases h : b = 0
    · simp [result?, unwrapped?, h]
    · simp [result?, unwrapped?, h, hzero, hdiv]

theorem Relation.cases_of_comparator {word : Bytes} {r : Relation}
    (h : ofComparator? word = some r) :
    word = ascii ">" ∧ r = gt ∨ word = ascii "<" ∧ r = lt ∨ word = ascii "=" ∧ r = eq ∨
      word = ascii "<>" ∧ r = ne := by
  unfold ofComparator? at h
  grind

/-- A relation holds when its comparing word says so. -/
theorem Relation.holds_of_comparator {word : Bytes} {r : Relation}
    (h : ofComparator? word = some r) (a b : Int32) :
    Comparator.holds? word a.toInt b.toInt = some (r.holds a b) := by
  unfold Comparator.holds?
  rcases cases_of_comparator h with ⟨rfl, rfl⟩ | ⟨rfl, rfl⟩ | ⟨rfl, rfl⟩ | ⟨rfl, rfl⟩
  · rw [if_pos rfl]
    simp [gt, holds, Int32.lt_iff_toInt_lt]
  · rw [if_neg (by decide), if_pos rfl]
    simp [lt, holds, Int32.lt_iff_toInt_lt]
  · rw [if_neg (by decide), if_neg (by decide), if_pos rfl]
    simp [eq, holds, Int32.toInt_inj, Bool.beq_eq_decide_eq]
  · rw [if_neg (by decide), if_neg (by decide), if_neg (by decide), if_pos rfl]
    simp [ne, holds, Int32.toInt_inj, bne, Bool.beq_eq_decide_eq]

/-- The negation of such a relation holds when it does not. -/
theorem Relation.holds_negate {word : Bytes} {r : Relation} (h : ofComparator? word = some r)
    (a b : Int32) : r.negate.holds a b = !r.holds a b := by
  rcases cases_of_comparator h with ⟨rfl, rfl⟩ | ⟨rfl, rfl⟩ | ⟨rfl, rfl⟩ | ⟨rfl, rfl⟩
  · simp [gt, le, negate, holds, ← Int32.not_lt]
  · simp [lt, ge, negate, holds, ← Int32.not_lt]
  · simp [eq, ne, negate, holds, bne]
  · simp [eq, ne, negate, holds, bne]

/-- What a scan yields is what reading means. -/
def Scan.Agrees {α : Type} (value : α → Value) :
    Input × Except Fault α → Except ErrorKind (Datum × Bytes) → Prop
  | (input, .ok a), .ok (d, unread) => value a = d.value ∧ input = .ofBytes unread
  | (_, .error _), .error k => k = .badInput
  | _, _ => False

theorem Scan.integer_agrees (unread : Bytes) :
    Agrees .int (integer (.ofBytes unread)) (Datum.read .integer unread) := by
  have hword : (fun b => !Bytes.isSpace b) = isWordByte := rfl
  simp only [Datum.read, hword]
  unfold integer word
  simp only [Input.ofBytes, Option.isSome_none, Bool.false_eq_true, and_false, or_false]
  by_cases hempty : (unread.dropWhile Bytes.isSpace).takeWhile isWordByte = []
  · rw [if_pos hempty, hempty]
    rfl
  · rw [if_neg hempty]
    dsimp only
    cases Decimal.toInt32? ((unread.dropWhile Bytes.isSpace).takeWhile isWordByte) with
    | some n => exact ⟨rfl, rfl⟩
    | none => rfl

theorem Scan.line_agrees (unread : Bytes) :
    Agrees .text (line (.ofBytes unread)) (Datum.read .text unread) := by
  have hread : Datum.read .text unread = if unread = [] then .error .badInput else
      .ok (.text (dropReturn (unread.takeWhile isLineByte)), (unread.dropWhile isLineByte).tail) :=
    rfl
  rw [hread]
  unfold line
  simp only [Input.ofBytes, Option.isSome_none, Bool.false_eq_true, or_false]
  cases hrest : unread.dropWhile isLineByte with
  | cons b rest =>
    have hsome : unread ≠ [] := by
      rintro rfl
      simp at hrest
    simp only [hsome, if_false]
    exact ⟨rfl, rfl⟩
  | nil =>
    -- no newline is left, so the text of the line is all that is unread
    have htext : unread.takeWhile isLineByte = unread := by
      rw [← List.append_nil (unread.takeWhile isLineByte), ← hrest,
        List.takeWhile_append_dropWhile]
    rw [htext]
    by_cases hempty : unread = []
    · simp only [hempty, if_true]
      rfl
    · simp only [hempty, if_false]
      exact ⟨rfl, rfl⟩

/-! ## Worlds -/

/-- Slots and an output that show a world: each variable has the value of its
name, and the output holds what was printed. -/
structure Shows (table : SymbolTable) (size : Nat) (w : World) (slots : Array Value)
    (output : Output) : Prop where
  size_slots : slots.size = size
  value : ∀ {x v}, table.find? x = some v →
    ∃ i : Nat, v.slot = i ∧ slots[i]? = some (.ofDatum? (w.env x))
  output_eq : output = { content := w.printed.toArray }

/-- A configuration that shows a world, but for the input. -/
abbrev Direct.Config.Shows (table : SymbolTable) (size : Nat) (w : World) (c : Config) : Prop :=
  Stackling.Shows table size w c.slots c.output

/-- The setting of a piece of code: `C` is the code of a program in which the
names have the given types and the variables are those of `table`. It has `size`
slots, the first of which belong to the variables. -/
structure Layout (types : Bytes → Option VarType) (table : SymbolTable) (ds : List Declaration)
    (size : Nat) (C : List Instruction) : Prop where
  lists : table.Lists ds
  types : ∀ {x v}, table.find? x = some v → types x = some v.type
  size_le : size ≤ 2 ^ 31
  nodup : (labels C).Nodup

section Slots

variable {types : Bytes → Option VarType} {table : SymbolTable} {ds : List Declaration}
  {size : Nat} {C : List Instruction} {w : World} {slots : Array Value} {output : Output}

/-- Assigning to a name stores into the slot of its variable. -/
theorem Shows.assign (hlists : table.Lists ds) (h : Shows table size w slots output) {x : Bytes}
    {v : Variable} (found : table.find? x = some v) {i : Nat} (hi : v.slot = i) (d : Datum) :
    Shows table size (w.assign x d) (slots.setIfInBounds i d.value) output := by
  refine ⟨by simpa using h.size_slots, fun {y u} hy => ?_, h.output_eq⟩
  obtain ⟨j, hj, hget⟩ := h.value hy
  refine ⟨j, hj, ?_⟩
  by_cases hxy : y = x
  · subst hxy
    obtain rfl : v = u := Option.some.inj (found.symm.trans hy)
    obtain rfl : i = j := by omega
    have hlt := (Array.getElem?_eq_some_iff.mp hget).1
    rw [Array.getElem?_setIfInBounds_self_of_lt hlt]
    simp [World.assign, Value.ofDatum?]
  · have hij : i ≠ j := fun hij => hxy (hlists.eq_of_slot_eq hy found (by omega))
    rw [Array.getElem?_setIfInBounds_ne hij, hget]
    simp [World.assign, Function.update_of_ne hxy]

/-- A slot that belongs to no variable may hold anything. -/
theorem Shows.handle (hlists : table.Lists ds) (h : Shows table size w slots output) {i : Nat}
    (hi : ds.length ≤ i) (value : Value) :
    Shows table size w (slots.setIfInBounds i value) output := by
  refine ⟨by simpa using h.size_slots, fun {x v} hx => ?_, h.output_eq⟩
  obtain ⟨j, hj, hget⟩ := h.value hx
  obtain ⟨_, k, hk, hslot, _⟩ := hlists.slot_of_find? hx
  exact ⟨j, hj, by rw [Array.getElem?_setIfInBounds_ne (by omega), hget]⟩

/-- What is unread is not shown by slots or output. -/
theorem Shows.unread (h : Shows table size w slots output) (unread : Bytes) :
    Shows table size { w with unread } slots output :=
  ⟨h.size_slots, h.value, h.output_eq⟩

theorem Shows.print (h : Shows table size w slots output) (d : Datum) :
    Shows table size (w.print d) slots (output.append (d.render ++ [Bytes.newline])) := by
  refine ⟨h.size_slots, h.value, ?_⟩
  simp [h.output_eq, Output.append, World.print]

theorem Direct.Config.place?_ofNat {c : Direct.Config} {i : Nat} (hlt : i < c.slots.size)
    (hsize : c.slots.size ≤ 2 ^ 31) : c.place? (.ofNat i) = some i := by
  have hint : (Int32.ofNat i).toInt = i := Int32.toInt_ofNat_of_lt (by omega)
  rw [place?, hint, if_pos (by omega)]
  rfl

/-- The place of a variable, and what it holds. -/
theorem Layout.place?_variable (hl : Layout types table ds size C) {c : Direct.Config}
    (hc : c.Shows table size w) {x : Bytes} {v : Variable} (found : table.find? x = some v) :
    ∃ i : Nat, v.slot = i ∧ c.place? v.slot32 = some i ∧
      c.slots.getD i .null = .ofDatum? (w.env x) := by
  obtain ⟨i, hi, hget⟩ := hc.value found
  obtain ⟨hlt, _⟩ := Array.getElem?_eq_some_iff.mp hget
  have hsize : c.slots.size ≤ 2 ^ 31 := hc.size_slots ▸ hl.size_le
  refine ⟨i, hi, ?_, by rw [Array.getD_eq_getD_getElem?, hget]; rfl⟩
  rw [Variable.slot32_eq hi]
  exact Direct.Config.place?_ofNat hlt hsize

end Slots

/-! ## Instructions -/

namespace Direct

section Instructions

variable {types : Bytes → Option VarType} {table : SymbolTable} {ds : List Declaration}
  {size : Nat} {C rest : List Instruction} {w : World} {c : Config} {failed : Config → Prop}

theorem turn_jump {l : Label} {target : List Instruction} (hrest : c.rest = .jump l :: rest)
    (hafter : after? l C = some target) : turn C c = .running { c with rest := skip target } := by
  rw [turn_eq hrest]
  simp only [perform, Config.goTo, hafter]

/-- A load finds the value of a name, or that it has none. -/
theorem leads_load {x : Bytes} {v : Variable} {kind : Kind} (line : Int)
    (hl : Layout types table ds size C) (hc : c.Shows table size w)
    (found : table.find? x = some v) (hrest : c.rest = .load kind v.slot32 :: rest) :
    Leads C (Config.Shows table size w) c (Expr.eval w.env (.name line x))
      fun d e => e = { c with rest := skip rest, stack := d.value :: c.stack } := by
  obtain ⟨i, _, hplace, hget⟩ := hl.place?_variable hc found
  have hplace' : Config.place? { c with rest := skip rest } v.slot32 = some i := hplace
  have hturn := turn_eq (C := C) hrest
  simp only [perform, hplace', hget] at hturn
  unfold Expr.eval
  cases hx : w.env x with
  | none =>
    rw [hx] at hturn
    exact .error hturn hc
  | some d =>
    rw [hx] at hturn
    cases d with
    | int n => exact .ok hturn rfl
    | text bytes => exact .ok hturn rfl

/-- An instruction on two integers first makes sure that its operands are. -/
theorem leads_withInts {α : Type} {a b : Datum} {stack : List Value} {d : Config}
    {k : Config → Int32 → Int32 → Status} {f : Int × Int → Except ErrorKind α}
    {post : α → Config → Prop} (hturn : turn C c = d.withInts k)
    (hstack : d.stack = b.value :: a.value :: stack) (hfailed : failed { d with stack })
    (hk : ∀ m n, turn C c = k { d with stack } m n →
      Leads C failed c (f (m.toInt, n.toInt)) post) :
    Leads C failed c (a.ints b >>= f) post := by
  rw [Config.withInts, hstack] at hturn
  cases a with
  | text bytes => exact .error hturn hfailed
  | int m =>
    cases b with
    | text bytes => exact .error hturn hfailed
    | int n => exact hk m n hturn

theorem leads_arith {op : Arith} {a b : Datum} {stack : List Value}
    (hrest : c.rest = .arith op :: rest) (hstack : c.stack = b.value :: a.value :: stack)
    (hfailed : failed { c with rest := skip rest, stack }) :
    Leads C failed c (op.eval a b)
      fun d e => e = { c with rest := skip rest, stack := d.value :: stack } := by
  have hperform := turn_eq (C := C) hrest
  rw [perform] at hperform
  refine leads_withInts hperform hstack hfailed fun m n hturn => ?_
  rw [op.result?_eq] at hturn
  dsimp only
  cases hresult : op.unwrapped? m.toInt n.toInt with
  | none =>
    rw [hresult] at hturn
    exact .error hturn hfailed
  | some result =>
    rw [hresult] at hturn
    exact .ok hturn rfl

/-- A branch goes to its label if the comparison turns out as it is told to
expect, and on otherwise. -/
theorem leads_branch {word : Bytes} {relation : Relation} (ifHolds : Bool) {l : Label}
    {target : List Instruction} {a b : Datum} {stack : List Value}
    (known : Relation.ofComparator? word = some relation) (hafter : after? l C = some target)
    (hrest : c.rest = .branch (if ifHolds then relation else relation.negate) l :: rest)
    (hstack : c.stack = b.value :: a.value :: stack)
    (hfailed : failed { c with rest := skip rest, stack }) :
    Leads C failed c (Comparator.eval word a b) fun holds e =>
      e = { c with rest := skip (if holds = ifHolds then target else rest), stack } := by
  have hperform := turn_eq (C := C) hrest
  rw [perform] at hperform
  refine leads_withInts hperform hstack hfailed fun m n hturn => ?_
  have hholds : (if ifHolds then relation else relation.negate).holds m n
      = (relation.holds m n == ifHolds) := by
    cases ifHolds with
    | true => simp
    | false => simp [Relation.holds_negate known]
  rw [hholds] at hturn
  simp only [Relation.holds_of_comparator known]
  by_cases hexpected : relation.holds m n = ifHolds
  · rw [if_pos (by simpa using hexpected)] at hturn
    simp only [Config.goTo, hafter] at hturn
    exact .ok hturn (by rw [if_pos hexpected])
  · rw [if_neg (by simpa using hexpected)] at hturn
    exact .ok hturn (by rw [if_neg hexpected])

theorem turn_store {kind : Kind} {slot : Int32} {i : Nat} {v : Value} {stack : List Value}
    (hrest : c.rest = .store kind slot :: rest) (hplace : c.place? slot = some i)
    (hstack : c.stack = v :: stack) :
    turn C c = .running
      { c with rest := skip rest, stack, slots := c.slots.setIfInBounds i v } := by
  have hplace' : Config.place? { c with rest := skip rest } slot = some i := hplace
  rw [turn_eq hrest]
  simp only [perform, hplace']
  simp only [hstack]

/-- A store into a variable assigns to its name. -/
theorem leads_store {x : Bytes} {v : Variable} {kind : Kind} {d : Datum} {stack : List Value}
    (hl : Layout types table ds size C) (hc : c.Shows table size w)
    (found : table.find? x = some v) (hrest : c.rest = .store kind v.slot32 :: rest)
    (hstack : c.stack = d.value :: stack) :
    Leads C failed c (.ok (w.assign x d)) fun w₁ e =>
      ∃ slots, e = { c with rest := skip rest, stack, slots } ∧
        Shows table size w₁ slots c.output := by
  obtain ⟨i, hi, hplace, _⟩ := hl.place?_variable hc found
  exact .ok (turn_store hrest hplace hstack) ⟨_, rfl, hc.assign hl.lists found hi d⟩

theorem turn_load_handle {kind : Kind} {slot : Int32} {i : Nat}
    (hrest : c.rest = .load kind slot :: rest) (hplace : c.place? slot = some i)
    (hvalue : c.slots.getD i .null = .input) :
    turn C c = .running { c with rest := skip rest, stack := .input :: c.stack } := by
  have hplace' : Config.place? { c with rest := skip rest } slot = some i := hplace
  rw [turn_eq hrest]
  simp only [perform, hplace', hvalue, Config.push]

/-- Printing a value on top of the output handle. -/
theorem leads_print {kind : Kind} {d : Datum} {stack : List Value} (hc : c.Shows table size w)
    (hrest : c.rest = .print kind :: rest) (hstack : c.stack = d.value :: .output :: stack) :
    Leads C failed c (.ok (w.print d)) fun w₁ e =>
      ∃ output, e = { c with rest := skip rest, stack, output } ∧
        Shows table size w₁ c.slots output := by
  have haccepts : ∀ length, c.output.accepts length = true := by
    simp [hc.output_eq, Output.accepts]
  refine .ok ?_ ⟨_, rfl, hc.print d⟩
  rw [turn_eq hrest]
  simp only [perform, hstack, haccepts, if_true, d.render_value]

/-- Reading with a handle on the stack. -/
theorem leads_read {α : Type} {scan : Input → Input × Except Scan.Fault α} {value : α → Value}
    {x : Except ErrorKind (Datum × Bytes)} {d : Config} {stack : List Value}
    (hturn : turn C c = d.read scan value) (hstack : d.stack = .input :: stack)
    (hagrees : Scan.Agrees value (scan d.input) x)
    (hfailed : ∀ input, failed { d with stack, input }) :
    Leads C failed c x fun r e =>
      e = { d with stack := r.1.value :: stack, input := .ofBytes r.2 } := by
  rw [Config.read, hstack] at hturn
  rcases hscan : scan d.input with ⟨input, fault | a⟩
  · simp only [hscan] at hturn hagrees
    cases x with
    | ok r => exact hagrees.elim
    | error k =>
      obtain rfl : k = .badInput := hagrees
      exact .error hturn (hfailed input)
  · simp only [hscan] at hturn hagrees
    cases x with
    | error k => exact hagrees.elim
    | ok r =>
      obtain ⟨hvalue, rfl⟩ := hagrees
      exact .ok hturn (by rw [hvalue])

theorem leads_reader {v : Variable} {unread : Bytes} {stack : List Value}
    (hrest : c.rest = v.reader :: rest) (hstack : c.stack = .input :: stack)
    (hinput : c.input = .ofBytes unread)
    (hfailed : ∀ input, failed { c with rest := skip rest, stack, input }) :
    Leads C failed c (Datum.read v.type unread) fun r e =>
      e = { c with rest := skip rest, stack := r.1.value :: stack, input := .ofBytes r.2 } := by
  have hturn := turn_eq (C := C) hrest
  unfold Variable.reader at hturn
  cases htype : v.type with
  | integer =>
    rw [htype, if_neg (by simp)] at hturn
    exact leads_read hturn hstack (hinput ▸ Scan.integer_agrees unread) hfailed
  | text =>
    rw [htype, if_pos rfl] at hturn
    exact leads_read hturn hstack (hinput ▸ Scan.line_agrees unread) hfailed

end Instructions

end Direct

/-! ## Expressions -/

section Expressions

open Direct

variable {types : Bytes → Option VarType} {table : SymbolTable} {ds : List Declaration}
  {size : Nat} {C : List Instruction} {w : World}

/-- The code of an expression leaves the value of the expression on the stack,
or fails as its evaluation does. -/
theorem Expr.Emits.leads {label label' : Nat} {e : Expr} {code : List Instruction}
    (h : e.Emits table label code label') (hl : Layout types table ds size C)
    {post : List Instruction} {c : Config} (hC : code ++ post <:+ C)
    (hrest : c.rest = skip (code ++ post)) (hc : c.Shows table size w) :
    Leads C (Config.Shows table size w) c (e.eval w.env)
      fun d e => e = { c with rest := skip post, stack := d.value :: c.stack } := by
  induction h generalizing post c with
  | number | text =>
    unfold Expr.eval
    exact .ok (turn_eq hrest) rfl
  | name found => exact leads_load _ hl hc found hrest
  | paren value ih =>
    unfold Expr.eval
    exact ih hC hrest hc
  | @binary _ _ _ _ op left right leftCode rightCode leftValue rightValue ihLeft ihRight =>
    simp only [List.append_assoc, List.cons_append, List.nil_append] at hC hrest
    unfold Expr.eval
    refine (ihLeft hC hrest hc).bind ?_
    rintro a _ rfl
    refine .bind (ihRight ((List.suffix_append _ _).trans hC) rfl hc) ?_
    rintro b _ rfl
    exact leads_arith rfl rfl hc
  | @comparison _ _ label₂ _ comparator relation left right leftCode rightCode known leftValue
      rightValue ihLeft ihRight =>
    simp only [List.append_assoc, List.cons_append, List.nil_append] at hC hrest
    unfold Expr.eval
    refine (ihLeft hC hrest hc).bind ?_
    rintro a _ rfl
    have hC := (List.suffix_append _ _).trans hC
    refine .bind (ihRight hC rfl hc) ?_
    rintro b _ rfl
    have hC := (List.suffix_append _ _).trans hC
    -- one of two pushes is reached, and both go on at the same place
    have hyes := after?_of_suffix hl.nodup ((List.suffix_append [_, _, _] _).trans hC)
    have hend := after?_of_suffix hl.nodup ((List.suffix_append [_, _, _, _, _] _).trans hC)
    refine .bind (leads_branch true known hyes rfl rfl hc) ?_
    rintro holds _ rfl
    cases holds with
    | true => exact .ok rfl rfl
    | false => exact .step rfl (.ok (turn_jump rfl hend) rfl)

/-- The instruction for an operand of a condition pushes its value. -/
theorem Expr.EmitsOperand.leads {e : Expr} {i : Instruction} (h : e.EmitsOperand table i)
    (hl : Layout types table ds size C) {rest : List Instruction} {c : Config}
    (hrest : c.rest = i :: rest) (hc : c.Shows table size w) :
    Leads C (Config.Shows table size w) c (e.eval w.env)
      fun d e => e = { c with rest := skip rest, stack := d.value :: c.stack } := by
  cases h with
  | number =>
    unfold Expr.eval
    exact .ok (turn_eq hrest) rfl
  | name found => exact leads_load _ hl hc found hrest

/-- The code of a condition goes to its label or on, as the condition holds. -/
theorem Condition.leads {condition : Condition} {relation : Relation} (ifHolds : Bool)
    {left right : Instruction} {l : Label} {target rest : List Instruction} {c : Config}
    (known : Relation.ofComparator? condition.comparator = some relation)
    (leftOperand : condition.left.EmitsOperand table left)
    (rightOperand : condition.right.EmitsOperand table right)
    (hl : Layout types table ds size C) (hafter : after? l C = some target)
    (hrest : c.rest = left :: right ::
      .branch (if ifHolds then relation else relation.negate) l :: rest)
    (hc : c.Shows table size w) :
    Leads C (Config.Shows table size w) c (condition.eval w.env)
      fun holds e => e = { c with rest := skip (if holds = ifHolds then target else rest) } := by
  unfold Condition.eval
  refine (leftOperand.leads hl hrest hc).bind ?_
  rintro a _ rfl
  refine .bind (rightOperand.leads hl (skip_cons rightOperand.isLabel _) hc) ?_
  rintro b _ rfl
  exact leads_branch ifHolds known hafter rfl rfl hc

end Expressions

end Stackling
