import Mathlib.Tactic.Common
import Stackling.Proofs.Program.Simulation
import Stackling.Proofs.SoundUnit

/-!
# Compiled programs run as their trees mean

The code of a program is executed as the tree is: a run of the machine stops
exactly when the tree has an execution, and then both have printed the same,
ended in the same way, and left the same in the variables.

* **one statement** — where its code goes on, and what has been done until then
  (`Placed.act`, `Placed.choice`, `Placed.loop`);
* **there** — the code follows an execution of the tree (`Exec.ends`);
* **back** — code that stops has an execution of the tree to follow
  (`Placed.exists_exec`). Each piece of code takes a turn at least, so what is
  left of the run gets shorter;
* **programs** — `Program.compile_correct`.
-/

namespace Stackling

open Assemble StackDepth Direct

/-! ## Statements -/

/-- Control stands before the code `rest`, in the world `w`. -/
structure Direct.Config.Stands (table : SymbolTable) (size : Nat) (w : World)
    (rest : List Instruction) (c : Config) : Prop where
  rest_eq : c.rest = skip rest
  stack_eq : c.stack = []
  input_eq : c.input = .ofBytes w.unread
  shows : c.Shows table size w

/-- The code of statements, placed before `post` in the whole code `C`. Its
handles lie between the variables and the end of the slots. -/
def Placed (table : SymbolTable) (ds : List Declaration) (size : Nat) (C : List Instruction)
    (stmts : List Stmt) (code post : List Instruction) : Prop :=
  ∃ supply supply', Stmt.Emits table supply stmts code supply' ∧ ds.length ≤ supply.slot ∧
    supply'.slot ≤ size ∧ code ++ post <:+ C

section Statements

variable {types : Bytes → Option VarType} {table : SymbolTable} {ds : List Declaration}
  {size : Nat} {C code post : List Instruction} {w : World} {c : Config} {rest : List Stmt}

/-- The turns of a `READ`: open a handle, keep it in a slot, fetch it, read, and
store what was read. -/
theorem leads_read_statement (hl : Layout types table ds size C) {x : Bytes} {v : Variable}
    (found : table.find? x = some v) {n : Nat} (hlow : ds.length ≤ n) (hhigh : n < size)
    {more : List Instruction}
    (hc : c.Stands table size w (.openInput :: .store .ref (.ofNat n) :: .load .ref (.ofNat n)
      :: v.reader :: v.store :: more)) :
    Leads C (Config.Shows table size w) c
      (do let (d, unread) ← Datum.read v.type w.unread; .ok ({ w with unread }.assign x d))
      fun w₁ d => d.Stands table size w₁ more := by
  have hslots : c.slots.size = size := hc.shows.size_slots
  have hsize := hl.size_le
  have hkept := hc.shows.handle hl.lists hlow .input
  have hplace : Config.place? c (.ofNat n) = some n := Config.place?_ofNat (by omega) (by omega)
  refine .step (turn_eq hc.rest_eq) (.step (turn_store rfl hplace rfl) ?_)
  have hplace : Config.place? { c with slots := c.slots.setIfInBounds n .input } (.ofNat n)
      = some n := Config.place?_ofNat (by simp; omega) (by simp; omega)
  have hvalue : (c.slots.setIfInBounds n .input).getD n .null = .input := by
    simp [Array.getD_eq_getD_getElem?, hslots, hhigh]
  refine .step (turn_load_handle rfl hplace hvalue) ?_
  refine .bind (leads_reader (skip_cons v.isLabel_reader _) rfl hc.input_eq fun _ => hkept) ?_
  rintro ⟨d, unread⟩ _ rfl
  refine .mono (leads_store hl (hkept.unread unread) found rfl rfl) ?_
  rintro _ _ ⟨⟩ ⟨slots, rfl, hshows⟩
  exact ⟨rfl, hc.stack_eq, rfl, hshows⟩

/-- A statement without statements in it: its code does what it means, and goes
on with the code of those that follow. -/
theorem Placed.act (hl : Layout types table ds size C) {s : Stmt}
    (hp : Placed table ds size C (s :: rest) code post)
    (hc : c.Stands table size w (code ++ post)) {x : Except ErrorKind World}
    (hx : s.act? types w = some x) :
    ∃ more, Placed table ds size C rest more post ∧
      Leads C (Config.Shows table size w) c x
        fun w₁ d => d.Stands table size w₁ (more ++ post) := by
  obtain ⟨supply, supply', emits, hlow, hhigh, hC⟩ := hp
  have hrest := hc.rest_eq
  cases emits with
  | @set _ _ _ x e v _ valueCode more _ _ found value next
  | @inc _ _ _ x e v _ valueCode more _ _ found value next =>
    simp only [List.append_assoc, List.cons_append] at hC hrest
    have hmore := (List.suffix_append (valueCode ++ [_]) (more ++ post)).trans (by simpa using hC)
    obtain rfl := Option.some.inj hx
    refine ⟨more, ⟨_, _, next, hlow, hhigh, hmore⟩, .bind (value.leads hl hC hrest hc.shows) ?_⟩
    rintro d _ rfl
    refine .mono (leads_store hl hc.shows found rfl rfl) ?_
    rintro _ _ ⟨⟩ ⟨slots, rfl, hshows⟩
    exact ⟨rfl, hc.stack_eq, hc.input_eq, hshows⟩
  | @printName _ _ _ _ x v more _ found next =>
    have hmore := (List.suffix_append [_, _, _] (more ++ post)).trans hC
    obtain rfl := Option.some.inj hx
    refine ⟨more, ⟨_, _, next, hlow, hhigh, hmore⟩, .step (turn_eq hrest) ?_⟩
    refine .bind (leads_load _ hl hc.shows found rfl) ?_
    rintro d _ rfl
    refine .mono (leads_print hc.shows rfl rfl) ?_
    rintro _ _ ⟨⟩ ⟨output, rfl, hshows⟩
    exact ⟨rfl, hc.stack_eq, hc.input_eq, hshows⟩
  | @printText _ _ _ _ raw more _ next =>
    have hmore := (List.suffix_append [_, _, _] (more ++ post)).trans hC
    obtain rfl := Option.some.inj hx
    refine ⟨more, ⟨_, _, next, hlow, hhigh, hmore⟩, .step (turn_eq hrest) (.step rfl ?_)⟩
    refine .mono (leads_print hc.shows rfl rfl) ?_
    rintro _ _ ⟨⟩ ⟨output, rfl, hshows⟩
    exact ⟨rfl, hc.stack_eq, hc.input_eq, hshows⟩
  | @read _ _ _ x v more _ found next =>
    have hmore := (List.suffix_append [_, _, _, _, _] (more ++ post)).trans hC
    have hslot : supply.slot + 1 ≤ supply'.slot := next.supply_le.2
    simp only [Stmt.act?, hl.types found, Option.some.injEq] at hx
    subst hx
    exact ⟨more, ⟨_, _, next, Nat.le_succ_of_le hlow, hhigh, hmore⟩,
      leads_read_statement hl found hlow (by omega) hc⟩
  | choice | loop => simp [Stmt.act?] at hx

/-- A choice: its condition leads to one of the parts, and from the end of
either part control comes to the statements that follow. -/
theorem Placed.choice (hl : Layout types table ds size C) {line : Int} {condition : Condition}
    {yes no : List Stmt}
    (hp : Placed table ds size C (.choice line condition yes no :: rest) code post)
    (hc : c.Stands table size w (code ++ post)) :
    ∃ (part after : Bool → List Instruction) (more : List Instruction),
      (∀ b, Placed table ds size C (if b then yes else no) (part b) (after b)) ∧
      Placed table ds size C rest more post ∧
      Leads C (Config.Shows table size w) c (condition.eval w.env)
        (fun b d => d.Stands table size w (part b ++ after b)) ∧
      ∀ b w' d, d.Stands table size w' (after b) →
        ∃ n e, advance C n (.running d) = .running e ∧ e.Stands table size w' (more ++ post) := by
  obtain ⟨supply, supply', emits, hlow, hhigh, hC⟩ := hp
  have hrest := hc.rest_eq
  cases emits with
  | @choice _ supply₁ supply₂ _ _ _ _ _ _ relation left right yesCode noCode more known
      leftOperand rightOperand noPart yesPart next =>
    simp only [List.append_assoc, List.cons_append] at hC hrest
    -- where the parts stand in the code: the second comes first and jumps over the other
    have hno := (List.suffix_append [_, _, _] _).trans hC
    have hjoin := (List.suffix_append noCode _).trans hno
    have hyes := (List.suffix_append [_, _] _).trans hjoin
    have hend := (List.suffix_append yesCode _).trans hyes
    have hmore := (List.suffix_append [_] _).trans hend
    have hlow₁ : ds.length ≤ supply₁.slot := hlow.trans noPart.supply_le.2
    have hlow₂ : ds.length ≤ supply₂.slot := hlow₁.trans yesPart.supply_le.2
    have hhigh₂ : supply₂.slot ≤ size := next.supply_le.2.trans hhigh
    have hhigh₁ : supply₁.slot ≤ size := yesPart.supply_le.2.trans hhigh₂
    refine ⟨fun b => if b then yesCode else noCode,
      fun b => if b then .label (.choiceEnd supply.label) :: (more ++ post) else
        .jump (.choiceEnd supply.label) :: .label (.choiceThen supply.label)
          :: (yesCode ++ .label (.choiceEnd supply.label) :: (more ++ post)),
      more, ?_, ⟨_, _, next, hlow₂, hhigh, hmore⟩, ?_, ?_⟩
    · intro b
      cases b with
      | true => exact ⟨_, _, yesPart, hlow₁, hhigh₂, hyes⟩
      | false => exact ⟨_, _, noPart, hlow, hhigh₁, hno⟩
    · have hthen := after?_of_suffix hl.nodup ((List.suffix_append [_] _).trans hjoin)
      rw [skip_cons leftOperand.isLabel] at hrest
      refine .mono (condition.leads true known leftOperand rightOperand hl hthen hrest hc.shows) ?_
      rintro b _ _ rfl
      refine ⟨?_, hc.stack_eq, hc.input_eq, hc.shows⟩
      cases b <;> rfl
    · intro b w' d hd
      -- only a label stands between the end of the first part and what follows
      cases b with
      | true => exact ⟨0, d, rfl, hd.rest_eq, hd.stack_eq, hd.input_eq, hd.shows⟩
      | false =>
        have hturn := turn_jump hd.rest_eq (after?_of_suffix hl.nodup hend)
        exact ⟨1, _, hturn, rfl, hd.stack_eq, hd.input_eq, hd.shows⟩

/-- A loop: its condition leads to the body or to the statements that follow,
and from the end of the body control comes back to the loop. -/
theorem Placed.loop (hl : Layout types table ds size C) {line : Int} {condition : Condition}
    {body : List Stmt} (hp : Placed table ds size C (.loop line condition body :: rest) code post)
    (hc : c.Stands table size w (code ++ post)) :
    ∃ bodyCode again more : List Instruction,
      Placed table ds size C body bodyCode again ∧ Placed table ds size C rest more post ∧
      Leads C (Config.Shows table size w) c (condition.eval w.env)
        (fun b d => d.Stands table size w (if b then bodyCode ++ again else more ++ post)) ∧
      ∀ w' d, d.Stands table size w' again →
        ∃ n e, advance C n (.running d) = .running e ∧ e.Stands table size w' (code ++ post) := by
  obtain ⟨supply, supply', emits, hlow, hhigh, hC⟩ := hp
  have hrest := hc.rest_eq
  cases emits with
  | @loop _ supply₁ _ _ _ _ _ relation left right bodyCode more known leftOperand rightOperand
      bodyPart next =>
    simp only [List.append_assoc, List.cons_append, skip_label] at hC hrest
    have hbody := (List.suffix_append [_, _, _, _] _).trans hC
    have hagain := (List.suffix_append bodyCode _).trans hbody
    have hexit := (List.suffix_append [_] _).trans hagain
    have hmore := (List.suffix_append [_] _).trans hexit
    have hlow₁ : ds.length ≤ supply₁.slot := hlow.trans bodyPart.supply_le.2
    have hhigh₁ : supply₁.slot ≤ size := next.supply_le.2.trans hhigh
    refine ⟨bodyCode, .jump (.loopBegin supply.label) :: .label (.loopExit supply.label)
      :: (more ++ post), more, ⟨_, _, bodyPart, hlow, hhigh₁, hbody⟩,
      ⟨_, _, next, hlow₁, hhigh, hmore⟩, ?_, ?_⟩
    · -- the branch leaves the loop, so it is taken when the condition does not hold
      rw [skip_cons leftOperand.isLabel] at hrest
      refine .mono (condition.leads false known leftOperand rightOperand hl
        (after?_of_suffix hl.nodup hexit) hrest hc.shows) ?_
      rintro b _ _ rfl
      refine ⟨?_, hc.stack_eq, hc.input_eq, hc.shows⟩
      cases b <;> rfl
    · intro w' d hd
      have hturn := turn_jump hd.rest_eq (after?_of_suffix hl.nodup hC)
      refine ⟨1, _, hturn, ?_, hd.stack_eq, hd.input_eq, hd.shows⟩
      simp

end Statements

/-! ## There -/

/-- What an execution from `c` comes to: the code `post` in the world `w'`, or an
error there. -/
def Direct.Config.Ends (table : SymbolTable) (size : Nat) (C post : List Instruction)
    (w' : World) (c : Config) : Option ErrorKind → Prop
  | none => ∃ n d, advance C n (.running c) = .running d ∧ d.Stands table size w' post
  | some k => ∃ n d, advance C n (.running c) = .stopped (some k) d ∧ d.Shows table size w'

section Execution

variable {types : Bytes → Option VarType} {table : SymbolTable} {ds : List Declaration}
  {size : Nat} {C code post : List Instruction} {w w' : World} {c d : Config}
  {stmts : List Stmt} {r : Option ErrorKind}

theorem Direct.Config.Ends.after {n : Nat} (h : advance C n (.running c) = .running d)
    (hd : d.Ends table size C post w' r) : c.Ends table size C post w' r := by
  cases r with
  | none =>
    obtain ⟨m, e, hrun, he⟩ := hd
    exact ⟨n + m, e, by rw [advance_add, h, hrun], he⟩
  | some k =>
    obtain ⟨m, e, hrun, he⟩ := hd
    exact ⟨n + m, e, by rw [advance_add, h, hrun], he⟩

/-- The code of statements follows their execution. -/
theorem Exec.ends (hl : Layout types table ds size C) (h : Exec types w stmts w' r)
    (hp : Placed table ds size C stmts code post) (hc : c.Stands table size w (code ++ post)) :
    c.Ends table size C post w' r := by
  induction h generalizing code post c with
  | nil =>
    obtain ⟨_, _, emits, _⟩ := hp
    cases emits
    exact ⟨0, c, rfl, hc⟩
  | act effect _ ih =>
    obtain ⟨more, hnext, _, d, _, hrun, hd⟩ := hp.act hl hc effect
    exact .after hrun (ih hnext hd)
  | actFails effect =>
    obtain ⟨_, _, hfails⟩ := hp.act hl hc effect
    exact hfails
  | @choice _ _ _ _ _ _ _ _ b _ test _ _ ihPart ih =>
    obtain ⟨part, after, more, hpart, hnext, hleads, hjoin⟩ := hp.choice hl hc
    rw [test] at hleads
    obtain ⟨_, d, _, hrun, hd⟩ := hleads
    obtain ⟨_, e, hrun', he⟩ := ihPart (hpart b) hd
    obtain ⟨_, e', hrun'', he'⟩ := hjoin b _ e he
    exact .after hrun (.after hrun' (.after hrun'' (ih hnext he')))
  | @partFails _ _ _ _ _ _ _ b _ test _ ihPart =>
    obtain ⟨part, after, more, hpart, hnext, hleads, hjoin⟩ := hp.choice hl hc
    rw [test] at hleads
    obtain ⟨_, d, _, hrun, hd⟩ := hleads
    obtain ⟨n, e, hfails, he⟩ := ihPart (hpart b) hd
    exact .after hrun ⟨n, e, hfails, he⟩
  | choiceFails test =>
    obtain ⟨_, _, _, _, _, hleads, _⟩ := hp.choice hl hc
    rw [test] at hleads
    exact hleads
  | loopEnds test _ ih =>
    obtain ⟨_, _, more, _, hnext, hleads, _⟩ := hp.loop hl hc
    rw [test] at hleads
    obtain ⟨_, d, _, hrun, hd⟩ := hleads
    exact .after hrun (ih hnext hd)
  | loopAgain test _ _ ihPart ih =>
    obtain ⟨bodyCode, again, more, hbody, _, hleads, hback⟩ := hp.loop hl hc
    rw [test] at hleads
    obtain ⟨_, d, _, hrun, hd⟩ := hleads
    obtain ⟨_, e, hrun', he⟩ := ihPart hbody hd
    obtain ⟨_, e', hrun'', he'⟩ := hback _ e he
    exact .after hrun (.after hrun' (.after hrun'' (ih hp he')))
  | bodyFails test _ ihPart =>
    obtain ⟨bodyCode, again, more, hbody, _, hleads, _⟩ := hp.loop hl hc
    rw [test] at hleads
    obtain ⟨_, d, _, hrun, hd⟩ := hleads
    obtain ⟨n, e, hfails, he⟩ := ihPart hbody hd
    exact .after hrun ⟨n, e, hfails, he⟩
  | loopFails test =>
    obtain ⟨_, _, _, _, _, hleads, _⟩ := hp.loop hl hc
    rw [test] at hleads
    exact hleads

/-! ## Back -/

/-- What is left of an execution that stops, after some turns of it. -/
theorem stopped_sub {m n : Nat} {kind? : Option ErrorKind} {e : Config}
    (h : advance C n (.running c) = .stopped kind? e)
    (hrun : advance C m (.running c) = .running d) :
    m < n ∧ advance C (n - m) (.running d) = .stopped kind? e := by
  -- what has stopped does not run again
  have hlt : m < n := by
    by_contra hle
    obtain ⟨k, rfl⟩ := Nat.exists_eq_add_of_le (Nat.not_lt.mp hle)
    rw [advance_add, h, advance_stopped] at hrun
    simp at hrun
  refine ⟨hlt, ?_⟩
  obtain ⟨k, rfl⟩ := Nat.exists_eq_add_of_lt hlt
  rw [Nat.add_assoc, advance_add, hrun] at h
  rw [show m + k + 1 - m = k + 1 by omega, h]

/-- Statements whose code stops have an execution. The induction is on the number
of turns: each piece of the code takes some, so those that are left are fewer. -/
theorem Placed.exists_exec (hl : Layout types table ds size C) {n : Nat}
    {kind? : Option ErrorKind} {e : Config} (hp : Placed table ds size C stmts code post)
    (hc : c.Stands table size w (code ++ post))
    (hstop : advance C n (.running c) = .stopped kind? e) :
    ∃ w' r, Exec types w stmts w' r := by
  induction n using Nat.strongRecOn generalizing stmts code post w c with
  | ind n ih =>
  cases stmts with
  | nil => exact ⟨w, none, .nil⟩
  | cons s rest =>
    cases hs : s.act? types w with
    | some x =>
      obtain ⟨more, hnext, hleads⟩ := hp.act hl hc hs
      cases x with
      | error k => exact ⟨w, some k, .actFails hs⟩
      | ok w₁ =>
        obtain ⟨m, d, hpos, hrun, hd⟩ := hleads
        obtain ⟨hlt, hstop⟩ := stopped_sub hstop hrun
        obtain ⟨w', r, hexec⟩ := ih (n - m) (by omega) hnext hd hstop
        exact ⟨w', r, .act hs hexec⟩
    | none =>
      cases s with
      | choice line condition yes no =>
        obtain ⟨part, after, more, hpart, hnext, hleads, hjoin⟩ := hp.choice hl hc
        cases htest : condition.eval w.env with
        | error k => exact ⟨w, some k, .choiceFails htest⟩
        | ok b =>
          rw [htest] at hleads
          obtain ⟨m, d, hpos, hrun, hd⟩ := hleads
          obtain ⟨hlt, hstop⟩ := stopped_sub hstop hrun
          obtain ⟨w₁, _ | k, hexec⟩ := ih (n - m) (by omega) (hpart b) hd hstop
          · -- the part comes to its end, and what follows has fewer turns left
            obtain ⟨m₁, d₁, hrun₁, hd₁⟩ := hexec.ends hl (hpart b) hd
            obtain ⟨_, hstop⟩ := stopped_sub hstop hrun₁
            obtain ⟨m₂, d₂, hrun₂, hd₂⟩ := hjoin b w₁ d₁ hd₁
            obtain ⟨_, hstop⟩ := stopped_sub hstop hrun₂
            obtain ⟨w', r, hrest⟩ := ih _ (by omega) hnext hd₂ hstop
            exact ⟨w', r, .choice htest hexec hrest⟩
          · exact ⟨w₁, some k, .partFails htest hexec⟩
      | loop line condition body =>
        obtain ⟨bodyCode, again, more, hbody, hnext, hleads, hback⟩ := hp.loop hl hc
        cases htest : condition.eval w.env with
        | error k => exact ⟨w, some k, .loopFails htest⟩
        | ok b =>
          rw [htest] at hleads
          obtain ⟨m, d, hpos, hrun, hd⟩ := hleads
          obtain ⟨hlt, hstop⟩ := stopped_sub hstop hrun
          cases b with
          | false =>
            obtain ⟨w', r, hrest⟩ := ih (n - m) (by omega) hnext hd hstop
            exact ⟨w', r, .loopEnds htest hrest⟩
          | true =>
            obtain ⟨w₁, _ | k, hexec⟩ := ih (n - m) (by omega) hbody hd hstop
            · -- the body comes back to the loop, which has fewer turns left
              obtain ⟨m₁, d₁, hrun₁, hd₁⟩ := hexec.ends hl hbody hd
              obtain ⟨_, hstop⟩ := stopped_sub hstop hrun₁
              obtain ⟨m₂, d₂, hrun₂, hd₂⟩ := hback w₁ d₁ hd₁
              obtain ⟨_, hstop⟩ := stopped_sub hstop hrun₂
              obtain ⟨w', r, hrest⟩ := ih _ (by omega) hp hd₂ hstop
              exact ⟨w', r, .loopAgain htest hexec hrest⟩
            · exact ⟨w₁, some k, .bodyFails htest hexec⟩
      | set | inc | print | missing => simp [Stmt.act?] at hs
      | read line x => cases hx : types x <;> simp [Stmt.act?, hx] at hs

end Execution

/-! ## Programs -/

/-- Statements before a return: their execution and that of the code end in the
same way. -/
theorem Exec.stops {types : Bytes → Option VarType} {table : SymbolTable}
    {ds : List Declaration} {size : Nat} {C code : List Instruction} {w w' : World} {c : Config}
    {stmts : List Stmt} {r : Option ErrorKind} (hl : Layout types table ds size C)
    (h : Exec types w stmts w' r) (hp : Placed table ds size C stmts code [.ret])
    (hc : c.Stands table size w (code ++ [.ret])) :
    ∃ n d, advance C n (.running c) = .stopped r d ∧ d.Shows table size w' ∧
      (r = none → d.input = .ofBytes w'.unread) := by
  cases r with
  | none =>
    obtain ⟨n, d, hrun, hd⟩ := h.ends hl hp hc
    refine ⟨n + 1, { d with rest := [] }, ?_, hd.shows, fun _ => hd.input_eq⟩
    rw [advance_add, hrun, advance_succ, turn_eq hd.rest_eq]
    rfl
  | some k =>
    obtain ⟨n, d, hrun, hd⟩ := h.ends hl hp hc
    exact ⟨n, d, hrun, hd, by simp⟩

theorem stopped_unique {C : List Instruction} {status : Direct.Status} {m n : Nat}
    {kind? kind?' : Option ErrorKind} {d e : Config}
    (hm : advance C m status = .stopped kind? d) (hn : advance C n status = .stopped kind?' e) :
    kind? = kind?' ∧ d = e := by
  have hboth := advance_add C m n status
  rw [hm, advance_stopped, Nat.add_comm, advance_add, hn, advance_stopped] at hboth
  simpa [eq_comm] using hboth

/-- A run of assembled code and the direct execution of the code stop together. -/
theorem Direct.Lockstep.stopped_iff {code : List Instruction} {depths : Array (Option Nat)}
    {here : Direct.Status} {there : Stackling.Status} (h : Lockstep code depths here there) :
    (∃ kind? c, here = .stopped kind? c) ↔ ∃ outcome s, there = .stopped outcome s := by
  obtain ⟨steps, h⟩ := h
  cases here with
  | running c =>
    cases there with
    | running s => simp
    | stopped outcome s => exact h.elim
  | stopped kind? c =>
    cases there with
    | running s => exact h.elim
    | stopped outcome s => simp

/-- A compiled program that was assembled starts before the code of its body,
with nothing in its variables, and executes that code directly. -/
theorem Program.compile_lockstep {p : Program} {c : Compiled} {m : Module}
    (hcompile : p.compile = .ok c) (hm : c.unit.assemble = .ok m)
    (hcount : c.unit.instructionCount < 2 ^ 31) (hslots : c.slots < 2 ^ 31) (bytes : Bytes) :
    ∃ f s size C code depths d, Machine.begin m { input := .ofBytes bytes } = .ok (f, s) ∧
      Layout p.typeOf? c.symbols p.declarations size C ∧
      Placed c.symbols p.declarations size C p.body code [.ret] ∧
      d.Stands c.symbols size { unread := bytes } (code ++ [.ret]) ∧
      ∀ n, Lockstep C depths (advance C n (.running d))
        (Machine.advance m f {} n (.running s)) := by
  obtain ⟨hlists, code, supply, hemits, hsupply, hunit⟩ := compile_spec hcompile
  obtain ⟨_, hconstants, _⟩ := AsmUnit.assemble_spec hm
  obtain ⟨r, hr, f, hentry, _, hasm⟩ := AsmUnit.assemble_entry hm
  have hsound := compile_sound hcompile (Nat.le_of_lt hslots) r hr
  have hspan : span r.code < 2 ^ 31 :=
    Nat.lt_of_le_of_lt (AsmUnit.span_le_instructionCount hr) hcount
  obtain rfl : r = .main supply.slot code := by simpa [hunit] using hr
  obtain ⟨n, hdepth, hmax⟩ := hasm.depth
  obtain ⟨depths, hexplore⟩ := compute_eq_ok_iff.mp hdepth
  obtain ⟨hconsistent, _, _⟩ := explore_ok hexplore
  have hlow : p.declarations.length ≤ supply.slot := hemits.supply_le.2
  -- the frame has the slots of the routine, and no more than can be numbered
  have hsize : (supply.slot : Int) ≤ f.maxLocals ∧ f.maxLocals ≤ 2 ^ 31 := by
    have hlocals := locals_le_slots (.main supply.slot code)
    have hle := slots_le (.main supply.slot code)
    rw [← hasm.maxLocals] at hlocals hle
    simp only [Routine.main] at hlocals hle
    omega
  have hbegin := hasm.begin_eq_ok hentry hsound hspan { input := .ofBytes bytes }
  refine ⟨f, _, f.maxLocals.toNat, (Routine.main supply.slot code).code, code, depths,
    { rest := skip (code ++ [.ret]), slots := Array.replicate f.maxLocals.toNat .null,
      input := .ofBytes bytes, output := {} },
    hbegin, ⟨hlists, hlists.type_eq, by omega, hemits.main_nodup supply.slot⟩,
    ⟨_, _, hemits, Nat.le_refl _, by omega, List.suffix_refl _⟩,
    ⟨rfl, rfl, rfl, by simp, fun {x v} found => ?_, rfl⟩, fun n => ?_⟩
  · obtain ⟨_, i, hi, hslot, _⟩ := hlists.slot_of_find? found
    refine ⟨i, hslot, ?_⟩
    rw [Array.getElem?_replicate, if_pos (by omega)]
    rfl
  · refine advance_lockstep hasm.toResolved hconsistent hmax hspan (by omega) n ?_
    exact ⟨0, 0, .of_split [] rfl rfl hconsistent.start, rfl⟩

/-- **Compiled programs run as their trees mean.** A program with its code, which
was assembled: whatever the input, the run can start, and it stops if and only
if the tree has an execution. Then both have ended in the same way and printed
the same, the slot of each declared name holds the value of the name, and the
same input is unread unless there was an error. -/
theorem Program.compile_correct {p : Program} {c : Compiled} {m : Module}
    (hcompile : p.compile = .ok c) (hm : c.unit.assemble = .ok m)
    (hcount : c.unit.instructionCount < 2 ^ 31) (hslots : c.slots < 2 ^ 31) (bytes : Bytes) :
    ∃ f s, Machine.begin m { input := .ofBytes bytes } = .ok (f, s) ∧
      ((∃ n outcome t, Machine.advance m f {} n (.running s) = .stopped outcome t) ↔
        ∃ w r, p.Runs bytes w r) ∧
      ∀ n outcome t w r, Machine.advance m f {} n (.running s) = .stopped outcome t →
        p.Runs bytes w r →
        outcome.kind? = r ∧ t.output.bytes = w.printed ∧
        (∀ (i : Nat) d, p.declarations[i]? = some d →
          ∃ v, c.symbols.find? d.name = some v ∧ v.slot = i ∧
            t.slots[i]? = some (.ofDatum? (w.env d.name))) ∧
        (r = none → t.input = .ofBytes w.unread) := by
  obtain ⟨f, s, size, C, code, depths, d, hbegin, hlayout, hplaced, hstands, hlock⟩ :=
    compile_lockstep hcompile hm hcount hslots bytes
  refine ⟨f, s, hbegin, ⟨?_, ?_⟩, ?_⟩
  · rintro ⟨n, outcome, t, hstop⟩
    obtain ⟨kind?, e, hhere⟩ := (hlock n).stopped_iff.mpr ⟨outcome, t, hstop⟩
    exact hplaced.exists_exec hlayout hstands hhere
  · rintro ⟨w, r, hruns⟩
    obtain ⟨n, e, hhere, _⟩ := Exec.stops hlayout hruns hplaced hstands
    exact ⟨n, (hlock n).stopped_iff.mp ⟨r, e, hhere⟩⟩
  · -- the run stops where the direct execution does, and that is where the tree's ends
    intro n outcome t w r hstop hruns
    obtain ⟨n', e, hhere, hshows, hinput⟩ := Exec.stops hlayout hruns hplaced hstands
    obtain ⟨steps, hagree⟩ := hlock n
    rw [hstop] at hagree
    cases hdirect : advance C n (.running d) with
    | running e' =>
      rw [hdirect] at hagree
      exact hagree.elim
    | stopped kind? e' =>
      obtain ⟨rfl, rfl⟩ := stopped_unique hdirect hhere
      rw [hdirect] at hagree
      obtain ⟨hkind, pc, rfl⟩ := hagree
      refine ⟨hkind, ?_, fun i decl hdecl => ?_, hinput⟩
      · simp [Config.machine, hshows.output_eq, Output.bytes]
      · obtain ⟨v, found, hslot⟩ := hlayout.lists.find?_name hdecl
        obtain ⟨j, hj, hvalue⟩ := hshows.value found
        obtain rfl : j = i := by omega
        exact ⟨v, found, hslot, hvalue⟩

/-- Counting down from two. -/
theorem Program.countdown_runs :
    ∃ w, countdown.Runs (ascii "2") w none ∧ w.printed = ascii "2\n1\ndone\n" :=
  ⟨_, .act rfl (.loopAgain rfl (.act rfl (.act rfl .nil))
    (.loopAgain rfl (.act rfl (.act rfl .nil)) (.loopEnds rfl (.act rfl .nil)))), rfl⟩

theorem Program.compile_correct_countdown : ∃ c m f s n outcome t,
    countdown.compile = .ok c ∧ c.unit.assemble = .ok m ∧ c.unit.instructionCount < 2 ^ 31 ∧
      c.slots < 2 ^ 31 ∧ Machine.begin m { input := .ofBytes (ascii "2") } = .ok (f, s) ∧
      Machine.advance m f {} n (.running s) = .stopped outcome t ∧ outcome.kind? = none ∧
      t.output.bytes = ascii "2\n1\ndone\n" := by
  obtain ⟨c, m, hc, hslots, hcount, hm⟩ := countdown_assembles
  obtain ⟨w, hruns, hprinted⟩ := countdown_runs
  obtain ⟨f, s, hbegin, hiff, hagree⟩ := Program.compile_correct hc hm hcount hslots (ascii "2")
  obtain ⟨n, outcome, t, hstop⟩ := hiff.mpr ⟨w, none, hruns⟩
  obtain ⟨hkind, hout, _⟩ := hagree n outcome t w none hstop hruns
  exact ⟨c, m, f, s, n, outcome, t, hc, hm, hcount, hslots, hbegin, hstop, hkind,
    hout.trans hprinted⟩

end Stackling
