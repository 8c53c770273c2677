import Mathlib.Data.Fintype.Card
import Mathlib.Tactic.Common
import Stackling.Module.StackDepth

/-!
# Stack depth as a statement about control paths

`Path code pc depth` says that control can come to address `pc` with `depth`
operands on the stack. The search for the greatest depth is compared with it:

* **records** — `explore` is the search together with the depths it has written
  down, and gives the same answer (`run_eq_explore`);
* **accepted code** — the recorded depths are `Consistent` with the code, and
  they are exactly the depths of paths (`explore_ok`,
  `Consistent.depth_of_path`);
* **refused code** — each error comes with a path that goes wrong
  (`explore_error`);
* **size** — no stack is deeper than the code is long (`Attained.le_size`);
* **certificates** — code for which consistent depths are known from elsewhere
  is accepted (`explore_of_consistent`, `compute_eq_of_attained`).
-/

namespace Stackling.StackDepth

/-! ## Paths -/

/-- The depth after an instruction that is executed with the given depth. -/
def after (c : Code) (depth : Nat) : Nat :=
  depth - Opcode.popsOf c.op + Opcode.pushesOf c.op

/-- Control can come to `pc`, which may lie outside the code, with `depth`
operands on the stack. -/
inductive Path (code : Array Code) : Int → Nat → Prop
  | start : Path code 0 0
  | step {pc depth : Nat} {c : Code} {target : Int} (before : Path code pc depth)
      (here : code[pc]? = some c) (enough : Opcode.popsOf c.op ≤ depth)
      (next : target ∈ successors c pc) : Path code target (after c depth)

/-- Why a search fails, said of paths. -/
def Error.Holds (code : Array Code) : Error → Prop
  | .empty => code.size = 0
  | .underflow pc =>
      ∃ depth c, Path code pc depth ∧ code[pc]? = some c ∧ depth < Opcode.popsOf c.op
  | .leaves pc =>
      ∃ depth c target, Path code pc depth ∧ code[pc]? = some c ∧ Opcode.popsOf c.op ≤ depth ∧
        target ∈ successors c pc ∧ ¬ (0 ≤ target ∧ target < code.size)
  | .mismatch pc depth other => Path code pc depth ∧ Path code pc other ∧ depth ≠ other

/-- The instruction at `pc` can be executed with `depth` operands, leaves at most
`deepest`, and leads only to addresses whose depth is the one it leaves. -/
def Agrees (code : Array Code) (depthAt : Nat → Option Nat) (deepest pc depth : Nat) : Prop :=
  ∃ c, code[pc]? = some c ∧ Opcode.popsOf c.op ≤ depth ∧ after c depth ≤ deepest ∧
    ∀ target ∈ successors c pc, ∃ next : Nat, target = next ∧ depthAt next = some (after c depth)

/-- Depths that fit the code: control starts with an empty stack, and every
address that has a depth agrees with it. -/
structure Consistent (code : Array Code) (depthAt : Nat → Option Nat) (deepest : Nat) : Prop where
  start : depthAt 0 = some 0
  agrees : ∀ pc depth, depthAt pc = some depth → Agrees code depthAt deepest pc depth

/-- Depth `deepest` is zero, or is left by an instruction that control can reach. -/
def Attained (code : Array Code) (deepest : Nat) : Prop :=
  deepest = 0 ∨ ∃ (pc depth : Nat) (c : Code),
    Path code pc depth ∧ code[pc]? = some c ∧ after c depth = deepest

/-- Consistent depths are the only ones that control can arrive with. -/
theorem Consistent.depth_of_path {code : Array Code} {depthAt : Nat → Option Nat}
    {deepest : Nat} (h : Consistent code depthAt deepest) {pc : Int} {depth : Nat}
    (hpath : Path code pc depth) : ∃ a : Nat, pc = a ∧ depthAt a = some depth := by
  induction hpath with
  | start => exact ⟨0, rfl, h.start⟩
  | step _ here _ next ih =>
    rename_i pc depth c target _ _
    obtain ⟨a, ha, hdepth⟩ := ih
    obtain rfl : pc = a := by omega
    obtain ⟨c', hc', _, _, hnext⟩ := h.agrees pc depth hdepth
    obtain rfl : c = c' := Option.some.inj (here.symm.trans hc')
    exact hnext target next

/-- The instruction that a path comes to finds its operands, and leaves no more
than the greatest depth. -/
theorem Consistent.after_le_of_path {code : Array Code} {depthAt : Nat → Option Nat}
    {deepest : Nat} (h : Consistent code depthAt deepest) {pc depth : Nat} {c : Code}
    (hpath : Path code pc depth) (hc : code[pc]? = some c) :
    Opcode.popsOf c.op ≤ depth ∧ after c depth ≤ deepest := by
  obtain ⟨a, ha, hdepth⟩ := h.depth_of_path hpath
  obtain rfl : pc = a := by omega
  obtain ⟨c', hc', enough, hle, _⟩ := h.agrees pc depth hdepth
  obtain rfl : c = c' := Option.some.inj (hc.symm.trans hc')
  exact ⟨enough, hle⟩

/-- The depth of a path is never greater than the greatest depth. -/
theorem Consistent.le_of_path {code : Array Code} {depthAt : Nat → Option Nat}
    {deepest : Nat} (h : Consistent code depthAt deepest) {pc : Int} {depth : Nat}
    (hpath : Path code pc depth) : depth ≤ deepest := by
  cases hpath with
  | start => exact Nat.zero_le _
  | step before here _ _ => exact (h.after_le_of_path before here).2

/-- Code with consistent depths has no path that goes wrong. -/
theorem Consistent.not_holds {code : Array Code} {depthAt : Nat → Option Nat} {deepest : Nat}
    (h : Consistent code depthAt deepest) (e : Error) : ¬ e.Holds code := by
  intro he
  cases e with
  | empty =>
    obtain ⟨c, hc, _⟩ := h.agrees 0 0 h.start
    have hlt := (Array.getElem?_eq_some_iff.mp hc).1
    have hsize : code.size = 0 := he
    omega
  | underflow pc =>
    obtain ⟨depth, c, hpath, hc, hlt⟩ := he
    exact absurd (h.after_le_of_path hpath hc).1 (Nat.not_le.mpr hlt)
  | leaves pc =>
    obtain ⟨depth, c, target, hpath, hc, enough, hnext, hout⟩ := he
    obtain ⟨a, rfl, hdepth⟩ := h.depth_of_path (.step hpath hc enough hnext)
    obtain ⟨c', hc', _⟩ := h.agrees a _ hdepth
    have hlt := (Array.getElem?_eq_some_iff.mp hc').1
    omega
  | mismatch pc depth other =>
    obtain ⟨hpath, hother, hne⟩ := he
    obtain ⟨a, ha, hdepth⟩ := h.depth_of_path hpath
    obtain ⟨b, hb, hdepth'⟩ := h.depth_of_path hother
    obtain rfl : a = b := by omega
    exact hne (Option.some.inj (hdepth.symm.trans hdepth'))

theorem after_le_succ (c : Code) (depth : Nat) : after c depth ≤ depth + 1 := by
  have hpushes : Opcode.pushesOf c.op ≤ 1 := by
    unfold Opcode.pushesOf
    rcases Opcode.ofByte? c.op with _ | op
    · exact Nat.zero_le 1
    · cases op <;> decide
  unfold after
  omega

/-- Control cannot come to a depth without having been at every smaller one. -/
theorem Path.exists_of_le {code : Array Code} {pc : Int} {depth k : Nat}
    (hpath : Path code pc depth) (hk : k ≤ depth) : ∃ pc', Path code pc' k := by
  induction hpath with
  | start =>
    obtain rfl : k = 0 := Nat.le_zero.mp hk
    exact ⟨0, .start⟩
  | step before here enough next ih =>
    rename_i pc depth c target
    have hup := after_le_succ c depth
    by_cases hle : k ≤ depth
    · exact ih hle
    · obtain rfl : k = after c depth := by omega
      exact ⟨target, .step before here enough next⟩

/-- The depths below that of a path belong to different addresses. -/
theorem Consistent.lt_size_of_path {code : Array Code} {depthAt : Nat → Option Nat}
    {deepest : Nat} (h : Consistent code depthAt deepest) {pc : Int} {depth : Nat}
    (hpath : Path code pc depth) : depth < code.size := by
  have hat : ∀ k : Fin (depth + 1), ∃ a : Fin code.size, depthAt a = some k.val := by
    intro k
    obtain ⟨pc', hpath'⟩ := hpath.exists_of_le (Nat.le_of_lt_succ k.isLt)
    obtain ⟨a, _, hdepth⟩ := h.depth_of_path hpath'
    obtain ⟨c, hc, _⟩ := h.agrees a k hdepth
    exact ⟨⟨a, (Array.getElem?_eq_some_iff.mp hc).1⟩, hdepth⟩
  choose place hplace using hat
  have hinj : Function.Injective place := by
    intro i j hij
    have heq := (hplace i).symm.trans (hij ▸ hplace j)
    exact Fin.ext (Option.some.inj heq)
  have hcard := Fintype.card_le_of_injective place hinj
  simp only [Fintype.card_fin] at hcard
  exact hcard

theorem Attained.le_size {code : Array Code} {depthAt : Nat → Option Nat} {bound deepest : Nat}
    (hattained : Attained code deepest) (h : Consistent code depthAt bound) :
    deepest ≤ code.size := by
  rcases hattained with rfl | ⟨pc, depth, c, hpath, _, rfl⟩
  · exact Nat.zero_le _
  · have hlt := h.lt_size_of_path hpath
    have hup := after_le_succ c depth
    omega

/-! ## The recorded depths -/

/-- The search of `Search.run`, which also gives the recorded depths. -/
def Search.explore (code : Array Code) (s : Search) (deepest : Nat) :
    Except Error (Array (Option Nat) × Nat) :=
  match _hp : s.pending with
  | [] => .ok (s.depths, deepest)
  | pc :: pending =>
    match code[pc]?, s.depths[pc]? with
    | some instruction, some (some depth) =>
      if depth < Opcode.popsOf instruction.op then .error (.underflow pc)
      else
        match _hr : reachAll { s with pending } pc (after instruction depth)
            (successors instruction pc) with
        | .error e => .error e
        | .ok t => explore code t (max deepest (after instruction depth))
    | _, _ => .error (.leaves pc)
termination_by s.remaining
decreasing_by
  rw [remaining_reachAll _hr]
  simp only [remaining, unreached, _hp, List.length_cons]
  omega

/-- One visit of the search. -/
theorem Search.run_cons {code : Array Code} {s : Search} {deepest pc : Nat} {pending : List Nat}
    (hp : s.pending = pc :: pending) :
    s.run code deepest =
      match code[pc]?, s.depths[pc]? with
      | some c, some (some depth) =>
        if depth < Opcode.popsOf c.op then .error (.underflow pc)
        else
          match reachAll { s with pending } pc (after c depth) (successors c pc) with
          | .error e => .error e
          | .ok t => t.run code (max deepest (after c depth))
      | _, _ => .error (.leaves pc) := by
  rw [Search.run]
  split
  · simp_all
  · rename_i pc' pending' hp'
    obtain ⟨rfl, rfl⟩ : pc = pc' ∧ pending = pending' := by simpa [hp] using hp'
    rcases code[pc]? with _ | c
    · rfl
    rcases s.depths[pc]? with _ | _ | depth
    · rfl
    · rfl
    · by_cases hlt : depth < Opcode.popsOf c.op
      · simp only [if_pos hlt]
      · simp only [if_neg hlt, after]
        split <;> simp_all

/-- Writing the depths down does not change the answer. -/
theorem Search.run_eq_explore (code : Array Code) (s : Search) (deepest : Nat) :
    s.run code deepest = (s.explore code deepest).map (·.2) := by
  fun_induction Search.explore code s deepest with
  | case1 s deepest hp =>
    rw [Search.run]
    split
    · rfl
    · simp_all
  | case2 s deepest pc pending hp c depth hd hc hlt =>
    rw [run_cons hp, hc, hd]
    simp [hlt, Except.map]
  | case3 s deepest pc pending hp c depth hd hc hle e hr =>
    rw [run_cons hp, hc, hd]
    simp [hle, hr, Except.map]
  | case4 s deepest pc pending hp c depth hd hc hle t hr ih =>
    rw [run_cons hp, hc, hd]
    simp [hle, hr, ih]
  | case5 s deepest pc pending hp hno =>
    rw [run_cons hp]
    split
    · rename_i c depth hc hd
      exact absurd hd (hno c depth hc)
    · rfl

/-- Where every search starts: the first address, with an empty stack. -/
def Search.start (code : Array Code) : Search :=
  { depths := (Array.replicate code.size none).setIfInBounds 0 (some 0), pending := [0] }

/-- The recorded depths of code, and the greatest depth. -/
def explore (code : Array Code) : Except Error (Array (Option Nat) × Nat) :=
  if code.size = 0 then .error .empty else (Search.start code).explore code 0

theorem compute_eq_explore (code : Array Code) : compute code = (explore code).map (·.2) := by
  unfold compute explore
  split
  · rfl
  · exact Search.run_eq_explore code (Search.start code) 0

/-- The depth that was recorded for an address. -/
def recorded (depths : Array (Option Nat)) (pc : Nat) : Option Nat := depths[pc]?.join

theorem recorded_eq_some {depths : Array (Option Nat)} {pc depth : Nat} :
    recorded depths pc = some depth ↔ depths[pc]? = some (some depth) := by
  simp [recorded, Option.join_eq_some_iff]

theorem recorded_set {depths : Array (Option Nat)} {a depth : Nat} (hlt : a < depths.size)
    (pc : Nat) :
    recorded (depths.setIfInBounds a (some depth)) pc
      = if a = pc then some depth else recorded depths pc := by
  unfold recorded
  rw [Array.getElem?_setIfInBounds]
  split <;> simp_all

/-! ## What reaching an address does -/

/-- An address that is reached has been recorded with that depth, or is recorded
now and has to be visited. -/
theorem Search.reach_ok {s t : Search} {pc depth : Nat} {target : Int}
    (h : s.reach pc depth target = .ok t) :
    ∃ a : Nat, target = a ∧ a < s.depths.size ∧
      ((t = s ∧ recorded s.depths a = some depth) ∨
        (recorded s.depths a = none ∧
          t = { depths := s.depths.setIfInBounds a (some depth), pending := a :: s.pending })) := by
  unfold reach at h
  split at h
  · simp at h
  · rename_i a
    refine ⟨a, rfl, ?_⟩
    split at h
    · simp at h
    · rename_i hnone
      simp only [Except.ok.injEq] at h
      exact ⟨(Array.getElem?_eq_some_iff.mp hnone).1, .inr ⟨by simp [recorded, hnone], h.symm⟩⟩
    · rename_i known hknown
      split at h
      · rename_i heq
        simp only [Except.ok.injEq] at h
        exact ⟨(Array.getElem?_eq_some_iff.mp hknown).1,
          .inl ⟨h.symm, by simp [recorded, hknown, heq]⟩⟩
      · simp at h

/-- An address cannot be reached when it is outside the code, or is recorded
with another depth. -/
theorem Search.reach_error {s : Search} {pc depth : Nat} {target : Int} {e : Error}
    (h : s.reach pc depth target = .error e) :
    (e = .leaves pc ∧ ¬ (0 ≤ target ∧ target < s.depths.size)) ∨
      ∃ a known : Nat, target = a ∧ recorded s.depths a = some known ∧ known ≠ depth ∧
        e = .mismatch a known depth := by
  unfold reach at h
  split at h
  · simp only [Except.error.injEq] at h
    exact .inl ⟨h.symm, by omega⟩
  · rename_i a
    split at h
    · rename_i hnone
      simp only [Except.error.injEq] at h
      have hle := Array.getElem?_eq_none_iff.mp hnone
      exact .inl ⟨h.symm, by simp; omega⟩
    · simp at h
    · rename_i known hknown
      split at h
      · simp at h
      · rename_i hne
        simp only [Except.error.injEq] at h
        exact .inr ⟨a, known, rfl, by simp [recorded, hknown], hne, h.symm⟩

/-- What reaching several targets with one depth does to a search. -/
structure Search.Reached (s t : Search) (depth : Nat) (targets : List Int) : Prop where
  size : t.depths.size = s.depths.size
  keeps : ∀ a d, recorded s.depths a = some d → recorded t.depths a = some d
  pending : ∀ a, a ∈ t.pending → a ∈ s.pending ∨ recorded t.depths a = some depth
  keeps_pending : ∀ a ∈ s.pending, a ∈ t.pending
  arrives : ∀ target ∈ targets, ∃ a : Nat, target = a ∧ recorded t.depths a = some depth
  new : ∀ a d, recorded t.depths a = some d → recorded s.depths a = some d ∨
    (a ∈ t.pending ∧ d = depth ∧ (a : Int) ∈ targets)

theorem Search.reached_of_reach {s t : Search} {pc depth : Nat} {target : Int}
    (h : s.reach pc depth target = .ok t) : s.Reached t depth [target] := by
  obtain ⟨a, rfl, hlt, ⟨rfl, hknown⟩ | ⟨hnone, rfl⟩⟩ := reach_ok h
  · exact
      { size := rfl
        keeps := fun _ _ h => h
        pending := fun _ h => .inl h
        keeps_pending := fun _ h => h
        arrives := List.forall_mem_singleton.mpr ⟨a, rfl, hknown⟩
        new := fun _ _ h => .inl h }
  · refine
      { size := by simp
        keeps := ?_
        pending := ?_
        keeps_pending := fun _ h => List.mem_cons_of_mem _ h
        arrives := ?_
        new := ?_ }
    · intro b d hb
      rw [recorded_set hlt]
      split
      · -- nothing was recorded for the address before
        subst b; simp_all
      · exact hb
    · intro b hb
      rcases List.mem_cons.mp hb with rfl | hb
      · exact .inr (by simp [recorded_set hlt])
      · exact .inl hb
    · exact List.forall_mem_singleton.mpr ⟨a, rfl, by simp [recorded_set hlt]⟩
    · intro b d hb
      rw [recorded_set hlt] at hb
      split at hb
      · subst b
        exact .inr ⟨List.mem_cons_self, by simpa using hb.symm, by simp⟩
      · exact .inl hb

theorem Search.reached_of_reachAll {s t : Search} {pc depth : Nat} {targets : List Int}
    (h : s.reachAll pc depth targets = .ok t) : s.Reached t depth targets := by
  induction targets generalizing s with
  | nil =>
    simp only [reachAll, Except.ok.injEq] at h
    subst h
    exact ⟨rfl, fun _ _ h => h, fun _ h => .inl h, fun _ h => h, by simp, fun _ _ h => .inl h⟩
  | cons target targets ih =>
    simp only [reachAll] at h
    split at h
    · simp at h
    · rename_i u hu
      have hone := reached_of_reach hu
      have hall := ih h
      refine
        { size := hall.size.trans hone.size
          keeps := fun a d ha => hall.keeps a d (hone.keeps a d ha)
          pending := ?_
          keeps_pending := fun a ha => hall.keeps_pending a (hone.keeps_pending a ha)
          arrives := ?_
          new := ?_ }
      · intro a ha
        rcases hall.pending a ha with ha | ha
        · rcases hone.pending a ha with ha | ha
          · exact .inl ha
          · exact .inr (hall.keeps a depth ha)
        · exact .inr ha
      · intro other hother
        rcases List.mem_cons.mp hother with rfl | hother
        · obtain ⟨a, ha, hrecorded⟩ := hone.arrives other (by simp)
          exact ⟨a, ha, hall.keeps a depth hrecorded⟩
        · exact hall.arrives other hother
      · intro a d ha
        rcases hall.new a d ha with ha | ⟨hmem, hd, htarget⟩
        · rcases hone.new a d ha with ha | ⟨hmem, hd, htarget⟩
          · exact .inl ha
          · exact .inr ⟨hall.keeps_pending a hmem, hd,
              List.mem_cons.mpr (.inl (by simpa using htarget))⟩
        · exact .inr ⟨hmem, hd, List.mem_cons_of_mem _ htarget⟩

/-- When one of several targets cannot be reached, a path goes wrong, provided
that all recorded depths come from paths. -/
theorem Search.holds_of_reachAll {code : Array Code} {s : Search} {pc depth : Nat} {c : Code}
    {targets : List Int} {e : Error} (h : s.reachAll pc (after c depth) targets = .error e)
    (hsize : s.depths.size = code.size)
    (hrecorded : ∀ a d, recorded s.depths a = some d → Path code a d)
    (hpath : Path code pc depth) (hc : code[pc]? = some c) (enough : Opcode.popsOf c.op ≤ depth)
    (htargets : ∀ target ∈ targets, target ∈ successors c pc) : e.Holds code := by
  induction targets generalizing s with
  | nil => simp [reachAll] at h
  | cons target targets ih =>
    have hnext : target ∈ successors c pc := htargets target List.mem_cons_self
    have harrive : Path code target (after c depth) := .step hpath hc enough hnext
    simp only [reachAll] at h
    split at h
    · rename_i e' he
      simp only [Except.error.injEq] at h
      subst h
      -- the target is no address of the code, or is known with another depth
      rcases reach_error he with ⟨rfl, hout⟩ | ⟨a, known, rfl, hknown, hne, rfl⟩
      · rw [hsize] at hout
        exact ⟨depth, c, target, hpath, hc, enough, hnext, hout⟩
      · exact ⟨hrecorded a known hknown, harrive, hne⟩
    · rename_i u hu
      have hone := reached_of_reach hu
      refine ih h (hone.size.trans hsize) ?_ fun t ht => htargets t (List.mem_cons_of_mem _ ht)
      intro a d ha
      rcases hone.new a d ha with ha | ⟨_, rfl, htarget⟩
      · exact hrecorded a d ha
      · rw [List.mem_singleton] at htarget
        exact htarget ▸ harrive

/-! ## The search -/

/-- What holds of a search at any time: recorded depths are those of paths, and
what has been visited agrees with what is recorded. -/
structure Search.Inv (code : Array Code) (s : Search) (deepest : Nat) : Prop where
  size : s.depths.size = code.size
  start : recorded s.depths 0 = some 0
  path : ∀ pc depth, recorded s.depths pc = some depth → Path code pc depth
  pending : ∀ pc ∈ s.pending, ∃ depth, recorded s.depths pc = some depth
  visited : ∀ pc depth, recorded s.depths pc = some depth → pc ∉ s.pending →
    Agrees code (recorded s.depths) deepest pc depth
  attained : Attained code deepest

theorem Agrees.mono {code : Array Code} {depthAt depthAt' : Nat → Option Nat}
    {deepest deepest' pc depth : Nat} (h : Agrees code depthAt deepest pc depth)
    (hle : deepest ≤ deepest') (hkeeps : ∀ a d, depthAt a = some d → depthAt' a = some d) :
    Agrees code depthAt' deepest' pc depth := by
  obtain ⟨c, hc, enough, hdeep, hnext⟩ := h
  refine ⟨c, hc, enough, by omega, fun target htarget => ?_⟩
  obtain ⟨a, ha, hdepth⟩ := hnext target htarget
  exact ⟨a, ha, hkeeps a _ hdepth⟩

theorem Search.inv_start {code : Array Code} (h : code.size ≠ 0) :
    (Search.start code).Inv code 0 := by
  have hsize : 0 < (Array.replicate code.size (none : Option Nat)).size := by simp; omega
  have hrecorded : ∀ pc, recorded (Search.start code).depths pc
      = if 0 = pc then some 0 else none := by
    intro pc
    simp only [Search.start, recorded_set hsize]
    split
    · rfl
    · simp only [recorded, Array.getElem?_replicate]
      split <;> rfl
  refine
    { size := by simp [Search.start]
      start := by simp [hrecorded]
      path := ?_
      pending := ?_
      visited := ?_
      attained := .inl rfl }
  · intro pc depth hpc
    rw [hrecorded] at hpc
    split at hpc
    · obtain rfl : 0 = depth := Option.some.inj hpc
      subst pc
      exact .start
    · simp at hpc
  · intro pc hpc
    obtain rfl : pc = 0 := by simpa [Search.start] using hpc
    exact ⟨0, by simp [hrecorded]⟩
  · intro pc depth hpc hvisited
    rw [hrecorded] at hpc
    split at hpc
    · subst pc
      simp [Search.start] at hvisited
    · simp at hpc

/-- Visiting an address keeps the invariant. -/
theorem Search.Inv.visit {code : Array Code} {s t : Search} {deepest pc depth : Nat}
    {pending : List Nat} {c : Code} (h : s.Inv code deepest) (hp : s.pending = pc :: pending)
    (hc : code[pc]? = some c) (hdepth : recorded s.depths pc = some depth)
    (enough : Opcode.popsOf c.op ≤ depth)
    (hreach : reachAll { s with pending } pc (after c depth) (successors c pc) = .ok t) :
    t.Inv code (max deepest (after c depth)) := by
  have hr := reached_of_reachAll hreach
  have hpath := h.path pc depth hdepth
  have hle : deepest ≤ max deepest (after c depth) := Nat.le_max_left _ _
  refine
    { size := hr.size.trans h.size
      start := hr.keeps 0 0 h.start
      path := ?_
      pending := ?_
      visited := ?_
      attained := ?_ }
  · intro a d ha
    rcases hr.new a d ha with ha | ⟨_, rfl, hnext⟩
    · exact h.path a d ha
    · exact .step hpath hc enough hnext
  · intro a ha
    rcases hr.pending a ha with ha | ha
    · obtain ⟨d, hd⟩ := h.pending a (by rw [hp]; exact List.mem_cons_of_mem _ ha)
      exact ⟨d, hr.keeps a d hd⟩
    · exact ⟨_, ha⟩
  · intro a d ha hvisited
    rcases hr.new a d ha with hold | ⟨hmem, _, _⟩
    · by_cases hpc : a = pc
      · -- the address that is visited now
        subst hpc
        obtain rfl : d = depth := Option.some.inj (hold.symm.trans hdepth)
        exact ⟨c, hc, enough, Nat.le_max_right _ _, hr.arrives⟩
      · -- an address that was visited before
        refine (h.visited a d hold ?_).mono hle hr.keeps
        rw [hp, List.mem_cons, not_or]
        exact ⟨hpc, fun hmem => hvisited (hr.keeps_pending a hmem)⟩
    · -- an address that was found now is still to be visited
      exact absurd hmem hvisited
  · rcases Nat.le_total deepest (after c depth) with hmax | hmax
    · rw [Nat.max_eq_right hmax]
      exact .inr ⟨pc, depth, c, hpath, hc, rfl⟩
    · rw [Nat.max_eq_left hmax]
      exact h.attained

/-- A search that ends well leaves consistent depths of paths. -/
theorem Search.explore_ok {code : Array Code} {s : Search} {deepest n : Nat}
    {depths : Array (Option Nat)} (h : s.explore code deepest = .ok (depths, n))
    (hinv : s.Inv code deepest) :
    Consistent code (recorded depths) n ∧
      (∀ pc depth, recorded depths pc = some depth → Path code pc depth) ∧ Attained code n := by
  fun_induction Search.explore code s deepest with
  | case1 s deepest hp =>
    simp only [Except.ok.injEq, Prod.mk.injEq] at h
    obtain ⟨rfl, rfl⟩ := h
    refine ⟨⟨hinv.start, fun pc depth hpc => ?_⟩, hinv.path, hinv.attained⟩
    exact hinv.visited pc depth hpc (by simp [hp])
  | case2 => simp at h
  | case3 => simp at h
  | case4 s deepest pc pending hp c depth hd hc hle t hr ih =>
    exact ih h (hinv.visit hp hc (recorded_eq_some.mpr hd) (by omega) hr)
  | case5 => simp at h

/-- A search that fails has found a path that goes wrong. -/
theorem Search.explore_error {code : Array Code} {s : Search} {deepest : Nat} {e : Error}
    (h : s.explore code deepest = .error e) (hinv : s.Inv code deepest) : e.Holds code := by
  fun_induction Search.explore code s deepest with
  | case1 => simp at h
  | case2 s deepest pc pending hp c depth hd hc hlt =>
    simp only [Except.error.injEq] at h
    subst h
    exact ⟨depth, c, hinv.path pc depth (recorded_eq_some.mpr hd), hc, hlt⟩
  | case3 s deepest pc pending hp c depth hd hc hle e' hr =>
    simp only [Except.error.injEq] at h
    subst h
    have hpath := hinv.path pc depth (recorded_eq_some.mpr hd)
    exact holds_of_reachAll hr hinv.size hinv.path hpath hc (by omega) fun _ ht => ht
  | case4 s deepest pc pending hp c depth hd hc hle t hr ih =>
    exact ih h (hinv.visit hp hc (recorded_eq_some.mpr hd) (by omega) hr)
  | case5 s deepest pc pending hp hno =>
    -- a pending address has a recorded depth, so it is an address of the code
    obtain ⟨depth, hdepth⟩ := hinv.pending pc (by simp [hp])
    have hd := recorded_eq_some.mp hdepth
    have hlt : pc < code.size := hinv.size ▸ (Array.getElem?_eq_some_iff.mp hd).1
    exact absurd hd (hno code[pc] depth (Array.getElem?_eq_getElem hlt))

theorem explore_ok {code : Array Code} {n : Nat} {depths : Array (Option Nat)}
    (h : explore code = .ok (depths, n)) :
    Consistent code (recorded depths) n ∧
      (∀ pc depth, recorded depths pc = some depth → Path code pc depth) ∧ Attained code n := by
  unfold explore at h
  split at h
  · simp at h
  · rename_i hsize
    exact Search.explore_ok h (Search.inv_start hsize)

theorem explore_error {code : Array Code} {e : Error} (h : explore code = .error e) :
    e.Holds code := by
  unfold explore at h
  split at h
  · rename_i hsize
    simp only [Except.error.injEq] at h
    subst h
    exact hsize
  · rename_i hsize
    exact Search.explore_error h (Search.inv_start hsize)

/-- The greatest depth comes with recorded depths. -/
theorem compute_eq_ok_iff {code : Array Code} {n : Nat} :
    compute code = .ok n ↔ ∃ depths, explore code = .ok (depths, n) := by
  rw [compute_eq_explore]
  rcases explore code with _ | ⟨depths, m⟩ <;> simp [Except.map]

/-- Code for which consistent depths are known is accepted. -/
theorem explore_of_consistent {code : Array Code} {depthAt : Nat → Option Nat} {deepest : Nat}
    (h : Consistent code depthAt deepest) : ∃ depths n, explore code = .ok (depths, n) := by
  cases hexplore : explore code with
  | error e => exact absurd (explore_error hexplore) (h.not_holds e)
  | ok result => exact ⟨result.1, result.2, rfl⟩

/-- If the bound of consistent depths is attained, it is the greatest depth. -/
theorem compute_eq_of_attained {code : Array Code} {depthAt : Nat → Option Nat} {deepest : Nat}
    (h : Consistent code depthAt deepest) (hattained : Attained code deepest) :
    compute code = .ok deepest := by
  obtain ⟨depths, n, hexplore⟩ := explore_of_consistent h
  obtain ⟨hconsistent, _, hbest⟩ := explore_ok hexplore
  -- each of the two numbers bounds what every path leaves, and one path attains it
  have bound : ∀ {depthAt' : Nat → Option Nat} {low high : Nat},
      Consistent code depthAt' high → Attained code low → low ≤ high := by
    intro depthAt' low high hcons hlow
    rcases hlow with rfl | ⟨pc, depth, c, hpath, hc, rfl⟩
    · exact Nat.zero_le _
    · exact (hcons.after_le_of_path hpath hc).2
  have hle := bound h hbest
  have hge := bound hconsistent hattained
  obtain rfl : n = deepest := by omega
  exact compute_eq_ok_iff.mpr ⟨depths, hexplore⟩

end Stackling.StackDepth
