import Mathlib.Tactic.Common
import Stackling.Proofs.Machine.Run

/-!
# Step budgets

A step budget changes nothing but where a run ends. As long as the budget is not
spent, a turn is the same with it and without it (`turn_budget`), and so is any
number of turns (`advance_budget`). A run that takes no more steps than the
budget therefore ends as it would without one, and any other is cut off after
exactly as many steps as the budget has (`budget_truncates`).
-/

namespace Stackling

/-- The conditions of a run of at most so many steps. -/
def Limits.budget (k : Nat) : Limits := { maxSteps := k }

namespace Machine

variable {m : Module} {f : Frame} {limits : Limits} {s : State} {k : Nat}

/-! ## Counting steps -/

/-- A run that still goes on has counted one step for each turn. -/
theorem steps_of_running {n : Nat} {t : State}
    (h : advance m f limits n (.running s) = .running t) : t.steps = s.steps + n := by
  induction n generalizing s with
  | zero =>
    cases h
    rfl
  | succ n ih =>
    have hturn := turned m f limits s
    rw [advance_succ] at h
    cases hs : turn m f limits s with
    | stopped outcome u =>
      rw [hs, advance_stopped] at h
      cases h
    | running u =>
      rw [hs] at h hturn
      rw [ih h, hturn.steps_of_running]
      omega

/-- No run counts more steps than there were turns. -/
theorem steps_le (m : Module) (f : Frame) (limits : Limits) (n : Nat) (s : State) :
    (advance m f limits n (.running s)).state.steps ≤ s.steps + n := by
  cases h : advance m f limits n (.running s) with
  | running t => exact Nat.le_of_eq (steps_of_running h)
  | stopped outcome t =>
    obtain ⟨j, u, hj, hrun, hlast⟩ := exists_turn_of_stopped h
    have hbefore := steps_of_running hrun
    have hturn := (turned m f limits u).steps
    rw [hlast] at hturn
    omega

/-- Steps are never taken back, and neither is what was printed. -/
theorem advance_grows (m : Module) (f : Frame) (limits : Limits) (n : Nat) (status : Status) :
    status.state.steps ≤ (advance m f limits n status).state.steps ∧
      status.state.output.bytes <+: (advance m f limits n status).state.output.bytes := by
  refine advance_induction (P := fun there => status.state.steps ≤ there.state.steps ∧
    status.state.output.bytes <+: there.state.output.bytes) ?_ n ⟨Nat.le_refl _, List.prefix_rfl⟩
  rintro t ⟨hsteps, houtput⟩
  have hturn := turned m f limits t
  exact ⟨Nat.le_trans hsteps hturn.steps.1, houtput.trans hturn.output⟩

/-! ## Runs with a budget -/

theorem spent_budget (hk : 0 < k) : (Limits.budget k).Spent s ↔ k ≤ s.steps := by
  show 0 < (k : Int) ∧ (k : Int) ≤ s.steps ↔ k ≤ s.steps
  omega

/-- Without limits a run stops by itself only: before the next instruction if there
is none, and else in its course, which counts. -/
theorem code_none_of_turn (h : ¬s.steps < (turn m f {} s).state.steps) : f.code[s.pc]? = none := by
  have hturn := turned m f {} s
  revert h
  generalize turn m f {} s = status at hturn
  intro h
  cases hturn with
  | leftCode hcode => exact hcode
  | stepLimit hspent => exact absurd hspent.1 (by decide)
  | canceled hcanceled => cases hcanceled
  | next _ _ hstep | done _ hstep | fault _ hstep =>
    rw [Status.state, hstep.1.steps] at h
    exact absurd (Nat.lt_succ_self _) h
  | crash => exact absurd (Nat.lt_succ_self _) h

/-- A budget that is not spent makes no difference to a turn. -/
theorem turn_budget (hk : 0 < k) (h : (turn m f {} s).state.steps ≤ k) :
    turn m f (.budget k) s = turn m f {} s := by
  unfold turn
  cases hcode : f.code[s.pc]? with
  | none => rfl
  | some c =>
    -- the instruction counts, so there was a step left for it
    have hlt : s.steps < (turn m f {} s).state.steps := by
      by_contra hle
      rw [code_none_of_turn hle] at hcode
      cases hcode
    have hspent : ¬(Limits.budget k).Spent s := by
      rw [spent_budget hk]
      omega
    have hfree : ¬Limits.Spent {} s := by
      rintro ⟨hpos, _⟩
      exact absurd hpos (by decide)
    unfold Limits.Spent at hspent hfree
    dsimp only
    rw [if_neg hspent, if_neg hfree]
    rfl

/-- Nor does it make one to any number of turns. -/
theorem advance_budget (hk : 0 < k) {n : Nat} {status : Status}
    (h : (advance m f {} n status).state.steps ≤ k) :
    advance m f (.budget k) n status = advance m f {} n status := by
  induction n generalizing status with
  | zero => rw [advance_zero, advance_zero]
  | succ n ih =>
    cases status with
    | stopped outcome s => rw [advance_stopped, advance_stopped]
    | running s =>
      rw [advance_succ] at h
      have hfirst := (advance_grows m f {} n (turn m f {} s)).1
      rw [advance_succ, advance_succ, turn_budget hk (by omega), ih h]

/-- A run with a budget stops in the turn after the last step, if not before. -/
theorem exists_stopped_budget (hk : 0 < k) (hs : s.steps = 0) :
    ∃ outcome t, advance m f (.budget k) (k + 1) (.running s) = .stopped outcome t := by
  cases h : advance m f (.budget k) (k + 1) (.running s) with
  | stopped outcome t => exact ⟨outcome, t, rfl⟩
  | running t =>
    exfalso
    cases hrun : advance m f (.budget k) k (.running s) with
    | stopped outcome u =>
      rw [advance_add, hrun, advance_stopped] at h
      cases h
    | running u =>
      have hsteps := steps_of_running hrun
      have hturn := turned m f (.budget k) u
      rw [advance_of_running hrun] at h
      rw [h] at hturn
      cases hturn with
      | next _ hbudget _ =>
        rw [spent_budget hk] at hbudget
        omega

/-- Where the run without limits still goes on after as many steps as the budget
has, the budget cuts it off. -/
theorem cut_off (hk : 0 < k) (hs : s.steps = 0)
    (h : ∀ n outcome t, advance m f {} n (.running s) = .stopped outcome t → k < t.steps) :
    ∃ t, advance m f {} k (.running s) = .running t ∧ t.steps = k ∧
      advance m f (.budget k) (k + 1) (.running s) = .stopped (.stepLimit k) t := by
  cases hrun : advance m f {} k (.running s) with
  | stopped outcome t =>
    have hlate := h k outcome t hrun
    have hsoon := steps_le m f {} k s
    rw [hrun, Status.state_stopped] at hsoon
    omega
  | running t =>
    have hsteps : t.steps = k := by
      rw [steps_of_running hrun]
      omega
    refine ⟨t, rfl, hsteps, ?_⟩
    have hsame : advance m f (.budget k) k (.running s) = .running t := by
      rw [advance_budget hk, hrun]
      rw [hrun, Status.state_running]
      omega
    -- there is a next instruction: without one, the run would stop here by itself
    have hcode : f.code[t.pc]? ≠ none := by
      intro hnone
      have hstop : advance m f {} (k + 1) (.running s) = .stopped (.leftCode f.name) t := by
        rw [advance_of_running hrun]
        simp only [turn, hnone]
      have hlate := h _ _ _ hstop
      omega
    obtain ⟨c, hc⟩ := Option.ne_none_iff_exists'.mp hcode
    have hspent : (Limits.budget k).Spent t := (spent_budget hk).mpr (by omega)
    rw [advance_of_running hsame, turn_of_spent hc hspent, hsteps]

/-- Step budgets only truncate. With a budget that a run does not exceed, it ends as
it does without limits: in the same way, after as many turns, in the same state. Any
other run is cut off after as many steps as the budget has, in the state that the run
without limits has then, and what it has printed by then is printed with every larger
budget too. -/
theorem budget_truncates {last : State} (hbegin : begin m last = .ok (f, s)) (hk : 0 < k) :
    (∀ n outcome t, advance m f {} n (.running s) = .stopped outcome t → t.steps ≤ k →
      advance m f (.budget k) n (.running s) = .stopped outcome t) ∧
    ((∀ n outcome t, advance m f {} n (.running s) = .stopped outcome t → k < t.steps) →
      ∃ t, advance m f {} k (.running s) = .running t ∧ t.steps = k ∧
        advance m f (.budget k) (k + 1) (.running s) = .stopped (.stepLimit k) t ∧
        ∀ larger > k, ∃ n outcome u,
          advance m f (.budget larger) n (.running s) = .stopped outcome u ∧
            t.output.bytes <+: u.output.bytes) := by
  obtain ⟨_, _, hs⟩ := begin_eq_ok_iff.mp hbegin
  have hzero : s.steps = 0 := by rw [hs]
  constructor
  · intro n outcome t hstop hle
    rw [advance_budget hk, hstop]
    rw [hstop]
    exact hle
  · intro hlate
    obtain ⟨t, hrun, hsteps, hcut⟩ := cut_off hk hzero hlate
    refine ⟨t, hrun, hsteps, hcut, ?_⟩
    intro larger hlarger
    have hpos : 0 < larger := by omega
    obtain ⟨outcome, u, hstop⟩ := exists_stopped_budget (m := m) (f := f) hpos hzero
    refine ⟨larger + 1, outcome, u, hstop, ?_⟩
    -- the larger budget leads through the same state
    have hsame : advance m f (.budget larger) k (.running s) = .running t := by
      rw [advance_budget hpos, hrun]
      rw [hrun, Status.state_running]
      omega
    have hrest := (advance_grows m f (.budget larger) (larger + 1 - k) (.running t)).2
    rw [← hsame, ← advance_add, show k + (larger + 1 - k) = larger + 1 by omega, hstop, hsame]
      at hrest
    exact hrest

/-- A routine that prints a number and has no instruction after that. -/
def unfinishedMain : Frame where
  name := entryName
  maxStack := 2
  maxLocals := 0
  code := #[{ op := Opcode.openOutput.byte }, { op := Opcode.pushInt.byte, operand := 7 },
    { op := Opcode.print.byte }]

def unfinished : Module where
  name := ascii "unfinished"
  constants := #[]
  routines := [unfinishedMain]

theorem budget_truncates_unfinished : begin unfinished {} = .ok (unfinishedMain, {}) ∧
    (∃ t, t.steps = 3 ∧
      advance unfinished unfinishedMain {} 4 (.running {}) = .stopped (.leftCode entryName) t ∧
      advance unfinished unfinishedMain (.budget 3) 4 (.running {})
        = .stopped (.leftCode entryName) t) ∧
    ∃ t, t.steps = 2 ∧ advance unfinished unfinishedMain {} 2 (.running {}) = .running t ∧
      advance unfinished unfinishedMain (.budget 2) 3 (.running {})
        = .stopped (.stepLimit 2) t := by
  have hbegin : begin unfinished {} = .ok (unfinishedMain, {}) := rfl
  have hstop : advance unfinished unfinishedMain {} 4 (.running {}) =
      .stopped (.leftCode entryName)
        { pc := 3, steps := 3, output := { content := #[55, 10] } } := by
    decide +kernel
  have hfits := (budget_truncates hbegin (show 0 < 3 by decide)).1 _ _ _ hstop (Nat.le_refl 3)
  refine ⟨hbegin, ⟨_, rfl, hstop, hfits⟩, ?_⟩
  obtain ⟨t, hrun, hsteps, hcut, _⟩ := (budget_truncates hbegin (show 0 < 2 by decide)).2 (by
    intro n outcome t h
    obtain ⟨_, rfl⟩ := stopped_unique hstop h
    decide)
  exact ⟨t, hsteps, hrun, hcut⟩

end Machine

end Stackling
