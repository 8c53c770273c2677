import Stackling.Module

/-!
# Stack depth

How deep the operand stack of a routine gets. Starting at the first
instruction with an empty stack, every address that control can reach is
visited once and its depth recorded. Code is refused when an instruction would
pop from too shallow a stack, when two ways to one address arrive with
different depths, or when control can leave the code.
-/

namespace Stackling.StackDepth

/-- Why the depth of a routine is not defined. -/
inductive Error where
  /-- There is no code at all. -/
  | empty
  /-- The instruction at an address pops more than there is. -/
  | underflow (address : Nat)
  /-- Control leaves the code after the instruction at an address. -/
  | leaves (address : Nat)
  /-- An address is reached with two depths. -/
  | mismatch (address depth other : Nat)
  deriving DecidableEq, Repr

/-- The wording of an error. -/
def Error.message : Error → Bytes
  | empty => ascii "control flow leaves routine without return"
  | underflow address =>
    ascii "stack underflow at " ++ Decimal.ofNat address ++ ascii ": inconsistent stack depth"
  | leaves address =>
    ascii "at " ++ Decimal.ofNat address ++ ascii ": control flow leaves routine without return"
  | mismatch address depth other =>
    ascii "address " ++ Decimal.ofNat address ++ ascii " reached with depth " ++ Decimal.ofNat depth
      ++ ascii " and " ++ Decimal.ofNat other ++ ascii ": inconsistent stack depth"

/-- The addresses that may be executed after the one at `pc`. They may lie
outside the code. -/
def successors (code : Code) (pc : Nat) : List Int :=
  match code.opcode? with
  | some .ret => []
  | some .jump => [code.operand.toInt]
  | some .branch => [(pc : Int) + 1, code.operand.toInt]
  | _ => [(pc : Int) + 1]

/-- The depth recorded for each address that has been reached, and the
addresses that are still to be visited, the next one first. -/
structure Search where
  depths : Array (Option Nat)
  pending : List Nat

namespace Search

/-- How many addresses have not been reached. -/
def unreached (s : Search) : Nat := s.depths.count none

/-- Reach `target` from `pc` with the given depth. A new address is recorded
and has to be visited next. -/
def reach (s : Search) (pc depth : Nat) (target : Int) : Except Error Search :=
  match target with
  | .negSucc _ => .error (.leaves pc)
  | .ofNat address =>
    match s.depths[address]? with
    | none => .error (.leaves pc)
    | some none =>
      .ok { depths := s.depths.setIfInBounds address (some depth), pending := address :: s.pending }
    | some (some known) =>
      if known = depth then .ok s else .error (.mismatch address known depth)

/-- Reach several targets in order. -/
def reachAll (s : Search) (pc depth : Nat) : List Int → Except Error Search
  | [] => .ok s
  | target :: targets =>
    match s.reach pc depth target with
    | .error e => .error e
    | .ok s => s.reachAll pc depth targets

/-- A bound on the visits that are still to come. -/
def remaining (s : Search) : Nat := s.unreached + s.pending.length

theorem remaining_reach {s t : Search} {pc depth : Nat} {target : Int}
    (h : s.reach pc depth target = .ok t) : t.remaining = s.remaining := by
  unfold reach at h
  split at h
  · simp at h
  · rename_i address
    split at h
    · simp at h
    · rename_i hnone
      obtain ⟨hlt, hget⟩ := Array.getElem?_eq_some_iff.1 hnone
      injection h with h
      subst h
      have hpos : 0 < s.depths.count none :=
        Array.count_pos_iff.2 (hget ▸ Array.getElem_mem hlt)
      have hcount : (s.depths.setIfInBounds address (some depth)).count none + 1
          = s.depths.count none := by
        rw [Array.setIfInBounds, dif_pos hlt, Array.count_set hlt, hget]
        simp
        omega
      simp only [remaining, unreached, List.length_cons]
      omega
    · split at h <;> simp at h
      subst h
      rfl

theorem remaining_reachAll {s t : Search} {pc depth : Nat} {targets : List Int}
    (h : s.reachAll pc depth targets = .ok t) : t.remaining = s.remaining := by
  induction targets generalizing s with
  | nil => simp [reachAll] at h; subst h; rfl
  | cons target targets ih =>
    unfold reachAll at h
    split at h
    · simp at h
    · rename_i u hu
      rw [ih h, remaining_reach hu]

/-- Visit the pending addresses, and those that they lead to. The greatest
depth seen so far is `deepest`. -/
def run (code : Array Code) (s : Search) (deepest : Nat) : Except Error Nat :=
  match _hp : s.pending with
  | [] => .ok deepest
  | pc :: pending =>
    match code[pc]?, s.depths[pc]? with
    | some instruction, some (some depth) =>
      let pops := Opcode.popsOf instruction.op
      if depth < pops then .error (.underflow pc)
      else
        let after := depth - pops + Opcode.pushesOf instruction.op
        match _hr : reachAll { s with pending } pc after (successors instruction pc) with
        | .error e => .error e
        | .ok t => run code t (max deepest after)
    -- every pending address is an address of the code with a recorded depth
    | _, _ => .error (.leaves pc)
termination_by s.remaining
decreasing_by
  rw [remaining_reachAll _hr]
  simp only [remaining, unreached, _hp, List.length_cons]
  omega

end Search

/-- The greatest depth of the operand stack while the code runs. -/
def compute (code : Array Code) : Except Error Nat :=
  if code.size = 0 then .error .empty
  else
    Search.run code
      { depths := (Array.replicate code.size none).setIfInBounds 0 (some 0), pending := [0] } 0

end Stackling.StackDepth
