import Mathlib.Tactic.Common
import Stackling.Proofs.Machine.Run

/-!
# The ports of a machine

A machine has two ports, its input and its output. Only reads and prints use them: every
other instruction leaves both as they are (`State.execute_keepsPorts`). Which of them a run
executes is kept in a log (`Machine.logIn`).
-/

namespace Stackling

/-- Whether an instruction uses the input or the output. -/
def Opcode.usesPort : Opcode → Bool
  | .print | .readInt | .readLine => true
  | _ => false

/-- A step that leaves the input and the output as they are. -/
def Step.KeepsPorts (s : State) : Step → Prop
  | .next t | .done t | .fault _ t => t.input = s.input ∧ t.output = s.output
  | .crash => True

namespace State

variable {m : Module} {f : Frame} {c : Code} {s t : State}

section KeepsPorts

variable (h : t.input = s.input ∧ t.output = s.output)
include h

theorem push_keepsPorts (v : Value) : (t.push f v).KeepsPorts s := by
  unfold push
  split <;> exact h

theorem goTo_keepsPorts (address : Int32) : (t.goTo address).KeepsPorts s := by
  unfold goTo
  split <;> exact h

theorem withInts_keepsPorts {k : State → Int32 → Int32 → Step}
    (hk : ∀ u a b, u.input = s.input ∧ u.output = s.output → (k u a b).KeepsPorts s) :
    (t.withInts k).KeepsPorts s := by
  simp only [withInts, State.pop]
  cases t.stack.back? with
  | none => exact h
  | some right =>
    dsimp only
    cases t.stack.pop.back? with
    | none => exact h
    | some left =>
      dsimp only
      split
      · exact hk _ _ _ h
      · exact h

end KeepsPorts

theorem pushConstant_keepsPorts (index : Int32) : (s.pushConstant m f index).KeepsPorts s := by
  unfold pushConstant
  split
  · trivial
  · split
    · exact ⟨rfl, rfl⟩
    · exact push_keepsPorts ⟨rfl, rfl⟩ _

theorem load_keepsPorts (slot : Int32) : (s.load f slot).KeepsPorts s := by
  unfold load
  split
  · exact ⟨rfl, rfl⟩
  · split
    · exact ⟨rfl, rfl⟩
    · exact push_keepsPorts ⟨rfl, rfl⟩ _

theorem store_keepsPorts (slot : Int32) : (s.store slot).KeepsPorts s := by
  simp only [store, State.pop]
  split
  · exact ⟨rfl, rfl⟩
  · cases s.stack.back? <;> exact ⟨rfl, rfl⟩

theorem arith_keepsPorts (op : Arith) : (s.arith f op).KeepsPorts s := by
  apply withInts_keepsPorts ⟨rfl, rfl⟩
  intro u a b hu
  cases op.result? a b with
  | none => exact hu
  | some n => exact push_keepsPorts hu _

theorem branch_keepsPorts (relation : Relation) (address : Int32) :
    (s.branch relation address).KeepsPorts s := by
  apply withInts_keepsPorts ⟨rfl, rfl⟩
  intro u a b hu
  split
  · exact goTo_keepsPorts hu address
  · exact hu

/-- An instruction that uses no port leaves the input and the output as they are. -/
theorem execute_keepsPorts (h : ∀ op, c.opcode? = some op → op.usesPort = false) :
    (s.execute m f c).KeepsPorts s := by
  unfold execute
  cases hop : c.opcode? with
  | none => exact ⟨rfl, rfl⟩
  | some op =>
    have huses := h op hop
    cases op with
    | pushInt | openOutput | openInput => exact push_keepsPorts ⟨rfl, rfl⟩ _
    | pushText => exact pushConstant_keepsPorts _
    | load => exact load_keepsPorts _
    | store => exact store_keepsPorts _
    | add | sub | mul | div => exact arith_keepsPorts _
    | branch => exact branch_keepsPorts _ _
    | jump => exact goTo_keepsPorts ⟨rfl, rfl⟩ _
    | print | readInt | readLine => cases huses
    | ret | label => exact ⟨rfl, rfl⟩

end State

/-- What is noted in a number of turns, if each turn may leave a note. -/
def Machine.logIn {α : Type} (note? : State → Option α) (m : Module) (f : Frame)
    (limits : Limits) : Nat → Status → List α
  | 0, _ | _ + 1, .stopped _ _ => []
  | n + 1, .running s => (note? s).toList ++ logIn note? m f limits n (turn m f limits s)

end Stackling
