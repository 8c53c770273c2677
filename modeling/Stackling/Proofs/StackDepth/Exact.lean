import Mathlib.Order.Bounds.Defs
import Stackling.Proofs.StackDepth

/-!
# The greatest depth, exactly

A walk goes along the successors of each instruction, whatever it finds on the
stack, so its depth may even become negative. Code is in order if no walk takes
operands that are not there, leaves the code, or comes to an address with
another depth than some other walk. The search for the greatest depth is
compared with walks:

* **accepted code** — in code that is accepted, every walk is a path
  (`Consistent.exists_path`), so none goes wrong;
* **refused code** — the path that goes wrong is a walk (`Path.walk`);
* **both** — code is accepted if and only if it is in order, and the result is
  the least bound of the depths that walks leave (`compute_exact`).
-/

namespace Stackling.StackDepth

/-- What an instruction does to the depth. -/
def effect (c : Code) : Int := Opcode.pushesOf c.op - Opcode.popsOf c.op

/-- Control can go to `pc`, which may lie outside the code, if nobody looks at
the depth. -/
inductive Walk (code : Array Code) : Int → Int → Prop
  | start : Walk code 0 0
  | step {pc : Nat} {depth target : Int} {c : Code} (before : Walk code pc depth)
      (here : code[pc]? = some c) (next : target ∈ successors c pc) :
      Walk code target (depth + effect c)

/-- A walk comes to an instruction that pops more than there is. -/
def Underflows (code : Array Code) : Prop :=
  ∃ (pc : Nat) (depth : Int) (c : Code),
    Walk code pc depth ∧ code[pc]? = some c ∧ depth < Opcode.popsOf c.op

/-- A walk comes to an address that the code does not have. -/
def Leaves (code : Array Code) : Prop :=
  ∃ pc depth : Int, Walk code pc depth ∧ ¬ (0 ≤ pc ∧ pc < code.size)

/-- Two walks come to one address with different depths. -/
def Disagrees (code : Array Code) : Prop :=
  ∃ pc depth other : Int, Walk code pc depth ∧ Walk code pc other ∧ depth ≠ other

/-- The two ways in which code is out of order. -/
inductive Error.Subject where
  | stackDepth
  | controlFlow

/-- How the wording of an error ends, by what it is about. -/
def Error.Subject.text : Subject → Bytes
  | stackDepth => ascii "inconsistent stack depth"
  | controlFlow => ascii "control flow leaves routine without return"

/-- What an error is about. -/
def Error.subject : Error → Subject
  | .empty | .leaves _ => .controlFlow
  | .underflow _ | .mismatch _ _ _ => .stackDepth

theorem Error.suffix_message (e : Error) : e.subject.text <:+ e.message := by
  have hcolon : ∀ s : Subject, s.text <:+ ascii ": " ++ s.text := fun s => List.suffix_append _ _
  cases e with
  | empty => exact List.suffix_rfl
  | leaves address => exact (hcolon .controlFlow).trans (List.suffix_append _ _)
  | underflow address => exact (hcolon .stackDepth).trans (List.suffix_append _ _)
  | mismatch address depth other => exact (hcolon .stackDepth).trans (List.suffix_append _ _)

/-- What an error is about can be read off the end of its wording. -/
theorem Error.subject_eq_of_suffix {e : Error} {s : Subject} (h : s.text <:+ e.message) :
    e.subject = s := by
  have hunique : ∀ s s' : Subject, s.text <:+ s'.text → s = s' := by
    intro s s' hsuffix
    cases s <;> cases s' <;> first | rfl | exact absurd hsuffix (by decide)
  rcases List.suffix_or_suffix_of_suffix e.suffix_message h with hsuffix | hsuffix
  · exact hunique _ _ hsuffix
  · exact (hunique _ _ hsuffix).symm

theorem cast_after {c : Code} {depth : Nat} (enough : Opcode.popsOf c.op ≤ depth) :
    (after c depth : Int) = depth + effect c := by
  unfold after effect
  omega

/-- A path is a walk. -/
theorem Path.walk {code : Array Code} {pc : Int} {depth : Nat} (h : Path code pc depth) :
    Walk code pc depth := by
  induction h with
  | start => exact .start
  | step _ here enough next ih =>
    rw [cast_after enough]
    exact .step ih here next

/-- Where depths are consistent, a walk never lacks operands, so it is a path. -/
theorem Consistent.exists_path {code : Array Code} {depthAt : Nat → Option Nat} {deepest : Nat}
    (h : Consistent code depthAt deepest) {pc depth : Int} (hwalk : Walk code pc depth) :
    ∃ d : Nat, depth = d ∧ Path code pc d := by
  induction hwalk with
  | start => exact ⟨0, rfl, .start⟩
  | @step pc _ target c _ here next ih =>
    obtain ⟨d, rfl, hpath⟩ := ih
    obtain ⟨enough, -⟩ := h.after_le_of_path hpath here
    exact ⟨after c d, (cast_after enough).symm, .step hpath here enough next⟩

/-- Where depths are consistent, no walk goes wrong. -/
theorem Consistent.in_order {code : Array Code} {depthAt : Nat → Option Nat} {deepest : Nat}
    (h : Consistent code depthAt deepest) :
    ¬ Underflows code ∧ ¬ Leaves code ∧ ¬ Disagrees code := by
  refine ⟨?_, ?_, ?_⟩
  · rintro ⟨pc, depth, c, hwalk, hc, hlt⟩
    obtain ⟨d, rfl, hpath⟩ := h.exists_path hwalk
    have enough := (h.after_le_of_path hpath hc).1
    omega
  · rintro ⟨pc, depth, hwalk, hout⟩
    obtain ⟨d, rfl, hpath⟩ := h.exists_path hwalk
    obtain ⟨a, rfl, hdepth⟩ := h.depth_of_path hpath
    obtain ⟨c, hc, -⟩ := h.agrees a d hdepth
    have hlt := (Array.getElem?_eq_some_iff.mp hc).1
    omega
  · rintro ⟨pc, depth, other, hwalk, hother, hne⟩
    obtain ⟨d, rfl, hpath⟩ := h.exists_path hwalk
    obtain ⟨d', rfl, hpath'⟩ := h.exists_path hother
    obtain ⟨a, rfl, -⟩ := h.depth_of_path hpath
    exact h.not_holds (.mismatch a d d') ⟨hpath, hpath', by omega⟩

/-- Every error is about a walk that goes wrong. -/
theorem Error.Holds.walk {code : Array Code} {e : Error} (h : e.Holds code)
    (hsize : code.size ≠ 0) :
    (e.subject = .stackDepth → Underflows code ∨ Disagrees code) ∧
      (e.subject = .controlFlow → Leaves code) := by
  cases e with
  | empty => exact absurd h hsize
  | underflow pc =>
    obtain ⟨depth, c, hpath, hc, hlt⟩ := h
    exact ⟨fun _ => .inl ⟨pc, depth, c, hpath.walk, hc, by omega⟩, nofun⟩
  | leaves pc =>
    obtain ⟨depth, c, target, hpath, hc, -, hnext, hout⟩ := h
    exact ⟨nofun, fun _ => ⟨target, _, .step hpath.walk hc hnext, hout⟩⟩
  | mismatch pc depth other =>
    obtain ⟨hpath, hother, hne⟩ := h
    exact ⟨fun _ => .inr ⟨pc, depth, other, hpath.walk, hother.walk, by omega⟩, nofun⟩

/-- The numbers that no walk goes above with the depth that an instruction
leaves. -/
def Bounds (code : Array Code) : Set Int :=
  { bound | ∀ (pc : Nat) (depth : Int) (c : Code),
      Walk code pc depth → code[pc]? = some c → depth + effect c ≤ bound }

theorem Consistent.mem_bounds {code : Array Code} {depthAt : Nat → Option Nat} {deepest : Nat}
    (h : Consistent code depthAt deepest) : (deepest : Int) ∈ Bounds code := by
  intro pc depth c hwalk hc
  obtain ⟨d, rfl, hpath⟩ := h.exists_path hwalk
  obtain ⟨enough, hle⟩ := h.after_le_of_path hpath hc
  rw [← cast_after enough]
  exact_mod_cast hle

/-- A depth that some path attains is below every bound. -/
theorem Attained.le_of_mem_bounds {code : Array Code} {depthAt : Nat → Option Nat}
    {bound deepest : Nat} (hattained : Attained code deepest)
    (h : Consistent code depthAt bound) :
    (deepest : Int) ∈ lowerBounds (Bounds code) := by
  intro other hother
  rcases hattained with rfl | ⟨pc, depth, c, hpath, hc, rfl⟩
  · -- the first instruction finds an empty stack, so it pops nothing
    obtain ⟨c, hc, enough, -⟩ := h.agrees 0 0 h.start
    have hle := hother 0 0 c .start hc
    unfold effect at hle
    omega
  · have hle := hother pc depth c hpath.walk hc
    rw [← cast_after (h.after_le_of_path hpath hc).1] at hle
    exact hle

/-- Code is accepted exactly if no walk underflows or leaves the code, and no two
walks come to one address with different depths. The result is the least bound
of the depths after instructions, and a refusal is about a walk that goes wrong
in the way that the wording of the error says at its end. -/
theorem compute_exact {code : Array Code} (hsize : code.size ≠ 0) :
    ((∃ n, compute code = .ok n) ↔ ¬ Underflows code ∧ ¬ Leaves code ∧ ¬ Disagrees code) ∧
      (∀ n : Nat, compute code = .ok n → IsLeast (Bounds code) n) ∧
      ∀ e, compute code = .error e →
        (ascii "inconsistent stack depth" <:+ e.message ∨
            ascii "control flow leaves routine without return" <:+ e.message) ∧
          (ascii "inconsistent stack depth" <:+ e.message → Underflows code ∨ Disagrees code) ∧
          (ascii "control flow leaves routine without return" <:+ e.message → Leaves code) := by
  have hrefused : ∀ e, compute code = .error e → e.Holds code := by
    intro e he
    rw [compute_eq_explore] at he
    cases hexplore : explore code with
    | error e' =>
      rw [hexplore] at he
      obtain rfl := Except.error.inj he
      exact explore_error hexplore
    | ok result =>
      rw [hexplore] at he
      cases he
  refine ⟨⟨?_, ?_⟩, ?_, ?_⟩
  · rintro ⟨n, hn⟩
    obtain ⟨depths, hexplore⟩ := compute_eq_ok_iff.mp hn
    exact (explore_ok hexplore).1.in_order
  · rintro ⟨hunder, hleaves, hdisagrees⟩
    cases hcompute : compute code with
    | ok n => exact ⟨n, rfl⟩
    | error e =>
      obtain ⟨hdepth, hflow⟩ := (hrefused e hcompute).walk hsize
      cases hsubject : e.subject with
      | stackDepth => exact absurd (hdepth hsubject) (not_or.mpr ⟨hunder, hdisagrees⟩)
      | controlFlow => exact absurd (hflow hsubject) hleaves
  · intro n hn
    obtain ⟨depths, hexplore⟩ := compute_eq_ok_iff.mp hn
    obtain ⟨hconsistent, -, hattained⟩ := explore_ok hexplore
    exact ⟨hconsistent.mem_bounds, hattained.le_of_mem_bounds hconsistent⟩
  · intro e he
    obtain ⟨hdepth, hflow⟩ := (hrefused e he).walk hsize
    refine ⟨?_, fun h => hdepth (Error.subject_eq_of_suffix (s := .stackDepth) h),
      fun h => hflow (Error.subject_eq_of_suffix (s := .controlFlow) h)⟩
    have hsuffix := e.suffix_message
    cases hsubject : e.subject with
    | stackDepth =>
      rw [hsubject] at hsuffix
      exact .inl hsuffix
    | controlFlow =>
      rw [hsubject] at hsuffix
      exact .inr hsuffix

/-- A loop whose condition needs two operands, and a sum after it. -/
def looping : Array Code :=
  #[{ op := Opcode.pushInt.byte }, { op := Opcode.pushInt.byte }, { op := Opcode.branch.byte },
    { op := Opcode.openOutput.byte }, { op := Opcode.pushInt.byte }, { op := Opcode.pushInt.byte },
    { op := Opcode.add.byte }, { op := Opcode.print.byte }, { op := Opcode.ret.byte }]

theorem compute_exact_looping :
    looping.size ≠ 0 ∧ compute looping = .ok 3 ∧ IsLeast (Bounds looping) 3 ∧
      ¬ Underflows looping ∧ ¬ Leaves looping ∧ ¬ Disagrees looping := by
  have hsize : looping.size ≠ 0 := by decide
  have hcompute : compute looping = .ok 3 := by decide +kernel
  obtain ⟨haccepts, hleast, -⟩ := compute_exact hsize
  exact ⟨hsize, hcompute, hleast 3 hcompute, haccepts.mp ⟨3, hcompute⟩⟩

end Stackling.StackDepth
