import Mathlib.Tactic.Common
import Stackling.Proofs.Assemble
import Stackling.Proofs.StackDepth

/-!
# Code with depth marks

The stack depths of symbolic code can be written down beside its instructions,
before anybody knows addresses. `Flow` says that the marks of a piece of code
fit together; it is a statement about neighbours and labels, so pieces can be
put together (`flow_append`). For the code as a whole the marks turn into a
certificate for the search for the greatest depth:

* **consistent** — each mark is the depth of its instruction's address
  (`consistent_of_flow`);
* **reached** — control comes to every instruction, if each jump is followed by
  a label that is jumped to from before (`path_of_split`);
* **greatest depth** — the search finds the peak of the marks
  (`compute_eq_peak`).
-/

namespace Stackling

open Assemble StackDepth

@[simp] theorem Opcode.popsOf_byte (op : Opcode) : popsOf op.byte = op.pops := by
  simp [popsOf, ofByte?_byte]

@[simp] theorem Opcode.pushesOf_byte (op : Opcode) : pushesOf op.byte = op.pushes := by
  simp [pushesOf, ofByte?_byte]

namespace Instruction

/-- The depth after an instruction that is executed with the given depth. -/
def leaves (i : Instruction) (depth : Nat) : Nat :=
  depth - Opcode.popsOf i.op + Opcode.pushesOf i.op

/-- Whether control may go on to the instruction that follows. -/
def goesOn : Instruction → Bool
  | .jump _ | .ret => false
  | _ => true

end Instruction

namespace Assemble

theorem Resolves.after_eq {address : Label → Option Nat} {pool : Pool} {i : Instruction}
    {c : Code} (h : Resolves address pool i c) (depth : Nat) :
    after c depth = i.leaves depth := by
  simp only [after, Instruction.leaves, h.op_eq]

/-- Where control goes after an instruction that was resolved. -/
theorem Resolves.mem_successors {address : Label → Option Nat} {pool : Pool} {i : Instruction}
    {c : Code} (h : Resolves address pool i c) {pc : Nat} {target : Int} :
    target ∈ successors c pc ↔ (i.goesOn = true ∧ target = pc + 1) ∨
      ∃ l a, i.target? = some l ∧ address l = some a ∧ target = (Int32.ofNat a).toInt := by
  cases h with
  | branch relation place | jump place =>
    simp [successors, Code.opcode?, Instruction.goesOn, Instruction.target?, place]
  | arith op =>
    cases op <;>
      simp [successors, Code.opcode?, Instruction.goesOn, Instruction.target?, Arith.opcode]
  | undefined op hop =>
    simp [successors, Code.opcode?, Instruction.goesOn, Instruction.target?, hop]
  | _ => simp [successors, Code.opcode?, Instruction.goesOn, Instruction.target?]

end Assemble

/-! ## Marks -/

/-- Code in which every instruction has a depth beside it. -/
abbrev Marked := List (Nat × Instruction)

namespace Marked

/-- The code without the marks. -/
def code (marked : Marked) : List Instruction := marked.map (·.2)

@[simp] theorem code_nil : code [] = [] := rfl

@[simp] theorem code_cons (depth : Nat) (i : Instruction) (rest : Marked) :
    code ((depth, i) :: rest) = i :: code rest := rfl

@[simp] theorem code_append (first rest : Marked) :
    code (first ++ rest) = code first ++ code rest := by
  simp [code]

/-- The first mark, or the depth at the end if there is none. -/
def entry : Marked → Nat → Nat
  | [], out => out
  | (depth, _) :: _, _ => depth

@[simp] theorem entry_nil (out : Nat) : entry [] out = out := rfl

@[simp] theorem entry_cons (depth : Nat) (i : Instruction) (rest : Marked) (out : Nat) :
    entry ((depth, i) :: rest) out = depth := rfl

@[simp] theorem entry_append (first rest : Marked) (out : Nat) :
    entry (first ++ rest) out = entry first (entry rest out) := by
  cases first <;> rfl

/-- The marks of a part of the whole code fit together: there are enough operands
for every instruction, the mark that follows is the depth that it leaves unless
it jumps away, and so are the marks of the labels that it goes to. -/
def Flow (whole : Marked) : Marked → Nat → Prop
  | [], _ => True
  | (depth, i) :: rest, out =>
    (Opcode.popsOf i.op ≤ depth ∧ (i.goesOn = true → entry rest out = i.leaves depth) ∧
      ∀ l, i.target? = some l → (i.leaves depth, .label l) ∈ whole) ∧
    Flow whole rest out

@[simp] theorem flow_nil (whole : Marked) (out : Nat) : Flow whole [] out := trivial

theorem flow_append {whole first rest : Marked} {out : Nat} :
    Flow whole (first ++ rest) out ↔ Flow whole first (entry rest out) ∧ Flow whole rest out := by
  induction first with
  | nil => simp
  | cons mark first ih =>
    obtain ⟨depth, i⟩ := mark
    simp only [List.cons_append, Flow, entry_append, ih, and_assoc]

/-- The greatest depth that an instruction of the code leaves. -/
def peak : Marked → Nat
  | [] => 0
  | (depth, i) :: rest => if i.isLabel then peak rest else max (i.leaves depth) (peak rest)

@[simp] theorem peak_append (first rest : Marked) :
    peak (first ++ rest) = max (peak first) (peak rest) := by
  induction first with
  | nil => simp [peak]
  | cons mark first ih =>
    simp only [List.cons_append, peak, ih]
    split <;> omega

theorem leaves_le_peak {marked : Marked} {depth : Nat} {i : Instruction}
    (h : (depth, i) ∈ marked) (hi : i.isLabel = false) : i.leaves depth ≤ peak marked := by
  induction marked with
  | nil => simp at h
  | cons mark marked ih =>
    rcases List.mem_cons.mp h with rfl | h
    · simp [peak, hi]
    · have hrest := ih h
      simp only [peak]
      split <;> omega

theorem exists_of_peak (marked : Marked) : peak marked = 0 ∨
    ∃ depth i, (depth, i) ∈ marked ∧ i.isLabel = false ∧ i.leaves depth = peak marked := by
  induction marked with
  | nil => exact .inl rfl
  | cons mark marked ih =>
    obtain ⟨depth, i⟩ := mark
    have hrest : peak marked = 0 ∨ ∃ depth' j, (depth', j) ∈ (depth, i) :: marked ∧
        j.isLabel = false ∧ j.leaves depth' = peak marked := by
      rcases ih with ih | ⟨depth', j, hmem, hj, hpeak⟩
      · exact .inl ih
      · exact .inr ⟨depth', j, List.mem_cons_of_mem _ hmem, hj, hpeak⟩
    cases hi : i.isLabel with
    | true => simpa [peak, hi] using hrest
    | false =>
      simp only [peak, hi, Bool.false_eq_true, if_false]
      rcases Nat.le_total (peak marked) (i.leaves depth) with hle | hle
      · exact .inr ⟨depth, i, List.mem_cons_self, hi, by omega⟩
      · rw [Nat.max_eq_right hle]
        exact hrest

/-- The mark of the instruction at an address. -/
def depthAt (marked : Marked) (pc : Nat) : Option Nat :=
  (marked.filter fun mark => !mark.2.isLabel)[pc]?.map (·.1)

theorem depthAt_of_split (first rest : Marked) {depth : Nat} {i : Instruction}
    (hi : i.isLabel = false) :
    depthAt (first ++ (depth, i) :: rest) (span first.code) = some depth := by
  have hlength : (first.filter fun mark => !mark.2.isLabel).length = span first.code := by
    rw [span_eq_length_filter, code, List.filter_map, List.length_map]
    rfl
  rw [depthAt, List.filter_append, List.filter_cons_of_pos (by simp [hi]), ← hlength]
  simp

theorem split_of_depthAt {marked : Marked} {pc depth : Nat} (h : marked.depthAt pc = some depth) :
    ∃ (first : Marked) (i : Instruction) (rest : Marked),
      marked = first ++ (depth, i) :: rest ∧ i.isLabel = false ∧ span first.code = pc := by
  induction marked generalizing pc with
  | nil => simp [depthAt] at h
  | cons mark marked ih =>
    obtain ⟨depth', i⟩ := mark
    cases hi : i.isLabel with
    | true =>
      obtain ⟨l, rfl⟩ := eq_label_of_isLabel hi
      have hrest : depthAt marked pc = some depth := by simpa [depthAt, hi] using h
      obtain ⟨first, j, rest, rfl, hj, rfl⟩ := ih hrest
      exact ⟨(depth', .label l) :: first, j, rest, rfl, hj, by simp⟩
    | false =>
      cases pc with
      | zero =>
        obtain rfl : depth' = depth := by simpa [depthAt, hi] using h
        exact ⟨[], i, marked, rfl, hi, rfl⟩
      | succ pc =>
        have hrest : depthAt marked pc = some depth := by simpa [depthAt, hi] using h
        obtain ⟨first, j, rest, rfl, hj, rfl⟩ := ih hrest
        exact ⟨(depth', i) :: first, j, rest, rfl, hj, by rw [code_cons, span_cons hi]⟩

/-! ## Whole code -/

/-- The marks of code that ends with a return. -/
structure Whole (marked : Marked) : Prop where
  start : entry marked 0 = 0
  flow : Flow marked marked 0
  ret : ∃ (body : Marked) (depth : Nat), marked = body ++ [(depth, .ret)]

section Whole

variable {marked : Marked}

/-- Something other than a label comes after every place of the code but the
last. -/
theorem Whole.exists_of_suffix (h : marked.Whole) {first rest : Marked}
    (hsplit : marked = first ++ rest) (hrest : rest ≠ []) :
    ∃ mark ∈ rest, mark.2.isLabel = false := by
  obtain ⟨body, depth, hbody⟩ := h.ret
  refine ⟨rest.getLast hrest, List.getLast_mem hrest, ?_⟩
  have hlast : rest.getLast? = some (depth, .ret) := by
    rw [← List.getLast?_append_of_ne_nil first hrest, ← hsplit, hbody]
    simp
  rw [List.getLast?_eq_some_getLast hrest] at hlast
  rw [Option.some.inj hlast]
  rfl

/-- The address of a place has the mark that stands there, be it the mark of a
label. -/
theorem depthAt_entry (first : Marked) {whole rest : Marked} {out : Nat}
    (hflow : Flow whole rest out) (hrest : ∃ mark ∈ rest, mark.2.isLabel = false) :
    depthAt (first ++ rest) (span first.code) = some (entry rest out) := by
  induction rest generalizing first with
  | nil => simp at hrest
  | cons mark rest ih =>
    obtain ⟨depth, i⟩ := mark
    cases hi : i.isLabel with
    | false => exact depthAt_of_split first rest hi
    | true =>
      obtain ⟨l, rfl⟩ := eq_label_of_isLabel hi
      have hmore : ∃ mark ∈ rest, mark.2.isLabel = false := by
        simpa [Instruction.isLabel] using hrest
      have hnext : entry rest out = depth := hflow.1.2.1 rfl
      have hplace := ih (first ++ [(depth, .label l)]) hflow.2 hmore
      simpa [hnext] using hplace

theorem Whole.depthAt_of_suffix (h : marked.Whole) {first rest : Marked}
    (hsplit : marked = first ++ rest) (hrest : rest ≠ []) :
    depthAt marked (span first.code) = some (entry rest 0) := by
  have hflow := h.flow
  rw [hsplit, flow_append, ← hsplit] at hflow
  have hplace := depthAt_entry first hflow.2 (h.exists_of_suffix hsplit hrest)
  rwa [← hsplit] at hplace

/-- What `Flow` says of one instruction of the whole. -/
theorem Whole.flow_of_split (h : marked.Whole) {first rest : Marked} {depth : Nat}
    {i : Instruction} (hsplit : marked = first ++ (depth, i) :: rest) :
    Opcode.popsOf i.op ≤ depth ∧
      (i.goesOn = true → rest ≠ [] ∧ entry rest 0 = i.leaves depth) ∧
      ∀ l, i.target? = some l → (i.leaves depth, .label l) ∈ marked := by
  have hflow := h.flow
  rw [hsplit, flow_append, ← hsplit] at hflow
  obtain ⟨enough, hnext, htarget⟩ := hflow.2.1
  refine ⟨enough, fun hgoes => ⟨?_, hnext hgoes⟩, htarget⟩
  rintro rfl
  obtain ⟨body, depth', hbody⟩ := h.ret
  have hlast := congrArg List.getLast? (hsplit.symm.trans hbody)
  simp only [List.getLast?_concat, Option.some.injEq, Prod.mk.injEq] at hlast
  rw [hlast.2] at hgoes
  exact absurd hgoes (by decide)

/-- A label of the whole has an address, and the depth there is its mark. -/
theorem Whole.depthAt_of_label (h : marked.Whole) {pool : Pool} {codes : Array Code}
    (hresolved : Resolved pool marked.code codes) {depth : Nat} {l : Label}
    (hmem : (depth, .label l) ∈ marked) :
    ∃ a ≤ span marked.code, address? marked.code l = some a ∧ depthAt marked a = some depth := by
  obtain ⟨first, rest, hsplit⟩ := List.append_of_mem hmem
  have hcode : marked.code = code first ++ .label l :: code rest := by
    rw [hsplit, code_append, code_cons]
  refine ⟨span (code first), by rw [hcode]; simp, hresolved.address?_eq hcode, ?_⟩
  exact h.depthAt_of_suffix hsplit (by simp)

/-- The marks of whole code are consistent with what it is resolved to. -/
theorem Whole.consistent (h : marked.Whole) {pool : Pool} {codes : Array Code}
    (hresolved : Resolved pool marked.code codes) (hspan : span marked.code < 2 ^ 31) :
    Consistent codes marked.depthAt marked.peak := by
  refine ⟨?_, fun pc depth hdepth => ?_⟩
  · obtain ⟨body, depth, hbody⟩ := h.ret
    have hstart := h.depthAt_of_suffix (List.nil_append marked).symm (by simp [hbody])
    rwa [h.start] at hstart
  · obtain ⟨first, i, rest, hsplit, hi, rfl⟩ := split_of_depthAt hdepth
    have hcode : marked.code = first.code ++ i :: code rest := by
      rw [hsplit, code_append, code_cons]
    obtain ⟨c, hc, hresolves⟩ := hresolved.code_of_split hcode hi
    obtain ⟨enough, hnext, htarget⟩ := h.flow_of_split hsplit
    refine ⟨c, hc, hresolves.op_eq ▸ enough, ?_, fun target ht => ?_⟩
    · rw [hresolves.after_eq]
      exact leaves_le_peak (by simp [hsplit]) hi
    · rw [hresolves.after_eq]
      rcases hresolves.mem_successors.mp ht with ⟨hgoes, rfl⟩ | ⟨l, a, hl, ha, rfl⟩
      · obtain ⟨hrest, hentry⟩ := hnext hgoes
        refine ⟨span first.code + 1, by simp, ?_⟩
        have hafter : marked = (first ++ [(depth, i)]) ++ rest := by simpa using hsplit
        have hplace := h.depthAt_of_suffix hafter hrest
        rw [code_append, span_append, hentry] at hplace
        simpa [span_cons hi] using hplace
      · obtain ⟨b, hle, hb, hdepth'⟩ := h.depthAt_of_label hresolved (htarget l hl)
        obtain rfl : a = b := Option.some.inj (ha.symm.trans hb)
        exact ⟨a, Int32.toInt_ofNat_of_lt (by omega), hdepth'⟩

end Whole

/-! ## Reached code -/

/-- Every jump is followed by a label that it goes to itself, or that is among
those gone to before; and nothing follows a return. -/
def Entered : List Label → List Instruction → Prop
  | _, [] => True
  | seen, .jump l :: rest =>
    (∃ l' ∈ l :: seen, ∃ more, rest = .label l' :: more) ∧ Entered (l :: seen) rest
  | seen, .branch _ l :: rest => Entered (l :: seen) rest
  | _, .ret :: rest => rest = []
  | seen, _ :: rest => Entered seen rest

theorem Entered.mono {seen seen' : List Label} {code : List Instruction} (h : Entered seen code)
    (hsub : seen ⊆ seen') : Entered seen' code := by
  induction code generalizing seen seen' with
  | nil => trivial
  | cons i code ih =>
    cases i with
    | jump l =>
      obtain ⟨⟨l', hl', more, hmore⟩, hrest⟩ := h
      have hcons : l :: seen ⊆ l :: seen' := List.cons_subset_cons l hsub
      exact ⟨⟨l', hcons hl', more, hmore⟩, ih hrest hcons⟩
    | branch relation l =>
      have hrest : Entered (l :: seen) code := h
      exact ih hrest (List.cons_subset_cons l hsub)
    | ret => exact h
    | _ =>
      have hrest : Entered seen code := h
      exact ih hrest hsub

section Reached

variable {marked : Marked} {pool : Pool} {codes : Array Code}

/-- Control can come to an address. -/
private def Reached (codes : Array Code) (pc : Nat) : Prop := ∃ depth, Path codes pc depth

/-- From an instruction that is reached, control comes to each of its
successors. -/
private theorem Reached.step (h : marked.Whole) (hresolved : Resolved pool marked.code codes)
    (hspan : span marked.code < 2 ^ 31) {first rest : Marked} {depth : Nat} {i : Instruction}
    (hsplit : marked = first ++ (depth, i) :: rest) (hi : i.isLabel = false)
    (hreached : Reached codes (span first.code)) :
    (i.goesOn = true → Reached codes (span first.code + 1)) ∧
      ∀ l a, i.target? = some l → address? marked.code l = some a → Reached codes a := by
  obtain ⟨depth', hpath⟩ := hreached
  have hcode : marked.code = first.code ++ i :: code rest := by
    rw [hsplit, code_append, code_cons]
  obtain ⟨c, hc, hresolves⟩ := hresolved.code_of_split hcode hi
  have enough : Opcode.popsOf c.op ≤ depth' := by
    obtain ⟨a, ha, hdepth⟩ := (h.consistent hresolved hspan).depth_of_path hpath
    obtain rfl : span first.code = a := by omega
    obtain ⟨c', hc', henough, _⟩ := (h.consistent hresolved hspan).agrees _ _ hdepth
    obtain rfl : c = c' := Option.some.inj (hc.symm.trans hc')
    exact henough
  refine ⟨fun hgoes => ?_, fun l a hl ha => ?_⟩
  · exact ⟨_, .step hpath hc enough (hresolves.mem_successors.mpr (.inl ⟨hgoes, rfl⟩))⟩
  · obtain ⟨before, more, hlabel, _, rfl⟩ := split_of_address? ha
    have hlt : span before < 2 ^ 31 := by
      rw [hlabel] at hspan
      simp only [span_append, span_cons_label] at hspan
      omega
    have hpath' := StackDepth.Path.step hpath hc enough
      (hresolves.mem_successors.mpr (.inr ⟨l, _, hl, ha, rfl⟩))
    rw [Int32.toInt_ofNat_of_lt hlt] at hpath'
    exact ⟨_, hpath'⟩

/-- Control comes to every place of code whose jumps are followed by labels that
are entered. The induction is on what is left of the code, and `seen` are labels
that control is known to come to. -/
private theorem reached_of_split (h : marked.Whole)
    (hresolved : Resolved pool marked.code codes) (hspan : span marked.code < 2 ^ 31)
    (rest : Marked) : ∀ (first : Marked) (seen : List Label), marked = first ++ rest →
      Entered seen rest.code → Reached codes (span first.code) →
      (∀ l ∈ seen, ∃ a, address? marked.code l = some a ∧ Reached codes a) →
      ∀ (before : Marked) (mark : Nat × Instruction) (more : Marked),
        rest = before ++ mark :: more → Reached codes (span (first ++ before).code) := by
  induction rest with
  | nil => simp
  | cons mark rest ih =>
    intro first seen hsplit hentered hreached hseen before mark' more hmark
    obtain ⟨depth, i⟩ := mark
    have hsplit' : marked = (first ++ [(depth, i)]) ++ rest := by simpa using hsplit
    cases before with
    | nil => simpa using hreached
    | cons _ before =>
      rw [List.cons_append, List.cons.injEq] at hmark
      obtain ⟨rfl, hrest⟩ := hmark
      -- it is enough to come to the next place, with labels that are known to be reached
      have next : ∀ seen', Entered seen' (code rest) →
          Reached codes (span (code (first ++ [(depth, i)]))) →
          (∀ l ∈ seen', ∃ a, address? marked.code l = some a ∧ Reached codes a) →
          Reached codes (span (code (first ++ (depth, i) :: before))) := by
        intro seen' hentered' hreached' hseen'
        have hfound := ih _ seen' hsplit' hentered' hreached' hseen' before mark' more hrest
        simpa using hfound
      cases hi : i.isLabel with
      | true =>
        obtain ⟨l, rfl⟩ := eq_label_of_isLabel hi
        exact next seen hentered (by simpa using hreached) hseen
      | false =>
        obtain ⟨hgo, htarget⟩ := Reached.step h hresolved hspan hsplit hi hreached
        have hplace : span (code (first ++ [(depth, i)])) = span first.code + 1 := by
          simp [span_cons hi]
        obtain ⟨_, _, hmarks⟩ := h.flow_of_split hsplit
        -- the labels that are known to be reached, and the one that `i` goes to
        have hsee : ∀ l, i.target? = some l →
            ∀ l' ∈ l :: seen, ∃ a, address? marked.code l' = some a ∧ Reached codes a := by
          intro l hl l' hl'
          rcases List.mem_cons.mp hl' with rfl | hl'
          · obtain ⟨a, _, ha, _⟩ := h.depthAt_of_label hresolved (hmarks l' hl)
            exact ⟨a, ha, htarget l' a hl ha⟩
          · exact hseen l' hl'
        cases i with
        | jump l =>
          -- control does not go on, but the label that comes next is one that it comes to
          rw [code_cons] at hentered
          obtain ⟨⟨l', hl', more', hmore'⟩, hentered'⟩ := hentered
          refine next (l :: seen) hentered' ?_ (hsee l rfl)
          obtain ⟨a, ha, hreach⟩ := hsee l rfl l' hl'
          have hcode : marked.code
              = code (first ++ [(depth, Instruction.jump l)]) ++ .label l' :: more' := by
            rw [hsplit', code_append, hmore']
          obtain rfl := Option.some.inj (ha.symm.trans (hresolved.address?_eq hcode))
          exact hreach
        | branch relation l =>
          exact next (l :: seen) hentered (hplace ▸ hgo rfl) (hsee l rfl)
        | ret =>
          -- nothing follows a return
          have hnone : code rest = [] := hentered
          rw [hrest, code_append] at hnone
          simp [code] at hnone
        | label l => simp [Instruction.isLabel] at hi
        | _ => exact next seen hentered (hplace ▸ hgo rfl) hseen

/-- Control comes to every instruction with the depth that it is marked with. -/
theorem Whole.path_of_split (h : marked.Whole) (hresolved : Resolved pool marked.code codes)
    (hspan : span marked.code < 2 ^ 31) (hentered : Entered [] marked.code)
    {first rest : Marked} {depth : Nat} {i : Instruction}
    (hsplit : marked = first ++ (depth, i) :: rest) (hi : i.isLabel = false) :
    Path codes (span first.code) depth := by
  have hstart : Reached codes (span (code [])) := ⟨0, .start⟩
  obtain ⟨depth', hpath⟩ := reached_of_split h hresolved hspan marked [] [] rfl hentered hstart
    (by simp) first (depth, i) rest hsplit
  rw [List.nil_append] at hpath
  -- the depth of a path is the recorded one, which is the mark
  obtain ⟨a, ha, hdepth⟩ := (h.consistent hresolved hspan).depth_of_path hpath
  obtain rfl : span first.code = a := by omega
  rw [hsplit, depthAt_of_split first rest hi] at hdepth
  rw [Option.some.inj hdepth]
  exact hpath

/-- The greatest depth of code is the peak of its marks. -/
theorem Whole.compute_eq_peak (h : marked.Whole) (hresolved : Resolved pool marked.code codes)
    (hspan : span marked.code < 2 ^ 31) (hentered : Entered [] marked.code) :
    compute codes = .ok marked.peak := by
  refine compute_eq_of_attained (h.consistent hresolved hspan) ?_
  rcases exists_of_peak marked with hzero | ⟨depth, i, hmem, hi, hpeak⟩
  · exact .inl hzero
  · obtain ⟨first, rest, hsplit⟩ := List.append_of_mem hmem
    have hpath := h.path_of_split hresolved hspan hentered hsplit hi
    have hcode : marked.code = code first ++ i :: code rest := by
      rw [hsplit, code_append, code_cons]
    obtain ⟨c, hc, hresolves⟩ := hresolved.code_of_split hcode hi
    exact .inr ⟨_, depth, c, hpath, hc, by rw [hresolves.after_eq, hpeak]⟩

end Reached

end Marked

end Stackling
