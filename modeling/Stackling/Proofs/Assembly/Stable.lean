import Mathlib.Tactic.Common
import Stackling.Proofs.Assembly.RoundTrip
import Stackling.Proofs.SoundUnit

/-!
# Text assembly written again

Which units stay the same when they are written as text assembly and read again.

* **printable units** — units whose names are printable ASCII without spaces, and
  whose instructions are those that can be built (`Assembly.read_format_of_printable`);
* **units that were read** — whatever text they come from, they can be written and
  read again (`Assembly.legible_of_read`), and what comes back is the same unit if and
  only if no label ends with white space (`Assembly.read_again`).

A label may end with white space other than a space or a tab, if a comment follows
it: only spaces and tabs end a word, but all white space is trimmed from the end of a
line. Without the comment, which is not written again, the label stands at the end of
its line and is read without the white space (`Assembly.padded_label_is_lost`).
-/

namespace Stackling

/-! ## Printable units -/

/-- One or more printable ASCII characters other than the space. -/
def Assembly.IsPrintable (w : Bytes) : Prop := w ≠ [] ∧ w.all (fun b => 33 ≤ b && b ≤ 126) = true

instance (w : Bytes) : Decidable (Assembly.IsPrintable w) := inferInstanceAs (Decidable (_ ∧ _))

/-- An instruction with a kind and a relation that there is, a slot that is not
negative, and a printable label. -/
def Instruction.IsBuilt : Instruction → Prop
  | .load kind slot | .store kind slot => (kind = .int ∨ kind = .ref) ∧ 0 ≤ slot.toInt
  | .print kind => kind = .int ∨ kind = .ref
  | .branch relation target =>
    relation ∈ [Relation.gt, Relation.lt, Relation.eq, Relation.ne, Relation.ge, Relation.le] ∧
      Assembly.IsPrintable target
  | .jump target | .label target => Assembly.IsPrintable target
  | .undefined _ _ => False
  | .pushInt _ | .pushText _ | .arith _ | .openOutput | .openInput | .readInt | .readLine | .ret =>
    True

instance : (i : Instruction) → Decidable i.IsBuilt
  | .load _ _ | .store _ _ | .branch _ _ => inferInstanceAs (Decidable (_ ∧ _))
  | .print _ => inferInstanceAs (Decidable (_ ∨ _))
  | .jump target | .label target => inferInstanceAs (Decidable (Assembly.IsPrintable target))
  | .undefined _ _ => .isFalse id
  | .pushInt _ | .pushText _ | .arith _ | .openOutput | .openInput | .readInt | .readLine | .ret =>
    .isTrue trivial

namespace Assembly

theorem IsPrintable.isWord {w : Bytes} (h : IsPrintable w) : IsWord w := by
  refine ⟨h.1, List.all_eq_true.mpr fun b hb => ?_⟩
  have hrange := List.all_eq_true.mp h.2 b hb
  simp only [Bool.and_eq_true, decide_eq_true_eq, UInt8.le_iff_toNat_le,
    UInt8.reduceToNat] at hrange
  exact Blank.stops_of_lt (by omega) (by omega)

theorem isReadable_of_isBuilt {i : Instruction} (h : i.IsBuilt) : i.IsReadable := by
  have hkind : ∀ kind : Kind, kind = .int ∨ kind = .ref → kind.isKnown = true := by
    rintro kind (rfl | rfl) <;> rfl
  have hrelation : ∀ relation ∈ [Relation.gt, Relation.lt, Relation.eq, Relation.ne, Relation.ge,
      Relation.le], relation.isKnown = true := by
    decide
  cases i with
  | load kind slot | store kind slot =>
    exact ⟨⟨hkind kind h.1, by simp [Instruction.label?]⟩, decide_eq_true h.2⟩
  | print kind => exact ⟨⟨hkind kind h, by simp [Instruction.label?]⟩, rfl⟩
  | branch relation target =>
    refine ⟨⟨hrelation relation h.1, ?_⟩, rfl⟩
    rintro _ ⟨⟩
    exact h.2.isWord
  | jump target | label target =>
    refine ⟨⟨rfl, ?_⟩, rfl⟩
    rintro _ ⟨⟩
    exact IsPrintable.isWord h
  | undefined => exact h.elim
  | _ => exact ⟨⟨rfl, by simp [Instruction.label?]⟩, rfl⟩

/-- A unit with printable names is read from its text: the same name, and the same
routines in order, each with its name, its number of slots and its instructions. -/
theorem read_format_of_printable {unit : AsmUnit} (hname : IsPrintable unit.name)
    (hroutine : ∀ r ∈ unit.routines, IsPrintable r.name ∧ 0 ≤ r.locals ∧ r.locals ≤ 2147483647 ∧
      ∀ i ∈ r.code, i.IsBuilt) : read (.ofBytes unit.format) = .ok unit := by
  refine read_format ⟨hname.isWord, fun r hr => ?_⟩
  obtain ⟨hword, hnonneg, hle, hcode⟩ := hroutine r hr
  exact ⟨hword.isWord, hnonneg, hle, fun i hi => isReadable_of_isBuilt (hcode i hi)⟩

/-- A unit with instructions of all shapes, a label that looks like a comment, and a
text with a newline, a quote, a backslash, two slashes and a byte that is no text. -/
def allShapes : AsmUnit where
  name := ascii "all-shapes"
  routines :=
    [{ name := ascii "main"
       locals := 2147483647
       code :=
         [.pushInt (-2147483648), .pushText (ascii "a\n\"// \\" ++ [0xFF]), .load .int 0,
           .store .ref 2147483647, .arith .add, .arith .sub, .arith .mul, .arith .div,
           .branch .le (ascii "//"), .jump (ascii "L0"), .label (ascii "L0"), .openOutput,
           .openInput, .print .ref, .readInt, .readLine, .ret] },
      { name := ascii "ROUTINE", locals := 0, code := [] }]

theorem read_format_of_printable_allShapes : IsPrintable allShapes.name ∧
    (∀ r ∈ allShapes.routines, IsPrintable r.name ∧ 0 ≤ r.locals ∧ r.locals ≤ 2147483647 ∧
      ∀ i ∈ r.code, i.IsBuilt) ∧ read (.ofBytes allShapes.format) = .ok allShapes := by
  have hname : IsPrintable allShapes.name := by decide
  have hroutine : ∀ r ∈ allShapes.routines, IsPrintable r.name ∧ 0 ≤ r.locals ∧
      r.locals ≤ 2147483647 ∧ ∀ i ∈ r.code, i.IsBuilt := by
    decide
  exact ⟨hname, hroutine, read_format_of_printable hname hroutine⟩

/-! ## Units that were read -/

/-- The words of a line are names, as long as the line has no newline but at its end.
A word that nothing follows has no white space at its end. -/
theorem nextWord_spec {line : Bytes} (h : Bytes.newline ∉ Blank.trim line) :
    ((nextWord line).1 ≠ [] → IsName (nextWord line).1) ∧
      ((nextWord line).1 ≠ [] → (nextWord line).2 = [] → Blank.Aft (nextWord line).1) ∧
      Bytes.newline ∉ Blank.trim (nextWord line).2 := by
  generalize htext : Blank.trim line = text at h
  have htight : text ≠ [] → Blank.Tight text := by
    intro hne
    rw [← htext] at hne ⊢
    exact Blank.tight_trim hne
  have hword : (nextWord line).1 = text.takeWhile (!isSeparator ·) := by rw [nextWord, htext]
  have hrest : (nextWord line).2 = Blank.trim (text.dropWhile (!isSeparator ·)) := by
    rw [nextWord, htext]
  rw [hword, hrest]
  have hsplit := @List.takeWhile_append_dropWhile _ (!isSeparator ·) text
  generalize hw : text.takeWhile (!isSeparator ·) = w at hsplit ⊢
  generalize text.dropWhile (!isSeparator ·) = rest at hsplit ⊢
  rw [← hsplit, List.mem_append, not_or] at h
  have hwhole : w ≠ [] → Blank.Tight (w ++ rest) := by
    intro hne
    exact hsplit ▸ htight (by rw [← hsplit]; simp [hne])
  refine ⟨fun hne => ⟨(hwhole hne).fore.of_append hne, ?_, h.1⟩, ?_, ?_⟩
  · intro b hb
    have hb' : (!isSeparator b) = true := List.all_eq_true.mp List.all_takeWhile b (hw ▸ hb)
    simpa using hb'
  · intro hne hnil
    -- what follows the word is white space, which the end of the line does not have
    have hend := (hwhole hne).aft.trimmed
    rw [Blank.trimRight_append (Blank.isBlankText_of_trim hnil)] at hend
    obtain ⟨blanks, _, hblanks⟩ := Blank.trimRight_spec w
    rw [hend] at hblanks
    have hlength := congrArg List.length hblanks
    simp only [List.length_append] at hlength
    have hempty : rest = [] := List.eq_nil_of_length_eq_zero (by omega)
    rw [hempty, List.append_nil] at hend
    exact ⟨hne, hend⟩
  · intro hmem
    exact h.2 ((Blank.trim_infix _).subset ((Blank.trim_infix _).subset hmem))

/-- A word alone spells no instruction with a label. -/
theorem label?_of_keyword? {word : Bytes} {i : Instruction}
    (h : keyword? word = some (.plain i)) : i.label? = none := by
  have hall : ∀ entry ∈ keywords, ∀ i, entry.2 = .plain i → i.label? = none := by
    simp [keywords, Instruction.label?]
  exact hall _ (mem_of_lookup h) i rfl

theorem isName_of_mem_takeWords {n : Nat} {line w : Bytes} (hline : Bytes.newline ∉ Blank.trim line)
    (hw : w ∈ (takeWords n line).1) (hne : w ≠ []) : IsName w := by
  induction n generalizing line with
  | zero => cases hw
  | succ n ih =>
    obtain ⟨hname, _, hrest⟩ := nextWord_spec hline
    rcases List.mem_cons.mp hw with rfl | hw
    · exact hname hne
    · exact ih hrest hw

/-- The label of an instruction is a word of its line. -/
theorem name_of_readInstruction {word line : Bytes} {keyword : Keyword} {i : Instruction}
    (hline : Bytes.newline ∉ Blank.trim line) (hword : keyword? word = some keyword)
    (h : readInstruction keyword line = .ok i) : ∀ l, i.label? = some l → IsName l := by
  have hnone : ∀ {i : Instruction}, i.label? = none → ∀ l, i.label? = some l → IsName l := by
    intro i hlabel l hl
    rw [hlabel] at hl
    cases hl
  rcases readInstruction_eq_ok_iff.mp h with ⟨hspells, _⟩ | ⟨_, _, _, _, rfl⟩
  · have hwords := fun w => @isName_of_mem_takeWords keyword.arity line w hline
    generalize (takeWords keyword.arity line).1 = ws at hspells hwords
    cases hspells with
    | branch _ hne | jump hne | label hne =>
      rintro _ ⟨⟩
      exact hwords _ (by simp) hne
    | plain => exact hnone (label?_of_keyword? hword)
    | pushInt | load | store | print => exact hnone rfl
  · exact hnone rfl

/-- What a line gives can stand on a line again. -/
theorem readLine_legible {progress : Progress} {line : Bytes} {item : Item}
    (hline : Bytes.newline ∉ Blank.trim line) (h : readLine progress line = .ok (some item)) :
    item.IsLegible := by
  have hrest := (nextWord_spec hline).2.2
  obtain ⟨keyword, hword, _, hunit | hroutine | ⟨i, rfl, hi⟩⟩ := readLine_cases h
  · obtain ⟨hne, hnil, rfl⟩ := readUnit_eq_ok hunit
    exact ⟨(nextWord_spec hrest).1 hne, (nextWord_spec hrest).2.1 hne hnil⟩
  · obtain ⟨locals, hlocals, hne, _, _, rfl⟩ := readRoutine_eq_ok hroutine
    exact ⟨(nextWord_spec hrest).1 hne, hlocals⟩
  · exact ⟨readInstruction_sound hword hi, name_of_readInstruction hrest hword hi⟩

theorem newline_not_mem_trim {input : Input} {line : Bytes} (h : line ∈ input.lines) :
    Bytes.newline ∉ Blank.trim line := by
  obtain ⟨hcomplete, hlast⟩ := Bytes.mem_splitLines input.unread
  have hmem : line ∈ (Bytes.splitLines input.unread).1 ∨
      line = (Bytes.splitLines input.unread).2 := by
    simp only [Input.lines] at h
    split at h
    · simpa using h
    · exact .inl h
  rcases hmem with hmem | rfl
  · obtain ⟨front, rfl, hfront⟩ := hcomplete line hmem
    rw [Blank.trim_append (by decide)]
    exact fun hin => hfront ((Blank.trim_infix _).subset hin)
  · exact fun hin => hlast ((Blank.trim_infix _).subset hin)

/-- A unit that was read can be written and read again. -/
theorem legible_of_read {input : Input} {unit : AsmUnit} (h : read input = .ok unit) :
    unit.IsLegible := by
  obtain ⟨items, hitems, hname, hroutines⟩ := read_eq_ok h
  have hlegible : ∀ item ∈ items, item.IsLegible := by
    intro item hitem
    obtain ⟨_, line, hline, hread⟩ := mem_readLines hitems item hitem
    exact readLine_legible (newline_not_mem_trim hline) hread
  obtain ⟨item, hitem, hunit⟩ := List.exists_of_findSome?_eq_some hname
  obtain rfl : item = .unit unit.name := by
    cases item with
    | unit name => rw [Option.some.inj hunit]
    | _ => cases hunit
  obtain ⟨hunitName, haft⟩ : (Item.unit unit.name).IsLegible := hlegible _ hitem
  refine ⟨hunitName, haft, fun r hr => ?_⟩
  rw [hroutines] at hr
  obtain ⟨locals, hmem, hlocals, hcode⟩ := mem_group.2 r hr
  obtain ⟨hroutineName, hnonneg⟩ : (Item.routine r.name locals).IsLegible := hlegible _ hmem
  have hlt := locals.toInt_lt
  exact ⟨hroutineName, by omega, by omega, fun i hi => hlegible _ (hcode i hi)⟩

end Assembly

theorem AsmUnit.trimmed_trimmed (unit : AsmUnit) : unit.trimmed.trimmed = unit.trimmed := by
  refine trimmed_eq_self_iff.mpr fun r hr i hi l hl => ?_
  obtain ⟨s, _, rfl⟩ := List.mem_map.mp hr
  obtain ⟨j, _, rfl⟩ := List.mem_map.mp hi
  rw [Instruction.label?_trimmed] at hl
  obtain ⟨k, _, rfl⟩ := Option.map_eq_some_iff.mp hl
  exact Blank.trimRight_trimRight k

namespace Assembly

/-- A unit that was read can be written and read again. It keeps its name and its
routines, with their names, slots and instructions, but labels lose white space at
their ends; so it stays the same if and only if no label has any. After that nothing
changes any more. -/
theorem read_again {input : Input} {unit : AsmUnit} (h : read input = .ok unit) :
    read (.ofBytes unit.format) = .ok unit.trimmed ∧
      (read (.ofBytes unit.format) = .ok unit ↔ ∀ r ∈ unit.routines, ∀ i ∈ r.code,
        ∀ l, i.label? = some l → Blank.trimRight l = l) ∧
      read (.ofBytes unit.trimmed.format) = .ok unit.trimmed := by
  have hlegible := legible_of_read h
  have hread := read_format_of_legible hlegible
  refine ⟨hread, ?_, ?_⟩
  · rw [hread, Except.ok.injEq]
    exact AsmUnit.trimmed_eq_self_iff
  · rw [read_format_of_legible hlegible.trimmed, AsmUnit.trimmed_trimmed]

/-- Text with keywords in any letter case, a routine whose name ends with a vertical
tab, a raw string, and a label that is not ASCII. -/
def oddText : Bytes :=
  ascii "unit u\n// c\nRoutine f" ++ [11] ++ ascii " +2\n Push Text `a\\n`\n gOTO l" ++
    [0xC3, 0xA9] ++ ascii "// // c\nlabel l" ++ [0xC3, 0xA9] ++ ascii "//\r\nreturn"

def oddUnit : AsmUnit where
  name := ascii "u"
  routines :=
    [{ name := ascii "f" ++ [11]
       locals := 2
       code :=
         [.pushText (ascii "a\\n"), .jump (ascii "l" ++ [0xC3, 0xA9] ++ ascii "//"),
           .label (ascii "l" ++ [0xC3, 0xA9] ++ ascii "//"), .ret] }]

theorem read_again_odd : read (.ofBytes oddText) = .ok oddUnit ∧
    read (.ofBytes oddUnit.format) = .ok oddUnit.trimmed ∧
    read (.ofBytes oddUnit.format) = .ok oddUnit ∧
    read (.ofBytes oddUnit.trimmed.format) = .ok oddUnit.trimmed := by
  have hread : read (.ofBytes oddText) = .ok oddUnit := by decide +kernel
  have hlabels : ∀ r ∈ oddUnit.routines, ∀ i ∈ r.code, ∀ l ∈ i.label?,
      Blank.trimRight l = l := by
    decide +kernel
  obtain ⟨htrimmed, hsame, hstable⟩ := read_again hread
  exact ⟨hread, htrimmed, hsame.mpr hlabels, hstable⟩

/-- A label before a comment that ends with a vertical tab. -/
def paddedUnit (label : Label) : AsmUnit where
  name := ascii "u"
  routines := [{ name := ascii "main", locals := 0, code := [.jump label] }]

/-- The unit is read with the vertical tab, and read again without it. -/
theorem padded_label_is_lost :
    read (.ofBytes (ascii "UNIT u\nROUTINE main 0\nGOTO L" ++ [11] ++ ascii " // c\n"))
        = .ok (paddedUnit (ascii "L" ++ [11])) ∧
      read (.ofBytes (paddedUnit (ascii "L" ++ [11])).format) = .ok (paddedUnit (ascii "L")) ∧
      paddedUnit (ascii "L") ≠ paddedUnit (ascii "L" ++ [11]) := by
  decide +kernel

end Assembly

end Stackling
