import Mathlib.Data.List.Basic
import Mathlib.Data.List.TakeWhile
import Mathlib.Tactic.Common
import Stackling.Assembly.Reader
import Stackling.Proofs.Machine.Safety
import Stackling.Proofs.Text.Blank
import Stackling.Proofs.Text.Decimal
import Stackling.Proofs.Text.Lines
import Stackling.Proofs.Text.Quoted

/-!
# Text assembly is read back

A unit can be written as text assembly and read back, provided its names can
stand between spaces, its numbers are machine integers that the reader takes, and
its operations and qualifiers have names. The text is a line for each *item* of
the unit, and a line is *words* with spaces between them, so the proof goes from
words (`Assembly.nextWord_unwords`) over lines (`Assembly.readLine_line`) to units
(`Assembly.read_format_of_legible`).

The last word of a line loses white space at its end, and the last word may be a
label. So what is read back is the unit with trimmed labels, which is the unit
itself if all its names are words of ASCII (`Assembly.read_format`).
-/

namespace Stackling

/-! ## Words -/

namespace Assembly

/-- One or more ASCII bytes, none of them white space. -/
def IsWord (w : Bytes) : Prop := w ≠ [] ∧ w.all Blank.stops = true

instance (w : Bytes) : Decidable (IsWord w) := inferInstanceAs (Decidable (_ ∧ _))

/-- A name that may stand before other words: it does not start with white space,
and has no byte that ends a word or a line. It may end with white space. -/
structure IsName (w : Bytes) : Prop where
  fore : Blank.Fore w
  joined : ∀ b ∈ w, isSeparator b = false
  one_line : Bytes.newline ∉ w

theorem IsName.front {w rest : Bytes} (h : IsName (w ++ rest)) (hne : w ≠ []) : IsName w where
  fore := h.fore.of_append hne
  joined b hb := h.joined b (List.mem_append_left rest hb)
  one_line hmem := h.one_line (List.mem_append_left rest hmem)

theorem IsName.trimRight {w : Bytes} (h : IsName w) : IsName (Blank.trimRight w) := by
  obtain ⟨blanks, _, hw⟩ := Blank.trimRight_spec w
  exact IsName.front (hw ▸ h) h.fore.trimRight_ne_nil

theorem not_isSeparator_of_stops {b : UInt8} (h : Blank.stops b = true) :
    isSeparator b = false := by
  rw [Blank.stops_iff] at h
  rw [isSeparator, Bool.or_eq_false_iff, beq_eq_false_iff_ne, beq_eq_false_iff_ne]
  constructor
  · rintro rfl
    exact absurd h.2 (by decide)
  · rintro rfl
    exact absurd h.2 (by decide)

theorem IsWord.isName {w : Bytes} (h : IsWord w) : IsName w := by
  obtain ⟨hne, hall⟩ := h
  have hstops := List.all_eq_true.mp hall
  refine ⟨?_, fun b hb => not_isSeparator_of_stops (hstops b hb), ?_⟩
  · obtain ⟨a, s, rfl⟩ := List.exists_cons_of_ne_nil hne
    exact Blank.fore_of_stops (hstops a List.mem_cons_self) s
  · intro hmem
    exact absurd (hstops _ hmem) (by decide)

theorem IsWord.aft {w : Bytes} (h : IsWord w) : Blank.Aft w := by
  obtain ⟨hne, hall⟩ := h
  rw [← List.dropLast_concat_getLast hne]
  exact Blank.aft_of_stops (List.all_eq_true.mp hall _ (List.getLast_mem hne)) _

theorem IsWord.tight {w : Bytes} (h : IsWord w) : Blank.Tight w := ⟨h.isName.fore, h.aft⟩

theorem isWord_ofInt (n : Int) : IsWord (Decimal.ofInt n) := by
  have hword : ∀ n, IsWord (Decimal.ofNat n) := by
    intro n
    refine ⟨(Decimal.isDigits_ofNat n).1, List.all_eq_true.mpr fun b hb => ?_⟩
    have hdigit := Decimal.isDigit_of_mem_ofNat hb
    simp only [Bytes.isDigit, Bool.and_eq_true, decide_eq_true_eq, UInt8.le_iff_toNat_le,
      UInt8.reduceToNat] at hdigit
    exact Blank.stops_of_lt (by omega) (by omega)
  cases n with
  | ofNat n => exact hword n
  | negSucc n => exact ⟨by simp [Decimal.ofInt], (hword (n + 1)).2⟩

/-- Words with a space between them. -/
def unwords : List Bytes → Bytes
  | [] => []
  | [w] => w
  | w :: ws => w ++ 32 :: unwords ws

/-- Words of which none starts with white space and the last does not end with it. -/
def Spaced : List Bytes → Prop
  | [] => False
  | [w] => Blank.Tight w
  | w :: ws => Blank.Fore w ∧ Spaced ws

theorem Spaced.tight {ws : List Bytes} (h : Spaced ws) : Blank.Tight (unwords ws) := by
  induction ws with
  | nil => exact h.elim
  | cons w ws ih =>
    cases ws with
    | nil => exact h
    | cons v ws => exact Blank.Tight.cons h.1 (ih h.2)

theorem fore_unwords {w : Bytes} (h : Blank.Fore w) (ws : List Bytes) :
    Blank.Fore (unwords (w :: ws)) := by
  cases ws with
  | nil => exact h
  | cons v ws => exact h.append (by decide) _

theorem newline_not_mem_unwords {ws : List Bytes} (h : ∀ w ∈ ws, Bytes.newline ∉ w) :
    Bytes.newline ∉ unwords ws := by
  induction ws with
  | nil => simp [unwords]
  | cons w ws ih =>
    rw [List.forall_mem_cons] at h
    cases ws with
    | nil => exact h.1
    | cons v ws =>
      show Bytes.newline ∉ w ++ 32 :: unwords (v :: ws)
      rw [List.mem_append, List.mem_cons]
      rintro (hmem | heq | hmem)
      · exact h.1 hmem
      · exact absurd heq (by decide)
      · exact ih h.2 hmem

/-- Words, the last of which loses the white space at its end. -/
def trimLast : List Bytes → List Bytes
  | [] => []
  | [w] => [Blank.trimRight w]
  | w :: ws => w :: trimLast ws

section TrimLast

variable {w : Bytes} {ws : List Bytes} (h : ∀ v ∈ w :: ws, Blank.Fore v)

include h

theorem spaced_trimLast : Spaced (trimLast (w :: ws)) := by
  induction ws generalizing w with
  | nil =>
    have hw := h w List.mem_cons_self
    exact ⟨hw.fore_trimRight, hw.aft_trimRight⟩
  | cons v ws ih =>
    rw [List.forall_mem_cons] at h
    have hrest := ih h.2
    show Spaced (w :: trimLast (v :: ws))
    cases hws : trimLast (v :: ws) with
    | nil => exact (hws ▸ hrest).elim
    | cons u us => exact ⟨h.1, hws ▸ hrest⟩

theorem trimRight_unwords : Blank.trimRight (unwords (w :: ws)) = unwords (trimLast (w :: ws)) := by
  induction ws generalizing w with
  | nil => rfl
  | cons v ws ih =>
    rw [List.forall_mem_cons] at h
    have hfore := fore_unwords (h.2 v List.mem_cons_self) ws
    have hne : trimLast (v :: ws) ≠ [] := by
      intro hnil
      exact (hnil ▸ spaced_trimLast h.2).elim
    obtain ⟨u, us, hus⟩ := List.exists_cons_of_ne_nil hne
    show Blank.trimRight (w ++ 32 :: unwords (v :: ws)) = unwords (w :: trimLast (v :: ws))
    rw [hfore.trimRight_append (by decide), ih h.2, hus]
    rfl

end TrimLast

theorem nextWord_congr {line line' : Bytes} (h : Blank.trim line = Blank.trim line') :
    nextWord line = nextWord line' := by
  rw [nextWord, nextWord, h]

/-- The first of the words is found, and the others are left. -/
theorem nextWord_unwords {w : Bytes} {ws : List Bytes} (hw : IsName w) (hws : Spaced (w :: ws)) :
    nextWord (unwords (w :: ws)) = (w, unwords ws) := by
  have hletters : ∀ b ∈ w, (!isSeparator b) = true := by
    intro b hb
    rw [hw.joined b hb]
    rfl
  unfold nextWord
  rw [hws.tight.trim_eq]
  cases ws with
  | nil =>
    show (w.takeWhile _, Blank.trim (w.dropWhile _)) = (w, [])
    rw [List.takeWhile_eq_self_iff.mpr hletters, List.dropWhile_eq_nil_iff.mpr hletters]
    rfl
  | cons v ws =>
    -- the space that ends the word is left before the others, where it is trimmed
    have hrest : Blank.trim ([32] ++ unwords (v :: ws) ++ []) = unwords (v :: ws) := by
      rw [(hws.2.tight).fore.trim_eq rfl rfl, (hws.2.tight).aft.trimmed]
    rw [List.append_nil] at hrest
    show ((w ++ 32 :: unwords (v :: ws)).takeWhile _,
      Blank.trim ((w ++ 32 :: unwords (v :: ws)).dropWhile _)) = _
    rw [List.takeWhile_append_of_pos hletters, List.dropWhile_append_of_pos hletters]
    show (w ++ [], Blank.trim ([32] ++ unwords (v :: ws))) = _
    rw [hrest, List.append_nil]

theorem nextWord_name {w : Bytes} (hw : IsName w) (haft : Blank.Aft w) : nextWord w = (w, []) :=
  @nextWord_unwords w [] hw ⟨hw.fore, haft⟩

end Assembly

/-! ## Instructions -/

/-- The label that an instruction names. -/
def Instruction.label? : Instruction → Option Label
  | branch _ l | jump l | label l => some l
  | _ => none

/-- An instruction with a meaning whose label can stand before other words. -/
structure Instruction.IsLegible (i : Instruction) : Prop where
  meaningful : i.isMeaningful = true
  name : ∀ l, i.label? = some l → Assembly.IsName l

/-- An instruction whose label also has no white space at its end. -/
structure Instruction.IsTight (i : Instruction) : Prop extends i.IsLegible where
  aft : ∀ l, i.label? = some l → Blank.Aft l

/-- The instruction with its label trimmed. -/
def Instruction.trimmed : Instruction → Instruction
  | branch relation l => branch relation (Blank.trimRight l)
  | jump l => jump (Blank.trimRight l)
  | label l => label (Blank.trimRight l)
  | i => i

namespace Instruction

variable {i : Instruction}

theorem IsLegible.sound (h : i.IsLegible) : i.isSound = true :=
  (isMeaningful_iff.mp h.meaningful).1

theorem IsLegible.qualified (h : i.IsLegible) : i.isQualified = true :=
  (isMeaningful_iff.mp h.meaningful).2

theorem label?_trimmed (i : Instruction) : i.trimmed.label? = i.label?.map Blank.trimRight := by
  cases i <;> rfl

theorem trimmed_eq_self_iff :
    i.trimmed = i ↔ ∀ l, i.label? = some l → Blank.trimRight l = l := by
  cases i <;> simp [trimmed, label?]

theorem IsLegible.trimmed (h : i.IsLegible) : i.trimmed.IsTight := by
  have hmeaning : i.trimmed.isMeaningful = i.isMeaningful := by cases i <;> rfl
  refine ⟨⟨hmeaning ▸ h.meaningful, ?_⟩, ?_⟩
  all_goals
    intro l hl
    rw [label?_trimmed, Option.map_eq_some_iff] at hl
    obtain ⟨l, hl, rfl⟩ := hl
  · exact (h.name l hl).trimRight
  · exact (h.name l hl).fore.aft_trimRight

end Instruction

/-- An instruction whose qualifier has a name and whose label is a word. -/
structure Instruction.IsNamed (i : Instruction) : Prop where
  qualified : i.isQualified = true
  word : ∀ l, i.label? = some l → Assembly.IsWord l

/-- An instruction that text assembly can describe. -/
structure Instruction.IsReadable (i : Instruction) : Prop extends i.IsNamed where
  sound : i.isSound = true

theorem Instruction.IsReadable.tight {i : Instruction} (h : i.IsReadable) : i.IsTight where
  meaningful := isMeaningful_iff.mpr ⟨h.sound, h.qualified⟩
  name l hl := (h.word l hl).isName
  aft l hl := (h.word l hl).aft

namespace Assembly

/-- The words of an instruction after its name. -/
def operands : Instruction → List Bytes
  | .pushInt value => [ascii "INT", Decimal.ofInt32 value]
  | .pushText text => [ascii "TEXT", Quoted.quote text]
  | .load kind slot | .store kind slot => [kind.name, Decimal.ofInt32 slot]
  | .branch relation target => [relation.name, target]
  | .jump target | .label target => [target]
  | .print kind => [kind.name]
  | _ => []

theorem text_eq (i : Instruction) : i.text = unwords (Opcode.nameOf i.op :: operands i) := by
  cases i with
  | load | store | branch =>
    rw [Instruction.text, List.append_assoc, List.append_assoc]
    rfl
  | _ => rfl

/-- What the name of an instruction announces. -/
def announced : Instruction → Keyword
  | .pushInt _ | .pushText _ => .push
  | .load _ _ => .load
  | .store _ _ => .store
  | .branch _ _ => .branch
  | .jump _ => .jump
  | .label _ => .label
  | .print _ => .print
  | other => .plain other

theorem isWord_nameOf {b : UInt8} {op : Opcode} (h : Opcode.ofByte? b = some op) :
    IsWord (Opcode.nameOf b) := by
  have hall : IsWord op.name := by
    cases op <;> decide
  rwa [Opcode.nameOf, h]

theorem keyword?_nameOf {i : Instruction} (h : i.isSound = true) :
    keyword? (Opcode.nameOf i.op) = some (announced i) ∧ IsWord (Opcode.nameOf i.op) ∧
      isComment (Opcode.nameOf i.op) = false := by
  cases i with
  | arith op => cases op <;> exact ⟨rfl, isWord_nameOf rfl, rfl⟩
  | undefined => cases h
  | _ => exact ⟨rfl, isWord_nameOf rfl, rfl⟩

theorem kind?_name {kind : Kind} (h : kind.isKnown = true) : kind? kind.name = some kind := by
  have hall : ∀ n : Fin 2, kind? (Kind.name ⟨UInt8.ofNat n⟩) = some ⟨UInt8.ofNat n⟩ := by decide
  have hlt : kind.byte.toNat < 2 := by
    simpa [Kind.isKnown, UInt8.le_iff_toNat_le, Nat.lt_succ_iff] using h
  simpa using hall ⟨kind.byte.toNat, hlt⟩

theorem isWord_kind (kind : Kind) : IsWord kind.name := by
  unfold Kind.name
  split <;> decide

theorem relation?_name {relation : Relation} (h : relation.isKnown = true) :
    relation? relation.name = some relation ∧ IsWord relation.name := by
  have hall : ∀ n : Fin 6, relation? (Relation.name ⟨UInt8.ofNat n⟩) = some ⟨UInt8.ofNat n⟩ ∧
      IsWord (Relation.name ⟨UInt8.ofNat n⟩) := by decide
  have hlt : relation.byte.toNat < 6 := by
    simpa [Relation.isKnown, UInt8.le_iff_toNat_le, Nat.lt_succ_iff] using h
  simpa using hall ⟨relation.byte.toNat, hlt⟩

theorem isWord_ofInt32 (n : Int32) : IsWord (Decimal.ofInt32 n) := isWord_ofInt _

theorem tight_quote (text : Bytes) : Blank.Tight (Quoted.quote text) :=
  ⟨Blank.fore_of_stops rfl _, Blank.aft_of_stops rfl _⟩

/-- The words of an instruction start with no white space, and stay on one line. -/
theorem operand_spec {i : Instruction} (h : i.IsLegible) :
    ∀ w ∈ operands i, Blank.Fore w ∧ Bytes.newline ∉ w := by
  have hname : ∀ {w}, IsName w → Blank.Fore w ∧ Bytes.newline ∉ w := fun h => ⟨h.fore, h.one_line⟩
  have hword : ∀ {w}, IsWord w → Blank.Fore w ∧ Bytes.newline ∉ w := fun h => hname h.isName
  have hquote : ∀ text, Blank.Fore (Quoted.quote text) ∧ Bytes.newline ∉ Quoted.quote text :=
    fun text => ⟨(tight_quote text).fore, Quoted.newline_not_mem_quote text⟩
  have hint : IsWord (ascii "INT") := by decide
  have htext : IsWord (ascii "TEXT") := by decide
  cases i with
  | pushInt value =>
    simp only [operands, List.forall_mem_cons]
    exact ⟨hword hint, hword (isWord_ofInt32 value), by simp⟩
  | pushText text =>
    simp only [operands, List.forall_mem_cons]
    exact ⟨hword htext, hquote text, by simp⟩
  | load kind slot | store kind slot =>
    simp only [operands, List.forall_mem_cons]
    exact ⟨hword (isWord_kind kind), hword (isWord_ofInt32 slot), by simp⟩
  | branch relation target =>
    simp only [operands, List.forall_mem_cons]
    exact ⟨hword (relation?_name h.qualified).2, hname (h.name target rfl), by simp⟩
  | jump target | label target =>
    simp only [operands, List.forall_mem_cons]
    exact ⟨hname (h.name target rfl), by simp⟩
  | print kind =>
    simp only [operands, List.forall_mem_cons]
    exact ⟨hword (isWord_kind kind), by simp⟩
  | _ => simp [operands]

/-- The words of a trimmed instruction are the words with the last one trimmed. -/
theorem words_trimmed {i : Instruction} (h : i.IsLegible) :
    Opcode.nameOf i.trimmed.op :: operands i.trimmed
      = trimLast (Opcode.nameOf i.op :: operands i) := by
  cases i with
  | pushInt value =>
    simp [Instruction.trimmed, operands, trimLast, (isWord_ofInt32 value).aft.trimmed]
  | pushText text => simp [Instruction.trimmed, operands, trimLast, (tight_quote text).aft.trimmed]
  | load kind slot | store kind slot =>
    simp [Instruction.trimmed, operands, trimLast, (isWord_ofInt32 slot).aft.trimmed]
  | branch | jump | label => rfl
  | print kind => simp [Instruction.trimmed, operands, trimLast, (isWord_kind kind).aft.trimmed]
  | undefined => cases h.sound
  | arith | openOutput | openInput | readInt | readLine | ret =>
    have hname := (keyword?_nameOf h.sound).2.1.aft.trimmed
    simp only [Instruction.trimmed, operands, trimLast, hname]

theorem readInteger_ofInt32 (n : Int32) : readInteger (Decimal.ofInt32 n) = .ok (n, []) := by
  have hnext : nextWord (Decimal.ofInt32 n) = (Decimal.ofInt32 n, []) :=
    nextWord_name (isWord_ofInt32 n).isName (isWord_ofInt32 n).aft
  simp only [readInteger, hnext, Decimal.toInt32?_ofInt32]

theorem not_neg_of_toInt {n : Int32} (h : 0 ≤ n.toInt) : ¬n < 0 := by
  rw [Int32.lt_iff_toInt_lt]
  simpa using h

theorem readSlot_operands {make : Kind → Int32 → Instruction} {kind : Kind} {slot : Int32}
    (hkind : kind.isKnown = true) (hslot : decide (0 ≤ slot.toInt) = true) :
    readSlot make (unwords [kind.name, Decimal.ofInt32 slot]) = .ok (make kind slot) := by
  have hneg := not_neg_of_toInt (of_decide_eq_true hslot)
  have hname := (isWord_kind kind).isName
  have hnext := @nextWord_unwords _ [Decimal.ofInt32 slot] hname
    ⟨hname.fore, (isWord_ofInt32 slot).tight⟩
  simp only [readSlot, hnext, kind?_name hkind]
  show (readInteger (Decimal.ofInt32 slot) >>= _) = _
  rw [readInteger_ofInt32]
  exact if_neg hneg

theorem readTarget_operands {op : Opcode} {make : Label → Instruction} {target : Label}
    (h : IsName target) (haft : Blank.Aft target) :
    readTarget op make target = .ok (make target) := by
  simp only [readTarget, nextWord_name h haft]
  exact if_neg haft.ne_nil

/-- The operands of an instruction are read after its name. -/
theorem readInstruction_operands {i : Instruction} (h : i.IsTight) :
    readInstruction (announced i) (unwords (operands i)) = .ok i := by
  cases i with
  | pushInt value =>
    have hword : IsWord (ascii "INT") := by decide
    have hnext := @nextWord_unwords (ascii "INT") [Decimal.ofInt32 value] hword.isName
      ⟨hword.isName.fore, (isWord_ofInt32 value).tight⟩
    show readPush (unwords [ascii "INT", Decimal.ofInt32 value]) = _
    simp only [readPush, hnext]
    show (readInteger (Decimal.ofInt32 value) >>= _) = _
    rw [readInteger_ofInt32]
    rfl
  | pushText text =>
    have hword : IsWord (ascii "TEXT") := by decide
    have hnext := @nextWord_unwords (ascii "TEXT") [Quoted.quote text] hword.isName
      ⟨hword.isName.fore, tight_quote text⟩
    have hunquote : Quoted.unquote? (unwords [Quoted.quote text]) = some text :=
      Quoted.unquote?_quote text
    show readPush (unwords [ascii "TEXT", Quoted.quote text]) = _
    simp only [readPush, hnext, hunquote]
    rfl
  | load kind slot => exact @readSlot_operands .load kind slot h.qualified h.sound
  | store kind slot => exact @readSlot_operands .store kind slot h.qualified h.sound
  | branch relation target =>
    obtain ⟨hrelation, hword⟩ := relation?_name h.qualified
    have hname := h.name target rfl
    have haft := h.aft target rfl
    have hnext := @nextWord_unwords _ [target] hword.isName ⟨hword.isName.fore, hname.fore, haft⟩
    have htarget : nextWord (unwords [target]) = (target, []) := nextWord_name hname haft
    show readBranch (unwords [relation.name, target]) = _
    simp only [readBranch, hnext, hrelation, htarget]
    exact if_neg haft.ne_nil
  | jump target =>
    exact @readTarget_operands .jump .jump target (h.name target rfl) (h.aft target rfl)
  | label target =>
    exact @readTarget_operands .label .label target (h.name target rfl) (h.aft target rfl)
  | print kind =>
    have hword := isWord_kind kind
    show readPrint kind.name = _
    simp only [readPrint, nextWord_name hword.isName hword.aft, kind?_name h.qualified]
    rfl
  | undefined => cases h.sound
  | _ => rfl

/-! ## Lines -/

/-- An item that a line can hold. -/
def Item.IsLegible : Item → Prop
  | .unit name => IsName name ∧ Blank.Aft name
  | .routine name locals => IsName name ∧ 0 ≤ locals.toInt
  | .code i => i.IsLegible

/-- The item with its label trimmed. -/
def Item.trimmed : Item → Item
  | .code i => .code i.trimmed
  | item => item

/-- The white space before the words of an item. -/
def Item.indent : Item → Bytes
  | .code i => if i.isLabel then [] else [9]
  | _ => []

/-- The words of the line of an item. -/
def Item.words : Item → List Bytes
  | .unit name => [ascii "UNIT", name]
  | .routine name locals => [ascii "ROUTINE", name, Decimal.ofInt32 locals]
  | .code i => Opcode.nameOf i.op :: operands i

/-- The line of an item. -/
def Item.line (item : Item) : Bytes := item.indent ++ unwords item.words ++ [Bytes.newline]

/-- Whether an item may come next. -/
def Progress.Allows (progress : Progress) : Item → Prop
  | .unit _ => progress = .start
  | .routine _ _ => progress ≠ .start
  | .code _ => progress = .inRoutine

theorem Item.all_indent (item : Item) : item.indent.all Blank.one = true := by
  cases item with
  | code i =>
    show (if i.isLabel then [] else [9] : Bytes).all Blank.one = true
    split <;> rfl
  | _ => rfl

theorem readUnit_name {name : Bytes} (h : IsName name) (haft : Blank.Aft name) :
    readUnit name = .ok (.unit name) := by
  simp only [readUnit, nextWord_name h haft]
  exact if_neg (by simpa using haft.ne_nil)

theorem readRoutine_words {name : Bytes} {locals : Int32} (h : IsName name)
    (hlocals : 0 ≤ locals.toInt) :
    readRoutine (unwords [name, Decimal.ofInt32 locals]) = .ok (.routine name locals) := by
  have hneg := not_neg_of_toInt hlocals
  have hnext :=
    @nextWord_unwords _ [Decimal.ofInt32 locals] h ⟨h.fore, (isWord_ofInt32 locals).tight⟩
  simp only [readRoutine, hnext, if_neg h.fore.ne_nil]
  show (readInteger (Decimal.ofInt32 locals) >>= _) = _
  rw [readInteger_ofInt32]
  exact if_neg hneg

theorem readLine_of_keyword {line w rest : Bytes} {keyword : Keyword} {i : Instruction}
    (hnext : nextWord line = (w, rest)) (hw : w ≠ []) (hcomment : isComment w = false)
    (hkeyword : keyword? w = some keyword) (hread : readInstruction keyword rest = .ok i) :
    readLine .inRoutine line = .ok (some (.code i)) := by
  have hblank : ¬(w = [] ∨ isComment w = true) := by simp [hw, hcomment]
  have hmap : ((fun i => some (.code i)) <$> readInstruction keyword rest :
      Except Cause (Option Item)) = .ok (some (.code i)) := by
    rw [hread]
    rfl
  simp only [readLine, hnext, if_neg hblank, hkeyword]
  cases keyword with
  | unit | routine =>
    -- these announce no instruction
    cases hread
  | _ => exact hmap

theorem Item.words_spec {item : Item} (h : item.IsLegible) :
    ∀ w ∈ item.words, Blank.Fore w ∧ Bytes.newline ∉ w := by
  have hname : ∀ {w}, IsName w → Blank.Fore w ∧ Bytes.newline ∉ w := fun h => ⟨h.fore, h.one_line⟩
  have hunit : IsWord (ascii "UNIT") := by decide
  have hroutine : IsWord (ascii "ROUTINE") := by decide
  cases item with
  | unit name =>
    simp only [words, List.forall_mem_cons]
    exact ⟨hname hunit.isName, hname h.1, by simp⟩
  | routine name locals =>
    simp only [words, List.forall_mem_cons]
    exact ⟨hname hroutine.isName, hname h.1, hname (isWord_ofInt32 locals).isName, by simp⟩
  | code i =>
    have hkeyword := (keyword?_nameOf (Instruction.IsLegible.sound h)).2.1
    exact List.forall_mem_cons.mpr ⟨hname hkeyword.isName, operand_spec h⟩

theorem Item.words_trimmed {item : Item} (h : item.IsLegible) :
    item.trimmed.words = trimLast item.words := by
  cases item with
  | unit name => simp [trimmed, words, trimLast, h.2.trimmed]
  | routine name locals => simp [trimmed, words, trimLast, (isWord_ofInt32 locals).aft.trimmed]
  | code i => exact Assembly.words_trimmed h

/-- The words of a trimmed item are read as the item. -/
theorem readLine_words {progress : Progress} {item : Item} (h : item.IsLegible)
    (hallows : progress.Allows item) :
    readLine progress (unwords item.trimmed.words) = .ok (some item.trimmed) := by
  have hspaced : Spaced item.trimmed.words := by
    rw [Item.words_trimmed h]
    cases hwords : item.words with
    | nil => cases item <;> cases hwords
    | cons w ws =>
      have hspec := Item.words_spec h
      rw [hwords] at hspec
      exact spaced_trimLast fun v hv => (hspec v hv).1
  cases item with
  | unit name =>
    have hunit : IsWord (ascii "UNIT") := by decide
    obtain rfl : progress = .start := hallows
    simp only [readLine, Item.words, Item.trimmed, nextWord_unwords hunit.isName hspaced]
    show (some <$> readUnit name : Except Cause (Option Item)) = _
    rw [readUnit_name h.1 h.2]
    rfl
  | routine name locals =>
    have hroutine : IsWord (ascii "ROUTINE") := by decide
    have hstarted : progress ≠ .start := hallows
    simp only [readLine, Item.words, Item.trimmed, nextWord_unwords hroutine.isName hspaced]
    show (if progress = .start then _
      else (some <$> readRoutine _ : Except Cause (Option Item))) = _
    rw [if_neg hstarted, readRoutine_words h.1 h.2]
    rfl
  | code i =>
    have htight : i.trimmed.IsTight := Instruction.IsLegible.trimmed h
    obtain ⟨hkeyword, hword, hcomment⟩ := keyword?_nameOf htight.sound
    obtain rfl : progress = .inRoutine := hallows
    exact readLine_of_keyword (nextWord_unwords hword.isName hspaced) hword.1 hcomment hkeyword
      (readInstruction_operands htight)

/-- The line of an item is read as the item, with its label trimmed. -/
theorem readLine_line {progress : Progress} {item : Item} (h : item.IsLegible)
    (hallows : progress.Allows item) : readLine progress item.line = .ok (some item.trimmed) := by
  have htrim : Blank.trim item.line = Blank.trim (unwords item.trimmed.words) := by
    have hspec := Item.words_spec h
    rw [Item.line, Item.words_trimmed h]
    cases hwords : item.words with
    | nil => cases item <;> cases hwords
    | cons w ws =>
      rw [hwords] at hspec
      have hfore : ∀ v ∈ w :: ws, Blank.Fore v := fun v hv => (hspec v hv).1
      rw [(fore_unwords (hfore w List.mem_cons_self) ws).trim_eq item.all_indent rfl,
        trimRight_unwords hfore, (spaced_trimLast hfore).tight.trim_eq]
  rw [← readLine_words h hallows]
  unfold readLine
  rw [nextWord_congr htrim]

theorem Item.newline_not_mem_indent (item : Item) : Bytes.newline ∉ item.indent := by
  cases item with
  | code i =>
    show Bytes.newline ∉ (if i.isLabel then [] else [9] : Bytes)
    split <;> decide
  | _ => simp [indent]

end Assembly

/-! ## Units -/

/-- A routine that text assembly can hold. -/
structure Routine.IsLegible (r : Routine) : Prop where
  name : Assembly.IsName r.name
  locals_nonneg : 0 ≤ r.locals
  locals_le : r.locals ≤ 2147483647
  code : ∀ i ∈ r.code, i.IsLegible

/-- A unit that text assembly can hold. -/
structure AsmUnit.IsLegible (unit : AsmUnit) : Prop where
  name : Assembly.IsName unit.name
  aft : Blank.Aft unit.name
  routine : ∀ r ∈ unit.routines, r.IsLegible

/-- The routine with its labels trimmed. -/
def Routine.trimmed (r : Routine) : Routine := { r with code := r.code.map Instruction.trimmed }

/-- The unit with its labels trimmed. -/
def AsmUnit.trimmed (unit : AsmUnit) : AsmUnit :=
  { unit with routines := unit.routines.map Routine.trimmed }

/-- A routine that text assembly can describe. -/
structure Routine.IsReadable (r : Routine) : Prop where
  name : Assembly.IsWord r.name
  locals_nonneg : 0 ≤ r.locals
  locals_le : r.locals ≤ 2147483647
  code : ∀ i ∈ r.code, i.IsReadable

/-- A unit that text assembly can describe. -/
structure AsmUnit.IsReadable (unit : AsmUnit) : Prop where
  name : Assembly.IsWord unit.name
  routine : ∀ r ∈ unit.routines, r.IsReadable

/-- The items of a routine. -/
def Routine.items (r : Routine) : List Assembly.Item :=
  .routine r.name (Int32.ofInt r.locals) :: r.code.map .code

/-- The items of a unit. -/
def AsmUnit.items (unit : AsmUnit) : List Assembly.Item :=
  .unit unit.name :: unit.routines.flatMap Routine.items

namespace Routine.IsLegible

variable {r : Routine}

theorem toInt_locals (h : r.IsLegible) : (Int32.ofInt r.locals).toInt = r.locals := by
  have hnonneg := h.locals_nonneg
  have hle := h.locals_le
  exact Int32.toInt_ofInt_of_le (by omega) (by omega)

theorem item (h : r.IsLegible) : ∀ item ∈ r.items, item.IsLegible := by
  refine List.forall_mem_cons.mpr ⟨⟨h.name, ?_⟩, ?_⟩
  · rw [h.toInt_locals]
    exact h.locals_nonneg
  · intro item hitem
    obtain ⟨i, hi, rfl⟩ := List.mem_map.mp hitem
    exact h.code i hi

theorem format_eq (h : r.IsLegible) :
    AsmUnit.formatRoutine r = r.items.flatMap Assembly.Item.line := by
  have hcode : r.code.flatMap AsmUnit.formatInstruction
      = (r.code.map .code).flatMap Assembly.Item.line := by
    rw [List.flatMap_map]
    congr 1
    funext i
    unfold AsmUnit.formatInstruction Assembly.Item.line Assembly.Item.indent
    dsimp only
    rw [Assembly.text_eq]
    by_cases hlabel : i.isLabel = true
    · rw [if_pos hlabel, if_pos hlabel]
      rfl
    · rw [if_neg hlabel, if_neg hlabel]
      rfl
  -- the spaces between the words are written with the words before them
  have hkeyword : ascii "ROUTINE " = ascii "ROUTINE" ++ [32] := by decide
  have hspace : ascii " " = [32] := by decide
  have hlocals : Decimal.ofInt32 (Int32.ofInt r.locals) = Decimal.ofInt r.locals := by
    rw [Decimal.ofInt32, h.toInt_locals]
  rw [AsmUnit.formatRoutine, hcode, items, List.flatMap_cons, hkeyword, hspace]
  simp [Assembly.Item.line, Assembly.Item.indent, Assembly.Item.words, Assembly.unwords, hlocals]

end Routine.IsLegible

theorem AsmUnit.IsLegible.format_eq {unit : AsmUnit} (h : unit.IsLegible) :
    unit.format = unit.items.flatMap Assembly.Item.line := by
  have hroutines : unit.routines.flatMap formatRoutine
      = (unit.routines.flatMap Routine.items).flatMap Assembly.Item.line := by
    rw [List.flatMap_assoc]
    exact List.flatMap_congr fun r hr => (h.routine r hr).format_eq
  rw [format, hroutines]
  rfl

namespace Assembly

theorem group_code (code : List Instruction) (items : List Item) :
    group (code.map .code ++ items) = (code ++ (group items).1, (group items).2) := by
  induction code with
  | nil => rfl
  | cons i code ih =>
    unfold group at ih ⊢
    rw [List.map_cons, List.cons_append, List.foldr_cons, ih]
    rfl

theorem group_routines {routines : List Routine} (h : ∀ r ∈ routines, r.IsLegible) :
    group (routines.flatMap Routine.items) = ([], routines) := by
  induction routines with
  | nil => rfl
  | cons r routines ih =>
    rw [List.forall_mem_cons] at h
    -- what the other routines leave over, nothing, follows the code of this one
    have hcode := group_code r.code (routines.flatMap Routine.items)
    rw [ih h.2, List.append_nil] at hcode
    unfold group at hcode ⊢
    rw [List.flatMap_cons, Routine.items, List.cons_append, List.foldr_cons, hcode]
    simp only [h.1.toInt_locals]

/-- Items in an order in which they can be read. -/
def Ordered : Progress → List Item → Prop
  | _, [] => True
  | progress, item :: items => progress.Allows item ∧ Ordered (progress.after item) items

theorem ordered_code {code : List Instruction} {items : List Item} (h : Ordered .inRoutine items) :
    Ordered .inRoutine (code.map .code ++ items) := by
  induction code with
  | nil => exact h
  | cons i code ih => exact ⟨rfl, ih⟩

theorem ordered_routines (routines : List Routine) {progress : Progress} (h : progress ≠ .start) :
    Ordered progress (routines.flatMap Routine.items) := by
  induction routines generalizing progress with
  | nil => trivial
  | cons r routines ih => exact ⟨h, ordered_code (ih (by simp))⟩

theorem lines_items {items : List Item} (h : ∀ item ∈ items, item.IsLegible) :
    Bytes.splitLines (items.flatMap Item.line) = (items.map Item.line, []) := by
  induction items with
  | nil => rfl
  | cons item items ih =>
    rw [List.forall_mem_cons] at h
    have hline : Bytes.newline ∉ item.indent ++ unwords item.words := by
      rw [List.mem_append, not_or]
      exact ⟨item.newline_not_mem_indent,
        newline_not_mem_unwords fun w hw => (Item.words_spec h.1 w hw).2⟩
    rw [List.flatMap_cons, Item.line, List.append_assoc, List.singleton_append,
      Bytes.splitLines_append hline, ih h.2]
    rfl

theorem Progress.after_trimmed (progress : Progress) (item : Item) :
    progress.after item.trimmed = progress.after item := by
  cases item <;> rfl

theorem readLines_items {progress : Progress} {items : List Item}
    (h : ∀ item ∈ items, item.IsLegible) (hordered : Ordered progress items) (number : Nat) :
    readLines progress number (items.map Item.line) = .ok (items.map Item.trimmed) := by
  induction items generalizing progress number with
  | nil => rfl
  | cons item items ih =>
    rw [List.forall_mem_cons] at h
    rw [List.map_cons, readLines, readLine_line h.1 hordered.1]
    dsimp only
    rw [Progress.after_trimmed, ih h.2 hordered.2]
    rfl

end Assembly

theorem Routine.items_trimmed (r : Routine) :
    r.trimmed.items = r.items.map Assembly.Item.trimmed := by
  simp [items, trimmed, Assembly.Item.trimmed]

theorem AsmUnit.items_trimmed (unit : AsmUnit) :
    unit.trimmed.items = unit.items.map Assembly.Item.trimmed := by
  simp [items, trimmed, Assembly.Item.trimmed, List.flatMap_map, List.map_flatMap,
    Routine.items_trimmed]

theorem Routine.IsLegible.trimmed {r : Routine} (h : r.IsLegible) : r.trimmed.IsLegible where
  name := h.name
  locals_nonneg := h.locals_nonneg
  locals_le := h.locals_le
  code i hi := by
    obtain ⟨j, hj, rfl⟩ := List.mem_map.mp hi
    exact (h.code j hj).trimmed.toIsLegible

theorem AsmUnit.IsLegible.trimmed {unit : AsmUnit} (h : unit.IsLegible) :
    unit.trimmed.IsLegible := by
  refine ⟨h.name, h.aft, fun r hr => ?_⟩
  obtain ⟨s, hs, rfl⟩ := List.mem_map.mp hr
  exact (h.routine s hs).trimmed

namespace Assembly

theorem group_items {unit : AsmUnit} (h : unit.IsLegible) :
    group unit.items = ([], unit.routines) :=
  group_routines h.routine

/-- A unit is read as soon as its items are. -/
theorem read_of_items {input : Input} {unit : AsmUnit} (hunit : unit.IsLegible)
    (hfailure : input.failure = none) (h : readLines .start 1 input.lines = .ok unit.items) :
    read input = .ok unit := by
  unfold read
  rw [h, hfailure]
  show Except.ok (AsmUnit.mk unit.name (group unit.items).2) = _
  rw [group_items hunit]

/-- What is read from the text of a unit is the unit with its labels trimmed. -/
theorem read_format_of_legible {unit : AsmUnit} (h : unit.IsLegible) :
    read (.ofBytes unit.format) = .ok unit.trimmed := by
  have hlegible : ∀ item ∈ unit.items, item.IsLegible := by
    refine List.forall_mem_cons.mpr ⟨⟨h.name, h.aft⟩, fun item hitem => ?_⟩
    obtain ⟨r, hr, hitem⟩ := List.mem_flatMap.mp hitem
    exact (h.routine r hr).item item hitem
  have hlines : Input.lines (.ofBytes unit.format) = unit.items.map Item.line := by
    unfold Input.lines Input.ofBytes
    rw [h.format_eq, lines_items hlegible]
    rfl
  have hitems := readLines_items hlegible ⟨rfl, ordered_routines _ (by simp [Progress.after])⟩ 1
  refine read_of_items h.trimmed rfl ?_
  rw [hlines, hitems, AsmUnit.items_trimmed]

end Assembly

theorem AsmUnit.IsReadable.legible {unit : AsmUnit} (h : unit.IsReadable) : unit.IsLegible where
  name := h.name.isName
  aft := h.name.aft
  routine r hr :=
    { name := (h.routine r hr).name.isName
      locals_nonneg := (h.routine r hr).locals_nonneg
      locals_le := (h.routine r hr).locals_le
      code := fun i hi => ((h.routine r hr).code i hi).tight.toIsLegible }

private theorem map_eq_self_iff {α : Type} {f : α → α} {as : List α} :
    as.map f = as ↔ ∀ a ∈ as, f a = a := by
  have h := @List.map_inj_left _ _ as f id
  rwa [List.map_id] at h

theorem Routine.trimmed_eq_self_iff {r : Routine} :
    r.trimmed = r ↔ ∀ i ∈ r.code, i.trimmed = i := by
  rw [← map_eq_self_iff]
  exact ⟨fun h => congrArg Routine.code h, fun h => by rw [trimmed, h]⟩

/-- Trimming changes a unit if and only if it changes a label. -/
theorem AsmUnit.trimmed_eq_self_iff {unit : AsmUnit} :
    unit.trimmed = unit ↔ ∀ r ∈ unit.routines, ∀ i ∈ r.code, ∀ l, i.label? = some l →
      Blank.trimRight l = l := by
  simp only [← Instruction.trimmed_eq_self_iff, ← Routine.trimmed_eq_self_iff]
  rw [← map_eq_self_iff]
  exact ⟨fun h => congrArg AsmUnit.routines h, fun h => by rw [trimmed, h]⟩

/-- A unit that text assembly can describe is read from the text that describes
it. -/
theorem Assembly.read_format {unit : AsmUnit} (h : unit.IsReadable) :
    read (.ofBytes unit.format) = .ok unit := by
  rw [read_format_of_legible h.legible, AsmUnit.trimmed_eq_self_iff.mpr]
  intro r hr i hi l hl
  exact (((h.routine r hr).code i hi).tight.aft l hl).trimmed

end Stackling
