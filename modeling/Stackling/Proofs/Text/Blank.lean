import Mathlib.Tactic.Common
import Stackling.Text.Blank

/-!
# White space at the ends of a text

Trimming takes white space from the ends of a text and nothing else:

* **taken** — what is taken away is white space from end to end (`trimLeft_spec`,
  `trimRight_spec`), and white space that stands at an end is taken
  (`trimLeft_append`, `trimRight_append`);
* **left** — what is left has no white space at that end (`trimLeft_trimLeft`,
  `trimRight_trimRight`), and neither end of it can be told apart from the same end
  of a longer text, as long as a byte of ASCII comes next (`Fore.append`,
  `Aft.append`).

Both ends are one case: a text is read from its end like a text of reversed
spellings is read from its front.
-/

namespace Stackling.Blank

/-! ## Reading from either end -/

section DropBlank

variable {pair : UInt8 → UInt8 → Bool} {triple : UInt8 → UInt8 → UInt8 → Bool}

/-- Whether a text starts with a spelling of white space. -/
def starts (pair : UInt8 → UInt8 → Bool) (triple : UInt8 → UInt8 → UInt8 → Bool) : Bytes → Bool
  | [] => false
  | [a] => one a
  | [a, b] => one a || pair a b
  | a :: b :: c :: _ => one a || pair a b || triple a b c

/-- White space from end to end. -/
inductive Run (pair : UInt8 → UInt8 → Bool) (triple : UInt8 → UInt8 → UInt8 → Bool) : Bytes → Prop
  | nil : Run pair triple []
  | one {a : UInt8} {s : Bytes} (h : one a = true) (rest : Run pair triple s) :
      Run pair triple (a :: s)
  | two {a b : UInt8} {s : Bytes} (h : pair a b = true) (rest : Run pair triple s) :
      Run pair triple (a :: b :: s)
  | three {a b c : UInt8} {s : Bytes} (h : triple a b c = true) (rest : Run pair triple s) :
      Run pair triple (a :: b :: c :: s)

/-- No spelling starts with another one. -/
structure Distinct (pair : UInt8 → UInt8 → Bool) (triple : UInt8 → UInt8 → UInt8 → Bool) :
    Prop where
  two : ∀ a b, pair a b = true → one a = false
  three : ∀ a b c, triple a b c = true → one a = false ∧ pair a b = false

/-- A byte that no spelling goes on with. -/
structure Parts (pair : UInt8 → UInt8 → Bool) (triple : UInt8 → UInt8 → UInt8 → Bool) (c : UInt8) :
    Prop where
  second : ∀ a, pair a c = false
  middle : ∀ a b, triple a c b = false
  third : ∀ a b, triple a b c = false

theorem dropBlank_of_not_starts {s : Bytes} (h : starts pair triple s = false) :
    dropBlank pair triple s = s := by
  rcases s with _ | ⟨a, _ | ⟨b, _ | ⟨c, s⟩⟩⟩
  · rfl
  all_goals simp_all [starts, dropBlank]

theorem starts_dropBlank (s : Bytes) : starts pair triple (dropBlank pair triple s) = false := by
  fun_induction dropBlank pair triple s <;> simp_all [starts]

theorem not_starts_iff {s : Bytes} :
    starts pair triple s = false ↔ dropBlank pair triple s = s := by
  refine ⟨dropBlank_of_not_starts, ?_⟩
  intro h
  rw [← h]
  exact starts_dropBlank s

theorem exists_run (s : Bytes) :
    ∃ blanks, Run pair triple blanks ∧ s = blanks ++ dropBlank pair triple s := by
  fun_induction dropBlank pair triple s with
  | case1 | case3 | case5 | case7 => exact ⟨[], .nil, rfl⟩
  | case2 a s ha ih =>
    obtain ⟨blanks, hrun, hs⟩ := ih
    exact ⟨a :: blanks, .one ha hrun, by rw [List.cons_append, ← hs]⟩
  | case4 a _ b s hab ih =>
    obtain ⟨blanks, hrun, hs⟩ := ih
    exact ⟨a :: b :: blanks, .two hab hrun, by rw [List.cons_append, List.cons_append, ← hs]⟩
  | case6 a _ b _ c s habc ih =>
    obtain ⟨blanks, hrun, hs⟩ := ih
    exact ⟨a :: b :: c :: blanks, .three habc hrun, by simp only [List.cons_append, ← hs]⟩

theorem dropBlank_run (hdistinct : Distinct pair triple) {blanks : Bytes}
    (h : Run pair triple blanks) (s : Bytes) :
    dropBlank pair triple (blanks ++ s) = dropBlank pair triple s := by
  induction h with
  | nil => rfl
  | @one a blanks ha _ ih =>
    rw [List.cons_append, ← ih]
    rcases blanks ++ s with _ | ⟨b, _ | ⟨c, s⟩⟩ <;> simp [dropBlank, ha]
  | @two a b blanks hab _ ih =>
    rw [List.cons_append, List.cons_append, ← ih]
    rcases blanks ++ s with _ | ⟨c, s⟩ <;> simp [dropBlank, hab, hdistinct.two a b hab]
  | @three a b c blanks habc _ ih =>
    obtain ⟨ha, hab⟩ := hdistinct.three a b c habc
    simp [dropBlank, habc, ha, hab, ← ih]

/-- White space from end to end starts with a spelling of it. -/
theorem Run.starts {blanks : Bytes} (h : Run pair triple blanks) (hne : blanks ≠ []) :
    starts pair triple blanks = true := by
  cases h with
  | nil => exact absurd rfl hne
  | @one a s ha =>
    rcases s with _ | ⟨b, _ | ⟨c, s⟩⟩ <;> simp [Blank.starts, ha]
  | @two a b s hab =>
    rcases s with _ | ⟨c, s⟩ <;> simp [Blank.starts, hab]
  | three habc => simp [Blank.starts, habc]

theorem Run.append {blanks more : Bytes} (h : Run pair triple blanks) (h' : Run pair triple more) :
    Run pair triple (blanks ++ more) := by
  induction h with
  | nil => exact h'
  | one ha _ ih => exact .one ha ih
  | two hab _ ih => exact .two hab ih
  | three habc _ ih => exact .three habc ih

theorem Run.of_all {blanks : Bytes} (h : blanks.all Blank.one = true) : Run pair triple blanks := by
  induction blanks with
  | nil => exact .nil
  | cons a blanks ih =>
    rw [List.all_cons, Bool.and_eq_true] at h
    exact .one h.1 (ih h.2)

/-- White space is white space from either end. -/
theorem Run.reverse {blanks : Bytes} (h : Run pair triple blanks) :
    Run (fun a b => pair b a) (fun a b c => triple c b a) blanks.reverse := by
  induction h with
  | nil => exact .nil
  | one ha _ ih =>
    rw [List.reverse_cons]
    exact ih.append (.one ha .nil)
  | @two a b s hab _ ih =>
    simp only [List.reverse_cons, List.append_assoc, List.cons_append, List.nil_append]
    exact ih.append (.two (by exact hab) .nil)
  | @three a b c s habc _ ih =>
    simp only [List.reverse_cons, List.append_assoc, List.cons_append, List.nil_append]
    exact ih.append (.three (by exact habc) .nil)

/-- The start of a text is decided by its first bytes, if the text goes on with a
byte that no spelling goes on with. -/
theorem starts_append_cons {w : Bytes} (hne : w ≠ []) {c : UInt8} (hc : Parts pair triple c)
    (s : Bytes) : starts pair triple (w ++ c :: s) = starts pair triple w := by
  rcases w with _ | ⟨a, _ | ⟨b, _ | ⟨d, w⟩⟩⟩
  · exact absurd rfl hne
  · rcases s with _ | ⟨b, s⟩ <;> simp [starts, hc.second, hc.middle]
  · simp [starts, hc.third]
  · rfl

theorem not_starts_of_append {w s : Bytes} (h : starts pair triple (w ++ s) = false) :
    starts pair triple w = false := by
  rcases w with _ | ⟨a, _ | ⟨b, _ | ⟨d, w⟩⟩⟩
  · rfl
  · rcases s with _ | ⟨b, _ | ⟨c, s⟩⟩ <;> simp_all [starts]
  · rcases s with _ | ⟨c, s⟩ <;> simp_all [starts]
  · exact h

end DropBlank

/-! ## Spellings -/

theorem one_eq_false {a : UInt8} (h : 0x80 ≤ a.toNat) : one a = false := by
  rw [Bool.eq_false_iff]
  intro hone
  simp only [one, Bytes.isSpace, Bool.or_eq_true, beq_iff_eq] at hone
  rcases hone with ((((rfl | rfl) | rfl) | rfl) | rfl) | rfl <;> exact absurd h (by decide)

theorem lt_of_one {a : UInt8} (h : one a = true) : a.toNat < 0x80 := by
  by_contra hge
  rw [one_eq_false (by omega)] at h
  cases h

theorem bytes_of_two {a b : UInt8} (h : two a b = true) :
    a.toNat = 0xC2 ∧ 0x80 ≤ b.toNat ∧ b.toNat < 0xC2 := by
  simp only [two, Bool.and_eq_true, Bool.or_eq_true, beq_iff_eq] at h
  obtain ⟨rfl, rfl | rfl⟩ := h <;> decide

theorem bytes_of_three {a b c : UInt8} (h : three a b c = true) :
    0xE1 ≤ a.toNat ∧ 0x80 ≤ b.toNat ∧ b.toNat < 0xC2 ∧ 0x80 ≤ c.toNat ∧ c.toNat < 0xC2 := by
  simp only [three, Bool.or_eq_true, Bool.and_eq_true, beq_iff_eq, decide_eq_true_eq,
    UInt8.le_iff_toNat_le, ← UInt8.toNat_inj, UInt8.reduceToNat] at h
  omega

theorem two_eq_false {a b : UInt8} (h : a.toNat ≠ 0xC2 ∨ b.toNat < 0x80 ∨ 0xC2 ≤ b.toNat) :
    two a b = false := by
  rw [Bool.eq_false_iff]
  intro htwo
  have hbytes := bytes_of_two htwo
  omega

theorem three_eq_false {a b c : UInt8}
    (h : a.toNat < 0x80 ∨ (b.toNat < 0x80 ∨ 0xC2 ≤ b.toNat) ∨ c.toNat < 0x80 ∨ 0xC2 ≤ c.toNat) :
    three a b c = false := by
  rw [Bool.eq_false_iff]
  intro hthree
  have hbytes := bytes_of_three hthree
  omega

/-- At the front of a text spellings are read forwards. -/
theorem distinct_front : Distinct two three where
  two a b h := by
    have hbytes := bytes_of_two h
    exact one_eq_false (by omega)
  three a b c h := by
    have hbytes := bytes_of_three h
    exact ⟨one_eq_false (by omega), two_eq_false (by omega)⟩

/-- At the end of a text they are read backwards. -/
theorem distinct_back : Distinct (fun a b => two b a) (fun a b c => three c b a) where
  two a b h := one_eq_false (bytes_of_two h).2.1
  three a b c h := by
    have hbytes := bytes_of_three h
    exact ⟨one_eq_false (by omega), two_eq_false (by omega)⟩

theorem parts_front {c : UInt8} (h : c.toNat < 0x80 ∨ 0xC2 ≤ c.toNat) : Parts two three c where
  second _ := two_eq_false (.inr h)
  middle _ _ := three_eq_false (.inr (.inl h))
  third _ _ := three_eq_false (.inr (.inr h))

theorem parts_back {c : UInt8} (h : c.toNat < 0x80) :
    Parts (fun a b => two b a) (fun a b c => three c b a) c where
  second _ := two_eq_false (.inl (by omega))
  middle _ _ := three_eq_false (.inr (.inl (.inl h)))
  third _ _ := three_eq_false (.inl h)

/-! ## Trimming -/

/-- White space from end to end. -/
def IsBlankText (text : Bytes) : Prop := Run two three text

theorem isBlankText_of_all {text : Bytes} (h : text.all one = true) : IsBlankText text := .of_all h

theorem trimLeft_spec (text : Bytes) :
    ∃ blanks, IsBlankText blanks ∧ text = blanks ++ trimLeft text :=
  exists_run text

theorem trimRight_spec (text : Bytes) :
    ∃ blanks, IsBlankText blanks ∧ text = trimRight text ++ blanks := by
  obtain ⟨blanks, hrun, htext⟩ :=
    @exists_run (fun a b => two b a) (fun a b c => three c b a) text.reverse
  refine ⟨blanks.reverse, hrun.reverse, ?_⟩
  rw [trimRight, ← List.reverse_append, ← htext, List.reverse_reverse]

theorem trimLeft_append {blanks : Bytes} (h : IsBlankText blanks) (text : Bytes) :
    trimLeft (blanks ++ text) = trimLeft text :=
  dropBlank_run distinct_front h text

theorem trimRight_append {blanks : Bytes} (h : IsBlankText blanks) (text : Bytes) :
    trimRight (text ++ blanks) = trimRight text := by
  unfold trimRight
  rw [List.reverse_append, dropBlank_run distinct_back (Run.reverse h)]

theorem trimLeft_trimLeft (text : Bytes) : trimLeft (trimLeft text) = trimLeft text :=
  dropBlank_of_not_starts (starts_dropBlank text)

theorem trimRight_trimRight (text : Bytes) : trimRight (trimRight text) = trimRight text := by
  unfold trimRight
  rw [List.reverse_reverse, dropBlank_of_not_starts (starts_dropBlank _)]

/-- Text that does not start with white space. -/
structure Fore (text : Bytes) : Prop where
  ne_nil : text ≠ []
  trimmed : trimLeft text = text

/-- Text that does not end with white space. -/
structure Aft (text : Bytes) : Prop where
  ne_nil : text ≠ []
  trimmed : trimRight text = text

/-- An ASCII byte that is no white space. Trimming stops at it from either end. -/
def stops (a : UInt8) : Bool := a < 0x80 && !one a

theorem stops_iff {a : UInt8} : stops a = true ↔ a.toNat < 0x80 ∧ one a = false := by
  simp [stops, UInt8.lt_iff_toNat_lt]

theorem stops_of_lt {a : UInt8} (hlow : 32 < a.toNat) (hhigh : a.toNat < 0x80) :
    stops a = true := by
  rw [stops_iff]
  refine ⟨hhigh, ?_⟩
  simp only [one, Bytes.isSpace, Bool.or_eq_false_iff, beq_eq_false_iff_ne]
  refine ⟨⟨⟨⟨⟨?_, ?_⟩, ?_⟩, ?_⟩, ?_⟩, ?_⟩ <;> rintro rfl <;> exact absurd hlow (by decide)

theorem fore_of_stops {a : UInt8} (h : stops a = true) (s : Bytes) : Fore (a :: s) := by
  obtain ⟨hlow, hone⟩ := stops_iff.mp h
  have htwo : ∀ b, two a b = false := fun b => two_eq_false (.inl (by omega))
  have hthree : ∀ b c, three a b c = false := fun b c => three_eq_false (.inl hlow)
  refine ⟨by simp, dropBlank_of_not_starts ?_⟩
  rcases s with _ | ⟨b, _ | ⟨c, s⟩⟩ <;> simp [starts, hone, htwo, hthree]

theorem aft_of_stops {a : UInt8} (h : stops a = true) (s : Bytes) : Aft (s ++ [a]) := by
  obtain ⟨hlow, hone⟩ := stops_iff.mp h
  have htwo : ∀ b, two b a = false := fun b => two_eq_false (.inr (.inl hlow))
  have hthree : ∀ b c, three b c a = false := fun b c => three_eq_false (.inr (.inr (.inl hlow)))
  refine ⟨by simp, ?_⟩
  rw [trimRight, List.reverse_append, List.reverse_singleton, List.singleton_append,
    dropBlank_of_not_starts]
  · simp
  · rcases s.reverse with _ | ⟨b, _ | ⟨c, s⟩⟩ <;> simp [starts, hone, htwo, hthree]

theorem Fore.append {text : Bytes} (h : Fore text) {c : UInt8} (hc : c.toNat < 0x80)
    (rest : Bytes) : Fore (text ++ c :: rest) := by
  refine ⟨by simp, dropBlank_of_not_starts ?_⟩
  rw [starts_append_cons h.ne_nil (parts_front (.inl hc))]
  exact not_starts_iff.mpr h.trimmed

theorem Aft.append {text : Bytes} (h : Aft text) {c : UInt8} (hc : c.toNat < 0x80) (front : Bytes) :
    Aft (front ++ c :: text) := by
  have hend := congrArg List.reverse h.trimmed
  rw [trimRight, List.reverse_reverse] at hend
  refine ⟨by simp, ?_⟩
  rw [trimRight, List.reverse_append, List.reverse_cons, List.append_assoc, List.singleton_append,
    dropBlank_of_not_starts]
  · simp
  · rw [starts_append_cons (by simpa using h.ne_nil) (parts_back hc)]
    exact not_starts_iff.mpr hend

/-- What a text starts with does not start with white space, if the text does not. -/
theorem Fore.of_append {text rest : Bytes} (h : Fore (text ++ rest)) (hne : text ≠ []) :
    Fore text :=
  ⟨hne, dropBlank_of_not_starts (not_starts_of_append (not_starts_iff.mpr h.trimmed))⟩

/-- What a text ends with does not end with white space, if the text does not. -/
theorem Aft.of_append {text rest : Bytes} (h : Aft (text ++ rest)) (hne : rest ≠ []) :
    Aft rest := by
  have hend := congrArg List.reverse h.trimmed
  rw [trimRight, List.reverse_reverse, List.reverse_append] at hend
  refine ⟨hne, ?_⟩
  rw [trimRight, dropBlank_of_not_starts (not_starts_of_append (not_starts_iff.mpr hend)),
    List.reverse_reverse]

/-- White space at the end is not all of a text that starts with something else. -/
theorem Fore.trimRight_ne_nil {text : Bytes} (h : Fore text) : trimRight text ≠ [] := by
  obtain ⟨blanks, hrun, htext⟩ := trimRight_spec text
  intro hnil
  rw [hnil, List.nil_append] at htext
  rw [← htext] at hrun
  exact absurd (Run.starts hrun h.ne_nil) (by simp [not_starts_iff.mpr h.trimmed])

theorem Fore.aft_trimRight {text : Bytes} (h : Fore text) : Aft (trimRight text) :=
  ⟨h.trimRight_ne_nil, trimRight_trimRight text⟩

theorem Fore.fore_trimRight {text : Bytes} (h : Fore text) : Fore (trimRight text) := by
  obtain ⟨blanks, _, htext⟩ := trimRight_spec text
  rw [htext] at h
  exact h.of_append (Fore.trimRight_ne_nil (htext ▸ h))

/-- Only the last word of a text is trimmed at its end. -/
theorem Fore.trimRight_append {text : Bytes} (h : Fore text) {c : UInt8} (hc : c.toNat < 0x80)
    (front : Bytes) : trimRight (front ++ c :: text) = front ++ c :: trimRight text := by
  obtain ⟨blanks, hrun, htext⟩ := trimRight_spec text
  have hends := (h.aft_trimRight).append hc front
  calc trimRight (front ++ c :: text)
      = trimRight ((front ++ c :: trimRight text) ++ blanks) := by
        rw [List.append_assoc, List.cons_append, ← htext]
    _ = front ++ c :: trimRight text := by
        rw [Blank.trimRight_append hrun, hends.trimmed]

/-- Of text between white space, trimming leaves what is left of its end. -/
theorem Fore.trim_eq {text : Bytes} (h : Fore text) {front back : Bytes}
    (hfront : front.all one = true) (hback : back.all one = true) :
    trim (front ++ text ++ back) = trimRight text := by
  have hfore : Fore (text ++ back) := by
    cases back with
    | nil => rwa [List.append_nil]
    | cons c back =>
      rw [List.all_cons, Bool.and_eq_true] at hback
      exact h.append (lt_of_one hback.1) back
  rw [trim, List.append_assoc, trimLeft_append (isBlankText_of_all hfront), hfore.trimmed,
    Blank.trimRight_append (isBlankText_of_all hback)]

/-- Text with no white space at its ends. -/
structure Tight (text : Bytes) : Prop where
  fore : Fore text
  aft : Aft text

theorem Tight.trim_eq {text : Bytes} (h : Tight text) : trim text = text := by
  rw [trim, h.fore.trimmed, h.aft.trimmed]

/-- Words with a space between them. -/
theorem Tight.cons {word text : Bytes} (hword : Fore word) (h : Tight text) :
    Tight (word ++ 32 :: text) :=
  ⟨hword.append (by decide) text, h.aft.append (by decide) word⟩

theorem tight_trim {text : Bytes} (h : trim text ≠ []) : Tight (trim text) := by
  have hfore : Fore (trimLeft text) := by
    refine ⟨?_, trimLeft_trimLeft text⟩
    intro hnil
    rw [trim, hnil] at h
    exact h rfl
  exact ⟨hfore.fore_trimRight, hfore.aft_trimRight⟩

/-- Trimming leaves nothing of white space only. -/
theorem isBlankText_of_trim {text : Bytes} (h : trim text = []) : IsBlankText text := by
  obtain ⟨blanks, hrun, htext⟩ := trimLeft_spec text
  have hnil : trimLeft text = [] := by
    by_contra hne
    exact Fore.trimRight_ne_nil ⟨hne, trimLeft_trimLeft text⟩ h
  rw [hnil, List.append_nil] at htext
  rwa [htext]

theorem trim_append {back : Bytes} (h : back.all one = true) (text : Bytes) :
    trim (text ++ back) = trim text := by
  obtain ⟨front, hfront, htext⟩ := trimLeft_spec text
  by_cases hnil : trimLeft text = []
  · rw [hnil, List.append_nil] at htext
    have hback : trimLeft back = [] := by
      simpa [trimLeft, dropBlank] using trimLeft_append (isBlankText_of_all h) []
    rw [trim, htext, trimLeft_append hfront, hback, ← htext, trim, hnil]
  · have hfore : Fore (trimLeft text) := ⟨hnil, trimLeft_trimLeft text⟩
    have htrim := @Fore.trim_eq _ hfore [] back rfl h
    rw [List.nil_append, trim] at htrim
    rw [trim, htext, List.append_assoc, trimLeft_append hfront, htrim, ← htext, trim]

theorem trim_trim (text : Bytes) : trim (trim text) = trim text := by
  by_cases h : trim text = []
  · rw [h]
    rfl
  · exact (tight_trim h).trim_eq

theorem Tight.trim_blank_append {text blanks : Bytes} (h : Tight text)
    (hblanks : IsBlankText blanks) : trim (blanks ++ text) = text := by
  rw [trim, trimLeft_append hblanks, h.fore.trimmed, h.aft.trimmed]

/-- Text that does not end with white space is trimmed at its front only. -/
theorem Aft.trim_eq {text : Bytes} (h : Aft text) :
    trim text = trimLeft text ∧ trimLeft text ≠ [] := by
  obtain ⟨blanks, hblanks, htext⟩ := trimLeft_spec text
  have hne : trimLeft text ≠ [] := by
    intro hnil
    rw [hnil, List.append_nil] at htext
    have hempty := trimRight_append hblanks []
    rw [List.nil_append, ← htext, h.trimmed] at hempty
    exact h.ne_nil hempty
  rw [htext] at h
  exact ⟨(h.of_append hne).trimmed, hne⟩

/-- What is put after a space keeps all that stands before it but the white space at the
front. -/
theorem Fore.trim_append {text line : Bytes} (h : Fore text) (hline : trimLeft line ≠ []) :
    trim (line ++ 32 :: text) = trimLeft line ++ 32 :: trimRight text := by
  obtain ⟨blanks, hblanks, hsplit⟩ := trimLeft_spec line
  have hfore : Fore (trimLeft line) := ⟨hline, trimLeft_trimLeft line⟩
  calc trim (line ++ 32 :: text)
      = trimRight (trimLeft (blanks ++ (trimLeft line ++ 32 :: text))) := by
        rw [trim, ← List.append_assoc, ← hsplit]
    _ = trimLeft line ++ 32 :: trimRight text := by
        rw [trimLeft_append hblanks, (hfore.append (by decide) text).trimmed,
          h.trimRight_append (by decide)]

/-- What is left of a text stands in it. -/
theorem trim_infix (text : Bytes) : trim text <:+: text := by
  obtain ⟨front, _, hfront⟩ := trimLeft_spec text
  obtain ⟨back, _, hback⟩ := trimRight_spec (trimLeft text)
  refine ⟨front, back, ?_⟩
  rw [trim, List.append_assoc, ← hback, ← hfront]

/-! ## Inside white space -/

theorem toNat_le_of_one {a : UInt8} (h : one a = true) : a.toNat ≤ 32 := by
  simp only [one, Bytes.isSpace, Bool.or_eq_true, beq_iff_eq] at h
  rcases h with ((((rfl | rfl) | rfl) | rfl) | rfl) | rfl <;> decide

/-- How white space may start. -/
theorem IsBlankText.head_range {a : UInt8} {s : Bytes} (h : IsBlankText (a :: s)) :
    a.toNat ≤ 32 ∨ a.toNat = 0xC2 ∨ 0xE1 ≤ a.toNat := by
  cases h with
  | one ha => exact .inl (toNat_le_of_one ha)
  | two hab => exact .inr (.inl (bytes_of_two hab).1)
  | three habc => exact .inr (.inr (bytes_of_three habc).1)

/-- Trimming stops at no byte of white space. -/
theorem IsBlankText.not_stops {blanks : Bytes} (h : IsBlankText blanks) :
    ∀ b ∈ blanks, stops b = false := by
  have hhigh : ∀ {a : UInt8}, 0x80 ≤ a.toNat → stops a = false := by
    intro a ha
    rw [Bool.eq_false_iff]
    intro hstops
    have hlow := (stops_iff.mp hstops).1
    omega
  unfold IsBlankText at h
  induction h with
  | nil => exact List.forall_mem_nil _
  | one ha _ ih =>
    refine List.forall_mem_cons.mpr ⟨?_, ih⟩
    rw [stops, ha, Bool.not_true, Bool.and_false]
  | two hab _ ih =>
    have hbytes := bytes_of_two hab
    simp only [List.forall_mem_cons]
    exact ⟨hhigh (by omega), hhigh hbytes.2.1, ih⟩
  | three habc _ ih =>
    have hbytes := bytes_of_three habc
    simp only [List.forall_mem_cons]
    exact ⟨hhigh (by omega), hhigh (by omega), hhigh (by omega), ih⟩

/-- White space can be cut in two before a byte of ASCII. -/
theorem IsBlankText.cut {front back : Bytes} (h : IsBlankText (front ++ back))
    (hback : ∀ b ∈ back.head?, b.toNat < 0x80) : IsBlankText front ∧ IsBlankText back := by
  unfold IsBlankText at h ⊢
  generalize htext : front ++ back = text at h
  induction h generalizing front with
  | nil =>
    obtain ⟨rfl, rfl⟩ := List.append_eq_nil_iff.mp htext
    exact ⟨.nil, .nil⟩
  | one ha hrest ih =>
    cases front with
    | nil =>
      obtain rfl : back = _ := htext
      exact ⟨.nil, .one ha hrest⟩
    | cons a front =>
      obtain ⟨rfl, rfl⟩ := List.cons.inj htext
      exact ⟨.one ha (ih rfl).1, (ih rfl).2⟩
  | two hab hrest ih =>
    have hbytes := bytes_of_two hab
    rcases front with _ | ⟨a, _ | ⟨b, front⟩⟩
    · obtain rfl : back = _ := htext
      exact ⟨.nil, .two hab hrest⟩
    · obtain ⟨rfl, rfl⟩ := List.cons.inj htext
      have hlow := hback _ rfl
      omega
    · simp only [List.cons_append, List.cons.injEq] at htext
      obtain ⟨rfl, rfl, rfl⟩ := htext
      exact ⟨.two hab (ih rfl).1, (ih rfl).2⟩
  | three habc hrest ih =>
    have hbytes := bytes_of_three habc
    rcases front with _ | ⟨a, _ | ⟨b, _ | ⟨c, front⟩⟩⟩
    · obtain rfl : back = _ := htext
      exact ⟨.nil, .three habc hrest⟩
    · obtain ⟨rfl, rfl⟩ := List.cons.inj htext
      have hlow := hback _ rfl
      omega
    · simp only [List.cons_append, List.cons.injEq] at htext
      obtain ⟨rfl, rfl, rfl⟩ := htext
      have hlow := hback _ rfl
      omega
    · simp only [List.cons_append, List.cons.injEq] at htext
      obtain ⟨rfl, rfl, rfl, rfl⟩ := htext
      exact ⟨.three habc (ih rfl).1, (ih rfl).2⟩

/-- What a text starts with stays its start if white space follows. -/
theorem Fore.append_blank {text blanks : Bytes} (h : Fore text) (hblanks : IsBlankText blanks) :
    Fore (text ++ blanks) := by
  cases blanks with
  | nil => rwa [List.append_nil]
  | cons a s =>
    have hrange := hblanks.head_range
    refine ⟨by simp, dropBlank_of_not_starts ?_⟩
    rw [starts_append_cons h.ne_nil (parts_front (by omega))]
    exact not_starts_iff.mpr h.trimmed

theorem trimLeft_append_blank {text blanks : Bytes} (h : trimLeft text ≠ [])
    (hblanks : IsBlankText blanks) : trimLeft (text ++ blanks) = trimLeft text ++ blanks := by
  obtain ⟨front, hfront, htext⟩ := trimLeft_spec text
  have hfore : Fore (trimLeft text) := ⟨h, trimLeft_trimLeft text⟩
  conv => lhs; rw [htext, List.append_assoc]
  rw [trimLeft_append hfront, (hfore.append_blank hblanks).trimmed]

end Stackling.Blank
