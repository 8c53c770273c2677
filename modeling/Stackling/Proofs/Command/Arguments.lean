import Mathlib.Tactic.Common
import Stackling.Command.Compiler
import Stackling.Proofs.Files
import Stackling.Proofs.Program.Emits

/-!
# The arguments of the compiler command

What the command is asked for, said without its flag parser:

* **flags** — the words that give a flag a value (`Flags.Takes`) are those that the
  parser accepts (`Flags.parse_append`, `Flags.parse_cases`);
* **requests** — each flag sets one field of a request, and the last one counts
  (`Compiler.Request.Reads`);
* **jobs** — the job of the command is the request on top of the settings
  (`Compiler.prepare_ok_iff`).
-/

namespace Stackling

/-! ## Flags -/

namespace Flags

/-- `Means kind text value`: the text stands for the value of a flag. -/
inductive Means : FlagKind → Bytes → FlagValue → Prop
  | on {text : Bytes} (h : text ∈ onWords) : Means .switch text (.switch true)
  | off {text : Bytes} (h : text ∈ offWords) : Means .switch text (.switch false)
  | text {text : Bytes} : Means .text text (.text text)
  | int {text : Bytes} {n : Int} (h : Numeral.integer text = .ok n) : Means .int text (.int n)

/-- A flag as an argument: one or two minus signs before the text. -/
inductive Dashed (text : Bytes) : Bytes → Prop
  | one : Dashed text (45 :: text)
  | two : Dashed text (45 :: 45 :: text)

/-- `Takes spec value words`: the words give a flag its value. The text for it follows
an equals sign or is a word of its own. A switch needs none, and never takes a word. -/
inductive Takes (spec : FlagSpec) : FlagValue → List Bytes → Prop
  | joined {text word : Bytes} {value : FlagValue} (h : Dashed (spec.name ++ 61 :: text) word)
      (hvalue : Means spec.kind text value) : Takes spec value [word]
  | apart {text word : Bytes} {value : FlagValue} (hkind : spec.kind ≠ .switch)
      (h : Dashed spec.name word) (hvalue : Means spec.kind text value) :
      Takes spec value [word, text]
  | alone {word : Bytes} (hkind : spec.kind = .switch) (h : Dashed spec.name word) :
      Takes spec (.switch true) [word]

theorem Takes.length_pos {spec : FlagSpec} {value : FlagValue} {words : List Bytes}
    (h : Takes spec value words) : 0 < words.length := by
  cases h <;> simp

theorem Takes.exists_text {spec : FlagSpec} {value : FlagValue} {words : List Bytes}
    (h : Takes spec value words) (hkind : spec.kind = .text) : ∃ text, value = .text text := by
  cases h with
  | joined _ hvalue | apart _ _ hvalue =>
    rw [hkind] at hvalue
    cases hvalue
    exact ⟨_, rfl⟩
  | alone hswitch => cases hkind.symm.trans hswitch

theorem Takes.exists_switch {spec : FlagSpec} {value : FlagValue} {words : List Bytes}
    (h : Takes spec value words) (hkind : spec.kind = .switch) : ∃ on, value = .switch on := by
  cases h with
  | joined _ hvalue | apart _ _ hvalue =>
    rw [hkind] at hvalue
    cases hvalue <;> exact ⟨_, rfl⟩
  | alone => exact ⟨true, rfl⟩

/-- `Ends args rest`: there are no flags at the start of the arguments, and all others
follow. A minus sign alone is no flag. -/
inductive Ends : List Bytes → List Bytes → Prop
  | nil : Ends [] []
  | other {word : Bytes} {rest : List Bytes} (h : word.length < 2 ∨ word.head? ≠ some 45) :
      Ends (word :: rest) (word :: rest)
  | stop {rest : List Bytes} : Ends (ascii "--" :: rest) rest

/-- A name that can be told from minus signs and values. -/
structure IsName (name : Bytes) : Prop where
  ne_nil : name ≠ []
  head : name.head? ≠ some 45
  no_equals : 61 ∉ name

instance (name : Bytes) : Decidable (IsName name) :=
  decidable_of_iff (name ≠ [] ∧ name.head? ≠ some 45 ∧ 61 ∉ name)
    ⟨fun ⟨ne_nil, head, no_equals⟩ => ⟨ne_nil, head, no_equals⟩,
      fun h => ⟨h.ne_nil, h.head, h.no_equals⟩⟩

theorem readValue_eq_ok_iff {spec : FlagSpec} {text : Bytes} {value : FlagValue} :
    readValue spec text = .ok value ↔ Means spec.kind text value := by
  obtain ⟨name, kind⟩ := spec
  unfold readValue
  constructor
  · intro h
    cases kind with
    | switch =>
      dsimp only at h
      split at h
      · rename_i hon
        obtain rfl := Except.ok.inj h
        exact .on (List.contains_iff_mem.mp hon)
      · split at h
        · rename_i hoff
          obtain rfl := Except.ok.inj h
          exact .off (List.contains_iff_mem.mp hoff)
        · cases h
    | text =>
      obtain rfl := Except.ok.inj h
      exact .text
    | int =>
      dsimp only at h
      split at h
      · rename_i hn
        obtain rfl := Except.ok.inj h
        exact .int hn
      · cases h
  · intro h
    cases h with
    | on h => exact if_pos (List.contains_iff_mem.mpr h)
    | off h =>
      have hon : ∀ word ∈ offWords, ¬onWords.contains word = true := by decide
      exact (if_neg (hon text h)).trans (if_pos (List.contains_iff_mem.mpr h))
    | text => rfl
    | int h =>
      dsimp only
      rw [h]

/-! ### Shapes -/

theorem shape_dashed {text word : Bytes} (h : Dashed text word) (hne : text ≠ [])
    (hhead : text.head? ≠ some 45) : shape word = named text := by
  cases text with
  | nil => exact (hne rfl).elim
  | cons a text =>
    have ha : a ≠ 45 := fun heq => hhead (heq ▸ rfl)
    cases h with
    | one => simp [shape, ha]
    | two => rfl

/-- A name is read up to the equals sign, if there is one. -/
theorem named_append {name : Bytes} (h : IsName name) (value : Option Bytes) :
    named (name ++ value.elim [] (61 :: ·)) = .flag name value := by
  obtain ⟨hne, hhead, hequals⟩ := h
  cases name with
  | nil => exact (hne rfl).elim
  | cons a name =>
    simp only [List.head?_cons, ne_eq, Option.some.injEq, List.mem_cons, not_or] at hhead hequals
    have hall : ∀ b ∈ name, decide (b ≠ 61) = true := by
      intro b hb
      simpa using fun heq : b = 61 => hequals.2 (heq ▸ hb)
    rw [List.cons_append, named, if_neg (by simp [hhead, Ne.symm hequals.1]),
      List.dropWhile_append_of_pos hall, List.takeWhile_append_of_pos hall]
    cases value with
    | none => simp
    | some value => simp

theorem shape_append {name word : Bytes} (hname : IsName name) (value : Option Bytes)
    (h : Dashed (name ++ value.elim [] (61 :: ·)) word) : shape word = .flag name value := by
  refine (shape_dashed h (by simp [hname.ne_nil]) ?_).trans (named_append hname value)
  obtain ⟨a, name, rfl⟩ := List.exists_cons_of_ne_nil hname.ne_nil
  exact hname.head

theorem named_eq_flag {text name : Bytes} {value : Option Bytes}
    (h : named text = .flag name value) : text = name ++ value.elim [] (61 :: ·) := by
  unfold named at h
  split at h
  · cases h
  · rename_i a s
    split at h
    · cases h
    · split at h
      · obtain ⟨rfl, rfl⟩ := Shape.flag.inj h
        simp
      · rename_i b rest hdrop
        obtain ⟨rfl, rfl⟩ := Shape.flag.inj h
        obtain rfl : b = 61 := by
          have hnot := List.head?_dropWhile_not (fun b : UInt8 => decide (b ≠ 61)) s
          rw [hdrop] at hnot
          simpa using hnot
        rw [Option.elim_some, List.cons_append, ← hdrop, List.takeWhile_append_dropWhile]

theorem named_ne (text : Bytes) : named text ≠ .other ∧ named text ≠ .stop := by
  unfold named
  split
  · simp
  · split
    · simp
    · split <;> simp

theorem shape_eq_flag {word name : Bytes} {value : Option Bytes}
    (h : shape word = .flag name value) : Dashed (name ++ value.elim [] (61 :: ·)) word := by
  unfold shape at h
  split at h
  · cases h
  · exact named_eq_flag h ▸ .two
  · exact named_eq_flag h ▸ .one
  · cases h

theorem shape_eq_other_iff {word : Bytes} :
    shape word = .other ↔ word.length < 2 ∨ word.head? ≠ some 45 := by
  match word with
  | [] => simp [shape]
  | [b] => simp [shape]
  | b :: c :: text =>
    by_cases hb : b = 45
    · subst hb
      refine iff_of_false ?_ (by simp)
      unfold shape
      split
      · simp
      · exact (named_ne _).1
      · exact (named_ne _).1
      · rename_i hother
        exact (hother c text rfl).elim
    · exact iff_of_true (by simp [shape, hb]) (.inr (by simpa using hb))

theorem shape_eq_stop_iff {word : Bytes} : shape word = .stop ↔ word = ascii "--" := by
  constructor
  · intro h
    unfold shape at h
    split at h
    · rfl
    · exact ((named_ne _).2 h).elim
    · exact ((named_ne _).2 h).elim
    · cases h
  · rintro rfl
    rfl

/-! ### The parser -/

variable {specs : List FlagSpec} {args rest : List Bytes}

theorem parse_of_ends (h : Ends args rest) : parse specs args = .ok { values := [], rest } := by
  cases h with
  | nil => rfl
  | other h => rw [parse, shape_eq_other_iff.mpr h]
  | stop => rw [parse, shape_eq_stop_iff.mpr rfl]

/-- The words for a flag are understood as its value. -/
theorem parse_append {spec : FlagSpec} {value : FlagValue} {words : List Bytes}
    (hspec : specs.find? (fun s => s.name == spec.name) = some spec) (hname : IsName spec.name)
    (h : Takes spec value words) (args : List Bytes) :
    parse specs (words ++ args) = (parse specs args).map (cons spec.name value) := by
  cases h with
  | joined h hvalue =>
    rw [List.singleton_append, parse, shape_append hname (some _) h]
    simp only [hspec, readValue_eq_ok_iff.mpr hvalue]
    rfl
  | apart hkind h hvalue =>
    rw [List.cons_append, parse, shape_append hname none (by simpa using h)]
    simp only [hspec]
    cases hcase : spec.kind with
    | switch => exact (hkind hcase).elim
    | text | int =>
      simp only [List.singleton_append, readValue_eq_ok_iff.mpr hvalue]
      rfl
  | alone hkind h =>
    rw [List.singleton_append, parse, shape_append hname none (by simpa using h)]
    simp only [hspec, hkind]
    rfl

/-- Arguments that are understood start with no flag, or with the words for one. -/
theorem parse_cases {flags : Flags} (h : parse specs args = .ok flags) :
    Ends args flags.rest ∨ ∃ spec value words args' flags', spec ∈ specs ∧ Takes spec value words ∧
      args = words ++ args' ∧ parse specs args' = .ok flags' ∧
      flags = flags'.cons spec.name value := by
  cases args with
  | nil =>
    obtain rfl := Except.ok.inj h
    exact .inl .nil
  | cons word args =>
    rw [parse] at h
    split at h
    · rename_i hshape
      obtain rfl := Except.ok.inj h
      exact .inl (.other (shape_eq_other_iff.mp hshape))
    · rename_i hshape
      obtain rfl := Except.ok.inj h
      obtain rfl := shape_eq_stop_iff.mp hshape
      exact .inl .stop
    · cases h
    · rename_i name value hshape
      have hword := shape_eq_flag hshape
      split at h
      · cases h
      · rename_i spec hspec
        obtain rfl : spec.name = name := by simpa using List.find?_some hspec
        have hmem := List.mem_of_find?_eq_some hspec
        -- a value is read from a text, wherever that stands
        have hread : ∀ {text : Bytes} {args' : List Bytes},
            (do let v ← readValue spec text; return (← parse specs args').cons spec.name v)
              = .ok flags →
            ∃ value flags', Means spec.kind text value ∧ parse specs args' = .ok flags' ∧
              flags = flags'.cons spec.name value := by
          intro text args' h
          obtain ⟨value, hvalue, h⟩ := bind_eq_ok.mp h
          obtain ⟨flags', hflags, h⟩ := bind_eq_ok.mp h
          exact ⟨value, flags', readValue_eq_ok_iff.mp hvalue, hflags, (Except.ok.inj h).symm⟩
        refine .inr ⟨spec, ?_⟩
        split at h
        · obtain ⟨value, flags', hvalue, hflags, hcons⟩ := hread h
          exact ⟨value, _, _, flags', hmem, .joined hword hvalue, rfl, hflags, hcons⟩
        · rename_i hkind
          obtain ⟨flags', hflags, h⟩ := bind_eq_ok.mp h
          refine ⟨_, _, _, flags', hmem, .alone hkind (by simpa using hword), rfl, hflags, ?_⟩
          exact (Except.ok.inj h).symm
        · cases h
        · rename_i text args' hkind
          obtain ⟨value, flags', hvalue, hflags, hcons⟩ := hread h
          exact ⟨value, [word, text], args', flags', hmem,
            .apart hkind (by simpa using hword) hvalue, rfl, hflags, hcons⟩

/-! ### Values -/

section Sets

variable {α : Type} {wrap : α → FlagValue} {flags : Flags} {name other : Bytes}
  {before after : α}

/-- `flags.Sets name wrap before after`: what was `before` is `after` once the flags are
read, since the last one of this name says so or there is none. -/
def Sets (flags : Flags) (name : Bytes) (wrap : α → FlagValue) (before after : α) : Prop :=
  flags.get? name = some (wrap after) ∨ flags.get? name = none ∧ after = before

theorem get?_cons (flags : Flags) (name other : Bytes) (value : FlagValue) :
    (flags.cons name value).get? other
      = (flags.get? other).or (if other = name then some value else none) := by
  rw [get?, cons, List.reverse_cons, List.lookup_append, get?]
  by_cases h : other = name
  · rw [if_pos h, h, List.lookup_cons_self]
  · rw [if_neg h, List.lookup_cons, beq_false_of_ne h]
    rfl

theorem Sets.of_nil (hvalues : flags.values = []) : flags.Sets name wrap before before :=
  .inr ⟨by rw [get?, hvalues]; rfl, rfl⟩

/-- A flag in front counts unless there is another one of its name. -/
theorem Sets.cons {value : α} (h : flags.Sets name wrap value after) :
    (flags.cons name (wrap value)).Sets name wrap before after := by
  refine .inl ?_
  rw [get?_cons, if_pos rfl]
  obtain h | ⟨h, rfl⟩ := h
  · rw [h, Option.some_or]
  · rw [h, Option.none_or]

theorem Sets.cons_of_ne {value : FlagValue} (h : flags.Sets name wrap before after)
    (hne : name ≠ other) : (flags.cons other value).Sets name wrap before after := by
  rw [Sets, get?_cons, if_neg hne, Option.or_none]
  exact h

theorem Sets.text_eq {text : Bytes} (h : flags.Sets name .text [] text) :
    flags.text name = text := by
  unfold Flags.text
  obtain h | ⟨h, rfl⟩ := h
  · rw [h]
  · rw [h]

theorem Sets.isOn_eq {on : Bool} (h : flags.Sets name .switch false on) :
    flags.isOn name = on := by
  unfold Flags.isOn
  obtain h | ⟨h, rfl⟩ := h
  · rw [h]
    cases on <;> decide
  · rw [h]
    decide

end Sets

end Flags

/-! ## Requests -/

namespace Compiler

/-- What the arguments ask for. -/
structure Request where
  /-- The path of the result, or nothing. -/
  output : Bytes := []
  /-- The path of the settings, or nothing. -/
  config : Bytes := []
  emitText : Bool := false
  emitSymbols : Bool := false
  emitListing : Bool := false
  verbose : Bool := false
  /-- The path of the program text. -/
  path : Bytes := []
  deriving DecidableEq, Repr

namespace Request

/-- `r.Assigns spec value r'`: with a value for a flag, the request `r` becomes `r'`. -/
inductive Assigns (r : Request) : FlagSpec → FlagValue → Request → Prop
  | output {path : Bytes} : Assigns r ⟨ascii "o", .text⟩ (.text path) { r with output := path }
  | config {path : Bytes} :
      Assigns r ⟨ascii "config", .text⟩ (.text path) { r with config := path }
  | emitText {on : Bool} : Assigns r ⟨ascii "S", .switch⟩ (.switch on) { r with emitText := on }
  | emitSymbols {on : Bool} :
      Assigns r ⟨ascii "symbols", .switch⟩ (.switch on) { r with emitSymbols := on }
  | emitListing {on : Bool} :
      Assigns r ⟨ascii "list", .switch⟩ (.switch on) { r with emitListing := on }
  | verbose {on : Bool} : Assigns r ⟨ascii "v", .switch⟩ (.switch on) { r with verbose := on }

/-- `Reads r args r'`: with the arguments, the request `r` becomes `r'`. Flags come first,
and each of them sets its field. One path follows. -/
inductive Reads : Request → List Bytes → Request → Prop
  | path {r : Request} {path : Bytes} {args : List Bytes} (h : Flags.Ends args [path]) :
      Reads r args { r with path }
  | flag {r r₁ r' : Request} {spec : FlagSpec} {value : FlagValue} {words args : List Bytes}
      (h : Flags.Takes spec value words) (hassigns : r.Assigns spec value r₁)
      (hrest : Reads r₁ args r') : Reads r (words ++ args) r'

/-- The flags make the request `r'` out of `r`. -/
structure Made (r : Request) (flags : Flags) (r' : Request) : Prop where
  output : flags.Sets (ascii "o") .text r.output r'.output
  config : flags.Sets (ascii "config") .text r.config r'.config
  emitText : flags.Sets (ascii "S") .switch r.emitText r'.emitText
  emitSymbols : flags.Sets (ascii "symbols") .switch r.emitSymbols r'.emitSymbols
  emitListing : flags.Sets (ascii "list") .switch r.emitListing r'.emitListing
  verbose : flags.Sets (ascii "v") .switch r.verbose r'.verbose
  path : flags.rest = [r'.path]

theorem isName_of_mem : ∀ spec ∈ specs, Flags.IsName spec.name := by
  decide

theorem find?_of_mem : ∀ spec ∈ specs, specs.find? (fun s => s.name == spec.name) = some spec := by
  decide

section Assigns

variable {r r₁ r' : Request} {spec : FlagSpec} {value : FlagValue}

theorem Assigns.mem (h : r.Assigns spec value r₁) : spec ∈ specs := by
  cases h <;> decide

/-- Every flag of the command that takes a value assigns it. -/
theorem exists_assigns (hspec : spec ∈ specs) {words : List Bytes}
    (h : Flags.Takes spec value words) (r : Request) : ∃ r₁, r.Assigns spec value r₁ := by
  simp only [specs, List.mem_cons, List.not_mem_nil, or_false] at hspec
  rcases hspec with rfl | rfl | rfl | rfl | rfl | rfl
  · obtain ⟨text, rfl⟩ := h.exists_text rfl
    exact ⟨_, .output⟩
  · obtain ⟨on, rfl⟩ := h.exists_switch rfl
    exact ⟨_, .emitText⟩
  · obtain ⟨on, rfl⟩ := h.exists_switch rfl
    exact ⟨_, .emitSymbols⟩
  · obtain ⟨on, rfl⟩ := h.exists_switch rfl
    exact ⟨_, .emitListing⟩
  · obtain ⟨text, rfl⟩ := h.exists_text rfl
    exact ⟨_, .config⟩
  · obtain ⟨on, rfl⟩ := h.exists_switch rfl
    exact ⟨_, .verbose⟩

theorem Made.cons {flags : Flags} (h : r.Assigns spec value r₁) (hmade : r₁.Made flags r') :
    r.Made (flags.cons spec.name value) r' := by
  obtain ⟨houtput, hconfig, htext, hsymbols, hlisting, hverbose, hpath⟩ := hmade
  -- the flag is that of one field, and none of the others
  cases h with
  | output =>
    exact ⟨houtput.cons, hconfig.cons_of_ne (by decide), htext.cons_of_ne (by decide),
      hsymbols.cons_of_ne (by decide), hlisting.cons_of_ne (by decide),
      hverbose.cons_of_ne (by decide), hpath⟩
  | config =>
    exact ⟨houtput.cons_of_ne (by decide), hconfig.cons, htext.cons_of_ne (by decide),
      hsymbols.cons_of_ne (by decide), hlisting.cons_of_ne (by decide),
      hverbose.cons_of_ne (by decide), hpath⟩
  | emitText =>
    exact ⟨houtput.cons_of_ne (by decide), hconfig.cons_of_ne (by decide), htext.cons,
      hsymbols.cons_of_ne (by decide), hlisting.cons_of_ne (by decide),
      hverbose.cons_of_ne (by decide), hpath⟩
  | emitSymbols =>
    exact ⟨houtput.cons_of_ne (by decide), hconfig.cons_of_ne (by decide),
      htext.cons_of_ne (by decide), hsymbols.cons, hlisting.cons_of_ne (by decide),
      hverbose.cons_of_ne (by decide), hpath⟩
  | emitListing =>
    exact ⟨houtput.cons_of_ne (by decide), hconfig.cons_of_ne (by decide),
      htext.cons_of_ne (by decide), hsymbols.cons_of_ne (by decide), hlisting.cons,
      hverbose.cons_of_ne (by decide), hpath⟩
  | verbose =>
    exact ⟨houtput.cons_of_ne (by decide), hconfig.cons_of_ne (by decide),
      htext.cons_of_ne (by decide), hsymbols.cons_of_ne (by decide),
      hlisting.cons_of_ne (by decide), hverbose.cons, hpath⟩

end Assigns

/-- What is read from arguments is what the parser understands. -/
theorem Reads.made {r r' : Request} {args : List Bytes} (h : Reads r args r') :
    ∃ flags, Flags.parse specs args = .ok flags ∧ r.Made flags r' := by
  induction h with
  | path h =>
    exact ⟨_, Flags.parse_of_ends h, .of_nil rfl, .of_nil rfl, .of_nil rfl, .of_nil rfl,
      .of_nil rfl, .of_nil rfl, rfl⟩
  | @flag _ _ _ spec _ _ _ h hassigns _ ih =>
    obtain ⟨flags, hflags, hmade⟩ := ih
    have hspec := hassigns.mem
    refine ⟨_, ?_, hmade.cons hassigns⟩
    rw [Flags.parse_append (find?_of_mem spec hspec) (isName_of_mem spec hspec) h, hflags]
    rfl

/-- What the parser understands can be read, if one argument is left. -/
theorem exists_reads {args : List Bytes} {flags : Flags} {path : Bytes}
    (h : Flags.parse specs args = .ok flags) (hrest : flags.rest = [path]) (r : Request) :
    ∃ r', Reads r args r' := by
  rcases Flags.parse_cases h with
    hends | ⟨spec, value, words, args', flags', hspec, htakes, hargs, hflags, rfl⟩
  · exact ⟨_, .path (hrest ▸ hends)⟩
  · have hshorter : args'.length < args.length := by
      rw [hargs, List.length_append]
      exact Nat.lt_add_of_pos_left htakes.length_pos
    obtain ⟨r₁, hassigns⟩ := exists_assigns hspec htakes r
    obtain ⟨r', hreads⟩ := exists_reads hflags hrest r₁
    exact ⟨r', hargs ▸ .flag htakes hassigns hreads⟩
termination_by args.length

/-- The job that a request asks for on top of the settings. A switch can only add to
what is set. -/
def job (request : Request) (settings : Settings) : Job where
  settings :=
    { settings with
      emitText := settings.emitText || request.emitText
      emitSymbols := settings.emitSymbols || request.emitSymbols
      emitListing := settings.emitListing || request.emitListing
      logLevel := if request.verbose then ascii "debug" else settings.logLevel }
  output := request.output
  path := request.path

theorem Made.withFlags_eq {request : Request} {flags : Flags} (h : Made {} flags request)
    (settings : Settings) : withFlags settings flags = (request.job settings).settings := by
  unfold withFlags job
  rw [h.emitText.isOn_eq, h.emitSymbols.isOn_eq, h.emitListing.isOn_eq, h.verbose.isOn_eq]

end Request

section Prepare

variable {σ : Type} [MonadFiles (StateM σ)] {s s' : σ} {args : List Bytes}

/-- The command works on a job exactly if a request can be read from the arguments and
its settings can be loaded; then that is the job. -/
theorem prepare_ok_iff {job : Job} :
    Runs (prepare args) s (.ok job) s' ↔ ∃ request settings, Request.Reads {} args request ∧
      Runs (Settings.load request.config) s (.ok settings) s' ∧ job = request.job settings := by
  constructor
  · intro h
    unfold prepare at h
    split at h
    · cases (runs_pure.mp h).1
    · rename_i flags hflags
      split at h
      · rename_i path hrest
        obtain ⟨request, hreads⟩ := Request.exists_reads hflags hrest {}
        obtain ⟨flags', hflags', hmade⟩ := hreads.made
        obtain rfl := Except.ok.inj (hflags.symm.trans hflags')
        obtain rfl := (List.cons.inj (hrest.symm.trans hmade.path)).1
        rw [hmade.config.text_eq] at h
        obtain ⟨loaded, s₁, hload, h⟩ := runs_bind.mp h
        split at h
        · cases (runs_pure.mp h).1
        · rename_i settings
          obtain ⟨heq, rfl⟩ := runs_pure.mp h
          refine ⟨request, settings, hreads, hload, ?_⟩
          rw [← Except.ok.inj heq, hmade.withFlags_eq, hmade.output.text_eq]
          rfl
      · cases (runs_pure.mp h).1
  · rintro ⟨request, settings, hreads, hload, rfl⟩
    obtain ⟨flags, hflags, hmade⟩ := hreads.made
    unfold prepare
    rw [hflags]
    dsimp only
    rw [hmade.path]
    dsimp only
    rw [hmade.config.text_eq]
    refine runs_bind.mpr ⟨_, s', hload, ?_⟩
    dsimp only
    rw [hmade.withFlags_eq, hmade.output.text_eq]
    exact runs_pure.mpr ⟨rfl, rfl⟩

end Prepare

end Compiler

end Stackling
