import Mathlib.Tactic.Common
import Stackling.Files.Tree

/-!
# What file operations do

Commands are written for any monad with files. What is proved of them here needs a
file system with a few laws: paths lead to places, and at a place stands a file, a
directory or nothing (`FileView`). Each operation may fail, and changes at most what
stands at the places that it is about (`LawfulFiles`):

* opening changes nothing, and a file that can be read to its end is read as it is;
* a new temporary file has a place of its own, where nothing was;
* writing to a file and closing it change that file at most, also if they fail;
* renaming is done as a whole or not at all, and so is removing.

No operation changes where paths lead, since that depends on directories only. These
laws do not say when an operation fails. That a file can be removed is a law of its
own (`RemovesFiles`).

Trees of files keep these laws.
-/

namespace Stackling

/-! ## Runs -/

section Runs

variable {σ α β : Type} {s s' : σ}

/-- `Runs x s a s'`: from state `s`, the program `x` gives `a` and ends in state `s'`. -/
def Runs (x : StateM σ α) (s : σ) (a : α) (s' : σ) : Prop := x s = (a, s')

theorem exists_runs (x : StateM σ α) (s : σ) : ∃ a s', Runs x s a s' := ⟨(x s).1, (x s).2, rfl⟩

/-- A program in two parts runs one part at a time. -/
theorem runs_bind {x : StateM σ α} {f : α → StateM σ β} {b : β} :
    Runs (x >>= f) s b s' ↔ ∃ a s₁, Runs x s a s₁ ∧ Runs (f a) s₁ b s' := by
  constructor
  · exact fun h => ⟨(x s).1, (x s).2, rfl, h⟩
  · rintro ⟨a, s₁, hx, hf⟩
    show f (x s).1 (x s).2 = (b, s')
    rw [hx]
    exact hf

theorem runs_pure {a b : α} : Runs (pure a) s b s' ↔ a = b ∧ s = s' :=
  Prod.mk.injEq a s b s' ▸ Iff.rfl

theorem Runs.unique {x : StateM σ α} {a b : α} {s₁ s₂ : σ} (h₁ : Runs x s a s₁)
    (h₂ : Runs x s b s₂) : a = b ∧ s₁ = s₂ := Prod.mk.inj (h₁.symm.trans h₂)

end Runs

/-! ## Views and laws -/

/-- How the files in a state can be seen. -/
class FileView (σ : Type) where
  /-- The places of files and directories. -/
  Spot : Type
  /-- The place that a path leads to. -/
  find? : σ → Bytes → Option Spot
  /-- What stands at a place. -/
  get? : σ → Spot → Option Entry

namespace FileView

variable {σ : Type} [FileView σ] {s s₁ s₂ : σ} {place : Spot σ}

/-- Paths lead to the same places in both states, and what stands at the places is the
same but at the given one. -/
structure SameBut (place : Spot σ) (s s' : σ) : Prop where
  find? : ∀ path, find? s' path = find? s path
  get? : ∀ other, other ≠ place → get? s' other = get? s other

/-- Nothing is different in the second state. -/
structure Same (s s' : σ) : Prop where
  find? : ∀ path, find? s' path = find? s path
  get? : ∀ place : Spot σ, get? s' place = get? s place

/-- The file at one place may be another one. Nothing else is different. -/
structure Rewritten (place : Spot σ) (s s' : σ) : Prop extends SameBut place s s' where
  isFile : ∃ content, FileView.get? s' place = some (.file content)

/-- The file at one place has gone to another as a whole. -/
structure Moved (source target : Spot σ) (content : Bytes) (s s' : σ) : Prop where
  find? : ∀ path, find? s' path = find? s path
  arrived : get? s' target = some (.file content)
  gone : source ≠ target → get? s' source = none
  get? : ∀ other, other ≠ source → other ≠ target → get? s' other = get? s other

theorem Same.refl (s : σ) : Same s s := ⟨fun _ => rfl, fun _ => rfl⟩

theorem Same.trans (h₁ : Same s s₁) (h₂ : Same s₁ s₂) : Same s s₂ where
  find? path := (h₂.find? path).trans (h₁.find? path)
  get? place := (h₂.get? place).trans (h₁.get? place)

theorem Same.sameBut (h : Same s s₁) : SameBut place s s₁ := ⟨h.find?, fun other _ => h.get? other⟩

theorem SameBut.trans (h₁ : SameBut place s s₁) (h₂ : SameBut place s₁ s₂) :
    SameBut place s s₂ where
  find? path := (h₂.find? path).trans (h₁.find? path)
  get? other hne := (h₂.get? other hne).trans (h₁.get? other hne)

theorem SameBut.rewritten (h₁ : SameBut place s s₁) (h₂ : Rewritten place s₁ s₂) :
    Rewritten place s s₂ := ⟨h₁.trans h₂.toSameBut, h₂.isFile⟩

theorem Rewritten.same (h₁ : Rewritten place s s₁) (h₂ : Same s₁ s₂) : Rewritten place s s₂ where
  toSameBut := h₁.toSameBut.trans h₂.sameBut
  isFile := h₁.isFile.imp fun _ hcontent => (h₂.get? place).trans hcontent

theorem SameBut.same (h : SameBut place s s₁)
    (hplace : FileView.get? s₁ place = FileView.get? s place) : Same s s₁ where
  find? := h.find?
  get? other := by
    by_cases hne : other = place
    · rw [hne, hplace]
    · exact h.get? other hne

theorem SameBut.moved {target : Spot σ} {content : Bytes} (h₁ : SameBut place s s₁)
    (h₂ : Moved place target content s₁ s₂) : Moved place target content s s₂ where
  find? path := (h₂.find? path).trans (h₁.find? path)
  arrived := h₂.arrived
  gone := h₂.gone
  get? other hne hne' := (h₂.get? other hne hne').trans (h₁.get? other hne)

/-- Where nothing was before, nothing has changed when a file has gone again. -/
theorem SameBut.sameBut_of_moved {target : Spot σ} {content : Bytes} (h₁ : SameBut place s s₁)
    (hnone : FileView.get? s place = none) (h₂ : Moved place target content s₁ s₂) :
    SameBut target s s₂ where
  find? path := (h₂.find? path).trans (h₁.find? path)
  get? other hne := by
    by_cases hplace : other = place
    · subst hplace
      rw [h₂.gone hne, hnone]
    · exact (h₂.get? other hplace hne).trans (h₁.get? other hplace)

end FileView

open FileView

/-- Operations that keep to the places that they are about. -/
class LawfulFiles (σ : Type) [FileView σ] [MonadFiles (StateM σ)] : Prop where
  open_same {s s' : σ} {path : Bytes} {result : Except FileError Input}
    (h : Runs (MonadFiles.openFile path) s result s') : Same s s'
  /-- What can be read to its end is the content of a file. -/
  open_ok {s s' : σ} {path : Bytes} {input : Input}
    (h : Runs (MonadFiles.openFile path) s (.ok input) s') (hend : input.failure = none) :
    ∃ place, find? s path = some place ∧ get? s place = some (.file input.unread)
  createTemp_error {s s' : σ} {dir : Bytes} {e : FileError}
    (h : Runs (MonadFiles.createTemp dir) s (.error e) s') : Same s s'
  /-- A temporary file is created where nothing was. -/
  createTemp_ok {s s' : σ} {dir path : Bytes}
    (h : Runs (MonadFiles.createTemp dir) s (.ok path) s') :
    ∃ place, find? s path = some place ∧ get? s place = none ∧
      get? s' place = some (.file []) ∧ SameBut place s s'
  /-- A piece that is taken stands at the end of the file. -/
  appendFile {s s' : σ} {path piece old : Bytes} {place : Spot σ} {result : Except FileError Unit}
    (hfind : find? s path = some place) (hfile : get? s place = some (.file old))
    (h : Runs (MonadFiles.appendFile path piece) s result s') :
    Rewritten place s s' ∧ (result = .ok () → get? s' place = some (.file (old ++ piece)))
  /-- A file that could be closed is what was written. -/
  closeFile {s s' : σ} {path old : Bytes} {place : Spot σ} {result : Except FileError Unit}
    (hfind : find? s path = some place) (hfile : get? s place = some (.file old))
    (h : Runs (MonadFiles.closeFile path) s result s') :
    Rewritten place s s' ∧ (result = .ok () → get? s' place = some (.file old))
  renameFile_error {s s' : σ} {old new : Bytes} {e : FileError}
    (h : Runs (MonadFiles.renameFile old new) s (.error e) s') : Same s s'
  /-- A file is renamed as a whole. -/
  renameFile_ok {s s' : σ} {old new content : Bytes} {source : Spot σ}
    (hfind : find? s old = some source) (hfile : get? s source = some (.file content))
    (h : Runs (MonadFiles.renameFile old new) s (.ok ()) s') :
    ∃ target, find? s new = some target ∧ Moved source target content s s'
  removeFile_error {s s' : σ} {path : Bytes} {e : FileError}
    (h : Runs (MonadFiles.removeFile path) s (.error e) s') : Same s s'
  removeFile_ok {s s' : σ} {path : Bytes} {place : Spot σ} (hfind : find? s path = some place)
    (h : Runs (MonadFiles.removeFile path) s (.ok ()) s') :
    get? s' place = none ∧ SameBut place s s'

/-- A path that leads to a file is never refused when the file is to be removed. -/
def RemovesFiles (σ : Type) [FileView σ] [MonadFiles (StateM σ)] : Prop :=
  ∀ {s s' : σ} {path content : Bytes} {place : Spot σ} {e : FileError},
    find? s path = some place → get? s place = some (.file content) →
      ¬Runs (MonadFiles.removeFile path) s (.error e) s'

/-- Whether it succeeds or not, removing what is not there changes nothing. -/
theorem LawfulFiles.removeFile_none {σ : Type} [FileView σ] [MonadFiles (StateM σ)]
    [LawfulFiles σ] {s s' : σ} {path : Bytes} {place : Spot σ} {result : Except FileError Unit}
    (hfind : find? s path = some place) (hnone : get? s place = none)
    (h : Runs (MonadFiles.removeFile path) s result s') : Same s s' := by
  cases result with
  | error e => exact removeFile_error h
  | ok _ =>
    obtain ⟨hgone, hbut⟩ := removeFile_ok hfind h
    exact hbut.same (hgone.trans hnone.symm)

/-! ## Paths -/

namespace Path

theorem parts_ne_nil (path : Bytes) : parts path ≠ [] := by
  cases path with
  | nil => simp [parts]
  | cons b path =>
    simp only [parts, List.foldr_cons]
    split
    · simp
    · split <;> simp

theorem parts_slash (path : Bytes) : parts (slash :: path) = [] :: parts path := rfl

theorem parts_cons {b : UInt8} {path part : Bytes} {more : List Bytes} (hb : b ≠ slash)
    (h : parts path = part :: more) : parts (b :: path) = (b :: part) :: more := by
  unfold parts at h ⊢
  rw [List.foldr_cons, h, if_neg hb]

/-- A slash ends a part. -/
theorem parts_append_slash (path rest : Bytes) :
    parts (path ++ slash :: rest) = parts path ++ parts rest := by
  induction path with
  | nil => rfl
  | cons b path ih =>
    rw [List.cons_append]
    by_cases hb : b = slash
    · rw [hb, parts_slash, parts_slash, ih, List.cons_append]
    · cases hparts : parts path with
      | nil => exact (parts_ne_nil path hparts).elim
      | cons part more =>
        rw [hparts, List.cons_append] at ih
        rw [parts_cons hb hparts, parts_cons hb ih, List.cons_append]

/-- A name without slashes is one part. -/
theorem parts_of_not_mem {name : Bytes} (h : slash ∉ name) : parts name = [name] := by
  induction name with
  | nil => rfl
  | cons b name ih =>
    rw [List.mem_cons, not_or] at h
    exact parts_cons (Ne.symm h.1) (ih h.2)

theorem parts_inDirectory {dir name : Bytes} (h : slash ∉ name) :
    parts (dir ++ 47 :: name) = parts dir ++ [name] :=
  (parts_append_slash dir name).trans (congrArg _ (parts_of_not_mem h))

end Path

/-! ## Trees of files -/

namespace FileTree

variable {t t' : FileTree} {place other : Place} {e : Entry}

theorem lookup_filter (entries : List (Place × Entry)) :
    (entries.filter fun entry => entry.1 ≠ place).lookup other
      = if other = place then none else entries.lookup other := by
  induction entries with
  | nil => simp
  | cons entry entries ih =>
    obtain ⟨key, value⟩ := entry
    by_cases hkey : key = place
    · subst hkey
      rw [List.filter_cons_of_neg (by simp), ih]
      by_cases hother : other = key
      · simp [hother]
      · rw [if_neg hother, if_neg hother, List.lookup_cons, beq_false_of_ne hother]
    · rw [List.filter_cons_of_pos (by simpa using hkey), List.lookup_cons, List.lookup_cons, ih]
      by_cases hother : other = key
      · rw [hother, beq_self_eq_true]
        exact (if_neg hkey).symm
      · rw [beq_false_of_ne hother]

theorem get?_erase (t : FileTree) (hplace : place ≠ []) :
    (t.erase place).get? other = if other = place then none else t.get? other := by
  unfold get? erase
  by_cases hnil : other = []
  · rw [if_pos hnil, if_pos hnil, if_neg (by rw [hnil]; exact Ne.symm hplace)]
  · rw [if_neg hnil, if_neg hnil, lookup_filter]

theorem get?_put (t : FileTree) (hplace : place ≠ []) :
    (t.put place e).get? other = if other = place then some e else t.get? other := by
  unfold get? put
  by_cases hnil : other = []
  · rw [if_pos hnil, if_pos hnil, if_neg (by rw [hnil]; exact Ne.symm hplace)]
  · rw [if_neg hnil, if_neg hnil, List.lookup_cons, lookup_filter]
    by_cases hother : other = place
    · simp [hother]
    · rw [if_neg hother, if_neg hother, beq_false_of_ne hother]

theorem ne_nil_of_get? (h : t.get? place ≠ some .directory) : place ≠ [] := by
  rintro rfl
  exact h rfl

/-- Both trees have the same directories. -/
def SameDirectories (t t' : FileTree) : Prop :=
  ∀ place, t'.get? place = some .directory ↔ t.get? place = some .directory

theorem walk_of_not_directory (h : t.get? place ≠ some .directory) (part : Bytes)
    (parts : List Bytes) : (t.walk place (part :: parts)).toOption = none := by
  unfold walk
  split
  · rfl
  · rfl
  · rename_i hdir
    exact (h hdir).elim

/-- Where a path leads depends on the directories only. -/
theorem walk_congr (h : SameDirectories t t') (place : Place) (parts : List Bytes) :
    (t'.walk place parts).toOption = (t.walk place parts).toOption := by
  induction parts generalizing place with
  | nil => rfl
  | cons part parts ih =>
    by_cases hdir : t.get? place = some .directory
    · rw [walk, walk, hdir, (h place).mpr hdir]
      dsimp only
      split
      · exact ih _
      · split
        · split
          · rfl
          · exact ih _
        · exact ih _
    · rw [walk_of_not_directory hdir, walk_of_not_directory (mt (h place).mp hdir)]

theorem locate_congr (h : SameDirectories t t') (path : Bytes) :
    (t'.locate path).toOption = (t.locate path).toOption := by
  unfold locate
  split
  · rfl
  · exact walk_congr h [] _

theorem SameDirectories.put {content : Bytes} (h : t.get? place ≠ some .directory) :
    SameDirectories t (t.put place (.file content)) := by
  intro other
  rw [get?_put t (ne_nil_of_get? h)]
  by_cases hother : other = place
  · simp [hother, h]
  · simp [hother]

theorem SameDirectories.erase (h : t.get? place ≠ some .directory) :
    SameDirectories t (t.erase place) := by
  intro other
  rw [get?_erase t (ne_nil_of_get? h)]
  by_cases hother : other = place
  · simp [hother, h]
  · simp [hother]

/-! ### Temporary files -/

theorem walk_append (t : FileTree) (place : Place) (front back : List Bytes) :
    t.walk place (front ++ back) = t.walk place front >>= fun p => t.walk p back := by
  induction front generalizing place with
  | nil => rfl
  | cons part front ih =>
    rw [List.cons_append, walk, walk]
    split
    · rfl
    · rfl
    · split
      · exact ih _
      · split
        · split
          · rfl
          · exact ih _
        · exact ih _

/-- A name that can stand in a directory. -/
structure IsPlain (name : Bytes) : Prop where
  ne_nil : name ≠ []
  ne_dot : name ≠ ascii "."
  ne_dots : name ≠ ascii ".."
  one_part : Path.slash ∉ name

theorem walk_name {name : Bytes} (hname : IsPlain name) (h : t.get? place = some .directory) :
    t.walk place [name] = .ok (place ++ [name]) := by
  rw [walk, h]
  dsimp only
  rw [if_neg (not_or.mpr ⟨hname.ne_nil, hname.ne_dot⟩), if_neg hname.ne_dots, walk]

/-- The path of a name in a directory leads to the name in the directory. -/
theorem locate_inDirectory {dir name : Bytes} (hname : IsPlain name)
    (hlocate : t.locate dir = .ok place) (hdir : t.get? place = some .directory) :
    t.locate (inDirectory dir name) = .ok (place ++ [name]) := by
  unfold locate at hlocate
  split at hlocate
  · cases hlocate
  rename_i hpath
  rw [not_or] at hpath
  have hstart : ∀ rest : Bytes, ¬(dir ++ rest = [] ∨ (dir ++ rest).head? = some Path.slash) := by
    intro rest
    cases dir with
    | nil => exact (hpath.1 rfl).elim
    | cons b dir => simpa using hpath.2
  unfold inDirectory locate
  split
  · -- the slash at the end of the directory starts an empty part, which leads nowhere
    rename_i hlast
    obtain ⟨front, rfl⟩ := List.getLast?_eq_some_iff.mp hlast
    have hfront : Path.parts (front ++ [47]) = Path.parts front ++ [[]] :=
      Path.parts_append_slash front []
    rw [hfront, walk_append] at hlocate
    rw [if_neg (hstart name), List.append_assoc, List.singleton_append,
      Path.parts_inDirectory hname.one_part, walk_append]
    cases hwalk : t.walk [] (Path.parts front) with
    | error cause =>
      rw [hwalk] at hlocate
      cases hlocate
    | ok p =>
      rw [hwalk] at hlocate
      have hp : t.walk p [[]] = .ok place := hlocate
      obtain rfl : p = place := by
        unfold walk at hp
        split at hp
        · cases hp
        · cases hp
        · exact Except.ok.inj hp
      exact walk_name hname hdir
  · rw [if_neg (hstart _), Path.parts_inDirectory hname.one_part, walk_append, hlocate]
    exact walk_name hname hdir

theorem le_foldl_max {α : Type} (f : α → Nat) (l : List α) (n : Nat) :
    n ≤ l.foldl (fun n a => max n (f a)) n ∧
      ∀ a ∈ l, f a ≤ l.foldl (fun n a => max n (f a)) n := by
  induction l generalizing n with
  | nil => simp
  | cons b l ih =>
    obtain ⟨hstart, hall⟩ := ih (max n (f b))
    refine ⟨Nat.le_trans (Nat.le_max_left _ _) hstart, fun a ha => ?_⟩
    rcases List.mem_cons.mp ha with rfl | ha
    · exact Nat.le_trans (Nat.le_max_right _ _) hstart
    · exact hall a ha

theorem length_le_longest {name : Bytes} (h : t.get? (place ++ [name]) ≠ none) :
    name.length ≤ t.longest := by
  obtain ⟨e, he⟩ := Option.ne_none_iff_exists'.mp h
  rw [get?, if_neg (by simp)] at he
  obtain ⟨before, after, hentries, _⟩ := List.lookup_eq_some_iff.mp he
  have hentry := (le_foldl_max (fun entry : Place × Entry =>
    entry.1.foldl (fun n part => max n part.length) 0) t.entries 0).2
    (place ++ [name], e) (by simp [hentries])
  have hpart := (le_foldl_max List.length (place ++ [name]) 0).2 name (by simp)
  exact Nat.le_trans hpart hentry

theorem isPlain_temp (n : Nat) : IsPlain (tempStart ++ List.replicate (n + 1) 42) where
  ne_nil := by simp
  ne_dot h := by simpa [tempStart, ascii] using congrArg List.length h
  ne_dots h := by simpa [tempStart, ascii] using congrArg List.length h
  one_part := by
    rw [List.mem_append, not_or]
    refine ⟨by decide, fun h => ?_⟩
    exact absurd (List.eq_of_mem_replicate h) (by decide)

theorem isPlain_tempName (t : FileTree) (dir : Place) : IsPlain (t.tempName dir) := by
  unfold tempName
  dsimp only
  split
  · exact isPlain_temp 0
  · exact isPlain_temp t.longest

/-- The name of a temporary file is new. -/
theorem get?_tempName (t : FileTree) (dir : Place) : t.get? (dir ++ [t.tempName dir]) = none := by
  unfold tempName
  dsimp only
  split
  · rename_i hnone
    exact Option.isNone_iff_eq_none.mp hnone
  · by_contra hsome
    have hle := length_le_longest hsome
    simp only [List.length_append, List.length_replicate] at hle
    omega

/-! ### The laws -/

instance : FileView FileTree where
  Spot := Place
  find? t path := (t.locate path).toOption
  get? := get?

theorem get?_put_self {content : Bytes} (h : t.get? place ≠ some .directory) :
    (t.put place (.file content)).get? place = some (.file content) :=
  (get?_put t (ne_nil_of_get? h)).trans (if_pos rfl)

theorem sameBut_put {content : Bytes} (h : t.get? place ≠ some .directory) :
    @SameBut FileTree _ place t (t.put place (.file content)) where
  find? := locate_congr (.put h)
  get? _ hne := (get?_put t (ne_nil_of_get? h)).trans (if_neg hne)

theorem sameBut_erase (h : t.get? place ≠ some .directory) :
    @SameBut FileTree _ place t (t.erase place) where
  find? := locate_congr (.erase h)
  get? _ hne := (get?_erase t (ne_nil_of_get? h)).trans (if_neg hne)

theorem locate_of_find? {path : Bytes} (h : FileView.find? t path = some place) :
    t.locate path = .ok place := by
  cases hlocate : t.locate path with
  | error cause => simp [FileView.find?, hlocate, Except.toOption] at h
  | ok p =>
    simp only [FileView.find?, hlocate, Except.toOption, Option.some.injEq] at h
    rw [h]

theorem find?_of_locate {path : Bytes} (h : t.locate path = .ok place) :
    FileView.find? t path = some place := by
  simp [FileView.find?, h, Except.toOption]

theorem openFile_ok {path : Bytes} {input : Input} (h : t.openFile path = .ok input)
    (hend : input.failure = none) :
    ∃ place, FileView.find? t path = some place ∧ t.get? place = some (.file input.unread) := by
  unfold openFile at h
  split at h
  · cases h
  · rename_i place hlocate
    refine ⟨place, find?_of_locate hlocate, ?_⟩
    split at h
    · cases h
    · obtain rfl := Except.ok.inj h
      cases hend
    · rename_i hget
      obtain rfl := Except.ok.inj h
      exact hget

theorem createTemp_error {dir : Bytes} {e : FileError} (h : t.createTemp dir = (.error e, t')) :
    t = t' := by
  unfold createTemp at h
  dsimp only at h
  split at h
  · exact (Prod.mk.inj h).2
  · split at h
    · exact (Prod.mk.inj h).2
    · exact (Prod.mk.inj h).2
    · cases (Prod.mk.inj h).1

theorem createTemp_ok {dir path : Bytes} (h : t.createTemp dir = (.ok path, t')) :
    ∃ place, t.locate path = .ok place ∧ t.get? place = none ∧ t' = t.put place (.file []) := by
  unfold createTemp at h
  dsimp only at h
  split at h
  · cases (Prod.mk.inj h).1
  · rename_i dirPlace hlocate
    split at h
    · cases (Prod.mk.inj h).1
    · cases (Prod.mk.inj h).1
    · rename_i hdir
      obtain ⟨hpath, htree⟩ := Prod.mk.inj h
      refine ⟨dirPlace ++ [t.tempName dirPlace], ?_, get?_tempName t dirPlace, htree.symm⟩
      rw [← Except.ok.inj hpath]
      exact locate_inDirectory (isPlain_tempName t dirPlace) hlocate hdir

theorem renameFile_error {old new : Bytes} {e : FileError}
    (h : t.renameFile old new = (.error e, t')) : t = t' := by
  unfold renameFile at h
  split at h
  · split at h
    · exact (Prod.mk.inj h).2
    · cases (Prod.mk.inj h).1
    · exact (Prod.mk.inj h).2
  · exact (Prod.mk.inj h).2
  · exact (Prod.mk.inj h).2

theorem renameFile_ok {old new content : Bytes} {source : Place}
    (hlocate : t.locate old = .ok source) (hfile : t.get? source = some (.file content))
    (h : t.renameFile old new = (.ok (), t')) :
    ∃ target, t.locate new = .ok target ∧ t.get? target ≠ some .directory ∧
      t' = (t.erase source).put target (.file content) := by
  unfold renameFile at h
  rw [hlocate] at h
  cases hnew : t.locate new with
  | error cause =>
    rw [hnew] at h
    cases (Prod.mk.inj h).1
  | ok target =>
    rw [hnew] at h
    dsimp only at h
    rw [hfile] at h
    split at h
    · cases (Prod.mk.inj h).1
    · rename_i heq hdir
      obtain rfl := Entry.file.inj (Option.some.inj heq)
      exact ⟨target, rfl, hdir, (Prod.mk.inj h).2.symm⟩
    · cases (Prod.mk.inj h).1

theorem appendFile_cases {path piece old : Bytes} {result : Except FileError Unit}
    (hlocate : t.locate path = .ok place) (hfile : t.get? place = some (.file old))
    (h : t.appendFile path piece = (result, t')) :
    (result = .ok () ∧ t' = t.put place (.file (old ++ piece))) ∨
      (∃ e, result = .error e) ∧ t' = t := by
  unfold appendFile at h
  rw [hlocate] at h
  dsimp only at h
  rw [hfile] at h
  dsimp only at h
  split at h
  · exact .inl ⟨(Prod.mk.inj h).1.symm, (Prod.mk.inj h).2.symm⟩
  · exact .inr ⟨⟨_, (Prod.mk.inj h).1.symm⟩, (Prod.mk.inj h).2.symm⟩

theorem removeFile_error {path : Bytes} {e : FileError} (h : t.removeFile path = (.error e, t')) :
    t = t' ∧ ∀ place content, t.locate path = .ok place → t.get? place ≠ some (.file content) := by
  unfold removeFile at h
  split at h
  · rename_i hlocate
    exact ⟨(Prod.mk.inj h).2, fun place content hplace => by cases hlocate.symm.trans hplace⟩
  · rename_i place hlocate
    -- the path leads to one place, at which no file stands
    suffices hrest : t = t' ∧ ∀ content, t.get? place ≠ some (.file content) by
      refine ⟨hrest.1, fun place' content hplace => ?_⟩
      obtain rfl := Except.ok.inj (hlocate.symm.trans hplace)
      exact hrest.2 content
    split at h
    · rename_i hget
      exact ⟨(Prod.mk.inj h).2, by simp [hget]⟩
    · rename_i hget
      exact ⟨(Prod.mk.inj h).2, by simp [hget]⟩
    · cases (Prod.mk.inj h).1

theorem removeFile_ok {path : Bytes} (hlocate : t.locate path = .ok place)
    (h : t.removeFile path = (.ok (), t')) :
    t.get? place ≠ some .directory ∧ t' = t.erase place := by
  unfold removeFile at h
  rw [hlocate] at h
  dsimp only at h
  split at h
  · cases (Prod.mk.inj h).1
  · cases (Prod.mk.inj h).1
  · rename_i hget
    exact ⟨by simp [hget], (Prod.mk.inj h).2.symm⟩

instance : LawfulFiles FileTree where
  open_same h := (Prod.mk.inj h).2 ▸ .refl _
  open_ok h hend := openFile_ok (Prod.mk.inj h).1 hend
  createTemp_error h := createTemp_error h ▸ .refl _
  createTemp_ok := by
    intro t t' dir path h
    obtain ⟨place, hlocate, hnone, rfl⟩ := createTemp_ok h
    have hdir : t.get? place ≠ some .directory := by simp [hnone]
    exact ⟨place, find?_of_locate hlocate, hnone, get?_put_self hdir, sameBut_put hdir⟩
  appendFile := by
    intro t t' path piece old place result hfind hfile h
    have hdir : t.get? place ≠ some .directory := by
      rw [show t.get? place = _ from hfile]
      simp
    rcases appendFile_cases (locate_of_find? hfind) hfile h with ⟨_, rfl⟩ | ⟨⟨e, rfl⟩, rfl⟩
    · exact ⟨⟨sameBut_put hdir, _, get?_put_self hdir⟩, fun _ => get?_put_self hdir⟩
    · exact ⟨⟨(Same.refl t').sameBut, old, hfile⟩, fun hok => by cases hok⟩
  closeFile := by
    intro t t' path old place result hfind hfile h
    obtain rfl : t = t' := (Prod.mk.inj h).2
    exact ⟨⟨(Same.refl t).sameBut, old, hfile⟩, fun _ => hfile⟩
  renameFile_error h := renameFile_error h ▸ .refl _
  renameFile_ok := by
    intro t t' old new content source hfind hfile h
    obtain ⟨target, hlocate, htarget, rfl⟩ := renameFile_ok (locate_of_find? hfind) hfile h
    have hsource : t.get? source ≠ some .directory := by
      rw [show t.get? source = _ from hfile]
      simp
    have hput : (t.erase source).get? target ≠ some .directory :=
      mt (SameDirectories.erase hsource target).mp htarget
    have hfirst := sameBut_erase hsource
    have hthen : SameBut target _ ((t.erase source).put target (.file content)) :=
      sameBut_put hput
    refine ⟨target, find?_of_locate hlocate, fun path => ?_, get?_put_self hput, fun hne => ?_,
      fun other hother hother' => ?_⟩
    · exact (hthen.find? path).trans (hfirst.find? path)
    · rw [hthen.get? source hne]
      exact (get?_erase t (ne_nil_of_get? hsource)).trans (if_pos rfl)
    · exact (hthen.get? other hother').trans (hfirst.get? other hother)
  removeFile_error h := (removeFile_error h).1 ▸ .refl _
  removeFile_ok := by
    intro t t' path place hfind h
    obtain ⟨hdir, rfl⟩ := removeFile_ok (locate_of_find? hfind) h
    exact ⟨(get?_erase t (ne_nil_of_get? hdir)).trans (if_pos rfl), sameBut_erase hdir⟩

theorem removesFiles : RemovesFiles FileTree := fun hfind hfile h =>
  (removeFile_error h).2 _ _ (locate_of_find? hfind) hfile

end FileTree

end Stackling
