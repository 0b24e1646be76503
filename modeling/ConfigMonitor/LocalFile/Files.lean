/-
# Directories and files

The file system as a tree: a place is the list of the names on the way from the root, and it
holds a directory or a regular file.  The strings that `loc_file` is called with are resolved
component by component, `.` and `..` included; there are no symbolic links.  The system sees a
string as far as its first NUL, and paths and names have a greatest length.
-/
import ConfigMonitor.Lib.Lookup
import ConfigMonitor.LocalFile.FileSystem
import Mathlib.Data.List.Nodup

namespace ConfigMonitor

namespace LocalFile

open Lookup

/-- A regular file with its content, or a directory. -/
inductive Entry
  | file (value : Str)
  | dir
deriving DecidableEq, Repr

/-- The names on the way from the root. -/
abbrev Place := List Str

/-- The directories and files, and the working directory.  What holds something is a directory. -/
structure Files where
  entries : List (Place × Entry)
  cwd : Place
  nodup : (entries.map Prod.fst).Nodup
  root_dir : entries.lookup [] = some .dir
  closed : ∀ (d : Place) (name : Str), d ++ [name] ∈ entries.map Prod.fst →
    entries.lookup d = some .dir

/-! ## Paths -/

/-- `parent_path`: what precedes the last separator, with the separator. -/
def parentPart (path : Path) : Str := (path.reverse.dropWhile (· ≠ '/')).reverse

/-- The names between the separators. -/
def names (path : Path) : List Str := (path.splitOn '/').filter (· ≠ [])

/-- The names that a path is resolved by; one that ends in a separator ends in the directory. -/
def components (path : Path) : List Str :=
  names (parentPart path) ++ [if baseName path = [] then ['.'] else baseName path]

/-- The limits on the length of a path, which ends in a NUL, and of a name. -/
structure Limits where
  pathMax : ℕ
  nameMax : ℕ

/-- `PATH_MAX` and `NAME_MAX`. -/
def Limits.posix : Limits := { pathMax := 4096, nameMax := 255 }

/-- Neither the path nor a name in it is too long. -/
def Limits.Fits (lim : Limits) (path : Path) : Prop :=
  path.length < lim.pathMax ∧ ∀ name ∈ names path, name.length ≤ lim.nameMax

instance (lim : Limits) (path : Path) : Decidable (lim.Fits path) :=
  inferInstanceAs (Decidable (path.length < lim.pathMax ∧
    ∀ name ∈ names path, name.length ≤ lim.nameMax))

/-- A name that can be given to a new file. -/
def ProperName (name : Str) : Prop := name ≠ [] ∧ name ≠ ['.'] ∧ name ≠ ['.', '.']

instance : DecidablePred ProperName := fun name =>
  inferInstanceAs (Decidable (name ≠ [] ∧ name ≠ ['.'] ∧ name ≠ ['.', '.']))

/-- Where a name leads from a directory. -/
def next (d : Place) (name : Str) : Place :=
  if name = ['.'] then d else if name = ['.', '.'] then d.dropLast else d ++ [name]

/-- The places that names lead to, one after another. -/
def way : Place → List Str → List Place
  | _, [] => []
  | d, name :: rest => next d name :: way (next d name) rest

/-- The last of these places. -/
def follow (d : Place) (path : List Str) : Place := path.foldl next d

namespace Files

/-- What a place holds. -/
def entry (f : Files) (l : Place) : Option Entry := f.entries.lookup l

/-- Where the resolution of a path starts. -/
def start (f : Files) (path : Path) : Place := if path.head? = some '/' then [] else f.cwd

/-- The place that names lead to: all on the way but the last are directories. -/
def resolve (f : Files) : Place → List Str → Option Place
  | d, [] => some d
  | d, name :: rest =>
      if f.entry d = some .dir ∧ (f.entry (next d name)).isSome then resolve f (next d name) rest
      else none

/-- `stat`: the place of a path that names something. -/
def stat (f : Files) (path : Path) : Option Place :=
  if path = [] then none else f.resolve (f.start path) (components path)

/-- The resolution of the path fails for its length, or reaches a directory where a name that is
too long is to be looked up. -/
def TooLong (lim : Limits) (f : Files) (path : Path) : Prop :=
  lim.pathMax ≤ path.length ∨
    (components path).takeWhile (·.length ≤ lim.nameMax) ≠ components path ∧
      (f.resolve (f.start path) ((components path).takeWhile (·.length ≤ lim.nameMax))).bind
        f.entry = some .dir

instance (lim : Limits) (f : Files) (path : Path) : Decidable (f.TooLong lim path) := by
  unfold TooLong; infer_instance

/-- A directory gets an entry, new or in the place of a file. -/
def put (f : Files) (d : Place) (name : Str) (e : Entry) : Files :=
  if h : f.entry d = some .dir ∧ f.entry (d ++ [name]) ≠ some .dir then
    if hmem : d ++ [name] ∈ f.entries.map Prod.fst then
      { entries := f.entries.map fun n => if n.1 = d ++ [name] then (d ++ [name], e) else n
        cwd := f.cwd
        nodup := by rw [map_fst_set]; exact f.nodup
        root_dir := by rw [lookup_map_set, if_neg (by simp)]; exact f.root_dir
        closed := by
          intro d' name' h'
          rw [map_fst_set] at h'
          have hdir := f.closed d' name' h'
          rw [lookup_map_set, if_neg]
          · exact hdir
          · rintro rfl
            exact h.2 hdir }
    else
      { entries := f.entries ++ [(d ++ [name], e)]
        cwd := f.cwd
        nodup := by
          rw [List.map_append]
          refine List.nodup_append.mpr ⟨f.nodup, List.nodup_singleton _, fun a ha b hb heq => ?_⟩
          rw [heq, List.mem_singleton.mp hb] at ha
          exact hmem ha
        root_dir := by rw [List.lookup_append, f.root_dir]; rfl
        closed := by
          intro d' name' h'
          rw [List.map_append] at h'
          have hdir : f.entries.lookup d' = some .dir := by
            rcases List.mem_append.mp h' with h' | h'
            · exact f.closed d' name' h'
            · have heq := List.mem_singleton.mp h'
              rw [(List.append_singleton_inj.mp heq).1]
              exact h.1
          rw [List.lookup_append, hdir]
          rfl }
  else f

/-- The places that satisfy `P` are kept, which holds of what holds them. -/
def keep (f : Files) (P : Place → Prop) [DecidablePred P] (hroot : P [])
    (hup : ∀ d name, P (d ++ [name]) → P d) : Files where
  entries := f.entries.filter fun n => P n.1
  cwd := f.cwd
  nodup := f.nodup.sublist (List.Sublist.map _ List.filter_sublist)
  root_dir := by rw [lookup_filter, if_pos hroot]; exact f.root_dir
  closed := by
    intro d name h
    obtain ⟨n, hn, heq⟩ := List.mem_map.mp h
    obtain ⟨hmem, hP⟩ := List.mem_filter.mp hn
    rw [heq, decide_eq_true_eq] at hP
    rw [lookup_filter, if_pos (hup d name hP)]
    exact f.closed d name (heq ▸ List.mem_map_of_mem hmem)

/-- The root alone. -/
def empty : Files where
  entries := [([], .dir)]
  cwd := []
  nodup := by decide
  root_dir := by decide
  closed := by simp

/-! ## Operations -/

/-- The directories on the way are made where they are missing; something else than a directory
on the way is an error. -/
def mkdirs : Files → Place → List Str → Option Files
  | f, _, [] => some f
  | f, d, name :: rest =>
      match f.entry (next d name) with
      | some .dir => mkdirs f (next d name) rest
      | some (.file _) => none
      | none => mkdirs (f.put d name .dir) (next d name) rest

/-- `create_directories`, or nothing if it throws. -/
def createDirectories (f : Files) (path : Path) : Option Files :=
  if path ≠ [] ∧ f.entry (f.start path) = some .dir then
    mkdirs f (f.start path) (names path)
  else none

/-- `fopen` for writing, `fwrite` and `fclose`: the file that the path names holds the value
afterwards, or there is none and `fopen` fails. -/
def fopenWrite (f : Files) (path : Path) (value : Str) : Option Files :=
  (f.resolve (f.start path) (names (parentPart path))).bind fun d =>
    if f.entry d = some .dir ∧ ProperName (baseName path) ∧
        f.entry (d ++ [baseName path]) ≠ some .dir then
      some (f.put d (baseName path) (.file value))
    else none

variable {f g : Files} {d l : Place} {name : Str} {e : Entry}

/-! ## What a place holds -/

lemma isSome_entry_iff : (f.entry l).isSome ↔ l ∈ f.entries.map Prod.fst := lookup_isSome_iff

lemma entry_dropLast (h : f.entry d = some .dir) : f.entry d.dropLast = some .dir := by
  rcases List.eq_nil_or_concat d with rfl | ⟨d, name, rfl⟩
  · exact h
  · rw [List.concat_eq_append, List.dropLast_concat]
    refine f.closed d name (isSome_entry_iff.mp ?_)
    rw [← List.concat_eq_append, h]
    rfl

lemma entry_put (hd : f.entry d = some .dir) (hnot : f.entry (d ++ [name]) ≠ some .dir)
    (l : Place) : (f.put d name e).entry l = if l = d ++ [name] then some e else f.entry l := by
  rw [put, dif_pos ⟨hd, hnot⟩]
  split
  · rename_i hmem
    refine lookup_map_set.trans ?_
    by_cases hl : l = d ++ [name]
    · obtain ⟨e', he'⟩ := Option.isSome_iff_exists.mp (isSome_entry_iff.mpr hmem)
      rw [entry] at he'
      simp [hl, he']
    · simp [hl, entry]
  · rename_i hmem
    refine List.lookup_append.trans ?_
    by_cases hl : l = d ++ [name]
    · have hnone : f.entries.lookup (d ++ [name]) = none := by
        rw [← Option.not_isSome_iff_eq_none]
        exact fun h => hmem (isSome_entry_iff.mp h)
      simp [hl, hnone]
    · have hne : ¬ (l == d ++ [name]) = true := by simpa using hl
      simp [hl, List.lookup_cons, hne, entry]

@[simp] lemma cwd_put : (f.put d name e).cwd = f.cwd := by
  rw [put]
  split_ifs <;> rfl

/-- A name that leads from a directory to nothing is the name of a missing entry. -/
lemma next_of_none (hd : f.entry d = some .dir) (h : f.entry (next d name) = none) :
    next d name = d ++ [name] := by
  rw [next] at h ⊢
  split_ifs at h ⊢
  · rw [hd] at h
    simp at h
  · rw [entry_dropLast hd] at h
    simp at h
  · rfl

lemma entry_next (hd : f.entry d = some .dir) (h : f.entry (next d name) = none) (l : Place) :
    (f.put d name .dir).entry l = if l = next d name then some .dir else f.entry l := by
  rw [next_of_none hd h]
  refine entry_put hd ?_ l
  rw [← next_of_none hd h, h]
  simp

/-! ## Resolution -/

lemma resolve_append (names₁ names₂ : List Str) :
    f.resolve d (names₁ ++ names₂) = (f.resolve d names₁).bind fun d' => f.resolve d' names₂ := by
  induction names₁ generalizing d with
  | nil => rfl
  | cons name rest ih =>
      rw [List.cons_append, resolve, resolve]
      split_ifs
      · exact ih
      · rfl

/-- More directories and files do not hide any. -/
lemma resolve_mono (hdir : ∀ l, f.entry l = some .dir → g.entry l = some .dir)
    (hsome : ∀ l, (f.entry l).isSome → (g.entry l).isSome) {path : List Str}
    (h : f.resolve d path = some l) : g.resolve d path = some l := by
  induction path generalizing d with
  | nil => exact h
  | cons name rest ih =>
      rw [resolve] at h ⊢
      split_ifs at h with hcond
      rw [if_pos ⟨hdir _ hcond.1, hsome _ hcond.2⟩]
      exact ih h

/-! ## Making directories -/

/-- The directories are made unless there is a file on the way. -/
lemma mkdirs_eq_none_iff {path : List Str} (hd : f.entry d = some .dir) :
    f.mkdirs d path = none ↔ ∃ l ∈ way d path, ∃ v, f.entry l = some (.file v) := by
  induction path generalizing f d with
  | nil => simp [mkdirs, way]
  | cons name rest ih =>
      rw [mkdirs, way, List.exists_mem_cons_iff]
      cases hnext : f.entry (next d name) with
      | none =>
          have hentry := entry_next hd hnext
          dsimp only
          rw [ih (by rw [hentry, if_pos rfl])]
          -- a directory that has been made is no file, nor was there one in its place
          have hiff : ∀ l v, (f.put d name .dir).entry l = some (.file v) ↔
              f.entry l = some (.file v) := by
            intro l v
            rw [hentry]
            split_ifs with hl
            · subst hl
              simp [hnext]
            · rfl
          simp [hiff]
      | some e =>
          cases e with
          | file v => simp
          | dir =>
              dsimp only
              rw [ih hnext]
              simp

/-- What is there after the directories have been made. -/
structure Made (f : Files) (d : Place) (path : List Str) (f' : Files) : Prop where
  cwd : f'.cwd = f.cwd
  resolve : f'.resolve d path = some (follow d path)
  dir : f'.entry (follow d path) = some .dir
  entry : ∀ l, f'.entry l = if f.entry l = none ∧ l ∈ way d path then some .dir else f.entry l

lemma Made.mono {path : List Str} (h : Made f d path g) (he : f.entry l = some e) :
    g.entry l = some e := by
  rw [h.entry, if_neg]
  · exact he
  · rw [he]
    simp

/-- A step of the way: the next place has been a directory or nothing, and is a directory. -/
lemma Made.cons {f₁ : Files} {rest : List Str} (hd : f.entry d = some .dir)
    (hold : f.entry (next d name) = none ∨ f.entry (next d name) = some .dir)
    (hcwd : f₁.cwd = f.cwd)
    (hentry : ∀ l, f₁.entry l = if l = next d name then some .dir else f.entry l)
    (h : Made f₁ (next d name) rest g) : Made f d (name :: rest) g := by
  have hdir : ∀ l, f.entry l = some .dir → g.entry l = some .dir := by
    intro l hl
    refine h.mono ?_
    rw [hentry]
    split_ifs
    · rfl
    · exact hl
  have hnext : g.entry (next d name) = some .dir := h.mono (by rw [hentry, if_pos rfl])
  refine ⟨h.cwd.trans hcwd, ?_, h.dir, fun l => ?_⟩
  · rw [Files.resolve, if_pos ⟨hdir d hd, by rw [hnext]; rfl⟩]
    exact h.resolve
  · rw [h.entry, hentry, way]
    by_cases hl : l = next d name
    · subst hl
      rcases hold with hold | hold <;> simp [hold]
    · simp [hl]

lemma mkdirs_made {path : List Str} (hd : f.entry d = some .dir)
    (h : f.mkdirs d path = some g) : Made f d path g := by
  induction path generalizing f d with
  | nil =>
      obtain rfl := Option.some.inj h
      exact ⟨rfl, rfl, hd, fun l => by simp [way]⟩
  | cons name rest ih =>
      rw [mkdirs] at h
      cases hnext : f.entry (next d name) with
      | none =>
          rw [hnext] at h
          have hentry := entry_next hd hnext
          exact .cons hd (Or.inl hnext) cwd_put hentry (ih (by rw [hentry, if_pos rfl]) h)
      | some e =>
          rw [hnext] at h
          cases e with
          | file v => simp at h
          | dir =>
              refine .cons hd (Or.inr hnext) rfl (fun l => ?_) (ih hnext h)
              split_ifs with hl
              · rw [hl, hnext]
              · rfl

end Files

end LocalFile

end ConfigMonitor
