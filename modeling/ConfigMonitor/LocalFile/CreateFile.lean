/-
# The writes of `loc_file`

The tasks that `create_path`, `delete_path` and `set_path_value` queue, over the functions of
`std::filesystem` and `stdio` that they call.  The task thread has no handler, so that an
exception that escapes a task ends the program.
-/
import ConfigMonitor.LocalFile.Files

namespace ConfigMonitor

namespace LocalFile

/-- The functions that `loc_file` calls, on the state of a file system. -/
structure FileOps (σ : Type*) where
  /-- `std::filesystem::exists`, or nothing if it throws. -/
  pathExists : σ → Path → Option Bool
  /-- `create_directories`, or nothing if it throws. -/
  createDirectories : σ → Path → Option σ
  /-- `fopen`, `fwrite` and `fclose`, or nothing if `fopen` fails. -/
  fopenWrite : σ → Path → Str → Option σ
  /-- `remove_all`, and whether it reports an error. -/
  removeAll : σ → Path → σ × Bool
  /-- `fopen` for reading, if it succeeds: what `file_size` and `fread` find, if that is a regular
  file. -/
  fopenRead : σ → Path → Option (Option Str)
  /-- The names that a `directory_iterator` finds, and whether they are of regular files. -/
  directoryIterator : σ → Path → List (Str × Bool)

/-- What a callback is called with. -/
inductive Result
  | created (err : FileError) (path : Str)
  | operated (err : FileError)
  | existed (err : FileError) (eve : FileEvent)
  | got (err : FileError) (val : Option Str)
  | children (err : FileError) (eve : FileEvent) (paths : List Str)
deriving DecidableEq, Repr

namespace FileOps

variable {σ : Type*} (ops : FileOps σ) (s : σ)

/-- `set_file_value`. -/
def setFileValue (path : Path) (value : Str) : FileError × σ :=
  match ops.fopenWrite s path value with
  | some s' => (.ok, s')
  | none => (.notExist, s)

/-- The task of `create_path`, or nothing if an exception escapes: what it leaves, and what the
callback is called with, at the only place where it is called. -/
def createPath (path : Path) (value : Str) : Option (σ × Result) :=
  match ops.pathExists s path with
  | none => none
  | some true => some (s, .created .alreadyExist [])
  | some false =>
      match ops.createDirectories s (parentPart path) with
      | none => none
      | some s' =>
          let r := ops.setFileValue s' path value
          some (r.2, .created r.1 path)

/-- The task of `delete_path`. -/
def deletePath (path : Path) : Option (σ × Result) :=
  match ops.pathExists s path with
  | none => none
  | some true =>
      let r := ops.removeAll s path
      some (r.1, .operated (if r.2 then .alreadyUsed else .ok))
  | some false => some (s, .operated .notExist)

/-- The task of `set_path_value`. -/
def setPathValue (path : Path) (value : Str) : Option (σ × Result) :=
  match ops.pathExists s path with
  | none => none
  | some true =>
      let r := ops.setFileValue s path value
      some (r.2, .operated r.1)
  | some false => some (s, .operated .notExist)

end FileOps

namespace Files

/-- `remove_all`.  The root cannot be removed, nor a directory under the name `.` or `..`; what is
in it is removed before the error is found. -/
def removeAll (f : Files) (path : Path) : Files × Bool :=
  match f.stat path with
  | none => (f, false)
  | some l =>
      if h : l = [] ∨ baseName path = ['.'] ∨ baseName path = ['.', '.'] then
        (f.keep (fun k => ¬ (l <+: k ∧ k ≠ l)) (by simp) (by
          rintro d name h ⟨hl, hne⟩
          exact h ⟨hl.trans (List.prefix_append d [name]), fun heq => by
            have hlen := hl.length_le
            rw [← heq, List.length_append, List.length_singleton] at hlen
            omega⟩), true)
      else
        (f.keep (fun k => ¬ l <+: k) (by simpa using fun hl => h (Or.inl hl)) (by
          intro d name h hl
          exact h (hl.trans (List.prefix_append d [name]))), false)

/-- `fopen` for reading, and what is read. -/
def fopenRead (f : Files) (path : Path) : Option (Option Str) :=
  ((f.stat path).bind f.entry).map fun e =>
    match e with
    | .file value => some value
    | .dir => none

/-- The entries of a directory. -/
def directoryIterator (f : Files) (path : Path) : List (Str × Bool) :=
  match f.stat path with
  | none => []
  | some l =>
      f.entries.filterMap fun n =>
        if n.1 ≠ [] ∧ n.1.dropLast = l then some (n.1.getLastD [], n.2 ≠ .dir) else none

/-- `std::filesystem` and `stdio` on directories and files. -/
def ops (lim : Limits) : FileOps Files where
  pathExists f path :=
    if f.TooLong lim (cString path) then none else some (f.stat (cString path)).isSome
  createDirectories f path :=
    if lim.Fits (cString path) then f.createDirectories (cString path) else none
  fopenWrite f path value :=
    if lim.Fits (cString path) then f.fopenWrite (cString path) value else none
  removeAll f path := f.removeAll (cString path)
  fopenRead f path :=
    if f.TooLong lim (cString path) then none else f.fopenRead (cString path)
  directoryIterator f path :=
    if f.TooLong lim (cString path) then [] else f.directoryIterator (cString path)

end Files

/-! ## What `create_path` leaves -/

/-- The task of `create_path` calls its callback and lets no exception escape; it reports OK only
if the path is then a file with the value and all other files are as they were; and it changes
nothing if it reports an error.  A string with a NUL is the path of nothing. -/
def CreatesOrKeeps (lim : Limits) (f : Files) (path : Path) (value : Str) : Prop :=
  ∃ f' err newPath,
    (Files.ops lim).createPath f path value = some (f', .created err newPath) ∧
    (err = .ok → '\x00' ∉ path ∧ ∃ l, f'.stat path = some l ∧ f'.entry l = some (.file value) ∧
      ∀ l' v, l' ≠ l → f.entry l' = some (.file v) → f'.entry l' = some (.file v)) ∧
    (err ≠ .ok → f' = f)

/-- The task creates the file or changes nothing, whatever there is. -/
def AlwaysCreatesOrKeeps : Prop := ∀ lim f path value, CreatesOrKeeps lim f path value

theorem not_alwaysCreatesOrKeeps : ¬ AlwaysCreatesOrKeeps := by
  intro h
  obtain ⟨f', err, newPath, htask, -⟩ := h .posix .empty ['x'] ['v']
  have hthrows : (Files.ops .posix).createPath .empty ['x'] ['v'] = none := by decide
  rw [hthrows] at htask
  simp at htask

/-- The place at which the path would have a file, once the directories are there. -/
def Files.target (f : Files) (path : Path) : Place :=
  follow (f.start path) (names (parentPart path)) ++ [baseName path]

/-- The path is a string without a NUL and within the limits; it has a parent part and starts at a
directory, no file is on the way, and its last name is a proper one and not that of a directory,
nor of one that is missing on the way. -/
structure Creatable (lim : Limits) (f : Files) (path : Path) : Prop where
  no_nul : '\x00' ∉ path
  fits : lim.Fits path
  parent : parentPart path ≠ []
  start_dir : f.entry (f.start path) = some .dir
  no_file : ∀ l ∈ way (f.start path) (names (parentPart path)), ∀ v, f.entry l ≠ some (.file v)
  proper : ProperName (baseName path)
  no_dir : f.entry (f.target path) ≠ some .dir
  not_on_way : f.target path ∉ way (f.start path) (names (parentPart path))

variable {lim : Limits} {f f' : Files} {path : Path} {value : Str}

lemma parentPart_append_baseName (path : Path) : parentPart path ++ baseName path = path := by
  rw [parentPart, baseName, ← List.reverse_append, List.takeWhile_append_dropWhile,
    List.reverse_reverse]

/-- The names of a path are those of its parent part and its last one. -/
lemma names_eq (path : Path) : names path =
    names (parentPart path) ++ if baseName path = [] then [] else [baseName path] := by
  have hname : ∀ {name : Str}, '/' ∉ name → names name = if name = [] then [] else [name] := by
    intro name hn
    rw [names, List.splitOn, List.splitOnP_eq_singleton]
    · split_ifs with hnil <;> simp [hnil]
    · intro c hc
      simpa using fun h : c = '/' => hn (h ▸ hc)
  by_cases hslash : '/' ∈ path
  · obtain ⟨p, name, rfl, hn, -⟩ := exists_cut hslash
    rw [show baseName (p ++ '/' :: name) = name from baseName_subPath p hn, parentPart,
      dropWhile_cut hn, List.reverse_cons, List.reverse_reverse, ← hname hn]
    simp only [names, List.splitOn]
    rw [List.splitOnP_append_cons p name (by simp), List.splitOnP_append_cons p [] (by simp)]
    simp
  · have hpart : parentPart path = [] := by rw [parentPart, dropWhile_of_noSlash hslash]; rfl
    have hbase := parentPart_append_baseName path
    rw [hpart, List.nil_append] at hbase
    rw [hpart, hbase, hname hslash]
    rfl

lemma cString_eq_self (h : '\x00' ∉ path) : cString path = path := by
  refine List.takeWhile_eq_self_iff.mpr fun c hc => ?_
  simpa using fun hnul : c = '\x00' => h (hnul ▸ hc)

/-- Of a path with a NUL in its parent part the system sees the same as of the parent part. -/
lemma cString_parentPart_of_mem (h : '\x00' ∈ parentPart path) :
    cString (parentPart path) = cString path := by
  have hpath := parentPart_append_baseName path
  nth_rewrite 2 [← hpath]
  rw [cString, cString, List.takeWhile_append, if_neg]
  intro hlen
  have hself := List.Sublist.eq_of_length (List.takeWhile_sublist _) hlen
  have hnul := List.takeWhile_eq_self_iff.mp hself _ h
  simp at hnul

/-- Of another path it sees the parent part and some of the last name. -/
lemma parentPart_cString (h : '\x00' ∉ parentPart path) :
    parentPart (cString path) = parentPart path := by
  by_cases hslash : '/' ∈ path
  · obtain ⟨p, name, rfl, hn, -⟩ := exists_cut hslash
    have hpart : ∀ {name : Str}, '/' ∉ name → parentPart (p ++ '/' :: name) = p ++ ['/'] := by
      intro name hn
      rw [parentPart, dropWhile_cut hn, List.reverse_cons, List.reverse_reverse]
    rw [hpart hn] at h ⊢
    have hcut : cString (p ++ '/' :: name) = p ++ '/' :: cString name := by
      have happ : p ++ '/' :: name = (p ++ ['/']) ++ name := by simp
      rw [happ, cString, List.takeWhile_append_of_pos]
      · simp [cString]
      · intro c hc
        simpa using fun hnul : c = '\x00' => h (hnul ▸ hc)
    have hn' : '/' ∉ cString name := fun hmem => hn ((List.takeWhile_sublist _).subset hmem)
    rw [hcut, hpart hn']
  · rw [parentPart, parentPart, dropWhile_of_noSlash hslash, dropWhile_of_noSlash]
    exact fun hmem => hslash ((List.takeWhile_sublist _).subset hmem)

lemma ne_nil_of_parentPart (h : parentPart path ≠ []) : path ≠ [] := by
  rintro rfl
  exact h rfl

/-- A path and its parent start at the same directory. -/
lemma start_parentPart (h : parentPart path ≠ []) : f.start (parentPart path) = f.start path := by
  obtain ⟨c, r, hc⟩ := List.exists_cons_of_ne_nil h
  have hpath := parentPart_append_baseName path
  rw [hc, List.cons_append] at hpath
  rw [Files.start, Files.start, hc, ← hpath]
  rfl

/-- A path names something when its parent is a directory and has an entry of its last name, or
when this is no proper name. -/
lemma stat_of_resolve (h : parentPart path ≠ []) {d : Place}
    (hd : f.resolve (f.start path) (names (parentPart path)) = some d)
    (hdir : f.entry d = some .dir) :
    (ProperName (baseName path) → (f.entry (d ++ [baseName path])).isSome →
      f.stat path = some (d ++ [baseName path])) ∧
    (¬ ProperName (baseName path) → (f.stat path).isSome) := by
  have hstat : f.stat path =
      f.resolve d [if baseName path = [] then ['.'] else baseName path] := by
    rw [Files.stat, if_neg (ne_nil_of_parentPart h), components, Files.resolve_append, hd]
    rfl
  constructor
  · rintro ⟨hne, hdot, hdotdot⟩ hsome
    have hnext : next d (baseName path) = d ++ [baseName path] := by
      rw [next, if_neg hdot, if_neg hdotdot]
    rw [hstat, if_neg hne, Files.resolve, hnext, if_pos ⟨hdir, hsome⟩]
    rfl
  · intro hnot
    rw [hstat]
    -- the name is empty, `.` or `..`, and leads to a directory
    have hnext : ∀ name, name = ['.'] ∨ name = ['.', '.'] → (f.resolve d [name]).isSome := by
      intro name hname
      have hsome : (f.entry (next d name)).isSome := by
        rw [next]
        rcases hname with rfl | rfl
        · rw [if_pos rfl, hdir]
          rfl
        · rw [if_neg (by decide), if_pos rfl, Files.entry_dropLast hdir]
          rfl
      rw [Files.resolve, if_pos ⟨hdir, hsome⟩]
      rfl
    refine hnext _ ?_
    split_ifs with hne
    · exact Or.inl rfl
    · by_contra hor
      rw [not_or] at hor
      exact hnot ⟨hne, hor⟩

/-- The directories are made unless there is no parent part, or no directory to start at, or a
file on the way. -/
lemma createDirectories_eq_some (h : f.createDirectories (parentPart path) = some f') :
    parentPart path ≠ [] ∧ f.entry (f.start path) = some .dir ∧
      (∀ l ∈ way (f.start path) (names (parentPart path)), ∀ v, f.entry l ≠ some (.file v)) ∧
      f.Made (f.start path) (names (parentPart path)) f' := by
  rw [Files.createDirectories] at h
  split_ifs at h with hcond
  obtain ⟨hparent, hdir⟩ := hcond
  rw [start_parentPart hparent] at h hdir
  refine ⟨hparent, hdir, fun l hl v hv => ?_, Files.mkdirs_made hdir h⟩
  rw [(Files.mkdirs_eq_none_iff hdir).mpr ⟨l, hl, v, hv⟩] at h
  simp at h

/-- What is a directory without one being made is found. -/
lemma stat_isSome_of_createDirectories (h : f.createDirectories path = some f) :
    (f.stat path).isSome := by
  rw [Files.createDirectories] at h
  split_ifs at h with hcond
  have hmade := Files.mkdirs_made hcond.2 h
  have hnames := names_eq path
  rw [Files.stat, if_neg hcond.1, components]
  split_ifs at hnames ⊢ with hbase
  · rw [List.append_nil] at hnames
    rw [Files.resolve_append, ← hnames, hmade.resolve, Option.bind_some, Files.resolve, next,
      if_pos rfl, hmade.dir]
    rfl
  · rw [← hnames, hmade.resolve]
    rfl

lemma Creatable.no_nul_parentPart (h : Creatable lim f path) : '\x00' ∉ parentPart path := by
  intro hnul
  refine h.no_nul ?_
  rw [← parentPart_append_baseName path]
  exact List.mem_append_left _ hnul

lemma Creatable.fits_parentPart (h : Creatable lim f path) : lim.Fits (parentPart path) := by
  refine ⟨lt_of_le_of_lt ?_ h.fits.1, fun name hname => ?_⟩
  · nth_rewrite 2 [← parentPart_append_baseName path]
    simp
  · refine h.fits.2 name ?_
    rw [names_eq path]
    exact List.mem_append_left _ hname

lemma exists_createDirectories (h : Creatable lim f path) :
    ∃ f', f.createDirectories (parentPart path) = some f' := by
  rw [Files.createDirectories, start_parentPart h.parent, if_pos ⟨h.parent, h.start_dir⟩,
    ← Option.isSome_iff_exists, ← Option.ne_none_iff_isSome, ne_eq,
    Files.mkdirs_eq_none_iff h.start_dir]
  rintro ⟨l, hl, v, hv⟩
  exact h.no_file l hl v hv

/-- `fopen` succeeds once the directories are there, unless the path names a directory. -/
lemma fopenWrite_made (value : Str)
    (h : f.Made (f.start path) (names (parentPart path)) f') :
    f'.fopenWrite path value =
      if ProperName (baseName path) ∧ f'.entry (f.target path) ≠ some .dir then
        some (f'.put (follow (f.start path) (names (parentPart path))) (baseName path)
          (.file value))
      else none := by
  have hstart : f'.start path = f.start path := by
    rw [Files.start, Files.start, h.cwd]
  rw [Files.fopenWrite, hstart, h.resolve, Option.bind_some]
  exact if_congr (and_iff_right h.dir) rfl rfl

/-! ## Lengths -/

/-- A path within the limits, with a proper last name, can be looked up. -/
lemma not_tooLong (h : lim.Fits path) (hne : baseName path ≠ []) : ¬ f.TooLong lim path := by
  have hnames := names_eq path
  rw [if_neg hne] at hnames
  have hshort : (components path).takeWhile (·.length ≤ lim.nameMax) = components path := by
    rw [components, if_neg hne, ← hnames]
    exact List.takeWhile_eq_self_iff.mpr fun name hname => decide_eq_true (h.2 name hname)
  rintro (hlen | ⟨hlong, -⟩)
  · exact absurd h.1 (by omega)
  · exact hlong hshort

/-- When the last name alone is too long, it is reached if the rest leads to a directory. -/
lemma tooLong_of_last {d : Place} (hfits : ∀ name ∈ names (parentPart path),
    name.length ≤ lim.nameMax) (hne : baseName path ≠ [])
    (hlong : lim.nameMax < (baseName path).length)
    (hd : f.resolve (f.start path) (names (parentPart path)) = some d)
    (hdir : f.entry d = some .dir) : f.TooLong lim path := by
  have hshort : (components path).takeWhile (·.length ≤ lim.nameMax) =
      names (parentPart path) := by
    rw [components, if_neg hne, List.takeWhile_append_of_pos fun name hname =>
      decide_eq_true (hfits name hname)]
    simp [hlong]
  refine Or.inr ⟨?_, ?_⟩
  · rw [hshort, components]
    simp
  · rw [hshort, hd]
    exact hdir

/-! ## The condition -/

/-- When nothing is in the way, the file is there with its value and nothing else is lost. -/
lemma createsOrKeeps_of_creatable (hstat : f.stat path = none) (h : Creatable lim f path) :
    CreatesOrKeeps lim f path value := by
  obtain ⟨f', hf'⟩ := exists_createDirectories h
  obtain ⟨hparent, -, -, hmade⟩ := createDirectories_eq_some hf'
  have hnot : f'.entry (f.target path) ≠ some .dir := by
    rw [hmade.entry, if_neg fun hc => h.not_on_way hc.2]
    exact h.no_dir
  have hwrite := (fopenWrite_made value hmade).trans (if_pos ⟨h.proper, hnot⟩)
  have hput := Files.entry_put (e := .file value) hmade.dir hnot
  generalize hg : f'.put (follow (f.start path) (names (parentPart path))) (baseName path)
    (.file value) = g at hwrite hput
  -- the write changes the entry of the target only
  have hentry : ∀ l, g.entry l = if l = f.target path then some (.file value) else f'.entry l :=
    hput
  have hdir : ∀ l, f'.entry l = some .dir → g.entry l = some .dir := by
    intro l hl
    rw [hentry, if_neg]
    · exact hl
    · rintro rfl
      exact hnot hl
  have hsome : ∀ l, (f'.entry l).isSome → (g.entry l).isSome := by
    intro l hl
    rw [hentry]
    split_ifs
    · rfl
    · exact hl
  have hstart : g.start path = f.start path := by
    rw [Files.start, Files.start, ← hg, Files.cwd_put, hmade.cwd]
  refine ⟨g, .ok, path, ?_, fun _ => ⟨h.no_nul, f.target path, ?_, ?_, fun l v hl hv => ?_⟩,
    fun h => absurd rfl h⟩
  · have hfits := not_tooLong (f := f) h.fits h.proper.1
    simp [FileOps.createPath, FileOps.setFileValue, Files.ops, cString_eq_self h.no_nul,
      cString_eq_self h.no_nul_parentPart, hfits, h.fits, h.fits_parentPart, hstat, hf', hwrite]
  · -- the directories that have been made lead to the file
    have hresolve := Files.resolve_mono hdir hsome hmade.resolve
    rw [← hstart] at hresolve
    have htarget : g.entry (f.target path) = some (.file value) := by rw [hentry, if_pos rfl]
    have hfound := (stat_of_resolve hparent hresolve (hstart ▸ hdir _ hmade.dir)).1 h.proper
    rw [hstart] at hfound
    exact hfound (Option.isSome_iff_exists.mpr ⟨_, htarget⟩)
  · rw [hentry, if_pos rfl]
  · rw [hentry, if_neg hl]
    exact hmade.mono hv

/-- When no directory had to be made and `fopen` fails nevertheless, the path is that of a
directory, or it could not even be looked up. -/
lemma pathExists_of_fopenWrite_eq_none
    (hdirs : (Files.ops lim).createDirectories f (parentPart path) = some f)
    (hwrite : (Files.ops lim).fopenWrite f path value = none) :
    (Files.ops lim).pathExists f path ≠ some false := by
  intro hex
  simp only [Files.ops] at hdirs hwrite hex
  split_ifs at hdirs with hfits
  split_ifs at hex with hlong
  have hstat : f.stat (cString path) = none := by simpa using hex
  by_cases hnul : '\x00' ∈ parentPart path
  · -- the directories are those of the whole path, as far as the system sees it
    rw [cString_parentPart_of_mem hnul] at hdirs
    simpa [hstat] using stat_isSome_of_createDirectories hdirs
  · have hpart := parentPart_cString hnul
    have hself : cString (parentPart path) = parentPart (cString path) := by
      rw [hpart, cString_eq_self hnul]
    rw [hself] at hdirs hfits
    obtain ⟨hparent, -, -, hmade⟩ := createDirectories_eq_some hdirs
    have hfound := stat_of_resolve hparent hmade.resolve hmade.dir
    have hproper : ProperName (baseName (cString path)) := by
      by_contra hnot
      simpa [hstat] using hfound.2 hnot
    have hnone : f.entry (f.target (cString path)) = none := by
      by_contra hne
      rw [hfound.1 hproper (Option.isSome_iff_ne_none.mpr hne)] at hstat
      simp at hstat
    -- there is room for the file, so that the last name must be too long
    have hfits' : ¬ lim.Fits (cString path) := by
      intro hfits'
      rw [if_pos hfits', fopenWrite_made value hmade, if_pos ⟨hproper, by simp [hnone]⟩] at hwrite
      simp at hwrite
    refine hlong (tooLong_of_last hfits.2 hproper.1 ?_ hmade.resolve hmade.dir)
    by_contra hle
    refine hfits' ⟨not_le.mp fun hlen => hlong (Or.inl hlen), fun name hname => ?_⟩
    rw [names_eq, if_neg hproper.1] at hname
    rcases List.mem_append.mp hname with hname | hname
    · exact hfits.2 name hname
    · rw [List.mem_singleton.mp hname]
      exact not_lt.mp hle

/-- A task that does its duty for a path that names nothing has created the file. -/
lemma creatable_of_createsOrKeeps (hex : (Files.ops lim).pathExists f path = some false)
    (h : CreatesOrKeeps lim f path value) : Creatable lim f path := by
  obtain ⟨f'', err, newPath, htask, hok, hkeep⟩ := h
  cases hdirs : (Files.ops lim).createDirectories f (parentPart path) with
  | none => simp [FileOps.createPath, hex, hdirs] at htask
  | some f' =>
      simp only [FileOps.createPath, hex, hdirs, FileOps.setFileValue, Option.some.injEq] at htask
      cases hwrite : (Files.ops lim).fopenWrite f' path value with
      | none =>
          -- `fopen` has failed, so that nothing can have been made; but then the path is there
          rw [hwrite] at htask
          obtain ⟨rfl, herr⟩ := Prod.mk.inj htask
          obtain ⟨rfl, -⟩ := Result.created.inj herr
          obtain rfl := hkeep (by simp)
          exact absurd hex (pathExists_of_fopenWrite_eq_none hdirs hwrite)
      | some g =>
          rw [hwrite] at htask
          obtain ⟨-, herr⟩ := Prod.mk.inj htask
          obtain ⟨rfl, -⟩ := Result.created.inj herr
          obtain ⟨hnul, -⟩ := hok rfl
          have hself := cString_eq_self hnul
          have hnul' : '\x00' ∉ parentPart path := by
            intro hmem
            refine hnul ?_
            rw [← parentPart_append_baseName path]
            exact List.mem_append_left _ hmem
          simp only [Files.ops, hself, cString_eq_self hnul'] at hdirs hwrite
          split_ifs at hdirs with hfits'
          split_ifs at hwrite with hfits
          obtain ⟨hparent, hstart, hfile, hmade⟩ := createDirectories_eq_some hdirs
          rw [fopenWrite_made value hmade] at hwrite
          split_ifs at hwrite with hcond
          refine ⟨hnul, hfits, hparent, hstart, hfile, hcond.1,
            fun hdir => hcond.2 (hmade.mono hdir), ?_⟩
          -- the target would have been made as a directory on the way to itself
          intro hway
          refine hcond.2 ?_
          rw [hmade.entry]
          split_ifs with hnone
          · rfl
          · cases hentry : f.entry (f.target path) with
            | none => exact absurd ⟨hentry, hway⟩ hnone
            | some e =>
                cases e with
                | file v => exact absurd hentry (hfile _ hway v)
                | dir => rfl

/-- The task creates the file or changes nothing, if and only if the path names something or can
be created. -/
theorem createsOrKeeps_iff (lim : Limits) (f : Files) (path : Path) (value : Str) :
    CreatesOrKeeps lim f path value ↔
      (Files.ops lim).pathExists f path = some true ∨ Creatable lim f path := by
  cases hex : (Files.ops lim).pathExists f path with
  | none =>
      -- `exists` throws, and the path cannot be within the limits
      refine iff_of_false ?_ ?_
      · rintro ⟨f', err, newPath, htask, -⟩
        simp [FileOps.createPath, hex] at htask
      · rintro (h | h)
        · simp at h
        · simp [Files.ops, cString_eq_self h.no_nul, not_tooLong h.fits h.proper.1] at hex
  | some found =>
      cases found with
      | true =>
          refine iff_of_true ⟨f, .alreadyExist, [], ?_, fun h => by simp at h, fun _ => rfl⟩
            (Or.inl rfl)
          simp [FileOps.createPath, hex]
      | false =>
          refine ⟨fun h => Or.inr (creatable_of_createsOrKeeps hex h), fun h => ?_⟩
          have hcan := h.resolve_left (by simp)
          refine createsOrKeeps_of_creatable ?_ hcan
          simpa [Files.ops, cString_eq_self hcan.no_nul, not_tooLong hcan.fits hcan.proper.1]
            using hex

end LocalFile

end ConfigMonitor
