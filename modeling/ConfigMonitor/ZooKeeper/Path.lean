/-
# Paths of znodes

Strings are lists of characters, a character standing for a byte of a `std::string`.  The
client library checks every path with `isValidPath` before it sends a request; the server
splits a path at its last `/` into the path of the parent and the name of the child.
-/
import Mathlib.Data.List.Basic
import Mathlib.Data.List.TakeWhile
import Mathlib.Tactic.Common

namespace ConfigMonitor

/-- A byte string. -/
abbrev Str := List Char

instance : LawfulBEq Str := inferInstance

/-- The path of a znode, as the strings the code builds. -/
abbrev Path := Str

/-- What C code makes of a string, or of a buffer: what precedes the first NUL. -/
def cString (s : Str) : Str := s.takeWhile (· ≠ '\x00')

/-- `/`, the root of the tree. -/
def root : Path := ['/']

/-- The loop of `isValidPath` from index `1` on: `p₂` and `p₁` are the two characters before
the rest of the path (`path[i-2]` and `path[i-1]`).  A string with a NUL inside is not a
C string path and counts as invalid. -/
def validFrom (seq : Bool) : Char → Char → Str → Bool
  | _, _, [] => true
  | p₂, p₁, c :: rest =>
      let ends := (rest.isEmpty && !seq) || rest.head? == some '/'
      if c == '\x00' then false
      else if c == '/' && p₁ == '/' then false
      else if c == '.' && p₁ == '.' then
        if p₂ == '/' && ends then false else validFrom seq p₁ c rest
      else if c == '.' then
        if p₁ == '/' && ends then false else validFrom seq p₁ c rest
      else if c.toNat < 0x1f then false
      else validFrom seq p₁ c rest

/-- `isValidPath` of `zookeeper.c`; `seq` says that the mode is a sequential one. -/
def isValidPath (path : Path) (seq : Bool) : Bool :=
  match path with
  | [] => false
  | c :: rest =>
      if c != '/' then false
      else if rest.isEmpty then true
      else if rest.getLast? == some '/' && !seq then false
      else validFrom seq '/' '/' rest

/-- `prefix + "/" + sub_path`, the way the code joins a path and the name of a child. -/
def subPath (p : Path) (c : Str) : Path := p ++ '/' :: c

/-- The name of a node: what follows the last `/`. -/
def baseName (q : Path) : Str := (q.reverse.takeWhile (· ≠ '/')).reverse

/-- The path of the parent: what precedes the last `/`, or the root. -/
def parentPath (q : Path) : Path :=
  match q.reverse.dropWhile (· ≠ '/') with
  | [] => []
  | [_] => root
  | _ :: r => r.reverse

lemma isValidPath_head {q : Path} {seq : Bool} (h : isValidPath q seq = true) :
    ∃ r, q = '/' :: r := by
  cases q with
  | nil => simp [isValidPath] at h
  | cons c r =>
      refine ⟨r, ?_⟩
      by_cases hc : c = '/'
      · rw [hc]
      · simp [isValidPath, hc] at h

@[simp] lemma isValidPath_nil (seq : Bool) : isValidPath [] seq = false := rfl

lemma slash_not_mem_baseName (q : Path) : '/' ∉ baseName q := by
  intro h
  have h' := List.mem_takeWhile_imp (List.mem_reverse.mp h)
  simp at h'

/-- The characters of a name, from the last one back to the slash in front of it. -/
lemma ne_slash_of_mem_reverse {name : Str} (hn : '/' ∉ name) :
    ∀ a ∈ name.reverse, decide (a ≠ '/') = true := by
  intro a ha
  have han : a ∈ name := List.mem_reverse.mp ha
  simpa using fun h : a = '/' => hn (h ▸ han)

lemma dropWhile_cut {p : Path} {name : Str} (hn : '/' ∉ name) :
    (p ++ '/' :: name).reverse.dropWhile (· ≠ '/') = '/' :: p.reverse := by
  rw [List.reverse_append, List.reverse_cons, List.append_assoc,
    List.dropWhile_append_of_pos (ne_slash_of_mem_reverse hn)]
  simp

lemma dropWhile_of_noSlash {path : Path} (h : '/' ∉ path) :
    path.reverse.dropWhile (· ≠ '/') = [] :=
  List.dropWhile_eq_nil_iff.mpr (ne_slash_of_mem_reverse h)

/-- A path with a slash, cut at the last one. -/
lemma exists_cut {q : Path} (h : '/' ∈ q) : ∃ p name, q = p ++ '/' :: name ∧ '/' ∉ name ∧
    q.reverse.dropWhile (· ≠ '/') = '/' :: p.reverse := by
  have hsplit := List.takeWhile_append_dropWhile (p := fun a : Char => decide (a ≠ '/'))
    (l := q.reverse)
  cases hd : q.reverse.dropWhile (· ≠ '/') with
  | nil =>
      rw [hd, List.append_nil] at hsplit
      have hmem : '/' ∈ q.reverse.takeWhile (· ≠ '/') := by
        rw [hsplit]
        exact List.mem_reverse.mpr h
      exact absurd (List.mem_takeWhile_imp hmem) (by simp)
  | cons c r =>
      obtain rfl : c = '/' := by
        have hhead := List.head?_dropWhile_not (fun a : Char => decide (a ≠ '/')) q.reverse
        rw [hd] at hhead
        simpa using hhead
      refine ⟨r.reverse, baseName q, ?_, slash_not_mem_baseName q, by rw [List.reverse_reverse]⟩
      rw [hd] at hsplit
      have hq := congrArg List.reverse hsplit
      rw [List.reverse_reverse, List.reverse_append, List.reverse_cons, List.append_assoc] at hq
      exact hq.symm

/-- What precedes the last slash is the parent, and the root if nothing does. -/
lemma parentPath_cut {p : Path} {name : Str} (hn : '/' ∉ name) :
    parentPath (p ++ '/' :: name) = if p = [] then root else p := by
  rw [parentPath, dropWhile_cut hn]
  split_ifs with hp
  · subst hp
    rfl
  · cases hr : p.reverse with
    | nil => exact absurd (List.reverse_eq_nil_iff.mp hr) hp
    | cons a r => rw [← List.reverse_reverse p, hr]

/-- A name without `/` is the base name of the path joined from it. -/
lemma baseName_subPath (p : Path) {c : Str} (hc : '/' ∉ c) : baseName (subPath p c) = c := by
  rw [baseName, subPath, List.reverse_append, List.reverse_cons, List.append_assoc,
    List.takeWhile_append_of_pos (ne_slash_of_mem_reverse hc)]
  simp

/-- The parent of a joined path is the path it was joined from, the root and the empty
string excepted. -/
lemma parentPath_subPath {p : Path} (hp : p ≠ []) {c : Str} (hc : '/' ∉ c) :
    parentPath (subPath p c) = p := by
  rw [subPath, parentPath_cut hc, if_neg hp]

/-- A path below a parent other than the root is the join of its parent and its name. -/
lemma eq_subPath_of_parentPath {q p : Path} (hq : '/' ∈ q) (hp : parentPath q = p)
    (hroot : p ≠ root) : q = subPath p (baseName q) := by
  obtain ⟨p', name, rfl, hname, -⟩ := exists_cut hq
  have hname' : baseName (p' ++ '/' :: name) = name := baseName_subPath p' hname
  rw [parentPath_cut hname] at hp
  split_ifs at hp with hnil
  · exact absurd hp.symm hroot
  · rw [hname', subPath, hp]

/-- A path joined from the root has a doubled slash. -/
lemma isValidPath_subPath_root (c : Str) : isValidPath (subPath root c) false = false := by
  cases c <;> simp [subPath, root, isValidPath, validFrom]

lemma subPath_ne_self (p : Path) (c : Str) : subPath p c ≠ p := by
  intro h
  have := congrArg List.length h
  simp [subPath] at this

lemma subPath_injective {p : Path} {c c' : Str} (h : subPath p c = subPath p c') : c = c' := by
  simpa [subPath] using h

end ConfigMonitor
