/-
# The recursive listings

`recursive_get_sub_path` lists the children of a path and calls itself for each of them;
`async_recursive_get_sub_path` sends a first request and makes these calls in its completion.
The calls that wait for one another are kept as a stack, so that a listing can be stopped at each
of its requests: the tree may be another one for the next request.  The `string_view` of the path is
taken to be followed by a NUL and to have none inside.
-/
import ConfigMonitor.Cppzk.SplitPath
import ConfigMonitor.Cppzk.GetPathValue
import ConfigMonitor.Lib.PostOrder
import Mathlib.Logic.Relation

namespace ConfigMonitor

open Ancestry
open GetPathValue (Failure)

namespace Listing

/-! ## The listings -/

/-- A listing is synchronous, or begins with an asynchronous request. -/
inductive Version
  | sync
  | async
deriving DecidableEq, Repr

/-- A loop that waits for its call of `recursive_get_sub_path`, with the path of the call and the
paths that come after it. -/
structure Frame where
  sub : Path
  rest : List Path
deriving DecidableEq, Repr

/-- How far a listing is: it waits for the answer to the first request of the asynchronous
version, or of a call of `recursive_get_sub_path`; or it has ended, with a code and the paths that
the caller gets; or the library has refused the first request and nothing more happens. -/
inductive Progress
  | first (prefixPath : Path)
  | sub (path : Path) (stack : List Frame) (subs : List Path)
  | returned (rc : ZooError) (subs : List Path)
  | refused
deriving DecidableEq, Repr

/-- A listing that ends with an error: the synchronous version leaves in `subs` what it has
gathered, the callback of the asynchronous one gets nothing. -/
def Version.fail : Version → ZooError → List Path → Progress
  | .sync, rc, subs => .returned rc subs
  | .async, rc, _ => .returned rc []

/-- `recursive_get_sub_path` is called; `zoo_wget_children2` refuses a path that is not valid. -/
def call (v : Version) (path : Path) (stack : List Frame) (subs : List Path) : Progress :=
  if isValidPath path false then .sub path stack subs else v.fail .zbadarguments subs

/-- The loop over the sub-paths of a call; at its end, the call returns to the loop that has made
it, which goes on. -/
def loop (v : Version) : List Frame → List Path → List Path → Progress
  | stack, sub :: rest, subs => call v sub (⟨sub, rest⟩ :: stack) subs
  | [], [], subs => .returned .zok subs
  | frame :: stack, [], subs => loop v stack frame.rest (subs ++ [frame.sub])

/-- What `get_sub_path` makes of the answer of the server. -/
def fullPaths (path : Path) (answer : Except Failure (List Str)) : Except Failure (List Path) :=
  answer.map fun strings => strings.map (subPath path)

/-- `recursive_get_sub_path`. -/
def recursiveGetSubPath (path : Path) : Progress := call .sync path [] []

/-- `async_recursive_get_sub_path`. -/
def asyncRecursiveGetSubPath (path : Path) : Progress :=
  if isValidPath path false then .first path else .refused

/-- The listing gets the answer to its request. -/
def Progress.resume (v : Version) (answer : Except Failure (List Str)) : Progress → Progress
  | .first prefixPath =>
      match fullPaths prefixPath answer with
      | .error rc => .returned rc.1 []
      | .ok subPaths => loop v [] subPaths []
  | .sub path stack subs =>
      match fullPaths path answer with
      | .error rc => v.fail rc.1 subs
      | .ok subPaths => loop v stack subPaths subs
  | .returned rc subs => .returned rc subs
  | .refused => .refused

/-- The path of the request in flight. -/
def Progress.request : Progress → Option Path
  | .first path | .sub path _ _ => some path
  | .returned _ _ | .refused => none

lemma znonode_ne_zok : ZooError.znonode ≠ .zok := by decide

/-- The answer of the server, unless it has an error of its own. -/
def getChildren (t : Tree) (path : Path) (failure : Option Failure) : Except Failure (List Str) :=
  match failure with
  | some rc => .error rc
  | none => if path ∈ t.paths then .ok (t.children path) else .error ⟨.znonode, znonode_ne_zok⟩

/-- `get_sub_path`. -/
def getSubPath (t : Tree) (path : Path) : ZooError × List Path :=
  if isValidPath path false then
    match fullPaths path (getChildren t path none) with
    | .error rc => (rc.1, [])
    | .ok subPaths => (.zok, subPaths)
  else (.zbadarguments, [])

/-! ## Listings of a tree that does not change -/

/-- The request of the listing is answered from the tree. -/
def Progress.serve (v : Version) (t : Tree) (l : Progress) : Option Progress :=
  l.request.map fun path => l.resume v (getChildren t path none)

/-- The steps of a listing, all answered from the same tree. -/
abbrev Steps (v : Version) (t : Tree) : Progress → Progress → Prop :=
  Relation.ReflTransGen fun l l' => l.serve v t = some l'

/-- The full paths of the children of `p`. -/
structure ChildPaths (t : Tree) (p : Path) (l : List Path) : Prop where
  nodup : l.Nodup
  mem_iff : ∀ a, a ∈ l ↔ a ∈ t.paths ∧ a ≠ root ∧ parentPath a = p

/-- `get_sub_path` reports OK and the paths of the children, both recursive listings report OK and
the same list, of the paths of the nodes below, each after those below itself. -/
structure ChildPathsRight (t : Tree) (p : Path) : Prop where
  children : ∃ l, getSubPath t p = (.zok, l) ∧ ChildPaths t p l
  descendants : ∃ subs, Steps .sync t (recursiveGetSubPath p) (.returned .zok subs) ∧
    Steps .async t (asyncRecursiveGetSubPath p) (.returned .zok subs) ∧
    PostOrder parentPath {a | a ∈ t.paths} p subs

/-- The listings are right for every node. -/
def AlwaysRight : Prop := ∀ (t : Tree) (p : Path), p ∈ t.paths → ChildPathsRight t p

/-! ## The children of the root -/

/-- `/c` and its child `/c/d`. -/
def treeCD : Tree where
  nodes := [(root, none), (['/', 'c'], none), (['/', 'c', '/', 'd'], none)]
  nodup := by decide
  root_mem := by decide
  closed := by decide
  valid := by decide

/-- `get_sub_path` of the root reports `//c`. -/
theorem not_alwaysRight : ¬ AlwaysRight := by
  intro h
  obtain ⟨l, hl, hsub⟩ := (h treeCD root (by decide)).children
  have hmem : ['/', '/', 'c'] ∈ l := by
    obtain ⟨-, rfl⟩ := Prod.mk.inj hl
    exact List.mem_singleton.mpr rfl
  exact absurd ((hsub.mem_iff _).mp hmem).1 (by decide)

variable {t : Tree} {p q : Path} {v : Version} {l : List Path}

/-! ## Children -/

/-- A parent has a shorter path. -/
lemma ranked_length : Ranked parentPath List.length := by
  intro q
  by_cases hq : '/' ∈ q
  · obtain ⟨p, name, rfl, hname, -⟩ := exists_cut hq
    rw [parentPath_cut hname]
    split_ifs with hp
    · subst hp
      cases name with
      | nil => exact Or.inl rfl
      | cons c name => exact Or.inr (by simp [root])
    · exact Or.inr (by simp)
  · rw [parentPath, dropWhile_of_noSlash hq]
    cases q with
    | nil => exact Or.inl rfl
    | cons c q => exact Or.inr (by simp)

/-- Only the root is its own parent. -/
lemma parentPath_ne (hq : q ∈ t.paths) (hroot : q ≠ root) : parentPath q ≠ q := by
  obtain ⟨r, hr⟩ := isValidPath_head (t.valid q hq)
  obtain ⟨p, name, rfl, hname, -⟩ := exists_cut (q := q) (by simp [hr])
  rw [parentPath_cut hname]
  split_ifs with hp
  · exact hroot.symm
  · exact (subPath_ne_self p name).symm

/-- The paths joined from a node other than the root are those of its children. -/
lemma childPaths_map (hp : p ∈ t.paths) (hroot : p ≠ root) :
    ChildPaths t p ((t.children p).map (subPath p)) := by
  have hne : p ≠ [] := by
    rintro rfl
    have hv := t.valid [] hp
    simp at hv
  constructor
  · exact (Tree.children_nodup hroot).map fun c c' h => subPath_injective h
  · intro a
    rw [List.mem_map]
    constructor
    · rintro ⟨c, hc, rfl⟩
      obtain ⟨hslash, hget⟩ := (Tree.mem_children_iff hne hroot).mp hc
      refine ⟨Tree.get_isSome_iff.mp hget, ?_, parentPath_subPath hne hslash⟩
      intro h
      have hpar := congrArg parentPath h
      rw [parentPath_subPath hne hslash] at hpar
      exact hroot hpar
    · rintro ⟨ha, haroot, rfl⟩
      obtain ⟨r, hr⟩ := isValidPath_head (t.valid a ha)
      have heq := eq_subPath_of_parentPath (q := a) (by rw [hr]; simp) rfl hroot
      refine ⟨baseName a, ?_, heq.symm⟩
      rw [Tree.mem_children_iff hne hroot, ← heq, Tree.get_isSome_iff]
      exact ⟨slash_not_mem_baseName a, ha⟩

/-- A node and its child paths, if they are what the code takes them for. -/
lemma getChildren_of_mem (hp : p ∈ t.paths) : fullPaths p (getChildren t p none) =
    .ok ((t.children p).map (subPath p)) := by
  rw [getChildren, if_pos hp]
  rfl

lemma getSubPath_of_mem (hp : p ∈ t.paths) :
    getSubPath t p = (.zok, (t.children p).map (subPath p)) := by
  rw [getSubPath, if_pos (t.valid p hp), getChildren_of_mem hp]

/-- The root has no listed children, so that it has none. -/
lemma childPaths_root (h : t.children root = []) : ChildPaths t root [] := by
  refine ⟨List.nodup_nil, fun a => iff_of_false List.not_mem_nil ?_⟩
  rintro ⟨ha, hroot, hpar⟩
  exact Tree.not_parent_of_children_nil h ha hroot hpar

/-! ## Runs -/

lemma call_of_mem {stack : List Frame} {subs : List Path} (hq : q ∈ t.paths) :
    call v q stack subs = .sub q stack subs := by
  rw [call, if_pos (t.valid q hq)]

/-- A call of `recursive_get_sub_path` gathers the nodes below its path in post-order, whatever
waits for it. -/
def Gathers (t : Tree) (q : Path) (l : List Path) : Prop :=
  PostOrder parentPath {a | a ∈ t.paths} q l ∧
    ∀ v stack subs, Steps v t (.sub q stack subs) (loop v stack [] (subs ++ l))

/-- The loop over the sub-paths, when each call gathers what is below. -/
lemma steps_loop {below : Path → List Path} {subPaths : List Path}
    (h : ∀ c ∈ subPaths, c ∈ t.paths ∧ Gathers t c (below c)) (v : Version) (stack : List Frame)
    (subs : List Path) : Steps v t (loop v stack subPaths subs)
      (loop v stack [] (subs ++ subPaths.flatMap fun c => below c ++ [c])) := by
  induction subPaths generalizing subs with
  | nil =>
      rw [List.flatMap_nil, List.append_nil]
  | cons c rest ih =>
      obtain ⟨hc, hgathers⟩ := h c List.mem_cons_self
      have hcall := hgathers.2 v (⟨c, rest⟩ :: stack) subs
      have hrest := ih (fun c hc => h c (List.mem_cons_of_mem _ hc)) (subs ++ below c ++ [c])
      rw [List.flatMap_cons, ← List.append_assoc, ← List.append_assoc]
      rw [loop, call_of_mem hc]
      exact hcall.trans hrest

/-- The loop over the paths of all children gathers the nodes below their parent. -/
lemma exists_steps_loop {subPaths : List Path} (hsub : ChildPaths t p subPaths)
    (h : ∀ c ∈ subPaths, ∃ l, Gathers t c l) : ∃ l, PostOrder parentPath {a | a ∈ t.paths} p l ∧
      ∀ v stack subs, Steps v t (loop v stack subPaths subs) (loop v stack [] (subs ++ l)) := by
  choose! below hbelow using h
  have hmem : ∀ c, c ∈ subPaths ↔ c ∈ t.paths ∧ c ≠ p ∧ parentPath c = p := by
    intro c
    rw [hsub.mem_iff c]
    refine and_congr_right fun hc => and_congr_left fun hpar => ?_
    rw [← hpar]
    exact ⟨fun hroot => (parentPath_ne hc hroot).symm, fun hne hroot => hne (hroot ▸ rfl)⟩
  exact ⟨_, PostOrder.flatMap ranked_length t.closed hsub.nodup hmem fun c hc => (hbelow c hc).1,
    steps_loop fun c hc => ⟨((hmem c).mp hc).1, hbelow c hc⟩⟩

lemma exists_length_lt (l : List Path) : ∃ M, ∀ a ∈ l, a.length < M := by
  induction l with
  | nil => exact ⟨0, fun a ha => absurd ha List.not_mem_nil⟩
  | cons b l ih =>
      obtain ⟨M, hM⟩ := ih
      refine ⟨M + b.length + 1, fun a ha => ?_⟩
      rcases List.mem_cons.mp ha with rfl | ha
      · omega
      · have hlt := hM a ha
        omega

/-- A call for a node other than the root returns, by induction on how much longer the paths of
the tree can get. -/
lemma exists_gathers (n : ℕ) (hn : ∀ a ∈ t.paths, a.length < q.length + n) (hq : q ∈ t.paths)
    (hroot : q ≠ root) : ∃ l, Gathers t q l := by
  induction n generalizing q with
  | zero => exact absurd (hn q hq) (by omega)
  | succ n ih =>
      have hsub := childPaths_map hq hroot
      obtain ⟨l, hpost, hsteps⟩ := exists_steps_loop hsub (fun c hc => by
        obtain ⟨hc, hcroot, hpar⟩ := (hsub.mem_iff c).mp hc
        have hlt : q.length < c.length := by
          refine ranked_length.child hpar ?_
          rw [← hpar]
          exact (parentPath_ne hc hcroot).symm
        exact ih (fun a ha => by have := hn a ha; omega) hc hcroot)
      refine ⟨l, hpost, fun v stack subs => ?_⟩
      refine Relation.ReflTransGen.head ?_ (hsteps v stack subs)
      rw [Progress.serve, Progress.request, Option.map_some, Progress.resume,
        getChildren_of_mem hq]

/-- Both versions gather the nodes below a node whose children have the paths that the code
joins. -/
lemma exists_steps (hp : p ∈ t.paths)
    (hsub : ChildPaths t p ((t.children p).map (subPath p))) :
    ∃ subs, Steps .sync t (recursiveGetSubPath p) (.returned .zok subs) ∧
      Steps .async t (asyncRecursiveGetSubPath p) (.returned .zok subs) ∧
      PostOrder parentPath {a | a ∈ t.paths} p subs := by
  obtain ⟨M, hM⟩ := exists_length_lt t.paths
  obtain ⟨l, hpost, hsteps⟩ := exists_steps_loop hsub fun c hc => by
    obtain ⟨hc, hroot, -⟩ := (hsub.mem_iff c).mp hc
    exact exists_gathers M (fun a ha => by have := hM a ha; omega) hc hroot
  refine ⟨l, ?_, ?_, hpost⟩
  · rw [recursiveGetSubPath, call_of_mem hp]
    refine Relation.ReflTransGen.head ?_ (hsteps .sync [] [])
    rw [Progress.serve, Progress.request, Option.map_some, Progress.resume, getChildren_of_mem hp]
  · rw [asyncRecursiveGetSubPath, if_pos (t.valid p hp)]
    refine Relation.ReflTransGen.head ?_ (hsteps .async [] [])
    rw [Progress.serve, Progress.request, Option.map_some, Progress.resume, getChildren_of_mem hp]

/-- The listings are right for every node but a root that has children. -/
theorem childPathsRight_iff (hp : p ∈ t.paths) :
    ChildPathsRight t p ↔ (p = root → t.children root = []) := by
  have hget := getSubPath_of_mem hp
  constructor
  · rintro ⟨⟨l, hl, hsub⟩, -⟩ rfl
    rw [List.eq_nil_iff_forall_not_mem]
    intro c hc
    have hmem : subPath root c ∈ l := by
      rw [hget] at hl
      rw [← (Prod.mk.inj hl).2]
      exact List.mem_map_of_mem hc
    have hsome := Tree.get_isSome_iff.mpr ((hsub.mem_iff _).mp hmem).1
    rw [Tree.get_subPath_root] at hsome
    simp at hsome
  · intro h
    have hsub : ChildPaths t p ((t.children p).map (subPath p)) := by
      by_cases hroot : p = root
      · rw [hroot, h hroot]
        exact childPaths_root (h hroot)
      · exact childPaths_map hp hroot
    exact ⟨⟨_, hget, hsub⟩, exists_steps hp hsub⟩

/-- The listings of `/c`, which has a child, and of the root, whose child is `/c`. -/
theorem childPathsRight_iff_treeCD :
    ChildPathsRight treeCD ['/', 'c'] ∧ ¬ ChildPathsRight treeCD root :=
  ⟨(childPathsRight_iff (by decide)).mpr fun h => absurd h (by decide),
    fun h => absurd ((childPathsRight_iff (by decide)).mp h rfl) (by decide)⟩

end Listing

end ConfigMonitor
