/-
# Deleting a path

`delete_path` lists what is below its path and deletes the listed nodes and the path in a loop;
`async_delete_path` does so in a chain of completions.  Other clients create, change and delete
nodes between any two requests.  What a call does with an answer touches nothing but its own data,
so that it is taken together with the answer.  The `string_view` of the path is taken to be followed
by a NUL and to have none inside, since `data()` is handed to the library.
-/
import ConfigMonitor.Cppzk.Listing

namespace ConfigMonitor

open Ancestry Run
open GetPathValue (Failure)

namespace DeletePath

open Operations Listing

/-! ## The calls -/

/-- How far a call is: it lists, or waits for the answer to a delete request in the loop of
`delete_path` or in the chain of `async_delete_path`; or it has ended. -/
inductive Progress
  | listing (l : Listing.Progress)
  | deleting (sub : Path) (rest : List Path)
  | chain (request : ZooCall) (pending : Pending)
  | returned (result : Result)
  | refused
deriving DecidableEq, Repr

/-- The loop of `delete_path`. -/
def deleteLoop : List Path → Progress
  | [] => .returned (.operated .zok)
  | sub :: rest =>
      if isValidPath sub false then .deleting sub rest
      else .returned (.operated .zbadarguments)

/-- What a completion does on a usable handle. -/
def goOn : Next → Progress
  | .done result => .returned result
  | .request request pending =>
      if usableHandle.accepts request then .chain request pending else .refused

/-- The callback that `async_delete_path` hands to `async_recursive_get_sub_path`. -/
def deleteListed (prefixPath : Path) (ec : ZooError) (subs : List Path) : Next :=
  if ec ≠ .zok then .done (.operated ec)
  else
    let subs := subs ++ [prefixPath]
    .request (.adelete (subs.headD [])) (.deleteChain subs)

/-- The call goes on when its listing has ended. -/
def listed (v : Version) (path : Path) : Listing.Progress → Progress
  | .returned ec subs =>
      match v with
      | .sync => if ec ≠ .zok then .returned (.operated ec) else deleteLoop (subs ++ [path])
      | .async => goOn (deleteListed path ec subs)
  | .refused => .refused
  | .first prefixPath => .listing (.first prefixPath)
  | .sub path stack subs => .listing (.sub path stack subs)

/-- `delete_path`. -/
def deletePath (path : Path) : Progress := listed .sync path (recursiveGetSubPath path)

/-- `async_delete_path`. -/
def asyncDeletePath (path : Path) : Progress := listed .async path (asyncRecursiveGetSubPath path)

/-! ## The system -/

/-- The tree of the server and the call, with the nodes that the call has deleted, oldest first,
each with the tree that this has left. -/
structure State where
  tree : Tree
  version : Version
  path : Path
  progress : Progress
  deleted : List (Path × Tree)

/-- The server handles the request of the call, unless it has an error of its own; another client
makes a node, changes one or deletes one. -/
inductive Action
  | serve (failure : Option Failure)
  | create (q : Path) (v : Data)
  | set (q : Path) (v : Data)
  | delete (q : Path)

namespace State

/-- The call is made. -/
def init (t : Tree) (version : Version) (path : Path) : State where
  tree := t
  version := version
  path := path
  progress :=
    match version with
    | .sync => deletePath path
    | .async => asyncDeletePath path
  deleted := []

/-- The server handles a delete request, and the call goes on with the code. -/
def answer (s : State) (q : Path) (failure : Option Failure) (k : ZooError → Progress) : State :=
  match failure with
  | some rc => { s with progress := k rc.1 }
  | none =>
      match s.tree.delete q with
      | none => { s with progress := k (if q ∈ s.tree.paths then .znotempty else .znonode) }
      | some t => { s with tree := t, progress := k .zok, deleted := s.deleted ++ [(q, t)] }

/-- The server handles the request of the call. -/
def serve (s : State) (failure : Option Failure) : Option State :=
  match s.progress with
  | .listing l =>
      l.request.map fun q =>
        { s with
          progress := listed s.version s.path
            (l.resume s.version (getChildren s.tree q failure)) }
  | .deleting sub rest =>
      some (s.answer sub failure fun rc =>
        if rc ≠ .zok then .returned (.operated rc) else deleteLoop rest)
  | .chain (.adelete q) pending =>
      some (s.answer q failure fun rc => goOn (pending.complete { rc := rc }))
  | _ => none

/-- One step. -/
def step (s : State) : Action → Option State
  | .serve failure => s.serve failure
  | .create q v => (s.tree.create q v).map fun t => { s with tree := t }
  | .set q v => (s.tree.set q v).map fun t => { s with tree := t }
  | .delete q => (s.tree.delete q).map fun t => { s with tree := t }

end State

/-- The node is below `p`. -/
def Below (p q : Path) : Prop := q ≠ p ∧ Above parentPath q p

/-- The listing names no node but those below `p`. -/
inductive Lists (p : Path) : Listing.Progress → Prop
  | first {q : Path} (above : Above parentPath q p) : Lists p (.first q)
  | sub {q : Path} {stack : List Frame} {subs : List Path} (above : Above parentPath q p)
      (stack_below : ∀ f ∈ stack, Below p f.sub ∧ ∀ a ∈ f.rest, Below p a)
      (subs_below : ∀ a ∈ subs, Below p a) : Lists p (.sub q stack subs)
  | returned {rc : ZooError} {subs : List Path} (subs_below : ∀ a ∈ subs, Below p a) :
      Lists p (.returned rc subs)
  | refused : Lists p .refused

/-- The nodes that are left to be deleted: some below `p`, and `p`. -/
def Left (p : Path) (subs : List Path) : Prop :=
  ∃ front, subs = front ++ [p] ∧ ∀ a ∈ front, Below p a

/-- Before the call returns it has not deleted `p`; if it returns OK it has, and nothing was left
below. -/
inductive Fits (p : Path) (deleted : List (Path × Tree)) : Progress → Prop
  | listing {l : Listing.Progress} (lists : Lists p l) (not_yet : ∀ d ∈ deleted, d.1 ≠ p) :
      Fits p deleted (.listing l)
  | deleting {sub : Path} {rest : List Path} (left : Left p (sub :: rest))
      (not_yet : ∀ d ∈ deleted, d.1 ≠ p) : Fits p deleted (.deleting sub rest)
  | chain {sub : Path} {rest : List Path} (left : Left p (sub :: rest))
      (not_yet : ∀ d ∈ deleted, d.1 ≠ p) :
      Fits p deleted (.chain (.adelete sub) (.deleteChain (sub :: rest)))
  | failed {rc : ZooError} (ne : rc ≠ .zok) (not_yet : ∀ d ∈ deleted, d.1 ≠ p) :
      Fits p deleted (.returned (.operated rc))
  | done {t : Tree} (mem : (p, t) ∈ deleted) (gone : ∀ q ∈ t.paths, ¬ Above parentPath q p) :
      Fits p deleted (.returned (.operated .zok))
  | refused : Fits p deleted .refused

/-- The invariant. -/
structure Inv (p : Path) (s : State) : Prop where
  path_eq : s.path = p
  fits : Fits p s.deleted s.progress
  deleted_above : ∀ d ∈ s.deleted, Above parentPath d.1 p

variable {p q : Path} {t t' : Tree} {v : Version} {subs : List Path}
  {deleted : List (Path × Tree)} {failure : Option Failure} {s s' : State}

/-! ## Listings under concurrent changes -/

/-- What the server lists are names of nodes. -/
lemma slash_not_mem_of_getChildren {strings : List Str}
    (h : getChildren t q failure = .ok strings) {c : Str} (hc : c ∈ strings) : '/' ∉ c := by
  cases failure with
  | some rc => simp [getChildren] at h
  | none =>
      rw [getChildren] at h
      split_ifs at h
      obtain rfl := Except.ok.inj h
      obtain ⟨n, -, hn⟩ := List.mem_filterMap.mp hc
      split_ifs at hn
      obtain rfl := Option.some.inj hn
      exact slash_not_mem_baseName n.1

/-- The paths joined from a node at `p` or below are below. -/
lemma below_subPath (hp : p ≠ []) (hq : Above parentPath q p) {c : Str} (hc : '/' ∉ c) :
    Below p (subPath q c) := by
  have hle := hq.rank_le ranked_length
  have hne : q ≠ [] := by
    rintro rfl
    exact hp (List.length_eq_zero_iff.mp (Nat.le_zero.mp hle))
  have hpar := parentPath_subPath hne hc
  refine ⟨?_, (show Above parentPath (subPath q c) q from ⟨1, hpar⟩).trans hq⟩
  rintro rfl
  simp only [subPath, List.length_append, List.length_cons] at hle
  omega

lemma below_of_fullPaths (hp : p ≠ []) (hq : Above parentPath q p) {subPaths : List Path}
    (h : fullPaths q (getChildren t q failure) = .ok subPaths) : ∀ a ∈ subPaths, Below p a := by
  cases hget : getChildren t q failure with
  | error rc => simp [hget, fullPaths, Except.map] at h
  | ok strings =>
      rw [hget] at h
      obtain rfl := Except.ok.inj h
      intro a ha
      obtain ⟨c, hc, rfl⟩ := List.mem_map.mp ha
      exact below_subPath hp hq (slash_not_mem_of_getChildren hget hc)

lemma lists_fail {rc : ZooError} (h : ∀ a ∈ subs, Below p a) : Lists p (v.fail rc subs) := by
  cases v with
  | sync => exact .returned h
  | async => exact .returned (fun a ha => absurd ha List.not_mem_nil)

lemma lists_call {stack : List Frame} (hq : Below p q)
    (hstack : ∀ f ∈ stack, Below p f.sub ∧ ∀ a ∈ f.rest, Below p a)
    (hsubs : ∀ a ∈ subs, Below p a) : Lists p (call v q stack subs) := by
  rw [call]
  split_ifs
  · exact .sub hq.2 hstack hsubs
  · exact lists_fail hsubs

lemma lists_loop {stack : List Frame} {subPaths : List Path}
    (hstack : ∀ f ∈ stack, Below p f.sub ∧ ∀ a ∈ f.rest, Below p a)
    (hsub : ∀ a ∈ subPaths, Below p a) (hsubs : ∀ a ∈ subs, Below p a) :
    Lists p (loop v stack subPaths subs) := by
  -- a loop that has come to its end is followed by the one that waits for it
  induction stack generalizing subPaths subs with
  | nil =>
      cases subPaths with
      | nil => exact .returned hsubs
      | cons sub rest =>
          obtain ⟨hsub, hrest⟩ := List.forall_mem_cons.mp hsub
          exact lists_call hsub (List.forall_mem_cons.mpr ⟨⟨hsub, hrest⟩, hstack⟩) hsubs
  | cons f stack ih =>
      cases subPaths with
      | nil =>
          obtain ⟨⟨hsub, hrest⟩, hstack⟩ := List.forall_mem_cons.mp hstack
          refine ih hstack hrest fun a ha => ?_
          rcases List.mem_append.mp ha with ha | ha
          · exact hsubs a ha
          · rw [List.mem_singleton.mp ha]
            exact hsub
      | cons sub rest =>
          obtain ⟨hsub, hrest⟩ := List.forall_mem_cons.mp hsub
          exact lists_call hsub (List.forall_mem_cons.mpr ⟨⟨hsub, hrest⟩, hstack⟩) hsubs

/-- A listing that gets an answer names no other nodes but those below, whatever the tree is. -/
lemma Lists.resume {l : Listing.Progress} (h : Lists p l) (hp : p ≠ [])
    (hq : l.request = some q) : Lists p (l.resume v (getChildren t q failure)) := by
  cases h with
  | first above =>
      obtain rfl := Option.some.inj hq
      rw [Listing.Progress.resume]
      split
      · exact .returned (fun a ha => absurd ha List.not_mem_nil)
      · rename_i subPaths hfull
        exact lists_loop (fun f hf => absurd hf List.not_mem_nil)
          (below_of_fullPaths hp above hfull) (fun a ha => absurd ha List.not_mem_nil)
  | sub above stack_below subs_below =>
      obtain rfl := Option.some.inj hq
      rw [Listing.Progress.resume]
      split
      · exact lists_fail subs_below
      · rename_i subPaths hfull
        exact lists_loop stack_below (below_of_fullPaths hp above hfull) subs_below
  | returned subs_below => simp [Listing.Progress.request] at hq
  | refused => simp [Listing.Progress.request] at hq

/-! ## Deleting -/

lemma fits_deleteLoop (h : Left p subs) (hd : ∀ d ∈ deleted, d.1 ≠ p) :
    Fits p deleted (deleteLoop subs) := by
  cases subs with
  | nil =>
      obtain ⟨front, hfront, -⟩ := h
      simp at hfront
  | cons sub rest =>
      rw [deleteLoop]
      split_ifs
      · exact .deleting h hd
      · exact .failed (by decide) hd

/-- The chain goes on with the first of the paths that are left. -/
lemma fits_goOn {sub : Path} {rest : List Path} (h : Left p (sub :: rest))
    (hd : ∀ d ∈ deleted, d.1 ≠ p) :
    Fits p deleted (goOn (.request (.adelete sub) (.deleteChain (sub :: rest)))) := by
  rw [goOn]
  split_ifs
  · exact .chain h hd
  · exact .refused

lemma left_append_self (h : ∀ a ∈ subs, Below p a) : Left p (subs ++ [p]) := ⟨subs, rfl, h⟩

lemma fits_listed {l : Listing.Progress} (h : Lists p l) (hd : ∀ d ∈ deleted, d.1 ≠ p) :
    Fits p deleted (listed v p l) := by
  cases h with
  | first above => exact .listing (.first above) hd
  | sub above hstack hsubs => exact .listing (.sub above hstack hsubs) hd
  | @returned rc subs hsubs =>
      have hleft := left_append_self hsubs
      by_cases hrc : rc = .zok
      · subst hrc
        cases v with
        | sync => exact fits_deleteLoop hleft hd
        | async =>
            cases subs with
            | nil => exact fits_goOn hleft hd
            | cons sub subs => exact fits_goOn hleft hd
      · cases v with
        | sync => rw [listed, if_pos hrc]; exact .failed hrc hd
        | async => rw [listed, deleteListed, if_pos hrc]; exact .failed hrc hd
  | refused => exact .refused

/-- The first of the paths that are left is `p` and the only one, or it is below and `p` is among
the others. -/
lemma Left.cases {sub : Path} {rest : List Path} (h : Left p (sub :: rest)) :
    sub = p ∧ rest = [] ∨ Below p sub ∧ Left p rest := by
  obtain ⟨front, hfront, hbelow⟩ := h
  cases front with
  | nil => exact Or.inl (List.cons.inj hfront)
  | cons a front =>
      obtain ⟨rfl, rfl⟩ := List.cons.inj hfront
      obtain ⟨ha, hbelow⟩ := List.forall_mem_cons.mp hbelow
      exact Or.inr ⟨ha, front, rfl, hbelow⟩

/-- What is left when the node has been deleted has nothing of it. -/
lemma not_above_of_delete (h : t.delete p = some t') : ∀ q ∈ t'.paths, ¬ Above parentPath q p := by
  intro q hq habove
  have hclosed : Closed parentPath {a | a ∈ t'.paths} := t'.closed
  have hp := Tree.get_isSome_iff.mpr (hclosed.above hq habove)
  rw [Tree.get_delete h, if_pos rfl] at hp
  simp at hp

/-- What a call does with the code of a delete request for the first of the paths that are left:
it returns an error, and it returns OK when no path comes after this one. -/
structure GoesOn (p : Path) (rest : List Path) (k : ZooError → Progress) : Prop where
  failed : ∀ rc, rc ≠ .zok → k rc = .returned (.operated rc)
  done : rest = [] → k .zok = .returned (.operated .zok)
  next : Left p rest → ∀ deleted : List (Path × Tree), (∀ d ∈ deleted, d.1 ≠ p) →
    Fits p deleted (k .zok)

lemma goesOn_deleteLoop (rest : List Path) : GoesOn p rest fun rc =>
    if rc ≠ .zok then .returned (.operated rc) else deleteLoop rest where
  failed rc hrc := if_pos hrc
  done hrest := by rw [hrest]; rfl
  next hleft deleted hd := fits_deleteLoop hleft hd

lemma goesOn_chain (sub : Path) (rest : List Path) : GoesOn p rest fun rc =>
    goOn ((Pending.deleteChain (sub :: rest)).complete { rc := rc }) where
  failed rc hrc := by
    cases rest with
    | nil => rfl
    | cons a rest =>
        rw [Pending.complete, deleteCompletion, List.tail_cons]
        simp only [if_pos hrc, goOn]
  done hrest := by rw [hrest]; rfl
  next hleft deleted hd := by
    cases rest with
    | nil =>
        obtain ⟨front, hfront, -⟩ := hleft
        simp at hfront
    | cons a rest => exact fits_goOn hleft hd

/-- A delete request fails and changes nothing, or deletes its node. -/
lemma State.answer_cases (s : State) (q : Path) (failure : Option Failure)
    (k : ZooError → Progress) :
    (∃ rc, rc ≠ .zok ∧ s.answer q failure k = { s with progress := k rc }) ∨
      ∃ t, s.tree.delete q = some t ∧ s.answer q failure k =
        { s with tree := t, progress := k .zok, deleted := s.deleted ++ [(q, t)] } := by
  cases failure with
  | some rc => exact Or.inl ⟨rc.1, rc.2, rfl⟩
  | none =>
      rw [State.answer]
      split
      · refine Or.inl ⟨_, ?_, rfl⟩
        split_ifs <;> decide
      · rename_i t ht
        exact Or.inr ⟨t, ht, rfl⟩

/-- A delete request of the call is answered. -/
lemma Inv.answer {rest : List Path} {k : ZooError → Progress} (h : Inv p s)
    (hleft : Left p (q :: rest)) (hd : ∀ d ∈ s.deleted, d.1 ≠ p) (hk : GoesOn p rest k) :
    Inv p (s.answer q failure k) := by
  rcases s.answer_cases q failure k with ⟨rc, hrc, heq⟩ | ⟨t, ht, heq⟩
  · rw [heq]
    refine ⟨h.path_eq, ?_, h.deleted_above⟩
    rw [hk.failed rc hrc]
    exact .failed hrc hd
  · rw [heq]
    have habove : Above parentPath q p := by
      rcases hleft.cases with ⟨rfl, -⟩ | ⟨hq, -⟩
      · exact .refl
      · exact hq.2
    refine ⟨h.path_eq, ?_, List.forall_mem_append.mpr
      ⟨h.deleted_above, List.forall_mem_singleton.mpr habove⟩⟩
    dsimp only
    rcases hleft.cases with ⟨rfl, hrest⟩ | ⟨hq, hrest⟩
    · rw [hk.done hrest]
      exact .done (List.mem_append_right _ List.mem_cons_self) (not_above_of_delete ht)
    · exact hk.next hrest _ (List.forall_mem_append.mpr
        ⟨hd, List.forall_mem_singleton.mpr hq.1⟩)

/-! ## The steps -/

lemma Inv.serve (h : Inv p s) (hp : p ≠ []) (hs : s.serve failure = some s') : Inv p s' := by
  have hfits := h.fits
  generalize hprogress : s.progress = progress at hfits
  rw [State.serve, hprogress] at hs
  cases hfits with
  | listing lists not_yet =>
      obtain ⟨q, hq, rfl⟩ := Option.map_eq_some_iff.mp hs
      refine ⟨h.path_eq, ?_, h.deleted_above⟩
      dsimp only
      rw [h.path_eq]
      exact fits_listed (lists.resume hp hq) not_yet
  | deleting left not_yet =>
      obtain rfl := Option.some.inj hs
      exact h.answer left not_yet (goesOn_deleteLoop _)
  | chain left not_yet =>
      obtain rfl := Option.some.inj hs
      exact h.answer left not_yet (goesOn_chain _ _)
  | failed ne not_yet => simp at hs
  | done mem gone => simp at hs
  | refused => simp at hs

lemma Inv.step {a : Action} (h : Inv p s) (hp : p ≠ []) (hs : s.step a = some s') :
    Inv p s' := by
  cases a with
  | serve failure => exact h.serve hp hs
  | create q v =>
      obtain ⟨t, -, rfl⟩ := Option.map_eq_some_iff.mp hs
      exact ⟨h.path_eq, h.fits, h.deleted_above⟩
  | set q v =>
      obtain ⟨t, -, rfl⟩ := Option.map_eq_some_iff.mp hs
      exact ⟨h.path_eq, h.fits, h.deleted_above⟩
  | delete q =>
      obtain ⟨t, -, rfl⟩ := Option.map_eq_some_iff.mp hs
      exact ⟨h.path_eq, h.fits, h.deleted_above⟩

lemma inv_init (hp : isValidPath p false = true) : Inv p (State.init t v p) := by
  have hnone : ∀ d ∈ ([] : List (Path × Tree)), d.1 ≠ p :=
    fun d hd => absurd hd List.not_mem_nil
  refine ⟨rfl, ?_, fun d hd => absurd hd List.not_mem_nil⟩
  cases v with
  | sync =>
      have hlists : Lists p (recursiveGetSubPath p) := by
        rw [recursiveGetSubPath, call, if_pos hp]
        exact .sub .refl (fun f hf => absurd hf List.not_mem_nil)
          (fun a ha => absurd ha List.not_mem_nil)
      exact fits_listed (v := .sync) hlists hnone
  | async =>
      have hlists : Lists p (asyncRecursiveGetSubPath p) := by
        rw [asyncRecursiveGetSubPath, if_pos hp]
        exact .first .refl
      exact fits_listed (v := .async) hlists hnone

/-- The requests of a call change nothing but what is recorded as deleted. -/
lemma serve_cases (hs : s.serve failure = some s') :
    s'.tree = s.tree ∧ s'.deleted = s.deleted ∨
      ∃ q, s.tree.delete q = some s'.tree ∧ s'.deleted = s.deleted ++ [(q, s'.tree)] := by
  have hanswer : ∀ q k, s.answer q failure k = s' → s'.tree = s.tree ∧ s'.deleted = s.deleted ∨
      ∃ q, s.tree.delete q = some s'.tree ∧ s'.deleted = s.deleted ++ [(q, s'.tree)] := by
    rintro q k rfl
    rcases s.answer_cases q failure k with ⟨rc, -, heq⟩ | ⟨t, ht, heq⟩
    · exact Or.inl ⟨by rw [heq], by rw [heq]⟩
    · exact Or.inr ⟨q, by rw [heq, ht], by rw [heq]⟩
  rw [State.serve] at hs
  split at hs
  · obtain ⟨q, -, rfl⟩ := Option.map_eq_some_iff.mp hs
    exact Or.inl ⟨rfl, rfl⟩
  · exact hanswer _ _ (Option.some.inj hs)
  · exact hanswer _ _ (Option.some.inj hs)
  · simp at hs

/-- Whatever other clients do between the requests of a call: the requests change nothing but by
deleting nodes, which are at its path or below; if it reports OK it has deleted the node at its
path, and then nothing was left there or below; if it reports an error it has not. -/
theorem delete_safe (hp : isValidPath p false = true)
    (hr : Reach State.step (fun _ _ => True) (State.init t v p) s) :
    (∀ failure s', s.serve failure = some s' → s'.tree = s.tree ∧ s'.deleted = s.deleted ∨
      ∃ q, s.tree.delete q = some s'.tree ∧ s'.deleted = s.deleted ++ [(q, s'.tree)]) ∧
    (∀ d ∈ s.deleted, Above parentPath d.1 p) ∧
    (s.progress = .returned (.operated .zok) →
      ∃ t', (p, t') ∈ s.deleted ∧ ∀ q ∈ t'.paths, ¬ Above parentPath q p) ∧
    ∀ rc, s.progress = .returned (.operated rc) → rc ≠ .zok → ∀ d ∈ s.deleted, d.1 ≠ p := by
  have hne : p ≠ [] := by
    rintro rfl
    simp at hp
  have h : Inv p s := hr.invariant (inv_init hp) fun _ _ _ h _ hs => h.step hne hs
  have hfits := h.fits
  refine ⟨fun _ _ => serve_cases, h.deleted_above, fun hok => ?_, fun rc hrc hneg => ?_⟩
  · rw [hok] at hfits
    cases hfits with
    | failed ne not_yet => exact absurd rfl ne
    | done mem gone => exact ⟨_, mem, gone⟩
  · rw [hrc] at hfits
    cases hfits with
    | failed ne not_yet => exact not_yet
    | done mem gone => exact absurd rfl hneg

/-- `/c` and `/c/d`, which another client deletes after it has been listed. -/
theorem delete_safe_treeCD : ∃ s : State, s.progress = .returned (.operated .znonode) ∧
    ∀ d ∈ s.deleted, d.1 ≠ ['/', 'c'] := by
  obtain ⟨s, hr, hobs⟩ := exists_reach_of_exec State.step (fun _ _ => True)
    (State.init treeCD .sync ['/', 'c'])
    [.serve none, .serve none, .delete ['/', 'c', '/', 'd'], .serve none]
    (fun s => s.progress) (.returned (.operated .znonode)) rfl
  exact ⟨s, hobs, (delete_safe (by decide) hr).2.2.2 _ hobs (by decide)⟩

end DeletePath

end ConfigMonitor
