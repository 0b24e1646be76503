/-
# Listings of a tree that changes

Other clients create and delete nodes between any two requests of `recursive_get_sub_path` or
`async_recursive_get_sub_path`.  A listing that reports OK is a traversal of the changing tree:
what it names has been there at some moment of the call, each node once and after the listed nodes
below it, and what has been there all the time is named.
-/
import ConfigMonitor.Cppzk.DeletePath
import ConfigMonitor.Lib.Traversal

namespace ConfigMonitor

open Ancestry Run
open GetPathValue (Failure)

namespace LiveListing

open Listing

/-! ## The system -/

/-- The tree of the server and the listing. -/
structure State where
  tree : Tree
  version : Version
  progress : Listing.Progress

/-- The server handles the request of the listing, unless it has an error of its own; another
client makes a node, changes one or deletes one. -/
inductive Action
  | serve (failure : Option Failure)
  | create (q : Path) (v : Data)
  | set (q : Path) (v : Data)
  | delete (q : Path)

namespace State

/-- The call is made. -/
def init (t : Tree) (version : Version) (path : Path) : State where
  tree := t
  version := version
  progress :=
    match version with
    | .sync => recursiveGetSubPath path
    | .async => asyncRecursiveGetSubPath path

/-- The server handles the request of the listing. -/
def serve (s : State) (failure : Option Failure) : Option State :=
  s.progress.request.map fun q =>
    { s with progress := s.progress.resume s.version (getChildren s.tree q failure) }

/-- One step. -/
def step (s : State) : Action → Option State
  | .serve failure => s.serve failure
  | .create q v => (s.tree.create q v).map fun t => { s with tree := t }
  | .set q v => (s.tree.set q v).map fun t => { s with tree := t }
  | .delete q => (s.tree.delete q).map fun t => { s with tree := t }

end State

/-- The node has been there at some moment. -/
def Seen (h : List State) (a : Path) : Prop := ∃ u ∈ h, a ∈ u.tree.paths

/-- The node has been there at every moment. -/
def Stays (h : List State) (a : Path) : Prop := ∀ u ∈ h, a ∈ u.tree.paths

/-- The stack of a listing, as a traversal has it. -/
def frames (stack : List Frame) : List (Path × List Path) := stack.map fun f => (f.sub, f.rest)

/-- An error that the tree explains: the path, or a node that has been listed, was missing at some
moment. -/
def Missed (p : Path) (h : List State) (rc : ZooError) : Prop :=
  rc = .znonode ∧ ∃ q, Above parentPath q p ∧ (q = p ∨ Seen h q) ∧ ¬ Stays h q

/-- How far the listing is; `excuse` holds of the errors it may report. -/
inductive Fits (p : Path) (h : List State) (excuse : ZooError → Prop) : Listing.Progress → Prop
  | first : Fits p h excuse (.first p)
  | sub {q : Path} {stack : List Frame} {subs : List Path} (current : q = top p (frames stack))
      (walk : Walk parentPath p (Seen h) (Stays h) (frames stack) [] [q] subs) :
      Fits p h excuse (.sub q stack subs)
  | done {subs : List Path} (traversed : Traversed parentPath p (Seen h) (Stays h) subs) :
      Fits p h excuse (.returned .zok subs)
  | failed {rc : ZooError} {subs : List Path} (ne : rc ≠ .zok) (why : excuse rc) :
      Fits p h excuse (.returned rc subs)
  | refused (invalid : isValidPath p false = false) : Fits p h excuse .refused

variable {p q : Path} {h : List State} {s s' : State} {excuse excuse' : ZooError → Prop}
  {v : Version} {subs todo : List Path} {failure : Option Failure}

/-! ## The past -/

lemma Seen.snoc {a : Path} (ha : Seen h a) (u : State) : Seen (h ++ [u]) a := by
  obtain ⟨w, hw, hmem⟩ := ha
  exact ⟨w, List.mem_append_left _ hw, hmem⟩

lemma Stays.of_snoc {a : Path} {u : State} (ha : Stays (h ++ [u]) a) : Stays h a :=
  fun w hw => ha w (List.mem_append_left _ hw)

/-- The parent of a node that stays does so too. -/
lemma Stays.parent {a : Path} (ha : Stays h a) : Stays h (parentPath a) :=
  fun u hu => u.tree.closed a (ha u hu)

lemma Seen.valid {a : Path} (ha : Seen h a) : isValidPath a false = true := by
  obtain ⟨u, -, hmem⟩ := ha
  exact u.tree.valid a hmem

lemma Missed.snoc {rc : ZooError} (hm : Missed p h rc) (u : State) : Missed p (h ++ [u]) rc := by
  obtain ⟨hrc, q, habove, hseen, hstays⟩ := hm
  exact ⟨hrc, q, habove, hseen.imp_right (·.snoc u), fun hq => hstays hq.of_snoc⟩

lemma Fits.snoc {l : Listing.Progress} (hf : Fits p h excuse l) (u : State)
    (hex : ∀ rc, excuse rc → excuse' rc) : Fits p (h ++ [u]) excuse' l := by
  cases hf with
  | first => exact .first
  | sub current walk =>
      exact .sub current (walk.mono (fun a ha => ha.snoc u) fun a ha => ha.of_snoc)
  | done traversed =>
      refine .done ⟨traversed.nodup, fun a ha => ?_, traversed.up, traversed.ordered,
        fun q hne hq hs => traversed.covers q hne hq hs.of_snoc⟩
      obtain ⟨hne, habove, hseen⟩ := traversed.below a ha
      exact ⟨hne, habove, hseen.snoc u⟩
  | failed ne why => exact .failed ne (hex _ why)
  | refused invalid => exact .refused invalid

/-! ## The listing -/

lemma fits_fail {rc : ZooError} (hne : rc ≠ .zok) (hex : excuse rc) :
    Fits p h excuse (v.fail rc subs) := by
  cases v <;> exact .failed hne hex

/-- The loop goes on: it calls `recursive_get_sub_path` for the next path, returns to the loop that
waits for it, or ends. -/
lemma fits_loop {stack : List Frame}
    (hw : Walk parentPath p (Seen h) (Stays h) (frames stack) todo [] subs) :
    Fits p h excuse (loop v stack todo subs) := by
  induction stack generalizing todo subs with
  | nil =>
      cases todo with
      | nil => exact .done hw.traversed
      | cons sub rest =>
          rw [loop, call, if_pos (hw.seen sub (mem_met.mpr (by simp))).valid]
          exact .sub rfl hw.enter
  | cons f stack ih =>
      cases todo with
      | nil => exact ih (hw.leave ranked_length)
      | cons sub rest =>
          rw [loop, call, if_pos (hw.seen sub (mem_met.mpr (by simp))).valid]
          exact .sub rfl hw.enter

/-- Only the root is above itself. -/
lemma ne_root_of_above (hp : p ≠ root) (hq : Above parentPath q p) : q ≠ root := by
  rintro rfl
  obtain ⟨n, hn⟩ := hq
  rw [Function.iterate_fixed (by decide)] at hn
  exact hp hn.symm

/-- What the server lists are the children that the node has at that moment. -/
lemma children_of_mem {t : Tree} (hq : q ∈ t.paths) (hroot : q ≠ root)
    (hseen : ∀ a ∈ t.paths, Seen h a) (hstays : ∀ a, Stays h a → a ∈ t.paths) :
    Children parentPath q (Seen h) (Stays h) ((t.children q).map (subPath q)) := by
  have hsub := childPaths_map hq hroot
  refine ⟨hsub.nodup, fun c hc => ?_, fun c hc => hseen c ((hsub.mem_iff c).mp hc).1,
    fun c hc hne hs => (hsub.mem_iff c).mpr ⟨hstays c hs, ?_, hc⟩⟩
  · obtain ⟨hmem, hcroot, hpar⟩ := (hsub.mem_iff c).mp hc
    exact ⟨hpar, hpar ▸ (parentPath_ne hmem hcroot).symm⟩
  · rintro rfl
    exact hroot (hc.symm.trans (by decide))

/-- The listing gets its answer. -/
lemma Fits.resume {l : Listing.Progress} (hf : Fits p h excuse l) (hroot : p ≠ root)
    (hreq : l.request = some q) (hs : s ∈ h)
    (hex : ∀ rc, failure = some rc → excuse rc.1)
    (hmiss : failure = none → Missed p h .znonode → excuse .znonode) :
    Fits p h excuse (l.resume v (getChildren s.tree q failure)) := by
  have hseen : ∀ a ∈ s.tree.paths, Seen h a := fun a ha => ⟨s, hs, ha⟩
  have hstays : ∀ a, Stays h a → a ∈ s.tree.paths := fun a ha => ha s hs
  -- an answer with an error is the failure of the server, or the node is missing
  have herror : ∀ rc, getChildren s.tree q failure = .error rc → Above parentPath q p →
      (q = p ∨ Seen h q) → excuse rc.1 := by
    intro rc hrc habove hq
    cases failure with
    | some rc' =>
        obtain rfl := Except.error.inj hrc
        exact hex _ rfl
    | none =>
        rw [getChildren] at hrc
        split_ifs at hrc with hmem
        obtain rfl := Except.error.inj hrc
        exact hmiss rfl ⟨rfl, q, habove, hq, fun hst => hmem (hstays q hst)⟩
  have hok : ∀ strings, getChildren s.tree q failure = .ok strings →
      q ∈ s.tree.paths ∧ strings = s.tree.children q := by
    intro strings hst
    cases failure with
    | some rc' => exact absurd hst (by simp [getChildren])
    | none =>
        rw [getChildren] at hst
        split_ifs at hst with hmem
        exact ⟨hmem, (Except.ok.inj hst).symm⟩
  cases hf with
  | first =>
      obtain rfl := Option.some.inj hreq
      rw [Listing.Progress.resume]
      cases hans : getChildren s.tree p failure with
      | error rc => exact .failed rc.2 (herror rc hans .refl (Or.inl rfl))
      | ok strings =>
          obtain ⟨hmem, rfl⟩ := hok strings hans
          exact fits_loop ((walk_start parentPath p (Seen h) (Stays h)).list ranked_length
            (fun a ha => ha.parent) (children_of_mem hmem hroot hseen hstays))
  | @sub q' stack subs current walk =>
      obtain rfl := Option.some.inj hreq
      have habove : Above parentPath q' p := current ▸ walk.nested.above_top
      rw [Listing.Progress.resume]
      cases hans : getChildren s.tree q' failure with
      | error rc =>
          refine fits_fail rc.2 (herror rc hans habove ?_)
          rcases top_cases p (frames stack) with ⟨-, heq⟩ | hopen
          · exact Or.inl (current.trans heq)
          · exact Or.inr (walk.seen q' (mem_met.mpr (Or.inr (Or.inl (current ▸ hopen)))))
      | ok strings =>
          obtain ⟨hmem, rfl⟩ := hok strings hans
          subst current
          exact fits_loop (walk.list ranked_length (fun a ha => ha.parent)
            (children_of_mem hmem (ne_root_of_above hroot habove) hseen hstays))
  | done traversed => simp [Listing.Progress.request] at hreq
  | failed ne why => simp [Listing.Progress.request] at hreq
  | refused invalid => simp [Listing.Progress.request] at hreq

lemma fits_init (t : Tree) (hv : isValidPath p false = false → excuse .zbadarguments) :
    Fits p [State.init t v p] excuse (State.init t v p).progress := by
  cases v with
  | sync =>
      rw [State.init, recursiveGetSubPath, call]
      dsimp only
      split_ifs with hp
      · exact .sub rfl (walk_start _ _ _ _)
      · exact .failed (by decide) (hv (Bool.eq_false_iff.mpr hp))
  | async =>
      rw [State.init, asyncRecursiveGetSubPath]
      dsimp only
      split_ifs with hp
      · exact .first
      · exact .refused (Bool.eq_false_iff.mpr hp)

/-- The state of a run is the last one of its past. -/
lemma mem_of_trace {ok : State → Action → Prop} {s₀ : State} (ht : Trace State.step ok s₀ h s) :
    s ∈ h := by
  cases ht with
  | init => exact List.mem_singleton.mpr rfl
  | tail _ _ _ => exact List.mem_append_right _ (List.mem_singleton.mpr rfl)

/-- Every moment of a run: the errors reported are failures of the server, or the tree explains
them. -/
lemma fits_of_trace {ok : State → Action → Prop} {F : ZooError → Prop} {t : Tree}
    (ht : Trace State.step ok (State.init t v p) h s) (hroot : p ≠ root)
    (hv : isValidPath p false = false → F .zbadarguments)
    (hF : ∀ s rc, ok s (.serve (some rc)) → F rc.1) :
    Fits p h (fun rc => F rc ∨ Missed p h rc) s.progress := by
  induction ht with
  | init => exact fits_init t fun hp => Or.inl (hv hp)
  | @tail h s u a ht hok hs ih =>
      have hmono : ∀ rc, F rc ∨ Missed p h rc → F rc ∨ Missed p (h ++ [u]) rc :=
        fun rc hor => hor.imp_right (·.snoc u)
      have hkeep : u.progress = s.progress →
          Fits p (h ++ [u]) (fun rc => F rc ∨ Missed p (h ++ [u]) rc) u.progress := by
        intro heq
        rw [heq]
        exact ih.snoc u hmono
      cases a with
      | serve failure =>
          obtain ⟨q, hreq, rfl⟩ := Option.map_eq_some_iff.mp hs
          refine (ih.snoc _ hmono).resume hroot hreq (List.mem_append_left _ (mem_of_trace ht))
            ?_ fun _ hmiss => Or.inr hmiss
          rintro rc rfl
          exact Or.inl (hF s rc hok)
      | create q v =>
          obtain ⟨t', -, rfl⟩ := Option.map_eq_some_iff.mp hs
          exact hkeep rfl
      | set q v =>
          obtain ⟨t', -, rfl⟩ := Option.map_eq_some_iff.mp hs
          exact hkeep rfl
      | delete q =>
          obtain ⟨t', -, rfl⟩ := Option.map_eq_some_iff.mp hs
          exact hkeep rfl

/-- A listing of a tree that changes: if it reports OK, it has traversed what is below the path;
if it reports an error and the server had none of its own, the path or a node that was there at
some moment has been missing. -/
theorem listing_explained {ok : State → Action → Prop} {t : Tree}
    (hv : isValidPath p false = true) (hroot : p ≠ root)
    (ht : Trace State.step ok (State.init t v p) h s) :
    (∀ subs, s.progress = .returned .zok subs →
      Traversed parentPath p (Seen h) (Stays h) subs) ∧
    ((∀ s rc, ¬ ok s (.serve (some rc))) →
      ∀ rc subs, s.progress = .returned rc subs → rc ≠ .zok → Missed p h rc) := by
  constructor
  · intro subs hret
    have hf := fits_of_trace (F := fun _ => True) ht hroot (fun _ => trivial) fun _ _ _ => trivial
    rw [hret] at hf
    cases hf with
    | done traversed => exact traversed
    | failed ne => exact absurd rfl ne
  · intro hnone rc subs hret hne
    have hf := fits_of_trace (F := fun _ => False) ht hroot
      (fun hp => absurd hv (by rw [hp]; exact Bool.false_ne_true)) fun s rc hok => hnone s rc hok
    rw [hret] at hf
    cases hf with
    | done traversed => exact absurd rfl hne
    | failed ne why => exact why.resolve_left id

/-- `/c` is listed while `/c/d` is deleted and `/c/e` is made. -/
theorem listing_explained_treeCD : ∃ h s, Trace State.step (fun _ _ => True)
    (State.init treeCD .sync ['/', 'c']) h s ∧
    s.progress = .returned .zok [['/', 'c', '/', 'e']] ∧
    Traversed parentPath ['/', 'c'] (Seen h) (Stays h) [['/', 'c', '/', 'e']] := by
  obtain ⟨s, hr, hobs⟩ := exists_reach_of_exec State.step (fun _ _ => True)
    (State.init treeCD .sync ['/', 'c'])
    [.delete ['/', 'c', '/', 'd'], .create ['/', 'c', '/', 'e'] none, .serve none, .serve none]
    (fun s => s.progress) (.returned .zok [['/', 'c', '/', 'e']]) rfl
  obtain ⟨h, ht⟩ := hr.exists_trace
  exact ⟨h, s, ht, hobs, (listing_explained (by decide) (by decide) ht).1 _ hobs⟩

end LiveListing

end ConfigMonitor
