/-
# Creating a path in a tree that changes

Other clients create, change and delete nodes between any two requests of `create_path` or
`async_create_path`, and the server has errors of its own.  What a call does with an answer
touches nothing but its own data, so that it is taken together with the answer.
-/
import ConfigMonitor.Cppzk.CreateAgree
import ConfigMonitor.Cppzk.CreatePath
import ConfigMonitor.Cppzk.Listing

namespace ConfigMonitor

open Ancestry Run

namespace LiveCreate

open Operations CreateAgree
open CreatePath (Waiting Progress zooAcreate2Ttl)
open Listing (Version ranked_length)

/-! ## The call -/

/-- What `create_path` or `async_create_path` is called with. -/
structure Call where
  path : Path
  value : Data
  mode : CreateMode
  ttl : ℤ
deriving DecidableEq, Repr

/-- A call gets its answer: `create_path` reads the name from its buffer. -/
def Call.resume (c : Call) (a : Answer) : Waiting → Progress
  | .loop rest =>
      if a.rc ≠ .zok ∧ a.rc ≠ .znodeexists then .returned (.created a.rc [])
      else CreatePath.createLoop c.path c.value c.mode c.ttl rest
  | .last => .returned (.created a.rc (cString (nameBuffer (c.path.length + 16) a)))
  | .completion pending =>
      match pending.complete a with
      | .done result => .returned result
      | .request call pending => zooAcreate2Ttl call pending

/-- The first request, or nothing if the call throws. -/
def Call.start (c : Call) : Version → Option Progress
  | .sync => CreatePath.createPath c.path c.value c.mode c.ttl
  | .async => CreatePath.asyncCreatePath c.path c.value c.mode c.ttl

/-! ## The system -/

/-- The server and how far the call is, with the nodes that the call has made, oldest first, each
with the server that this has left, and the number of its requests that have been answered. -/
structure State where
  server : Server
  progress : Progress
  made : List (Path × Server)
  served : ℕ

/-- The server handles the request of the call, unless it has an error of its own; another client
makes a node, changes one or deletes one. -/
inductive Action
  | serve (failure : Option Refusal)
  | create (q : Path) (v : Data) (mode : CreateMode) (ttl : ℤ)
  | set (q : Path) (v : Str)
  | delete (q : Path)

/-- The server has an error of its own. -/
def Action.fails : Action → Bool
  | .serve (some _) => true
  | _ => false

namespace State

/-- The call is made. -/
def init (server : Server) (progress : Progress) : State :=
  { server := server, progress := progress, made := [], served := 0 }

/-- The server handles the request of the call, which goes on with the answer. -/
def serve (c : Call) (s : State) (failure : Option Refusal) : Option State :=
  match s.progress with
  | .sent (.acreate2Ttl q v mode ttl) waiting =>
      let r := s.server.create (fun _ _ => failure) q v mode ttl
      some
        { server := r.1
          progress := c.resume r.2 waiting
          made := if r.2.rc = .zok then s.made ++ [(r.2.str.getD [], r.1)] else s.made
          served := s.served + 1 }
  | _ => none

/-- One step. -/
def step (c : Call) (s : State) : Action → Option State
  | .serve failure => s.serve c failure
  | .create q v mode ttl =>
      some { s with server := (s.server.create (fun _ _ => none) q v mode ttl).1 }
  | .set q v => some { s with server := (s.server.set (fun _ _ => none) q v).1 }
  | .delete q => some { s with server := (s.server.delete (fun _ _ => none) q).1 }

end State

/-! ## What a call does -/

/-- An ancestor of the target: a persistent node without data. -/
structure IsAncestor (c : Call) (d : Path × Server) : Prop where
  above : Above parentPath c.path d.1
  ne : d.1 ≠ c.path
  get : d.2.tree.get d.1 = some none
  mode : d.2.mode d.1 = .persistent

/-- The target: a node that was not there at a moment of the call, with the value and the mode of
the call, under the name that it had then. -/
structure IsTarget (c : Call) (h : List State) (d : Path × Server) : Prop where
  new : ∃ u ∈ h, d.1 = u.server.actualName c.path c.mode ∧ d.1 ∉ u.server.tree.paths
  get : d.2.tree.get d.1 = some c.value
  mode : d.2.mode d.1 = c.mode

/-- The node has been there at some moment. -/
def Seen (h : List State) (a : Path) : Prop := ∃ u ∈ h, a ∈ u.server.tree.paths

/-- The node has been there at some moment and was missing later. -/
def Lost (h : List State) (a : Path) : Prop :=
  ∃ before after, h = before ++ after ∧ Seen before a ∧ ∃ u ∈ after, a ∉ u.server.tree.paths

/-- An error that the nodes explain: the target was there, or an ancestor of it has been lost or
was there and ephemeral. -/
inductive Explains (c : Call) (h : List State) : ZooError → Prop
  | there {u : State} (mem : u ∈ h)
      (old : u.server.actualName c.path c.mode ∈ u.server.tree.paths) : Explains c h .znodeexists
  | lost {a : Path} (above : Above parentPath (parentPath c.path) a) (lost : Lost h a) :
      Explains c h .znonode
  | ephemeral {u : State} {a : Path} (mem : u ∈ h)
      (above : Above parentPath (parentPath c.path) a) (there : a ∈ u.server.tree.paths)
      (mode : (u.server.mode a).isEphemeral = true) :
      Explains c h .znochildrenforephemerals

/-! ## The invariant -/

/-- The way down from `q` to the target, on which no node is its own parent and the ancestors are
valid. -/
structure Way (path q : Path) (rest : List Path) : Prop extends CreatePath.Way path q rest where
  strict : (q :: rest).IsChain fun a b => b ≠ a
  valid : ∀ a ∈ (q :: rest).dropLast, isValidPath a false = true

/-- What the call has still to create after `q`. -/
def Call.Waits (c : Call) : Waiting → Path → List Path → Prop :=
  CreatePath.Waits c.path c.value c.mode c.ttl

/-- The request for `q`, with what is left after it. -/
def Call.request (c : Call) (q : Path) : List Path → ZooCall
  | [] => .acreate2Ttl q c.value c.mode c.ttl
  | _ :: _ => .acreate2Ttl q none .persistent (-1)

/-- How far a call is: it creates the ancestors downwards and then the target; `excuse` holds of
the errors it may report. -/
inductive Fits (c : Call) (h : List State) (excuse : ZooError → Prop)
    (made : List (Path × Server)) (served : ℕ) : Progress → Prop
  | sent {q : Path} {rest : List Path} {waiting : Waiting} (way : Way c.path q rest)
      (waits : c.Waits waiting q rest) (parent : Seen h (parentPath q))
      (ancestors : ∀ d ∈ made, IsAncestor c d ∧ Above parentPath q d.1 ∧ d.1 ≠ q)
      (count : served + (rest.length + 1) = c.path.count '/') :
      Fits c h excuse made served (.sent (c.request q rest) waiting)
  | created {front : List (Path × Server)} {name : Path} {u : Server}
      (made_eq : made = front ++ [(name, u)]) (ancestors : ∀ d ∈ front, IsAncestor c d)
      (target : IsTarget c h (name, u)) (count : served ≤ c.path.count '/') :
      Fits c h excuse made served (.returned (.created .zok name))
  | failed {rc : ZooError} (ne : rc ≠ .zok) (ancestors : ∀ d ∈ made, IsAncestor c d)
      (why : excuse rc) (count : served ≤ c.path.count '/') :
      Fits c h excuse made served (.returned (.created rc []))

variable {c : Call} {h : List State} {excuse excuse' : ZooError → Prop} {s s' : State}
  {q p a : Path} {rest : List Path} {waiting : Waiting} {failure : Option Refusal}
  {made : List (Path × Server)} {served : ℕ}

/-! ## The past -/

lemma Seen.snoc (ha : Seen h a) (u : State) : Seen (h ++ [u]) a := by
  obtain ⟨w, hw, hmem⟩ := ha
  exact ⟨w, List.mem_append_left _ hw, hmem⟩

lemma seen_last (u : State) (ha : a ∈ u.server.tree.paths) : Seen (h ++ [u]) a :=
  ⟨u, List.mem_append_right _ List.mem_cons_self, ha⟩

lemma Lost.snoc (hl : Lost h a) (u : State) : Lost (h ++ [u]) a := by
  obtain ⟨before, after, rfl, hseen, w, hw, hmem⟩ := hl
  exact ⟨before, after ++ [u], by simp, hseen, w, List.mem_append_left _ hw, hmem⟩

/-- What has been there and is not there now is lost. -/
lemma lost_of_seen (ha : Seen (h ++ [s]) a) (hmem : a ∉ s.server.tree.paths) :
    Lost (h ++ [s]) a := by
  obtain ⟨u, hu, hua⟩ := ha
  rcases List.mem_append.mp hu with hu | hu
  · exact ⟨h, [s], rfl, ⟨u, hu, hua⟩, s, List.mem_cons_self, hmem⟩
  · obtain rfl := List.mem_singleton.mp hu
    exact absurd hua hmem

lemma Explains.snoc {rc : ZooError} (he : Explains c h rc) (u : State) :
    Explains c (h ++ [u]) rc := by
  cases he with
  | there mem old => exact .there (List.mem_append_left _ mem) old
  | lost above lost => exact .lost above (lost.snoc u)
  | ephemeral mem above there mode =>
      exact .ephemeral (List.mem_append_left _ mem) above there mode

lemma IsTarget.snoc {d : Path × Server} (ht : IsTarget c h d) (u : State) :
    IsTarget c (h ++ [u]) d := by
  obtain ⟨⟨w, hw, hname, hmem⟩, hget, hmode⟩ := ht
  exact ⟨⟨w, List.mem_append_left _ hw, hname, hmem⟩, hget, hmode⟩

/-- The call is as far as it was. -/
lemma Fits.snoc {progress : Progress} (hf : Fits c h excuse made served progress) (u : State)
    (hmono : ∀ rc, excuse rc → excuse' rc) : Fits c (h ++ [u]) excuse' made served progress := by
  cases hf with
  | sent way waits parent ancestors count =>
      exact .sent way waits (parent.snoc u) ancestors count
  | created made_eq ancestors target count =>
      exact .created made_eq ancestors (target.snoc u) count
  | failed ne ancestors why count => exact .failed ne ancestors (hmono _ why) count

/-! ## The way down -/

lemma Way.next (hw : Way c.path q (p :: rest)) : Way c.path p rest where
  ladder := (List.isChain_cons_cons.mp hw.ladder).2
  last := by rw [← hw.last, List.getLast?_cons_cons]
  strict := (List.isChain_cons_cons.mp hw.strict).2
  valid a ha := hw.valid a (by
    rw [List.dropLast_cons_of_ne_nil (List.cons_ne_nil _ _)]
    exact List.mem_cons_of_mem _ ha)

lemma Way.parent_next (hw : Way c.path q (p :: rest)) : parentPath p = q ∧ p ≠ q :=
  ⟨(List.isChain_cons_cons.mp hw.ladder).1, (List.isChain_cons_cons.mp hw.strict).1⟩

lemma Way.eq_of_nil (hw : Way c.path q []) : q = c.path := by
  simpa using hw.last

lemma Way.valid_head (hw : Way c.path q (p :: rest)) : isValidPath q false = true :=
  hw.valid q List.mem_cons_self

/-- The way leads down to the target. -/
lemma Way.above (hw : Way c.path q rest) : Above parentPath c.path q :=
  hw.toWay.above List.mem_cons_self

/-- A node above `q`, but not `q`, is not the next one. -/
lemma Way.ne_next (hw : Way c.path q (p :: rest)) (ha : Above parentPath q a) : a ≠ p := by
  obtain ⟨hpar, hne⟩ := hw.parent_next
  have hlt := ranked_length.child hpar hne
  have hle := ha.rank_le ranked_length
  rintro rfl
  omega

/-- An ancestor on the way is not the target. -/
lemma Way.ne_path (hw : Way c.path q (p :: rest)) : q ≠ c.path := by
  obtain ⟨hpar, hne⟩ := hw.parent_next
  have hlt := ranked_length.child hpar hne
  have hle := hw.next.above.rank_le ranked_length
  rintro rfl
  omega

lemma request_of_ne_nil (hr : rest ≠ []) :
    c.request q rest = .acreate2Ttl q none .persistent (-1) := by
  cases rest with
  | nil => exact absurd rfl hr
  | cons p rest => rfl

/-- The library sends the requests of the call. -/
lemma Way.accepts (hw : Way c.path q rest)
    (hacc : usableHandle.accepts (.acreate2Ttl c.path c.value c.mode c.ttl) = true) :
    usableHandle.accepts (c.request q rest) = true := by
  cases rest with
  | nil =>
      rw [hw.eq_of_nil]
      exact hacc
  | cons p rest =>
      rw [request_of_ne_nil (List.cons_ne_nil _ _), CreatePath.accepts_create]
      exact hw.valid_head

/-- The call waits for the answer to the request for `q`. -/
def Sent (c : Call) (q : Path) (rest : List Path) (progress : Progress) : Prop :=
  ∃ waiting, progress = .sent (c.request q rest) waiting ∧ c.Waits waiting q rest

lemma Way.sent_createLoop {l : List Path} (hw : Way c.path q rest) (hl : l ++ [c.path] = q :: rest)
    (hacc : usableHandle.accepts (.acreate2Ttl c.path c.value c.mode c.ttl) = true) :
    Sent c q rest (CreatePath.createLoop c.path c.value c.mode c.ttl l) := by
  have hsend := hw.accepts hacc
  cases l with
  | nil =>
      obtain ⟨rfl, rfl⟩ := List.cons.inj hl
      rw [CreatePath.createLoop, CreatePath.zooCreate2Ttl, if_pos hacc]
      exact ⟨_, rfl, .last⟩
  | cons p l =>
      rw [List.cons_append] at hl
      obtain ⟨rfl, rfl⟩ := List.cons.inj hl
      have hne : l ++ [c.path] ≠ [] := by simp
      rw [request_of_ne_nil hne] at hsend
      rw [CreatePath.createLoop, CreatePath.zooCreate2Ttl, if_pos hsend]
      exact ⟨_, by rw [request_of_ne_nil hne], .loop p l⟩

/-- An ancestor that is made or there already: the call goes on with the next node. -/
lemma Call.Waits.goes_on {a : Answer} (hwait : c.Waits waiting q (p :: rest))
    (hw : Way c.path q (p :: rest))
    (hacc : usableHandle.accepts (.acreate2Ttl c.path c.value c.mode c.ttl) = true)
    (hrc : a.rc = .zok ∨ a.rc = .znodeexists) : Sent c p rest (c.resume a waiting) := by
  have hno : ¬ (a.rc ≠ .zok ∧ a.rc ≠ .znodeexists) := fun hne => hrc.elim hne.1 hne.2
  have hsend := hw.next.accepts hacc
  generalize hl : p :: rest = l at hwait
  cases hwait with
  | loop q l =>
      rw [Call.resume, if_neg hno]
      exact hw.next.sent_createLoop hl.symm hacc
  | last => simp at hl
  | create => simp at hl
  | createChain q l =>
      subst hl
      rw [Call.resume, Pending.complete, createCompletion, if_neg hno, List.tail_cons]
      cases rest with
      | nil =>
          obtain rfl := hw.next.eq_of_nil
          exact ⟨_, if_pos hsend, .createChain c.path []⟩
      | cons p' rest => exact ⟨_, if_pos hsend, .createChain p (p' :: rest)⟩

/-- An ancestor that is refused: the call returns the error. -/
lemma Call.Waits.stops {rc : ZooError} (hwait : c.Waits waiting q (p :: rest))
    (hrc : rc ≠ .zok ∧ rc ≠ .znodeexists) :
    c.resume { rc := rc } waiting = .returned (.created rc []) := by
  generalize hl : p :: rest = l at hwait
  cases hwait with
  | loop q l => exact if_pos hrc
  | last => simp at hl
  | create => simp at hl
  | createChain q l =>
      rw [Call.resume, Pending.complete, createCompletion, if_pos hrc]
      rfl

/-- The last answer is reported, with the name if there is one. -/
lemma Call.Waits.reports {a : Answer} (hwait : c.Waits waiting q [])
    (hname : cString (nameBuffer (c.path.length + 16) a) = a.str.getD []) :
    c.resume a waiting = .returned (.created a.rc (a.str.getD [])) := by
  generalize hl : ([] : List Path) = l at hwait
  cases hwait with
  | loop q l => simp at hl
  | last => rw [Call.resume, hname]
  | create => rfl
  | createChain q l =>
      subst hl
      rw [Call.resume, Pending.complete, createCompletion_last]

/-- An answer without a name. -/
lemma Call.Waits.reports_error (hwait : c.Waits waiting q []) (rc : ZooError) :
    c.resume { rc := rc } waiting = .returned (.created rc []) :=
  hwait.reports (a := { rc := rc }) (cString_zeros _)

/-! ## The server -/

/-- A refusal is a failure of the server's own, or the parent explains it. -/
lemma refusal_cases {u : Server} {v : Data} {mode : CreateMode} {ttl : ℤ} {rc : Refusal}
    (hvalid : isValidPath q mode.isSequence = true)
    (hr : u.refusal (fun _ _ => failure) q v mode ttl = some rc) :
    failure = some rc ∨ rc.1 = .znonode ∧ parentPath q ∉ u.tree.paths ∨
      rc.1 = .znochildrenforephemerals ∧ parentPath q ∈ u.tree.paths ∧
        (u.mode (parentPath q)).isEphemeral = true := by
  rw [Server.refusal] at hr
  cases failure with
  | some rc' => exact Or.inl hr
  | none =>
      have hname := Server.isValidPath_actualName (s := u) hvalid
      simp only [hname, Bool.true_eq_false, if_false] at hr
      split_ifs at hr with hpar hmem heph
      · obtain rfl := Option.some.inj hr
        exact Or.inr (Or.inr ⟨rfl, hpar, heph⟩)
      · obtain rfl := Option.some.inj hr
        exact Or.inr (Or.inl ⟨rfl, hpar⟩)

/-- The parent explains a refusal that is not a failure of the server's own. -/
lemma explains_of_refusal {v : Data} {mode : CreateMode} {ttl : ℤ} {rc : Refusal}
    (hvalid : isValidPath q mode.isSequence = true) (habove : Above parentPath c.path q)
    (hseen : Seen (h ++ [s]) (parentPath q))
    (hr : s.server.refusal (fun _ _ => failure) q v mode ttl = some rc) :
    failure = some rc ∨ Explains c (h ++ [s]) rc := by
  have hpar : Above parentPath (parentPath c.path) (parentPath q) := habove.parents
  rcases refusal_cases hvalid hr with hfail | ⟨hrc, hmem⟩ | ⟨hrc, hmem, hmode⟩
  · exact Or.inl hfail
  · rw [hrc]
    exact Or.inr (.lost hpar (lost_of_seen hseen hmem))
  · rw [hrc]
    exact Or.inr (.ephemeral (List.mem_append_right _ List.mem_cons_self) hpar hmem hmode)

/-- A node that has been made is there, with its value and its mode. -/
lemma put_self {u : Server} {v : Data} {mode : CreateMode} {ttl : ℤ} {policy : Policy}
    (hvalid : isValidPath q mode.isSequence = true)
    (hr : u.refusal policy q v mode ttl = none)
    (hnew : u.actualName q mode ∉ u.tree.paths) :
    (u.put (u.actualName q mode) v mode).tree.get (u.actualName q mode) = some v ∧
      (u.put (u.actualName q mode) v mode).mode (u.actualName q mode) = mode :=
  ⟨by rw [Server.get_put hvalid hr hnew, if_pos rfl], if_pos rfl⟩

lemma actualName_persistent (u : Server) (q : Path) : u.actualName q .persistent = q := rfl

/-! ## The steps -/

/-- The nodes made before are above the name of the target. -/
lemma above_actualName {u : Server} {mode : CreateMode}
    (hvalid : isValidPath q mode.isSequence = true) (ha : Above parentPath q a) (hne : a ≠ q) :
    Above parentPath (u.actualName q mode) a ∧ a ≠ u.actualName q mode := by
  have hpar : Above parentPath (parentPath q) a := (above_iff.mp ha).resolve_left hne
  have hname := Server.parentPath_actualName (s := u) hvalid
  refine ⟨above_iff.mpr (Or.inr (hname ▸ hpar)), ?_⟩
  by_cases hseq : mode.isSequence = true
  · have hlen := (length_sequenceSuffix (u.cversion (parentPath q))).1
    have hle := ha.rank_le ranked_length
    rintro rfl
    rw [Server.actualName, if_pos hseq, List.length_append] at hle
    omega
  · rwa [Server.actualName, if_neg hseq]

/-- What a request of the call does: nothing, or it makes one node. -/
structure Serves (c : Call) (s s' : State) : Prop where
  served : s'.served = s.served + 1
  kept : Keeps s.server s'.server
  made : s'.made = s.made ∨ ∃ d, s'.made = s.made ++ [d] ∧ d.2 = s'.server ∧
    ∀ a ∈ s.made.map Prod.fst, Above parentPath d.1 a ∧ a ≠ d.1

/-- The request for an ancestor is answered. -/
lemma serve_ancestor {waiting : Waiting}
    (hacc : usableHandle.accepts (.acreate2Ttl c.path c.value c.mode c.ttl) = true)
    (hprogress : s.progress = .sent (c.request q (p :: rest)) waiting)
    (hw : Way c.path q (p :: rest)) (hwait : c.Waits waiting q (p :: rest))
    (hparent : Seen (h ++ [s]) (parentPath q))
    (hmade : ∀ d ∈ s.made, IsAncestor c d ∧ Above parentPath q d.1 ∧ d.1 ≠ q)
    (hcount : s.served + ((p :: rest).length + 1) = c.path.count '/')
    (hexcuse : ∀ rc : ZooError, (∃ f, failure = some f ∧ f.1 = rc) ∨ Explains c (h ++ [s]) rc →
      excuse rc)
    (hs : s.serve c failure = some s') :
    Serves c s s' ∧ Fits c (h ++ [s] ++ [s']) excuse s'.made s'.served s'.progress := by
  have hvalid : isValidPath q CreateMode.persistent.isSequence = true := hw.valid_head
  obtain ⟨hpar, hne⟩ := hw.parent_next
  rw [List.length_cons] at hcount
  have habove : ∀ d ∈ s.made, Above parentPath p d.1 ∧ d.1 ≠ p := by
    intro d hd
    obtain ⟨-, hdq, -⟩ := hmade d hd
    exact ⟨(show Above parentPath p q from ⟨1, hpar⟩).trans hdq, hw.ne_next hdq⟩
  rw [State.serve, hprogress, request_of_ne_nil (List.cons_ne_nil _ _)] at hs
  obtain rfl := Option.some.inj hs
  cases hr : s.server.refusal (fun _ _ => failure) q none .persistent (-1) with
  | some rc =>
      simp only [Server.create_of_refusal hr, if_neg rc.2.1, hwait.stops rc.2]
      refine ⟨⟨rfl, fun _ _ ha => ⟨ha, rfl⟩, Or.inl rfl⟩, ?_⟩
      refine .failed rc.2.1 (fun d hd => (hmade d hd).1) (hexcuse rc ?_) (by omega)
      exact (explains_of_refusal hvalid hw.above hparent hr).imp_left fun hf => ⟨rc, hf, rfl⟩
  | none =>
      by_cases hmem : q ∈ s.server.tree.paths
      · -- the ancestor is there already
        simp only [Server.create_of_mem hr hmem]
        obtain ⟨waiting', hsent, hwait'⟩ := hwait.goes_on
          (a := { rc := .znodeexists }) hw hacc (Or.inr rfl)
        refine ⟨⟨rfl, fun _ _ ha => ⟨ha, rfl⟩, Or.inl rfl⟩, ?_⟩
        rw [hsent]
        refine .sent hw.next hwait' ?_ (fun d hd => ⟨(hmade d hd).1, habove d hd⟩) (by omega)
        rw [hpar]
        exact seen_last _ hmem
      · -- the ancestor is made
        simp only [Server.create_of_not_mem hr hmem, if_true, Option.getD_some]
        obtain ⟨waiting', hsent, hwait'⟩ := hwait.goes_on
          (a := { rc := .zok, str := some q }) hw hacc (Or.inl rfl)
        obtain ⟨hget, hmode⟩ := put_self hvalid hr hmem
        refine ⟨⟨rfl, keeps_put hvalid hr hmem none, Or.inr ⟨_, rfl, rfl, ?_⟩⟩, ?_⟩
        · intro a ha
          obtain ⟨d, hd, rfl⟩ := List.mem_map.mp ha
          exact (hmade d hd).2
        · rw [actualName_persistent] at *
          rw [hsent]
          refine .sent hw.next hwait' ?_ ?_ (by omega)
          · rw [hpar]
            exact seen_last _ (Tree.get_isSome_iff.mp (Option.isSome_of_eq_some hget))
          · rintro d hd
            rcases List.mem_append.mp hd with hd | hd
            · exact ⟨(hmade d hd).1, habove d hd⟩
            · obtain rfl := List.mem_singleton.mp hd
              exact ⟨⟨hw.above, hw.ne_path, hget, hmode⟩, ⟨1, hpar⟩, hne.symm⟩

/-- The request for the target is answered. -/
lemma serve_target {waiting : Waiting} (hvalid : isValidPath c.path c.mode.isSequence = true)
    (hprogress : s.progress = .sent (c.request c.path []) waiting)
    (hwait : c.Waits waiting c.path []) (hparent : Seen (h ++ [s]) (parentPath c.path))
    (hmade : ∀ d ∈ s.made, IsAncestor c d ∧ Above parentPath c.path d.1 ∧ d.1 ≠ c.path)
    (hcount : s.served + 1 = c.path.count '/')
    (hexcuse : ∀ rc : ZooError, (∃ f, failure = some f ∧ f.1 = rc) ∨ Explains c (h ++ [s]) rc →
      excuse rc)
    (hs : s.serve c failure = some s') :
    Serves c s s' ∧ Fits c (h ++ [s] ++ [s']) excuse s'.made s'.served s'.progress := by
  have hanc : ∀ d ∈ s.made, IsAncestor c d := fun d hd => (hmade d hd).1
  rw [State.serve, hprogress, Call.request] at hs
  obtain rfl := Option.some.inj hs
  cases hr : s.server.refusal (fun _ _ => failure) c.path c.value c.mode c.ttl with
  | some rc =>
      simp only [Server.create_of_refusal hr, if_neg rc.2.1, hwait.reports_error]
      refine ⟨⟨rfl, fun _ _ ha => ⟨ha, rfl⟩, Or.inl rfl⟩, ?_⟩
      refine .failed rc.2.1 hanc (hexcuse rc ?_) hcount.le
      exact (explains_of_refusal hvalid .refl hparent hr).imp_left fun hf => ⟨rc, hf, rfl⟩
  | none =>
      by_cases hmem : s.server.actualName c.path c.mode ∈ s.server.tree.paths
      · -- the target is there already
        simp only [Server.create_of_mem hr hmem, hwait.reports_error]
        refine ⟨⟨rfl, fun _ _ ha => ⟨ha, rfl⟩, Or.inl rfl⟩, ?_⟩
        refine .failed (by simp) hanc (hexcuse _ (Or.inr ?_)) hcount.le
        exact .there (List.mem_append_right _ List.mem_cons_self) hmem
      · -- the target is made
        have hname : cString (nameBuffer (c.path.length + 16)
            { rc := .zok, str := some (s.server.actualName c.path c.mode) }) =
              s.server.actualName c.path c.mode :=
          cString_nameBuffer rfl (length_actualName _ _ _)
            (nul_not_mem_of_isValidPath (Server.isValidPath_actualName hvalid))
        have hreport := hwait.reports
          (a := { rc := .zok, str := some (s.server.actualName c.path c.mode) }) hname
        obtain ⟨hget, hmode⟩ := put_self hvalid hr hmem
        simp only [Server.create_of_not_mem hr hmem, hreport, if_true, Option.getD_some]
        refine ⟨⟨rfl, keeps_put hvalid hr hmem c.value, Or.inr ⟨_, rfl, rfl, ?_⟩⟩, ?_⟩
        · intro a ha
          obtain ⟨d, hd, rfl⟩ := List.mem_map.mp ha
          obtain ⟨-, habove, hne⟩ := hmade d hd
          exact above_actualName hvalid habove hne
        · refine .created rfl hanc ⟨⟨s, ?_, rfl, hmem⟩, hget, hmode⟩ hcount.le
          exact List.mem_append_left _ (List.mem_append_right _ List.mem_cons_self)

/-! ## The start -/

lemma parentPath_ne_of_slash (hq : '/' ∈ q) (hroot : q ≠ root) : parentPath q ≠ q := by
  obtain ⟨b, name, rfl, hname, -⟩ := exists_cut hq
  rw [parentPath_cut hname]
  split_ifs with hb
  · exact hroot.symm
  · exact (subPath_ne_self b name).symm

/-- The parts of the path of the call are a way down to it. -/
lemma exists_way (hvalid : isValidPath c.path c.mode.isSequence = true) :
    ∃ l q rest, splitPath c.path = some (l ++ [c.path]) ∧ l ++ [c.path] = q :: rest ∧
      Way c.path q rest ∧ parentPath q = root ∧ rest.length + 1 = c.path.count '/' := by
  obtain ⟨l, hsplit, hanc⟩ := splitPath_of_isValidPath hvalid
  obtain ⟨q, rest, hl⟩ : ∃ q rest, l ++ [c.path] = q :: rest :=
    List.exists_cons_of_ne_nil (by simp)
  have hladder := hanc.ladder
  rw [hl] at hladder
  obtain ⟨hroot, hladder⟩ := List.isChain_cons_cons.mp hladder
  obtain ⟨r, hr⟩ := isValidPath_head hvalid
  have hcount : c.path.count '/' ≠ 0 := by
    rw [hr, List.count_cons_self]
    omega
  obtain ⟨parts, l', -, hsplit', -, hlen, -⟩ := (splitPath_parts c.path).2 hcount
  rw [hsplit, Option.some.injEq] at hsplit'
  rw [← hsplit', hl, List.length_cons] at hlen
  have hdrop : (q :: rest).dropLast = l := by rw [← hl, List.dropLast_concat]
  -- what comes after the first part is not the root
  have hstrict : ∀ a ∈ rest, parentPath a ≠ a := by
    intro a ha
    have hmem : a ∈ l ++ [c.path] := hl ▸ List.mem_cons_of_mem _ ha
    rcases List.mem_append.mp hmem with hal | hac
    · obtain ⟨r', hr'⟩ := isValidPath_head (hanc.valid hvalid a hal)
      refine parentPath_ne_of_slash (by simp [hr']) ?_
      rintro rfl
      exact hanc.below_root hal
    · obtain rfl := List.mem_singleton.mp hac
      refine parentPath_ne_of_slash (by simp [hr]) ?_
      intro heq
      rw [heq] at hlen
      have hone : rest.length + 1 = 1 := hlen
      rw [List.length_eq_zero_iff.mp (Nat.succ.inj hone)] at ha
      simp at ha
  refine ⟨l, q, rest, hsplit, hl, ⟨⟨hladder, ?_⟩, ?_, ?_⟩, hroot, hlen⟩
  · rw [← hl, List.getLast?_concat]
  · refine hladder.imp_of_mem_tail_imp fun a b _ hb hpar => ?_
    rw [← hpar]
    exact (hstrict b hb).symm
  · rw [hdrop]
    exact hanc.valid hvalid

/-- The call sends its first request. -/
lemma sent_start {v : Version} {progress : Progress} {l : List Path}
    (hacc : usableHandle.accepts (.acreate2Ttl c.path c.value c.mode c.ttl) = true)
    (hsplit : splitPath c.path = some (l ++ [c.path])) (hl : l ++ [c.path] = q :: rest)
    (hw : Way c.path q rest) (hstart : c.start v = some progress) : Sent c q rest progress := by
  cases v with
  | sync =>
      rw [Call.start, CreatePath.createPath, hsplit, Option.map_some,
        List.dropLast_concat] at hstart
      split_ifs at hstart
      obtain rfl := Option.some.inj hstart
      exact hw.sent_createLoop hl hacc
  | async =>
      have hsend := hw.accepts hacc
      rw [Call.start, CreatePath.asyncCreatePath, Operations.asyncCreatePath, hsplit] at hstart
      split_ifs at hstart with hthrows
      · simp at hstart
      rw [hl] at hstart
      cases rest with
      | nil =>
          obtain rfl := hw.eq_of_nil
          obtain rfl := Option.some.inj hstart
          exact ⟨_, if_pos hsend, .create⟩
      | cons p rest =>
          obtain rfl := Option.some.inj hstart
          exact ⟨_, if_pos hsend, .createChain q (p :: rest)⟩

/-! ## Runs -/

/-- The invariant: how far the call is, and the order of the nodes it has made. -/
structure Inv (c : Call) (h : List State) (excuse : ZooError → Prop) (s : State) : Prop where
  fits : Fits c h excuse s.made s.served s.progress
  order : (s.made.map Prod.fst).Pairwise fun a b => Above parentPath b a ∧ a ≠ b

lemma Serves.order (hs : Serves c s s')
    (ho : (s.made.map Prod.fst).Pairwise fun a b => Above parentPath b a ∧ a ≠ b) :
    (s'.made.map Prod.fst).Pairwise fun a b => Above parentPath b a ∧ a ≠ b := by
  rcases hs.made with hmade | ⟨d, hmade, -, habove⟩
  · rwa [hmade]
  · rw [hmade, List.map_append, List.map_singleton, List.pairwise_append]
    refine ⟨ho, List.pairwise_singleton .., fun a ha b hb => ?_⟩
    obtain rfl := List.mem_singleton.mp hb
    exact habove a ha

/-- A request of the call is answered. -/
lemma Inv.serve (hi : Inv c (h ++ [s]) excuse s)
    (hacc : usableHandle.accepts (.acreate2Ttl c.path c.value c.mode c.ttl) = true)
    (hexcuse : ∀ rc : ZooError, (∃ f, failure = some f ∧ f.1 = rc) ∨ Explains c (h ++ [s]) rc →
      excuse' rc)
    (hs : s.serve c failure = some s') : Serves c s s' ∧ Inv c (h ++ [s] ++ [s']) excuse' s' := by
  have hvalid : isValidPath c.path c.mode.isSequence = true := by
    simp only [Handle.accepts, Bool.and_eq_true] at hacc
    exact hacc.1.2
  have hfits := hi.fits
  generalize hprogress : s.progress = progress at hfits
  cases hfits with
  | @sent q rest waiting way waits parent ancestors count =>
      have hstep : Serves c s s' ∧
          Fits c (h ++ [s] ++ [s']) excuse' s'.made s'.served s'.progress := by
        cases rest with
        | nil =>
            obtain rfl := way.eq_of_nil
            exact serve_target hvalid hprogress waits parent ancestors count hexcuse hs
        | cons p rest =>
            exact serve_ancestor hacc hprogress way waits parent ancestors count hexcuse hs
      exact ⟨hstep.1, hstep.2, hstep.1.order hi.order⟩
  | created => simp [State.serve, hprogress] at hs
  | failed => simp [State.serve, hprogress] at hs

lemma inv_init {v : Version} {progress : Progress} (server : Server)
    (hacc : usableHandle.accepts (.acreate2Ttl c.path c.value c.mode c.ttl) = true)
    (hstart : c.start v = some progress) :
    Inv c [State.init server progress] excuse (State.init server progress) := by
  have hvalid : isValidPath c.path c.mode.isSequence = true := by
    simp only [Handle.accepts, Bool.and_eq_true] at hacc
    exact hacc.1.2
  obtain ⟨l, q, rest, hsplit, hl, hw, hroot, hlen⟩ := exists_way hvalid
  obtain ⟨waiting, rfl, hwait⟩ := sent_start hacc hsplit hl hw hstart
  refine ⟨.sent hw hwait ?_ (fun d hd => absurd hd List.not_mem_nil) ?_, List.Pairwise.nil⟩
  · rw [hroot]
    exact ⟨_, List.mem_cons_self, server.tree.root_mem⟩
  · rw [State.init, Nat.zero_add, hlen]

/-- Every moment of a run: the errors reported are failures of the server, or the nodes explain
them. -/
lemma inv_of_trace {ok : State → Action → Prop} {F : ZooError → Prop} {v : Version}
    {progress : Progress} {server : Server}
    (hacc : usableHandle.accepts (.acreate2Ttl c.path c.value c.mode c.ttl) = true)
    (hstart : c.start v = some progress)
    (hF : ∀ s rc, ok s (.serve (some rc)) → F rc.1)
    (ht : Trace (State.step c) ok (State.init server progress) h s) :
    (∃ past, h = past ++ [s]) ∧ Inv c h (fun rc => F rc ∨ Explains c h rc) s := by
  induction ht with
  | init => exact ⟨⟨[], rfl⟩, inv_init server hacc hstart⟩
  | @tail h s u a ht hok hs ih =>
      obtain ⟨⟨past, rfl⟩, hi⟩ := ih
      refine ⟨⟨_, rfl⟩, ?_⟩
      have hmono : ∀ rc, F rc ∨ Explains c (past ++ [s]) rc →
          F rc ∨ Explains c (past ++ [s] ++ [u]) rc := fun rc he => he.imp_right (·.snoc u)
      cases a with
      | serve failure =>
          refine (hi.serve hacc (fun rc he => hmono rc ?_) hs).2
          rcases he with ⟨f, rfl, rfl⟩ | he
          · exact Or.inl (hF s f hok)
          · exact Or.inr he
      | create q v mode ttl =>
          obtain rfl := Option.some.inj hs
          exact ⟨hi.fits.snoc _ hmono, hi.order⟩
      | set q v =>
          obtain rfl := Option.some.inj hs
          exact ⟨hi.fits.snoc _ hmono, hi.order⟩
      | delete q =>
          obtain rfl := Option.some.inj hs
          exact ⟨hi.fits.snoc _ hmono, hi.order⟩

lemma Inv.created (hi : Inv c h excuse s) {name : Str}
    (hret : s.progress = .returned (.created .zok name)) : ∃ front u,
      s.made = front ++ [(name, u)] ∧ (∀ d ∈ front, IsAncestor c d) ∧ IsTarget c h (name, u) := by
  have hfits := hi.fits
  rw [hret] at hfits
  cases hfits with
  | created made_eq ancestors target => exact ⟨_, _, made_eq, ancestors, target⟩
  | failed ne => exact absurd rfl ne

lemma Inv.failed (hi : Inv c h excuse s) {rc : ZooError} {name : Str}
    (hret : s.progress = .returned (.created rc name)) (hne : rc ≠ .zok) :
    name = [] ∧ (∀ d ∈ s.made, IsAncestor c d) ∧ excuse rc := by
  have hfits := hi.fits
  rw [hret] at hfits
  cases hfits with
  | created => exact absurd rfl hne
  | failed ne ancestors why => exact ⟨rfl, ancestors, why⟩

/-- The call has returned, or it waits for the answer to one of its requests. -/
lemma Inv.goes_on (hi : Inv c h excuse s) : s.served ≤ c.path.count '/' ∧
    ((∃ rc name, s.progress = .returned (.created rc name)) ∨
      s.served < c.path.count '/' ∧ ∀ failure, (s.serve c failure).isSome) := by
  have hfits := hi.fits
  generalize hprogress : s.progress = progress at hfits
  cases hfits with
  | created made_eq ancestors target count => exact ⟨count, Or.inl ⟨_, _, rfl⟩⟩
  | failed ne ancestors why count => exact ⟨count, Or.inl ⟨_, _, rfl⟩⟩
  | @sent q rest waiting way waits parent ancestors count =>
      refine ⟨by omega, Or.inr ⟨by omega, fun failure => ?_⟩⟩
      rw [State.serve, hprogress]
      cases rest <;> rfl

/-- A call that creates a path while others change the tree.  Its requests change and delete no
node that is there.  It makes ancestors of the target from the top down, each once, and the target
last.  If it reports OK with a name, it has made the target under this name; if it reports an
error it has not, the name is empty, and when the server has no errors of its own the nodes
explain it.  Until it returns a request is in flight, at most one for each part of the path. -/
theorem create_explained {ok : State → Action → Prop} {v : Version} {progress : Progress}
    {server : Server}
    (hacc : usableHandle.accepts (.acreate2Ttl c.path c.value c.mode c.ttl) = true)
    (hstart : c.start v = some progress)
    (ht : Trace (State.step c) ok (State.init server progress) h s) :
    (∀ failure s', s.serve c failure = some s' → Serves c s s') ∧
    ((s.made.map Prod.fst).Pairwise fun a b => Above parentPath b a ∧ a ≠ b) ∧
    (∀ name, s.progress = .returned (.created .zok name) → ∃ front u,
      s.made = front ++ [(name, u)] ∧ (∀ d ∈ front, IsAncestor c d) ∧ IsTarget c h (name, u)) ∧
    (∀ rc name, s.progress = .returned (.created rc name) → rc ≠ .zok →
      name = [] ∧ (∀ d ∈ s.made, IsAncestor c d) ∧
        ((∀ s rc, ¬ ok s (.serve (some rc))) → Explains c h rc)) ∧
    s.served ≤ c.path.count '/' ∧
    ((∃ rc name, s.progress = .returned (.created rc name)) ∨
      s.served < c.path.count '/' ∧ ∀ failure, (s.serve c failure).isSome) := by
  obtain ⟨⟨past, hpast⟩, hi⟩ := inv_of_trace (F := fun _ => True) hacc hstart
    (fun _ _ _ => trivial) ht
  refine ⟨fun failure s' hs => ?_, hi.order, fun _ hret => hi.created hret,
    fun rc name hret hne => ?_, hi.goes_on⟩
  · subst hpast
    exact (hi.serve hacc (fun _ he => he) hs).1
  · obtain ⟨hname, hmade, -⟩ := hi.failed hret hne
    refine ⟨hname, hmade, fun hno => ?_⟩
    obtain ⟨-, hi'⟩ := inv_of_trace (F := fun _ => False) hacc hstart
      (fun s rc hok => hno s rc hok) ht
    exact (hi'.failed hret hne).2.2.resolve_left id

/-- `/p/c` is created; another client deletes `/p` when it has been made. -/
theorem create_explained_lost : ∃ (h : List State) (s : State),
    s.progress = .returned (.created .znonode []) ∧
      Explains ⟨['/', 'p', '/', 'c'], none, .persistent, -1⟩ h .znonode := by
  obtain ⟨s, hr, hobs⟩ := exists_reach_of_exec
    (State.step ⟨['/', 'p', '/', 'c'], none, .persistent, -1⟩) (fun _ a => a.fails = false)
    (State.init emptyServer
      (.sent (.acreate2Ttl ['/', 'p'] none .persistent (-1)) (.loop [])))
    [.serve none, .delete ['/', 'p'], .serve none]
    (fun s => s.progress) (.returned (.created .znonode [])) rfl
  obtain ⟨h, ht⟩ := hr.exists_trace
  obtain ⟨-, -, -, hfailed, -⟩ := create_explained (v := .sync) (by decide) rfl ht
  obtain ⟨-, -, hwhy⟩ := hfailed _ _ hobs (by decide)
  exact ⟨h, s, hobs, hwhy fun _ _ => by simp [Action.fails]⟩

end LiveCreate

end ConfigMonitor
