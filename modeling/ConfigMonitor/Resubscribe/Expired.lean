/-
# The recovery from an expired session

When the session has expired, the thread of `detect_expired_session` clears `releaser_` and runs
the handler of `init`: it closes the old handle, which waits for the callbacks that are left,
clears `last_sub_path_`, connects again, takes both record maps and watches every path it has
taken.  The server may answer the first registrations while the later ones are still to be made.
-/
import ConfigMonitor.Resubscribe.Picture
import ConfigMonitor.Monitor.Recorded

namespace ConfigMonitor

namespace Resubscribe

open Run WatchSubPath

/-- How far the recovery is.  In the two loops, the entries that are still to be watched. -/
inductive Phase
  | expired
  | cleared
  | closed
  | forgotten
  | connected
  | rewatching (watchRecord watchSubRecord : UMap Cb)
  | done

/-- The monitor and the server during the recovery; in the first three phases `world` holds what
the old handle has left. -/
structure Recovery where
  world : World
  phase : Phase

namespace Recovery

/-- The session of `w` expires when the client has received the first `received` messages; the
maps have any contents and the tree may be any other.  Every request that is not answered yet
ends with an error; the watches are gone. -/
def expire (w : World) (maps : Records) (received : ℕ) (t : Tree) : Recovery where
  world := {
    tree := t
    armed := []
    inbox := w.inbox.take received ++
      ((World.answered (w.inbox.drop received) ++ w.client.sent).map fun r =>
        Msg.reply { req := r, rc := .zsessionexpired })
    client := { w.client with
      sent := []
      lastSubPath := maps.lastSubPath
      watchRecord := maps.watchRecord
      watchSubRecord := maps.watchSubRecord } }
  phase := .expired

/-- The steps: a callback of the old handle, the steps of the thread, and those of the new
session. -/
inductive Action
  | callback
  | clearReleaser
  | clearResource
  | clearLastSubPath
  | connectServer
  | takeRecords
  | rewatch (type : WatchType) (path : Path)
  | finish
  | serve
  | deliver
deriving DecidableEq, Repr

/-- A callback of the old handle runs; the handle refuses every request it makes.  A userdata
that has been destroyed is taken to be found as it was. -/
def callback (s : Recovery) : Option Recovery :=
  s.world.deliver.map fun w =>
    { s with world := { w with client := { w.client with sent := [] } } }

/-- The handler watches one of the paths it has taken; the paths with sub-path watches come
last, in the order of the map otherwise, which is not specified. -/
def rewatch (s : Recovery) (type : WatchType) (path : Path) : Option Recovery :=
  match s.phase with
  | .rewatching watchRecord watchSubRecord =>
      match type with
      | .watchPath =>
          (watchRecord.lookup path).map fun cb =>
            { world := { s.world with client := s.world.client.watchPath path cb }
              phase := .rewatching (watchRecord.erase path) watchSubRecord }
      | .watchSubPath =>
          if watchRecord.keys = [] then
            (watchSubRecord.lookup path).map fun cb =>
              { world := { s.world with client := s.world.client.watchSubPath path cb }
                phase := .rewatching watchRecord (watchSubRecord.erase path) }
          else none
  | _ => none

/-- One step. -/
def step (s : Recovery) : Action → Option Recovery
  | .callback =>
      match s.phase with
      | .expired | .cleared => s.callback
      | _ => none
  | .clearReleaser =>
      match s.phase with
      | .expired => some {
          world := { s.world with client := { s.world.client with releaser := [] } }
          phase := .cleared }
      | _ => none
  | .clearResource =>
      match s.phase with
      -- `zookeeper_close` returns when the callbacks have finished
      | .cleared => if s.world.inbox = [] then some { s with phase := .closed } else none
      | _ => none
  | .clearLastSubPath =>
      match s.phase with
      | .closed => some {
          world := { s.world with client := { s.world.client with lastSubPath := ∅ } }
          phase := .forgotten }
      | _ => none
  | .connectServer =>
      match s.phase with
      | .forgotten => some { s with phase := .connected }
      | _ => none
  | .takeRecords =>
      match s.phase with
      | .connected => some {
          world := { s.world with
            client := { s.world.client with watchRecord := ∅, watchSubRecord := ∅ } }
          phase := .rewatching s.world.client.watchRecord s.world.client.watchSubRecord }
      | _ => none
  | .rewatch type path => s.rewatch type path
  | .finish =>
      match s.phase with
      | .rewatching watchRecord watchSubRecord =>
          if watchRecord.keys = [] ∧ watchSubRecord.keys = [] then
            some { s with phase := .done }
          else none
      | _ => none
  | .serve =>
      match s.phase with
      | .rewatching .. | .done => s.world.serve.map fun w => { s with world := w }
      | _ => none
  | .deliver =>
      match s.phase with
      | .rewatching .. | .done => s.world.deliver.map fun w => { s with world := w }
      | _ => none

/-! ## What the recovery is for -/

/-- The removals whose callbacks are among those the old handle has left. -/
def ended (s : Recovery) : List (WatchType × Path) :=
  s.world.inbox.filterMap s.world.client.ends

/-- The calls that tell every recorded callback the current values. -/
def due (t : Tree) (r : Records) : List Call :=
  (r.watchRecord.entries.flatMap fun e => valueOf t e.2 e.1) ++
    r.watchSubRecord.entries.flatMap fun e => picture t e.2 e.1

/-- The registrations of the recorded callbacks whose paths are valid. -/
def subscriptions (r : Records) : List ExistsCallback :=
  ((r.watchRecord.entries.map fun e => ExistsCallback.watchPath e.2 e.1) ++
    r.watchSubRecord.entries.map fun e => ExistsCallback.watchSubPath e.2 e.1).filter
      fun cb => isValidPath cb.path false

/-- The recovery, connected again in `s₁`, has restored the records `before` by the steps
`acts`: they are recorded, each has been watched once and is armed once if its path is valid,
and each callback has been told the current values once. -/
structure Restores (before : WatchType × Path → Option Cb) (t : Tree) (s₁ : Recovery)
    (acts : List Action) (s : Recovery) : Prop where
  recorded : s.world.client.recorded = before
  once : ∀ type path, acts.count (.rewatch type path) =
    if (before (type, path)).isSome then 1 else 0
  armed : (s.world.armed.filterMap fun a => existsAt s.world.client a.ctx).Perm
    (subscriptions s.world.client.records)
  told : ∃ ks, s.world.client.calls = s₁.world.client.calls ++ ks ∧
    ks.Perm (due t s.world.client.records)

/-- After the recovery everything that was recorded is watched again. -/
def AlwaysRestores : Prop :=
  ∀ t₀ w maps received t s₁ acts s, Reach World.step (fun _ _ => True) (World.start t₀) w →
    (∀ type, maps.lookup type root = none) →
    Reach step (fun _ _ => True) (expire w maps received t) s₁ → s₁.phase = .connected →
    Runs step s₁ acts s → s.phase = .done → s.world.Quiescent →
      Restores (fun k => maps.lookup k.1 k.2) t s₁ acts s

/-! ## A removal in flight -/

theorem not_alwaysRestores : ¬ AlwaysRestores := by
  intro h
  obtain ⟨w, hr, hw⟩ := exists_reach_of_exec World.step (fun _ _ => True) (World.start Tree.empty)
    [.watchPath ['/', 'p'] 0, .serve, .deliver, .serve, .deliver,
      .asyncRemoveWatches ['/', 'p'] .watchPath 1]
    (fun w => (w.client.recorded (.watchPath, root), w.client.recorded (.watchSubPath, root),
      w.client.recorded (.watchPath, ['/', 'p']),
      (exec step (fun _ _ => True) (expire w w.client.records 0 Tree.empty)
        [.callback, .clearReleaser, .clearResource, .clearLastSubPath, .connectServer]).map
          fun s₁ : Recovery => (s₁.phase matches .connected,
            (exec step (fun _ _ => True) s₁ [.takeRecords, .finish]).map fun s : Recovery =>
              (s.phase matches .done, decide s.world.Quiescent,
                s.world.client.recorded (.watchPath, ['/', 'p'])))))
    (none, none, some 0, some (true, some (true, true, none))) rfl
  simp only [Prod.mk.injEq] at hw
  obtain ⟨hroot, hroot', hbefore, hw⟩ := hw
  obtain ⟨s₁, hs₁, hw⟩ := Option.map_eq_some_iff.mp hw
  obtain ⟨hconn, hw⟩ := Prod.mk.inj hw
  obtain ⟨s, hs, hw⟩ := Option.map_eq_some_iff.mp hw
  simp only [Prod.mk.injEq, decide_eq_true_eq] at hw
  have hphase₁ : s₁.phase = .connected := by
    cases hp : s₁.phase <;> simp [hp] at hconn ⊢
  have hphase : s.phase = .done := by
    cases hp : s.phase <;> simp [hp] at hw ⊢
  have hnone : ∀ type, w.client.records.lookup type root = none := fun type => by
    cases type
    · exact hroot
    · exact hroot'
  have hrec := (h Tree.empty w w.client.records 0 Tree.empty s₁ _ s hr hnone
    (reach_of_exec hs₁) hphase₁ (runs_of_exec hs) hphase hw.2.1).recorded
  have heq := congrFun hrec (.watchPath, ['/', 'p'])
  rw [hw.2.2] at heq
  exact absurd (heq.trans hbefore) (by simp)

/-! ## Until the new session is open -/

variable {w : World} {maps : Records} {received : ℕ} {t : Tree} {s s' s₁ : Recovery}
  {a : Action}

/-- The old session is over, and the removals `gone` have erased their records. -/
structure Closing (maps : Records) (t : Tree) (end₀ gone : List (WatchType × Path))
    (s : Recovery) : Prop where
  wf : s.world.Wf
  tree : s.world.tree = t
  armed : s.world.armed = []
  sent : s.world.client.sent = []
  recorded : ∀ k, s.world.client.recorded k = if k ∈ gone then none else maps.lookup k.1 k.2
  split : gone ++ ended s = end₀

/-- How far the recovery is before the new session is used. -/
inductive Before (maps : Records) (t : Tree) (end₀ : List (WatchType × Path)) (s : Recovery) :
    Prop
  | expired (gone : List (WatchType × Path)) (h : Closing maps t end₀ gone s)
      (phase : s.phase = .expired)
  | cleared (gone : List (WatchType × Path)) (h : Closing maps t end₀ gone s)
      (phase : s.phase = .cleared)
  | closed (h : Closing maps t end₀ end₀ s) (inbox : s.world.inbox = [])
      (phase : s.phase = .closed)
  | forgotten (h : Closing maps t end₀ end₀ s) (inbox : s.world.inbox = [])
      (last : s.world.client.lastSubPath = ∅) (phase : s.phase = .forgotten)
  | connected (h : Closing maps t end₀ end₀ s) (inbox : s.world.inbox = [])
      (last : s.world.client.lastSubPath = ∅) (phase : s.phase = .connected)
  | later (phase : (∃ r r', s.phase = .rewatching r r') ∨ s.phase = .done)

lemma fails_zsessionexpired : ZooError.zsessionexpired.Fails := fun op => by cases op <;> rfl

lemma before_expire (hwf : w.Wf) (maps : Records) (received : ℕ) (t : Tree) :
    Before maps t (ended (expire w maps received t)) (expire w maps received t) := by
  have hfail := hwf.failed (List.take_append_drop received w.inbox) fails_zsessionexpired
  have hcut := hfail.cut (expire w maps received t).world.inbox (List.append_nil _) t
  refine .expired [] ⟨?_, rfl, rfl, rfl, fun ⟨type, path⟩ => ?_, rfl⟩ rfl
  · exact ⟨hcut.heap, hcut.legal, hcut.fresh, hcut.sent, hcut.reply, hcut.armed, hcut.event⟩
  · cases type <;> rfl

/-- A callback of the old handle: it may be the end of a removal. -/
lemma Closing.callback {end₀ gone : List (WatchType × Path)}
    (h : Closing maps t end₀ gone s) (hs : s.callback = some s') :
    (∃ gone', Closing maps t end₀ gone' s') ∧ s'.phase = s.phase := by
  obtain ⟨w', hw', rfl⟩ := Option.map_eq_some_iff.mp hs
  have hwf' := h.wf.deliver hw'
  obtain ⟨m, ms, hin, rfl⟩ := World.deliver_cases hw'
  refine ⟨⟨gone ++ (s.world.client.ends m).toList, ?_⟩, rfl⟩
  refine ⟨?_, h.tree, h.armed, rfl, fun k => ?_, ?_⟩
  · have hcut := hwf'.cut ms (List.append_nil _) s.world.tree
    rw [← h.armed] at hcut
    exact hcut
  · -- the callback erases the record of the removal that it ends, and no other
    have hrec := congrFun (Client.recorded_process s.world.client m) k
    change (s.world.client.process m).recorded k = _
    rw [hrec]
    cases hends : s.world.client.ends m with
    | none => simpa using h.recorded k
    | some k' =>
        dsimp only
        by_cases hk : k = k'
        · subst hk
          rw [Function.update_self, if_pos (by simp)]
        · rw [Function.update_of_ne hk, h.recorded k]
          simp [hk]
  · -- the objects of the other answers are as they were
    have hrest : ms.filterMap (s.world.client.process m).ends =
        ms.filterMap s.world.client.ends := by
      refine List.filterMap_congr fun m' hm' => Client.ends_congr fun rep hrep => ?_
      subst hrep
      exact h.wf.heap_process hin
        (World.tokens_ne_nil_of_reply (w := { s.world with inbox := ms }) hm')
    have hended : ended s = (s.world.client.ends m).toList ++ ms.filterMap s.world.client.ends := by
      rw [ended, hin, List.filterMap_cons]
      cases s.world.client.ends m <;> rfl
    rw [List.append_assoc, ← h.split, hended, ← hrest]
    rfl

/-- Once the maps are taken the recovery does not go back. -/
lemma later_step (h : (∃ r r', s.phase = .rewatching r r') ∨ s.phase = .done)
    (hs : s.step a = some s') : (∃ r r', s'.phase = .rewatching r r') ∨ s'.phase = .done := by
  rcases h with ⟨r, r', phase⟩ | phase
  · cases a with
    | rewatch type path =>
        simp only [Recovery.step, Recovery.rewatch, phase] at hs
        cases type with
        | watchPath =>
            obtain ⟨cb, -, rfl⟩ := Option.map_eq_some_iff.mp hs
            exact Or.inl ⟨_, _, rfl⟩
        | watchSubPath =>
            dsimp only at hs
            split_ifs at hs
            obtain ⟨cb, -, rfl⟩ := Option.map_eq_some_iff.mp hs
            exact Or.inl ⟨_, _, rfl⟩
    | finish =>
        simp only [Recovery.step, phase] at hs
        split_ifs at hs
        obtain rfl := Option.some.inj hs
        exact Or.inr rfl
    | serve | deliver =>
        simp only [Recovery.step, phase] at hs
        obtain ⟨w', -, rfl⟩ := Option.map_eq_some_iff.mp hs
        exact Or.inl ⟨r, r', rfl⟩
    | _ => simp [Recovery.step, phase] at hs
  · cases a with
    | serve | deliver =>
        simp only [Recovery.step, phase] at hs
        obtain ⟨w', -, rfl⟩ := Option.map_eq_some_iff.mp hs
        exact Or.inr rfl
    | _ => simp [Recovery.step, Recovery.rewatch, phase] at hs

/-- Nothing is undone before the new session is used. -/
lemma Before.step {end₀ : List (WatchType × Path)} (h : Before maps t end₀ s)
    (hs : s.step a = some s') : Before maps t end₀ s' := by
  cases h with
  | expired gone h phase =>
      cases a with
      | callback =>
          simp only [Recovery.step, phase] at hs
          obtain ⟨⟨gone', h'⟩, hp⟩ := h.callback hs
          exact .expired gone' h' (hp.trans phase)
      | clearReleaser =>
          simp only [Recovery.step, phase] at hs
          obtain rfl := Option.some.inj hs
          exact .cleared gone ⟨⟨h.wf.heap, h.wf.legal, h.wf.fresh, h.wf.sent, h.wf.reply,
            h.wf.armed, h.wf.event⟩, h.tree, h.armed, h.sent, h.recorded, h.split⟩ rfl
      | _ => simp [Recovery.step, Recovery.rewatch, phase] at hs
  | cleared gone h phase =>
      cases a with
      | callback =>
          simp only [Recovery.step, phase] at hs
          obtain ⟨⟨gone', h'⟩, hp⟩ := h.callback hs
          exact .cleared gone' h' (hp.trans phase)
      | clearResource =>
          simp only [Recovery.step, phase] at hs
          split_ifs at hs with hin
          obtain rfl := Option.some.inj hs
          -- no callback is left, so every removal has ended
          have hgone : gone = end₀ := by
            rw [← h.split, ended, hin, List.filterMap_nil, List.append_nil]
          subst hgone
          exact .closed ⟨h.wf, h.tree, h.armed, h.sent, h.recorded, h.split⟩ hin rfl
      | _ => simp [Recovery.step, Recovery.rewatch, phase] at hs
  | closed h hin phase =>
      cases a with
      | clearLastSubPath =>
          simp only [Recovery.step, phase] at hs
          obtain rfl := Option.some.inj hs
          exact .forgotten ⟨⟨h.wf.heap, h.wf.legal, h.wf.fresh, h.wf.sent, h.wf.reply,
            h.wf.armed, h.wf.event⟩, h.tree, h.armed, h.sent, h.recorded, h.split⟩ hin rfl rfl
      | _ => simp [Recovery.step, Recovery.rewatch, phase] at hs
  | forgotten h hin last phase =>
      cases a with
      | connectServer =>
          simp only [Recovery.step, phase] at hs
          obtain rfl := Option.some.inj hs
          exact .connected ⟨h.wf, h.tree, h.armed, h.sent, h.recorded, h.split⟩ hin last rfl
      | _ => simp [Recovery.step, Recovery.rewatch, phase] at hs
  | connected h hin last phase =>
      cases a with
      | takeRecords =>
          simp only [Recovery.step, phase] at hs
          obtain rfl := Option.some.inj hs
          exact .later (Or.inl ⟨_, _, rfl⟩)
      | _ => simp [Recovery.step, Recovery.rewatch, phase] at hs
  | later phase => exact .later (later_step phase hs)

/-! ## What the records ask for -/

/-- A map with one more path asks for what the path does. -/
lemma flatMap_entries_insert {β : Type} (f : (_ : Path) × Cb → List β) {m : UMap Cb} {p : Path}
    (hp : m.lookup p = none) (cb : Cb) :
    ((m.insert p cb).entries.flatMap f).Perm (m.entries.flatMap f ++ f ⟨p, cb⟩) := by
  have hmem : p ∉ m := AList.lookup_eq_none.mp hp
  rw [AList.insert_of_notMem hmem]
  exact List.perm_append_comm

/-- Maps that record the same ask for the same. -/
lemma entries_perm {m m' : UMap Cb} (h : ∀ p, m'.lookup p = m.lookup p) :
    m'.entries.Perm m.entries :=
  List.lookup_ext m'.nodupKeys m.nodupKeys fun p cb => iff_of_eq (congrArg (cb ∈ ·) (h p))

/-- The callback of the registration the code makes for a record. -/
def registration (type : WatchType) (p : Path) (cb : Cb) : ExistsCallback :=
  match type with
  | .watchPath => .watchPath cb p
  | .watchSubPath => .watchSubPath cb p

/-- The calls a record asks for. -/
def dueFor (t : Tree) (type : WatchType) (p : Path) (cb : Cb) : List Call :=
  match type with
  | .watchPath => valueOf t cb p
  | .watchSubPath => picture t cb p

variable {r r' : Records} {type : WatchType} {path : Path} {cb : Cb}

lemma path_registration (type : WatchType) (p : Path) (cb : Cb) :
    (registration type p cb).path = p := by
  cases type <;> rfl

lemma due_watch (h : r.lookup type path = none) :
    (due t (r.watch type path cb)).Perm (due t r ++ dueFor t type path cb) := by
  cases type with
  | watchPath =>
      refine ((flatMap_entries_insert _ h cb).append_right _).trans ?_
      rw [due, List.append_assoc, List.append_assoc]
      exact List.perm_append_comm.append_left _
  | watchSubPath =>
      refine ((flatMap_entries_insert _ h cb).append_left _).trans ?_
      rw [due, List.append_assoc]
      exact List.Perm.refl _

lemma subscriptions_watch (h : r.lookup type path = none) :
    (subscriptions (r.watch type path cb)).Perm (subscriptions r ++
      if isValidPath path false then [registration type path cb] else []) := by
  have hfilter : (if isValidPath path false then [registration type path cb] else []) =
      [registration type path cb].filter fun cb => isValidPath cb.path false := by
    rw [List.filter_singleton, path_registration]
    cases isValidPath path false <;> rfl
  rw [hfilter, subscriptions, subscriptions, ← List.filter_append]
  refine List.Perm.filter _ ?_
  simp only [List.map_eq_flatMap]
  cases type with
  | watchPath =>
      refine ((flatMap_entries_insert _ h cb).append_right _).trans ?_
      rw [List.append_assoc, List.append_assoc]
      exact List.perm_append_comm.append_left _
  | watchSubPath =>
      refine ((flatMap_entries_insert _ h cb).append_left _).trans ?_
      rw [List.append_assoc]
      exact List.Perm.refl _

lemma due_perm (h : ∀ type path, r'.lookup type path = r.lookup type path) :
    (due t r').Perm (due t r) :=
  ((entries_perm (h .watchPath)).flatMap_right _).append
    ((entries_perm (h .watchSubPath)).flatMap_right _)

lemma subscriptions_perm (h : ∀ type path, r'.lookup type path = r.lookup type path) :
    (subscriptions r').Perm (subscriptions r) :=
  (((entries_perm (h .watchPath)).map _).append ((entries_perm (h .watchSubPath)).map _)).filter _

/-- A new subscription owes the picture of its path. -/
lemma owes_registration {c : Client} (h : type = .watchSubPath → c.lastSubPath.lookup path = none) :
    owes t c (.existsData { cb := registration type path cb }) = dueFor t type path cb := by
  cases type with
  | watchPath => rfl
  | watchSubPath =>
      change newPicture t c cb path = picture t cb path
      rw [newPicture, fresh, h rfl, picture]
      split_ifs with hsome
      · rfl
      · rw [Tree.children_eq_nil (by simpa using hsome), List.filterMap_nil]

/-! ## The new session -/

/-- The records that have been watched again. -/
def made (s : Recovery) : Records :=
  match s.phase with
  | .rewatching .. | .done => s.world.client.records
  | _ => Records.init

/-- The records that are still to be watched. -/
def left (s : Recovery) : Records :=
  match s.phase with
  | .rewatching watchRecord watchSubRecord =>
      { Records.init with watchRecord := watchRecord, watchSubRecord := watchSubRecord }
  | .done => Records.init
  | _ => s.world.client.records

/-- The new session is quiet and has been asked for what is watched again. -/
structure Rebuilding (before : WatchType × Path → Option Cb) (t : Tree) (calls₁ : List Call)
    (acts : List Action) (s : Recovery) : Prop where
  quiet : Quiet t s.world
  told : ∃ ks, s.world.client.calls = calls₁ ++ ks ∧
    (ks ++ owed t s.world).Perm (due t s.made)
  armed : (registered s.world).Perm (subscriptions s.made)
  parts : ∀ type path,
    (s.made.lookup type path = none ∧ s.left.lookup type path = before (type, path)) ∨
      (s.made.lookup type path = before (type, path) ∧ s.left.lookup type path = none)
  fresh : ∀ path, s.left.lookup .watchSubPath path ≠ none →
    path ∉ listing s.world ∧ s.world.client.lastSubPath.lookup path = none
  count : ∀ type path, acts.count (.rewatch type path) =
    if (s.made.lookup type path).isSome then 1 else 0
  live : s.phase = .connected ∨ (∃ r r', s.phase = .rewatching r r') ∨ s.phase = .done

variable {before : WatchType × Path → Option Cb} {calls₁ : List Call} {acts : List Action}

lemma made_of_later (h : (∃ r r', s.phase = .rewatching r r') ∨ s.phase = .done) :
    s.made = s.world.client.records := by
  rcases h with ⟨r, r', h⟩ | h <;> rw [made, h]

/-- In a quiet session no removal ends. -/
lemma ends_of_quiet {w : World} (h : Quiet t w) {m : Msg} {ms : List Msg}
    (hin : w.inbox = m :: ms) : w.client.ends m = none := by
  obtain ⟨rep, rfl, -⟩ := h.inbox m (hin ▸ List.mem_cons_self)
  obtain ⟨d, hd, hun⟩ := h.untouched rep.req
    (List.mem_append_left _ (World.mem_answered.mpr ⟨rep, hin ▸ List.mem_cons_self, rfl⟩))
  rw [Client.ends, hd]
  cases d with
  | existsData d | wget d => rfl
  | getChildren d =>
      rcases d with ⟨_ | _, path, adv⟩
      · rfl
      · exact absurd hun id
  | operate cb => exact absurd hun id
  | removeChain cb subs => exact absurd hun id

lemma recorded_of_quiet {w w' : World} (h : Quiet t w) {a : ConfigMonitor.Action}
    (ha : a = .serve ∨ a = .deliver) (hs : w.step a = some w') :
    w'.client.recorded = w.client.recorded := by
  rcases ha with rfl | rfl
  · obtain ⟨r, rs, -, rfl⟩ := World.serve_cases hs
    rfl
  · obtain ⟨m, ms, hin, rfl⟩ := World.deliver_cases hs
    change (w.client.process m).recorded = _
    rw [Client.recorded_process, ends_of_quiet h hin]

lemma count_snoc_of_ne {b : Action} (h : a ≠ b) : (acts ++ [a]).count b = acts.count b := by
  rw [List.count_append, List.count_singleton, if_neg (by simpa using h), Nat.add_zero]

/-- A step of the session, or of the handler, that watches nothing again. -/
lemma Rebuilding.advance (h : Rebuilding before t calls₁ acts s) (ks' : List Call)
    (hadv : Advances t s.world s'.world ks')
    (hmade : ∀ type path, s'.made.lookup type path = s.made.lookup type path)
    (hleft : ∀ type path, s'.left.lookup type path = s.left.lookup type path)
    (ha : ∀ type path, a ≠ .rewatch type path)
    (hlive : (∃ r r', s'.phase = .rewatching r r') ∨ s'.phase = .done) :
    Rebuilding before t calls₁ (acts ++ [a]) s' := by
  obtain ⟨ks, hks, hperm⟩ := h.told
  refine ⟨hadv.quiet, ⟨ks ++ ks', ?_, ?_⟩, ?_, fun type path => ?_, fun path hpath => ?_,
    fun type path => ?_, Or.inr hlive⟩
  · rw [hadv.calls, hks, List.append_assoc]
  · rw [List.append_assoc]
    exact (hadv.owed.append_left ks).trans (hperm.trans (due_perm hmade).symm)
  · rw [hadv.registered]
    exact h.armed.trans (subscriptions_perm hmade).symm
  · rw [hmade, hleft]
    exact h.parts type path
  · rw [hleft] at hpath
    obtain ⟨hno, hnone⟩ := h.fresh path hpath
    obtain ⟨hno', hlast⟩ := hadv.away path hno
    exact ⟨hno', hlast.trans hnone⟩
  · rw [hmade, count_snoc_of_ne (ha type path), h.count]

/-- A step of the session pays what it owes. -/
lemma Rebuilding.session (h : Rebuilding before t calls₁ acts s)
    (hlater : (∃ r r', s.phase = .rewatching r r') ∨ s.phase = .done) {b : ConfigMonitor.Action}
    (hb : b = .serve ∨ b = .deliver) {w' : World} (hs : s.world.step b = some w')
    (ha : ∀ type path, a ≠ .rewatch type path) :
    Rebuilding before t calls₁ (acts ++ [a]) { s with world := w' } := by
  obtain ⟨ks', hadv⟩ := h.quiet.step hb hs
  have hrec := recorded_of_quiet h.quiet hb hs
  refine h.advance ks' hadv (fun type path => ?_) (fun type path => ?_) ha hlater
  · rw [made_of_later hlater, made_of_later (s := { s with world := w' }) hlater]
    exact congrFun hrec (type, path)
  · rcases hlater with ⟨r, r', hp⟩ | hp <;> rw [left, left, hp]

/-- The monitor watches the path as recorded. -/
def rewatched (w : World) (type : WatchType) (path : Path) (cb : Cb) : World :=
  match type with
  | .watchPath => { w with client := w.client.watchPath path cb }
  | .watchSubPath => { w with client := w.client.watchSubPath path cb }

lemma rewatch_cases {type : WatchType} {path : Path} (hs : s.rewatch type path = some s') :
    ∃ cb, s.left.lookup type path = some cb ∧ s'.world = rewatched s.world type path cb ∧
      (∃ r r', s.phase = .rewatching r r') ∧ (∃ r r', s'.phase = .rewatching r r') ∧
      ∀ k : WatchType × Path, s'.left.lookup k.1 k.2 =
        Function.update (fun k => s.left.lookup k.1 k.2) (type, path) none k := by
  rw [Recovery.rewatch] at hs
  split at hs
  · rename_i r r' phase
    have herase := Expiry.lookup_erase s.left type path
    cases type with
    | watchPath =>
        obtain ⟨cb, hcb, rfl⟩ := Option.map_eq_some_iff.mp hs
        refine ⟨cb, by rw [left, phase]; exact hcb, rfl, ⟨r, r', phase⟩, ⟨_, _, rfl⟩, fun k => ?_⟩
        rw [← herase, left, left, phase]
        rcases k with ⟨_ | _, path'⟩ <;> rfl
    | watchSubPath =>
        dsimp only at hs
        split_ifs at hs
        obtain ⟨cb, hcb, rfl⟩ := Option.map_eq_some_iff.mp hs
        refine ⟨cb, by rw [left, phase]; exact hcb, rfl, ⟨r, r', phase⟩, ⟨_, _, rfl⟩, fun k => ?_⟩
        rw [← herase, left, left, phase]
        rcases k with ⟨_ | _, path'⟩ <;> rfl
  · simp at hs

lemma records_rewatched (w : World) (type : WatchType) (path : Path) (cb : Cb) :
    (rewatched w type path cb).client.records = w.client.records.watch type path cb := by
  cases type
  · exact Client.records_watchPath _ _ _
  · exact Client.records_watchSubPath _ _ _

lemma registers_rewatched {w : World} (h : Quiet t w) {type : WatchType} {path : Path} (cb : Cb)
    (hnew : type = .watchSubPath → path ∉ listing w) :
    Registers t w (registration type path cb) (rewatched w type path cb) := by
  cases type with
  | watchPath =>
      exact h.register (.watchPath cb path) (w.client.watchRecord.insert path cb)
        w.client.watchSubRecord fun p hp => by simp [lists] at hp
  | watchSubPath =>
      refine h.register (.watchSubPath cb path) w.client.watchRecord
        (w.client.watchSubRecord.insert path cb) fun p hp => ?_
      obtain rfl : path = p := by simpa [lists] using hp
      exact hnew rfl

/-- The handler watches one of the paths again. -/
lemma Rebuilding.rewatch (h : Rebuilding before t calls₁ acts s) {type : WatchType}
    {path : Path} (hs : s.rewatch type path = some s') :
    Rebuilding before t calls₁ (acts ++ [.rewatch type path]) s' := by
  obtain ⟨cb, hcb, hw, hphase, hphase', hleft⟩ := rewatch_cases hs
  -- a path is watched again once, since it is taken out of what is left
  have hmade₀ : s.made.lookup type path = none := by
    rcases h.parts type path with ⟨hmade, -⟩ | ⟨-, hnone⟩
    · exact hmade
    · rw [hcb] at hnone
      simp at hnone
  have hreg := registers_rewatched h.quiet cb fun htype =>
    (h.fresh path (by rw [← htype, hcb]; simp)).1
  have hmade' : s'.made = s.made.watch type path cb := by
    rw [made_of_later (Or.inl hphase'), made_of_later (Or.inl hphase), hw, records_rewatched]
  have hlookup : ∀ k : WatchType × Path, s'.made.lookup k.1 k.2 =
      Function.update (fun k => s.made.lookup k.1 k.2) (type, path) (some cb) k := by
    intro k
    rw [hmade', ← Expiry.lookup_watch]
  -- the new registration is the last one of the calls, the watches and the record
  obtain ⟨ks, hks, hperm⟩ := h.told
  refine ⟨hw ▸ hreg.quiet, ⟨ks, by rw [hw, hreg.calls, hks], ?_⟩, ?_, fun type' path' => ?_,
    fun path' hpath' => ?_, fun type' path' => ?_, Or.inr (Or.inl hphase')⟩
  · rw [hw, hreg.owed, hmade', ← List.append_assoc, owes_registration fun htype =>
      (h.fresh path (by rw [← htype, hcb]; simp)).2]
    exact (hperm.append_right _).trans (due_watch hmade₀).symm
  · rw [hw, hreg.registered, hmade', path_registration]
    exact (h.armed.append_right _).trans (subscriptions_watch hmade₀).symm
  · -- a path is watched again or still left; the one of the step goes over
    have hm := hlookup (type', path')
    have hl := hleft (type', path')
    dsimp only at hm hl
    rw [hm, hl]
    by_cases hk : (type', path') = (type, path)
    · rw [hk, Function.update_self, Function.update_self]
      obtain ⟨rfl, rfl⟩ := Prod.mk.inj hk
      right
      rcases h.parts type' path' with ⟨-, hbefore⟩ | ⟨-, hnone⟩
      · exact ⟨hcb.symm.trans hbefore, rfl⟩
      · rw [hcb] at hnone
        simp at hnone
    · rw [Function.update_of_ne hk, Function.update_of_ne hk]
      exact h.parts type' path'
  · -- no other path is being listed by the new registration
    have hl := hleft (.watchSubPath, path')
    dsimp only at hl
    rw [hl] at hpath'
    by_cases hk : (WatchType.watchSubPath, path') = (type, path)
    · rw [hk, Function.update_self] at hpath'
      simp at hpath'
    · rw [Function.update_of_ne hk] at hpath'
      obtain ⟨hno, hnone⟩ := h.fresh path' hpath'
      rw [hw, hreg.last]
      refine ⟨hreg.away path' hno fun heq => hk ?_, hnone⟩
      cases type with
      | watchPath => simp [registration, lists] at heq
      | watchSubPath =>
          obtain rfl : path = path' := by simpa [registration, lists] using heq
          rfl
  · have hm := hlookup (type', path')
    dsimp only at hm
    rw [hm]
    by_cases hk : (type', path') = (type, path)
    · obtain ⟨rfl, rfl⟩ := Prod.mk.inj hk
      rw [Function.update_self, List.count_append, h.count, hmade₀]
      simp
    · rw [Function.update_of_ne hk, count_snoc_of_ne, h.count]
      rintro heq
      exact hk (by simpa using heq.symm)

/-- The run from the connection on. -/
lemma Rebuilding.step (h : Rebuilding before t calls₁ acts s) (hs : s.step a = some s') :
    Rebuilding before t calls₁ (acts ++ [a]) s' := by
  rcases h.live with phase | hlater
  · cases a with
    | takeRecords =>
        simp only [Recovery.step, phase] at hs
        obtain rfl := Option.some.inj hs
        refine h.advance [] ⟨?_, (List.append_nil _).symm, List.Perm.refl _,
          fun p hp => ⟨hp, rfl⟩, rfl⟩ (fun type path => ?_) (fun type path => ?_) (by simp)
          (Or.inl ⟨_, _, rfl⟩)
        · -- taking the maps changes the records of the client only
          obtain ⟨hwf, htree, hinbox, hun, honce⟩ := h.quiet
          exact ⟨⟨hwf.heap, hwf.legal, hwf.fresh, hwf.sent, hwf.reply, hwf.armed, hwf.event⟩,
            htree, hinbox, hun, honce⟩
        · rw [made, made, phase]
          cases type <;> rfl
        · rw [left, left, phase]
          cases type <;> rfl
    | _ => simp [Recovery.step, Recovery.rewatch, phase] at hs
  · cases a with
    | rewatch type path => exact h.rewatch hs
    | finish =>
        rcases hlater with ⟨r, r', phase⟩ | phase
        · simp only [Recovery.step, phase] at hs
          split_ifs at hs with hkeys
          obtain rfl := Option.some.inj hs
          refine h.advance [] ⟨h.quiet, (List.append_nil _).symm, List.Perm.refl _,
            fun p hp => ⟨hp, rfl⟩, rfl⟩ (fun type path => ?_) (fun type path => ?_) (by simp)
            (Or.inr rfl)
          · rw [made, made, phase]
          · rw [left, left, phase]
            cases type
            · exact (Expiry.lookup_of_keys_eq_nil hkeys.1 path).symm
            · exact (Expiry.lookup_of_keys_eq_nil hkeys.2 path).symm
        · simp [Recovery.step, phase] at hs
    -- what the handler is at does not matter to the session
    | serve =>
        have hserve : ∃ w', s.world.serve = some w' ∧ s' = { s with world := w' } := by
          rcases hlater with ⟨r, r', phase⟩ | phase <;>
            simp only [Recovery.step, phase] at hs <;>
            obtain ⟨w', hw', rfl⟩ := Option.map_eq_some_iff.mp hs <;>
            exact ⟨w', hw', by rw [phase]⟩
        obtain ⟨w', hw', rfl⟩ := hserve
        exact h.session hlater (Or.inl rfl) hw' (by simp)
    | deliver =>
        have hdeliver : ∃ w', s.world.deliver = some w' ∧ s' = { s with world := w' } := by
          rcases hlater with ⟨r, r', phase⟩ | phase <;>
            simp only [Recovery.step, phase] at hs <;>
            obtain ⟨w', hw', rfl⟩ := Option.map_eq_some_iff.mp hs <;>
            exact ⟨w', hw', by rw [phase]⟩
        obtain ⟨w', hw', rfl⟩ := hdeliver
        exact h.session hlater (Or.inr rfl) hw' (by simp)
    | _ =>
        rcases hlater with ⟨r, r', phase⟩ | phase <;> simp [Recovery.step, phase] at hs

/-- When the new session is open, nothing has been watched yet. -/
lemma rebuilding_connected {end₀ : List (WatchType × Path)} (h : Closing maps t end₀ end₀ s)
    (hin : s.world.inbox = []) (hlast : s.world.client.lastSubPath = ∅)
    (phase : s.phase = .connected) :
    Rebuilding (fun k => if k ∈ end₀ then none else maps.lookup k.1 k.2) t
      s.world.client.calls [] s := by
  have hmade : s.made = Records.init := by rw [made, phase]
  have hnone : ∀ type path, Records.init.lookup type path = none := fun type path => by
    cases type <;> rfl
  have hquiet := quiet_of_quiescent h.wf ⟨h.sent, hin⟩
  rw [h.tree] at hquiet
  refine ⟨hquiet, ⟨[], (List.append_nil _).symm, ?_⟩, ?_, fun type path => Or.inl ⟨?_, ?_⟩,
    fun path _ => ⟨?_, ?_⟩, fun type path => ?_, Or.inl phase⟩
  · rw [owed_of_quiescent ⟨h.sent, hin⟩, hmade]
    exact List.Perm.refl _
  · rw [registered, h.armed, h.sent, hmade]
    exact List.Perm.refl _
  · rw [hmade, hnone]
  · rw [left, phase]
    exact h.recorded (type, path)
  · rw [listing, pending, hin, h.sent]
    simp [World.answered]
  · rw [hlast, AList.lookup_empty]
  · rw [hmade, hnone]
    rfl

/-- After the recovery everything is watched again that was recorded and whose removal has not
ended while the old handle was closed. -/
theorem restores {t₀ : Tree} {w : World} {maps : Records} {received : ℕ} {t : Tree}
    {s₁ s : Recovery} {acts : List Action}
    (hw : Reach World.step (fun _ _ => True) (World.start t₀) w)
    (hs₁ : Reach step (fun _ _ => True) (expire w maps received t) s₁)
    (hphase₁ : s₁.phase = .connected) (hr : Runs step s₁ acts s) (hphase : s.phase = .done)
    (hquiescent : s.world.Quiescent) :
    Restores (fun k => if k ∈ ended (expire w maps received t) then none
      else maps.lookup k.1 k.2) t s₁ acts s := by
  have hbefore := hs₁.invariant (before_expire (World.wf_of_reach hw) maps received t)
    fun _ _ _ h _ hs => h.step hs
  have hstart : Rebuilding (fun k => if k ∈ ended (expire w maps received t) then none
      else maps.lookup k.1 k.2) t s₁.world.client.calls [] s₁ := by
    cases hbefore with
    | connected h hin last phase => exact rebuilding_connected h hin last phase
    | expired _ _ phase | cleared _ _ phase | closed _ _ phase | forgotten _ _ _ phase =>
        rw [phase] at hphase₁
        simp at hphase₁
    | later phase =>
        rcases phase with ⟨r, r', phase⟩ | phase <;> rw [phase] at hphase₁ <;> simp at hphase₁
  have hend : Rebuilding (fun k => if k ∈ ended (expire w maps received t) then none
      else maps.lookup k.1 k.2) t s₁.world.client.calls acts s := by
    clear hphase hquiescent
    induction hr with
    | nil => exact hstart
    | snoc _ hs ih => exact ih.step hs
  have hmade : s.made = s.world.client.records := made_of_later (Or.inr hphase)
  have hlookup : ∀ type path, s.world.client.records.lookup type path =
      if (type, path) ∈ ended (expire w maps received t) then none else maps.lookup type path := by
    intro type path
    rw [← hmade]
    rcases hend.parts type path with ⟨hnone, hleft⟩ | ⟨heq, -⟩
    · rw [hnone, ← hleft, left, hphase]
      cases type <;> rfl
    · exact heq
  obtain ⟨ks, hks, hperm⟩ := hend.told
  refine ⟨funext fun k => hlookup k.1 k.2, fun type path => ?_, ?_, ks, hks, ?_⟩
  · rw [hend.count, hmade, hlookup]
  · have hreg := hend.armed
    rw [registered, hquiescent.1, List.map_nil, List.append_nil, List.filterMap_map, hmade] at hreg
    exact hreg
  · rwa [owed_of_quiescent hquiescent, List.append_nil, hmade] at hperm

/-- Two paths, with a child under the second; the session expires when the answers to the first
requests are on their way. -/
theorem restores_two : ∃ w s₁ s acts,
    Restores (fun k => if k ∈ ended (expire w w.client.records 0 treePC) then none
      else w.client.records.lookup k.1 k.2) treePC s₁ acts s ∧
    w.client.recorded (.watchPath, ['/', 'p', '/', 'c']) = some 0 ∧
    w.client.recorded (.watchSubPath, ['/', 'p']) = some 1 ∧
    s.world.client.calls = [.watch 0 ['/', 'p', '/', 'c'] .changed (some ['a']),
      changedAt 1 ['/', 'p', '/', 'c'] (some ['a'])] := by
  obtain ⟨w, hr, hw⟩ := exists_reach_of_exec World.step (fun _ _ => True) (World.start treePC)
    [.watchPath ['/', 'p', '/', 'c'] 0, .serve, .watchSubPath ['/', 'p'] 1]
    (fun w => (w.client.recorded (.watchPath, ['/', 'p', '/', 'c']),
      w.client.recorded (.watchSubPath, ['/', 'p']),
      (exec step (fun _ _ => True) (expire w w.client.records 0 treePC)
        [.callback, .clearReleaser, .callback, .clearResource, .clearLastSubPath,
          .connectServer]).map fun s₁ : Recovery => (s₁.phase matches .connected,
            (exec step (fun _ _ => True) s₁ [.takeRecords,
              .rewatch .watchPath ['/', 'p', '/', 'c'], .serve,
              .rewatch .watchSubPath ['/', 'p'], .deliver, .serve, .serve, .finish, .deliver,
              .deliver, .serve, .deliver, .serve, .deliver]).map fun s : Recovery =>
                (s.phase matches .done, decide s.world.Quiescent, s.world.client.calls))))
    (some 0, some 1, some (true, some (true, true,
      [.watch 0 ['/', 'p', '/', 'c'] .changed (some ['a']),
        changedAt 1 ['/', 'p', '/', 'c'] (some ['a'])]))) rfl
  simp only [Prod.mk.injEq] at hw
  obtain ⟨hpath, hsub, hw⟩ := hw
  obtain ⟨s₁, hs₁, hw⟩ := Option.map_eq_some_iff.mp hw
  obtain ⟨hconn, hw⟩ := Prod.mk.inj hw
  obtain ⟨s, hs, hw⟩ := Option.map_eq_some_iff.mp hw
  simp only [Prod.mk.injEq, decide_eq_true_eq] at hw
  have hphase₁ : s₁.phase = .connected := by
    cases hp : s₁.phase <;> simp [hp] at hconn ⊢
  have hphase : s.phase = .done := by
    cases hp : s.phase <;> simp [hp] at hw ⊢
  exact ⟨w, s₁, s, _, restores hr (reach_of_exec hs₁) hphase₁ (runs_of_exec hs) hphase hw.2.1,
    hpath, hsub, hw.2.2⟩

end Recovery

end Resubscribe

end ConfigMonitor
