/-
# The tables of the library under the session

The IO thread of the library receives the messages of the server: it enters the watcher of an
answer in the tables, and collects the watchers of an event, which the completion thread calls
when it comes to the event.  The session says at once which watches are armed and which an event
is for; the tables, which lag behind, come to the same.
-/
import ConfigMonitor.Monitor.Schedule
import ConfigMonitor.ZooKeeper.Registrations

namespace ConfigMonitor

open Run Registrations

/-- What the IO thread does with a message; `fn` is the function of the watcher that goes with the
userdata. -/
def Active.receive {F : Type*} [DecidableEq F] (hashfn : Path → UInt32) (limit : ℕ → ℕ)
    (watcher : F × Ptr) (fn : Ptr → F) (zh : Active Path (F × Ptr)) (room : Bool) :
    Msg → List (F × Ptr) × Active Path (F × Ptr)
  | .reply rep =>
      let activated :=
        match rep.table? with
        | none => zh
        | some tb =>
            zh.activateWatcher hashfn limit room tb rep.req.path (fn rep.req.ctx, rep.req.ctx)
      ([],
        match rep.req.op, rep.rc with
        | .removeWatchesOp type, .zok =>
            activated.removeWatchers hashfn rep.req.path type none
        | _, _ => activated)
  | .event eve q _ => zh.collectWatchers hashfn watcher eve q

/-- The session with the tables of the library, and what has been collected for the messages that
the IO thread has received and the completion thread has not come to. -/
structure Library (F : Type*) where
  world : World
  active : Active Path (F × Ptr)
  results : List (List (F × Ptr))

namespace Library

/-- The IO thread receives a message, or a step of the session is taken. -/
inductive Action
  | receive (room : Bool)
  | session (a : ConfigMonitor.Action)
deriving DecidableEq, Repr

variable {F : Type*} [DecidableEq F]

/-- One step.  A message is handled when it has been received.  No connection is lost here. -/
def step (hashfn : Path → UInt32) (limit : ℕ → ℕ) (watcher : F × Ptr) (fn : Ptr → F)
    (s : Library F) : Action → Option (Library F)
  | .receive room =>
      s.world.inbox[s.results.length]?.map fun m =>
        let received := s.active.receive hashfn limit watcher fn room m
        { s with active := received.2, results := s.results ++ [received.1] }
  | .session .deliver =>
      match s.results with
      | [] => none
      | _ :: results => s.world.deliver.map fun w => { s with world := w, results := results }
  | .session (.loss ..) => none
  | .session a => (s.world.step a).map fun w => { s with world := w }

/-- The start, with new tables. -/
def start (t : Tree) (ht : ZkHashtable Path (F × Ptr)) : Library F :=
  { world := World.start t, active := fun _ => ht, results := [] }

end Library

/-! ## The tables as the messages go by -/

/-- The watches come from these by the messages, and each event is for the ones it fires. -/
inductive Feeds : List Watch → List Msg → List Watch → Prop
  | nil {A : List Watch} : Feeds A [] A
  | reply {A B : List Watch} {rep : Reply} {ms : List Msg} :
      Feeds (activate A rep) ms B → Feeds A (.reply rep :: ms) B
  | event {A B : List Watch} {eve : ZkEvent} {q : Path} {ms : List Msg}
      (ne : collectWatchers eve q A ≠ []) :
      Feeds (A.filter fun a => ¬ a.FiredBy eve q) ms B →
      Feeds A (.event eve q (collectWatchers eve q A) :: ms) B

variable {A B C : List Watch} {ms ms' : List Msg}

lemma Feeds.append (h : Feeds A ms B) (h' : Feeds B ms' C) : Feeds A (ms ++ ms') C := by
  induction h with
  | nil => exact h'
  | reply _ ih => exact .reply (ih h')
  | event ne _ ih => exact .event ne (ih h')

/-! ## One registration for each object -/

/-- The object whose request a message answers. -/
def Msg.asks : Msg → List Ptr
  | .reply rep => [rep.req.ctx]
  | .event .. => []

/-- The objects that the handler of a message is given. -/
def Msg.gives : Msg → List Ptr
  | .reply rep => if rep.table?.isSome then [] else [rep.req.ctx]
  | .event _ _ ctxs => ctxs

/-- The objects with a watch in the tables, with an answer to be received, with a message to be
handled that gives them back, and with a request; `n` messages have been received. -/
def holders (A : List Watch) (w : World) (n : ℕ) : List Ptr :=
  A.map Watch.ctx ++ ((w.inbox.drop n).flatMap Msg.asks ++
    ((w.inbox.take n).flatMap Msg.gives ++ w.client.sent.map Request.ctx))

/-- What the tables have when `n` messages have been received. -/
structure Received (A : List Watch) (w : World) (n : ℕ) : Prop where
  le : n ≤ w.inbox.length
  feeds : Feeds A (w.inbox.drop n) w.armed
  nodup : (holders A w n).Nodup
  lt : ∀ x ∈ holders A w n, x < w.client.next

variable {w w' : World} {n n' : ℕ}

/-- The list of holders may shrink and be reordered. -/
lemma Received.of_subperm (h : Received A w n) (hle : n' ≤ w'.inbox.length)
    (hfeeds : Feeds B (w'.inbox.drop n') w'.armed) (hnext : w.client.next ≤ w'.client.next)
    (hsub : (holders B w' n').Subperm (holders A w n)) : Received B w' n' where
  le := hle
  feeds := hfeeds
  nodup := by
    obtain ⟨l, hperm, hsubl⟩ := hsub
    exact hperm.nodup_iff.mp (hsubl.nodup h.nodup)
  lt x hx := (h.lt x (hsub.subset hx)).trans_le hnext

/-- The server sends a message. -/
lemma Received.push (h : Received A w n) {m : Msg} (hin : w'.inbox = w.inbox ++ [m])
    (hfeeds : Feeds w.armed [m] w'.armed)
    (hsent : m.asks ++ w'.client.sent.map Request.ctx = w.client.sent.map Request.ctx)
    (hnext : w'.client.next = w.client.next) :
    Received A w' n ∧ w'.inbox.take n = w.inbox.take n := by
  have hdrop : w'.inbox.drop n = w.inbox.drop n ++ [m] := by
    rw [hin, List.drop_append_of_le_length h.le]
  have htake : w'.inbox.take n = w.inbox.take n := by
    rw [hin, List.take_append_of_le_length h.le]
  refine ⟨h.of_subperm ?_ ?_ (Nat.le_of_eq hnext.symm) ?_, htake⟩
  · rw [hin, List.length_append]
    exact h.le.trans (Nat.le_add_right _ _)
  · rw [hdrop]
    exact h.feeds.append hfeeds
  · rw [holders, holders, hdrop, htake, ← hsent, List.flatMap_append, List.flatMap_singleton]
    refine List.Perm.subperm (List.perm_iff_count.mpr fun x => ?_)
    simp only [List.count_append]
    omega

lemma Received.fire (h : Received A w n) (eve : ZkEvent) (q : Path) :
    Received A (w.fire eve q) n ∧ (w.fire eve q).inbox.take n = w.inbox.take n := by
  rw [World.fire]
  cases hc : collectWatchers eve q w.armed with
  | nil => exact ⟨h, rfl⟩
  | cons x xs =>
      have hfeeds : Feeds w.armed [.event eve q (x :: xs)]
          (w.armed.filter fun a => ¬ a.FiredBy eve q) := by
        rw [← hc]
        exact .event (by simp [hc]) .nil
      exact h.push rfl hfeeds rfl rfl

lemma Received.fire_fire (h : Received A w n) (eve : ZkEvent) (q : Path) (eve' : ZkEvent)
    (q' : Path) :
    Received A ((w.fire eve q).fire eve' q') n ∧
      ((w.fire eve q).fire eve' q').inbox.take n = w.inbox.take n := by
  obtain ⟨h₁, htake₁⟩ := h.fire eve q
  obtain ⟨h₂, htake₂⟩ := h₁.fire eve' q'
  exact ⟨h₂, htake₂.trans htake₁⟩

lemma Received.of_tree (h : Received A w n) (t : Tree) : Received A { w with tree := t } n :=
  ⟨h.le, h.feeds, h.nodup, h.lt⟩

lemma Received.serve (h : Received A w n) (hs : w.serve = some w') :
    Received A w' n ∧ w'.inbox.take n = w.inbox.take n := by
  obtain ⟨r, rs, hsent, rfl⟩ := World.serve_cases hs
  refine h.push rfl (.reply .nil) ?_ rfl
  simp [Msg.asks, hsent]

/-- What is sent for new objects, or for the objects that are given back. -/
lemma Received.sends {X : List Ptr} {c : Client} {rs : List Request}
    (hnd : (holders A w n ++ X).Nodup) (hlt : ∀ x ∈ holders A w n ++ X, x < w.client.next)
    (hsent : c.sent = w.client.sent ++ rs) (hrs : (rs.map Request.ctx).Nodup)
    (hnext : w.client.next ≤ c.next)
    (hctx : ∀ r ∈ rs, r.ctx ∈ X ∨ w.client.next ≤ r.ctx ∧ r.ctx < c.next) :
    (holders A { w with client := c } n).Nodup ∧
      ∀ x ∈ holders A { w with client := c } n, x < c.next := by
  have hholders : holders A { w with client := c } n = holders A w n ++ rs.map Request.ctx := by
    simp [holders, hsent]
  obtain ⟨hnd', -, hdisj⟩ := List.nodup_append'.mp hnd
  rw [hholders]
  refine ⟨List.nodup_append'.mpr ⟨hnd', hrs, fun x hx hxr => ?_⟩, fun x hx => ?_⟩
  · obtain ⟨r, hr, rfl⟩ := List.mem_map.mp hxr
    rcases hctx r hr with hX | ⟨hge, -⟩
    · exact hdisj hx hX
    · exact absurd (hlt _ (List.mem_append_left _ hx)) (not_lt_of_ge hge)
  · rcases List.mem_append.mp hx with hx | hx
    · exact (hlt x (List.mem_append_left _ hx)).trans_le hnext
    · obtain ⟨r, hr, rfl⟩ := List.mem_map.mp hx
      rcases hctx r hr with hX | ⟨-, hlt'⟩
      · exact (hlt _ (List.mem_append_right _ hX)).trans_le hnext
      · exact hlt'

/-- A call of the user. -/
lemma Received.of_call (h : Received A w n) {c : Client} (he : Client.Effect [] w.client c) :
    Received A { w with client := c } n := by
  obtain ⟨rs, hsent, hrs, hctx⟩ := he.sent
  obtain ⟨hnd, hlt⟩ := Received.sends (X := []) (by simpa using h.nodup) (by simpa using h.lt) hsent
    hrs he.next_le fun r hr => (hctx r hr).1
  exact ⟨h.le, h.feeds, hnd, hlt⟩

lemma effect_process (hwf : w.Wf) {m : Msg} {ms : List Msg} (hin : w.inbox = m :: ms) :
    Client.Effect m.gives w.client (w.client.process m) := by
  have hm : m ∈ w.inbox := hin ▸ List.mem_cons_self
  cases m with
  | reply rep =>
      exact Client.effect_onReply (hwf.lt_next (World.tokens_ne_nil_of_reply hm))
        (hwf.reply rep hm)
  | event eve q ctxs =>
      exact Client.effect_onEvent_foldl eve q ctxs (hwf.ctxs_nodup hin)
        (fun x hx => hwf.lt_next (World.tokens_ne_nil_of_event hm hx)) (hwf.event eve q ctxs hm)

/-- The oldest message is handled. -/
lemma Received.deliver (h : Received A w (n + 1)) (hwf : w.Wf) (hs : w.deliver = some w') :
    Received A w' n ∧ ∃ m ms, w.inbox = m :: ms ∧ w'.inbox = ms := by
  obtain ⟨m, ms, hin, rfl⟩ := World.deliver_cases hs
  have he := effect_process hwf hin
  obtain ⟨rs, hsent, hrs, hctx⟩ := he.sent
  have hle := h.le
  have hfeeds := h.feeds
  rw [hin] at hle hfeeds
  have hperm : (holders A w (n + 1)).Perm (holders A { w with inbox := ms } n ++ m.gives) := by
    rw [holders, holders, hin, List.take_succ_cons, List.drop_succ_cons, List.flatMap_cons]
    refine List.perm_iff_count.mpr fun x => ?_
    simp only [List.count_append]
    omega
  obtain ⟨hnd, hlt⟩ := Received.sends (w := { w with inbox := ms }) (hperm.nodup_iff.mp h.nodup)
    (fun x hx => h.lt x (hperm.mem_iff.mpr hx)) hsent hrs he.next_le fun r hr => (hctx r hr).1
  exact ⟨⟨Nat.le_of_succ_le_succ hle, hfeeds, hnd, hlt⟩, m, ms, hin, rfl⟩

/-- The session takes a step in which no message is handled and no connection is lost. -/
lemma Received.step (h : Received A w n) {b : Action} (hdel : b ≠ .deliver)
    (hloss : ∀ m order, b ≠ .loss m order) (hs : w.step b = some w') :
    Received A w' n ∧ w'.inbox.take n = w.inbox.take n := by
  cases b with
  | deliver => exact absurd rfl hdel
  | loss m order => exact absurd rfl (hloss m order)
  | serve => exact h.serve hs
  | create q v =>
      obtain ⟨t, -, rfl⟩ := Option.map_eq_some_iff.mp hs
      exact (h.of_tree t).fire_fire .created q .child (parentPath q)
  | set q v =>
      obtain ⟨t, -, rfl⟩ := Option.map_eq_some_iff.mp hs
      exact (h.of_tree t).fire .changed q
  | delete q =>
      obtain ⟨t, -, rfl⟩ := Option.map_eq_some_iff.mp hs
      exact (h.of_tree t).fire_fire .deleted q .child (parentPath q)
  | watchPath p cb =>
      obtain rfl := Option.some.inj hs
      exact ⟨h.of_call (Client.effect_watchPath _ p cb), rfl⟩
  | watchSubPath p cb =>
      obtain rfl := Option.some.inj hs
      exact ⟨h.of_call (Client.effect_watchSubPath _ p cb), rfl⟩
  | asyncRemoveWatches p type cb =>
      obtain rfl := Option.some.inj hs
      exact ⟨h.of_call (Client.effect_asyncRemoveWatches _ p type cb), rfl⟩

/-! ## The IO thread -/

section tables

variable {F : Type*} [DecidableEq F] {hashfn : Path → UInt32} {limit : ℕ → ℕ} {watcher : F × Ptr}
  {fn : Ptr → F} {zh : Active Path (F × Ptr)} {eve : ZkEvent} {q : Path}

/-- The watch as a registration. -/
def Watch.registration (fn : Ptr → F) (a : Watch) : Registration Path (F × Ptr) :=
  ⟨a.table, a.path, (fn a.ctx, a.ctx)⟩

/-- The watchers that a message is for. -/
def Msg.watchers (fn : Ptr → F) : Msg → List (F × Ptr)
  | .reply _ => []
  | .event _ _ ctxs => ctxs.map fun x => (fn x, x)

omit [DecidableEq F] in
lemma flatMap_watchersAt (fn : Ptr → F) (eve : ZkEvent) (q : Path) (A : List Watch) :
    (eve.tables.flatMap fun tb => watchersAt (A.map (Watch.registration fn)) tb q) =
      (collectWatchers eve q A).map fun x => (fn x, x) := by
  rw [collectWatchers, List.map_flatMap]
  refine List.flatMap_congr fun tb _ => ?_
  rw [watchersAt, List.filter_map, List.map_map, List.map_map]
  rfl

/-- A watch is fired by an event or stays. -/
lemma perm_fired (eve : ZkEvent) (q : Path) (A : List Watch) :
    ((A.filter fun a => ¬ a.FiredBy eve q).map Watch.ctx ++ collectWatchers eve q A).Perm
      (A.map Watch.ctx) := by
  refine List.perm_iff_count.mpr fun x => ?_
  rw [List.count_append, count_filter_map_ctx, count_collectWatchers, List.count, List.countP_map]
  induction A with
  | nil => rfl
  | cons a A ih =>
      simp only [List.countP_cons, Function.comp_apply] at ih ⊢
      by_cases hf : a.FiredBy eve q <;> by_cases hx : a.ctx = x <;> simp [hf, hx] at ih ⊢ <;> omega

/-- What an answer does to the tables. -/
lemma receive_reply (limit : ℕ → ℕ) (watcher : F × Ptr)
    (hh : Holds hashfn zh (A.map (Watch.registration fn))) {rep : Reply}
    (hnew : rep.req.ctx ∉ A.map Watch.ctx) (room : Bool) :
    Holds hashfn (zh.receive hashfn limit watcher fn room (.reply rep)).2
        ((activate A rep).map (Watch.registration fn)) ∧
      ((activate A rep).map Watch.ctx ++ (Msg.reply rep).gives).Subperm
        (A.map Watch.ctx ++ [rep.req.ctx]) := by
  rw [Active.receive, activate, Msg.gives]
  cases htb : rep.table? with
  | some tb =>
      have hop : ∀ type, rep.req.op ≠ .removeWatchesOp type := by
        intro type hop
        rw [Reply.table?, hop] at htb
        split_ifs at htb
        cases hrc : rep.rc <;> simp [resultChecker] at htb
      have hact : Holds hashfn
          (zh.activateWatcher hashfn limit room tb rep.req.path (fn rep.req.ctx, rep.req.ctx)) _ :=
        activateWatcher_spec hh room tb rep.req.path (fn rep.req.ctx, rep.req.ctx)
      rw [if_neg] at hact
      · refine ⟨?_, by simp [List.Subperm.refl]⟩
        cases hrep : rep.req.op with
        | removeWatchesOp type => exact absurd hrep (hop type)
        | _ => simpa [Watch.registration] using hact
      · intro hin
        obtain ⟨a, ha, heq⟩ := List.mem_map.mp hin
        refine hnew (List.mem_map.mpr ⟨a, ha, ?_⟩)
        simp only [Watch.registration, Registration.mk.injEq, Prod.mk.injEq] at heq
        exact heq.2.2.2
  | none =>
      dsimp only
      have hsame : ∀ {A' : List Watch}, A'.Sublist A →
          (A'.map Watch.ctx ++ [rep.req.ctx]).Subperm (A.map Watch.ctx ++ [rep.req.ctx]) :=
        fun hsub => ((hsub.map _).append_right _).subperm
      cases hop : rep.req.op with
      | removeWatchesOp type =>
          cases hrc : rep.rc with
          | zok =>
              have hrem := removeWatchers_spec hh rep.req.path type none
              rw [List.filter_map] at hrem
              refine ⟨?_, hsame List.filter_sublist⟩
              dsimp only
              rw [List.filter_congr fun a _ => ?_]
              · exact hrem
              · exact decide_eq_decide.mpr (by simp [Watch.registration])
          | _ => exact ⟨hh, hsame (List.Sublist.refl A)⟩
      | _ => exact ⟨hh, hsame (List.Sublist.refl A)⟩

/-- A message is received: the tables are as the session says, and the watchers collected are the
ones that the message is for. -/
lemma receive_spec (limit : ℕ → ℕ) (watcher : F × Ptr)
    (hh : Holds hashfn zh (A.map (Watch.registration fn))) {m : Msg}
    (hnd : (A.map Watch.ctx ++ m.asks).Nodup) (hf : Feeds A (m :: ms) B) (room : Bool) :
    (zh.receive hashfn limit watcher fn room m).1 = m.watchers fn ∧
      ∃ A', Holds hashfn (zh.receive hashfn limit watcher fn room m).2
          (A'.map (Watch.registration fn)) ∧ Feeds A' ms B ∧
        (A'.map Watch.ctx ++ m.gives).Subperm (A.map Watch.ctx ++ m.asks) := by
  cases hf with
  | @reply _ _ rep _ hrest =>
      have hnew : rep.req.ctx ∉ A.map Watch.ctx := fun hin =>
        (List.nodup_append'.mp hnd).2.2 hin List.mem_cons_self
      obtain ⟨hh', hsub⟩ := receive_reply limit watcher hh hnew room
      exact ⟨rfl, _, hh', hrest, hsub⟩
  | @event _ _ eve q _ ne hrest =>
      have hsession : eve ≠ .session := by
        rintro rfl
        exact ne rfl
      obtain ⟨hlist, hh'⟩ := collectWatchers_spec hh watcher hsession q
      have hnodup : (collectWatchers eve q A).Nodup := by
        have hA := (perm_fired eve q A).nodup_iff.mpr (List.nodup_append'.mp hnd).1
        exact (List.nodup_append'.mp hA).2.1
      refine ⟨?_, _, ?_, hrest, ?_⟩
      · rw [Active.receive, hlist, flatMap_watchersAt, Msg.watchers]
        refine List.Nodup.dedup (hnodup.map fun x y hxy => ?_)
        exact (Prod.mk.inj hxy).2
      · rw [List.filter_map] at hh'
        exact hh'
      · rw [Msg.gives, Msg.asks, List.append_nil]
        exact (perm_fired eve q A).subperm

/-! ## Every run -/

namespace Library

/-- The invariant. -/
structure Inv (hashfn : Path → UInt32) (fn : Ptr → F) (s : Library F) : Prop where
  wf : s.world.Wf
  results : s.results = (s.world.inbox.take s.results.length).map (Msg.watchers fn)
  view : ∃ A, Holds hashfn s.active (A.map (Watch.registration fn)) ∧
    Received A s.world s.results.length

variable {s s' : Library F}

/-- What a step can do. -/
lemma step_cases {a : Action} (hs : s.step hashfn limit watcher fn a = some s') :
    (∃ room m, s.world.inbox[s.results.length]? = some m ∧ s' = { s with
      active := (s.active.receive hashfn limit watcher fn room m).2
      results := s.results ++ [(s.active.receive hashfn limit watcher fn room m).1] }) ∨
    (∃ l results w', s.results = l :: results ∧ s.world.deliver = some w' ∧
      s' = { s with world := w', results := results }) ∨
    ∃ b w', b ≠ .deliver ∧ (∀ n order, b ≠ .loss n order) ∧ s.world.step b = some w' ∧
      s' = { s with world := w' } := by
  cases a with
  | receive room =>
      obtain ⟨m, hm, rfl⟩ := Option.map_eq_some_iff.mp hs
      exact .inl ⟨room, m, hm, rfl⟩
  | session b =>
      cases b with
      | deliver =>
          rw [Library.step] at hs
          cases hresults : s.results with
          | nil => simp [hresults] at hs
          | cons l results =>
              rw [hresults] at hs
              obtain ⟨w', hw, rfl⟩ := Option.map_eq_some_iff.mp hs
              exact .inr (.inl ⟨l, results, w', rfl, hw, rfl⟩)
      | loss n order => simp [Library.step] at hs
      | _ =>
          simp only [Library.step] at hs
          obtain ⟨w', hw, rfl⟩ := Option.map_eq_some_iff.mp hs
          refine .inr (.inr ⟨_, w', ?_, ?_, hw, rfl⟩)
          all_goals nofun

lemma Inv.receive (hi : Inv hashfn fn s) {m : Msg} (hm : s.world.inbox[s.results.length]? = some m)
    (room : Bool) : Inv hashfn fn { s with
      active := (s.active.receive hashfn limit watcher fn room m).2
      results := s.results ++ [(s.active.receive hashfn limit watcher fn room m).1] } := by
  obtain ⟨A, hh, hA⟩ := hi.view
  obtain ⟨hlt, hget⟩ := List.getElem?_eq_some_iff.mp hm
  have hdrop : s.world.inbox.drop s.results.length =
      m :: s.world.inbox.drop (s.results.length + 1) := by
    rw [List.drop_eq_getElem_cons hlt, hget]
  have htake : s.world.inbox.take (s.results.length + 1) =
      s.world.inbox.take s.results.length ++ [m] := by
    rw [List.take_succ_eq_append_getElem hlt, hget]
  have hfeeds := hA.feeds
  rw [hdrop] at hfeeds
  have hnd : (A.map Watch.ctx ++ m.asks).Nodup := by
    have hall := hA.nodup
    rw [holders, hdrop, List.flatMap_cons, List.append_assoc, ← List.append_assoc] at hall
    exact (List.nodup_append'.mp hall).1
  obtain ⟨hlist, A', hh', hfeeds', hsub⟩ :=
    receive_spec limit watcher hh hnd hfeeds room
  refine ⟨hi.wf, ?_, A', hh', ?_⟩
  · dsimp only
    rw [List.length_append, List.length_singleton, htake, List.map_append, ← hi.results, hlist]
    rfl
  · dsimp only
    rw [List.length_append, List.length_singleton]
    refine hA.of_subperm hlt hfeeds' (Nat.le_refl _) ?_
    rw [holders, holders, hdrop, htake, List.flatMap_cons, List.flatMap_append,
      List.flatMap_singleton]
    have hall := (List.subperm_append_right ((s.world.inbox.drop (s.results.length + 1)).flatMap
      Msg.asks ++ ((s.world.inbox.take s.results.length).flatMap Msg.gives ++
        s.world.client.sent.map Request.ctx))).mpr hsub
    refine (List.Perm.subperm ?_).trans (hall.trans (List.Perm.subperm ?_))
    all_goals
      refine List.perm_iff_count.mpr fun x => ?_
      simp only [List.count_append]
      omega

omit [DecidableEq F] in
lemma Inv.deliver (hi : Inv hashfn fn s) {l : List (F × Ptr)} {results : List (List (F × Ptr))}
    (hresults : s.results = l :: results) {w' : World} (hs : s.world.deliver = some w') :
    Inv hashfn fn { s with world := w', results := results } := by
  obtain ⟨A, hh, hA⟩ := hi.view
  have hlen : s.results.length = results.length + 1 := by rw [hresults, List.length_cons]
  rw [hlen] at hA
  obtain ⟨hA', m, ms, hin, hin'⟩ := hA.deliver hi.wf hs
  refine ⟨hi.wf.deliver hs, ?_, A, hh, hA'⟩
  have hall := hi.results
  rw [hlen, hresults, hin, List.take_succ_cons, List.map_cons] at hall
  dsimp only
  rw [hin']
  exact (List.cons.inj hall).2

lemma Inv.step (hi : Inv hashfn fn s) {a : Action}
    (hs : s.step hashfn limit watcher fn a = some s') : Inv hashfn fn s' := by
  obtain ⟨room, m, hm, rfl⟩ | ⟨l, results, w', hresults, hw, rfl⟩ |
    ⟨b, w', hdel, hloss, hw, rfl⟩ := step_cases hs
  · exact hi.receive hm room
  · exact hi.deliver hresults hw
  · obtain ⟨A, hh, hA⟩ := hi.view
    obtain ⟨hA', htake⟩ := hA.step hdel hloss hw
    refine ⟨hi.wf.step hw, ?_, A, hh, hA'⟩
    dsimp only
    rw [htake]
    exact hi.results

/-- The session takes its own steps. -/
lemma reach_world {ok : Library F → Action → Prop} {s₀ : Library F}
    (hr : Reach (step hashfn limit watcher fn) ok s₀ s) :
    Reach World.step (fun _ _ => True) s₀.world s.world := by
  induction hr with
  | refl => exact .refl
  | tail _ _ hs ih =>
      obtain ⟨room, m, -, rfl⟩ | ⟨l, results, w', -, hw, rfl⟩ | ⟨b, w', -, -, hw, rfl⟩ :=
        step_cases hs
      · exact ih
      · exact ih.tail (a := .deliver) trivial hw
      · exact ih.tail trivial hw

omit [DecidableEq F] in
lemma inv_start (t : Tree) {ht : ZkHashtable Path (F × Ptr)}
    (hnew : ZkHashtable.create limit = some ht) : Inv hashfn fn (start t ht) where
  wf := World.wf_start t
  results := rfl
  view := ⟨[], holds_create hnew, le_refl _, .nil, List.nodup_nil,
    fun _ hx => absurd hx List.not_mem_nil⟩

lemma inv_of_reach (t : Tree) {ht : ZkHashtable Path (F × Ptr)}
    (hnew : ZkHashtable.create limit = some ht) {ok : Library F → Action → Prop}
    (hr : Reach (step hashfn limit watcher fn) ok (start t ht) s) : Inv hashfn fn s :=
  hr.invariant (inv_start t hnew) fun _ _ _ hi _ hs => hi.step hs

omit [DecidableEq F] in
/-- All messages have been received. -/
lemma Inv.holds_of_received (hi : Inv hashfn fn s)
    (hall : s.results.length = s.world.inbox.length) :
    Holds hashfn s.active (s.world.armed.map (Watch.registration fn)) := by
  obtain ⟨A, hh, hA⟩ := hi.view
  have hfeeds := hA.feeds
  rw [hall, List.drop_length] at hfeeds
  cases hfeeds
  exact hh

/-- The load limits of `hashtable.c`, rounded up exactly; the source rounds in `float`. -/
def loads (size : ℕ) : ℕ := (size * 65 + 99) / 100

/-- In every run, whatever the hash function and the load limits are and whenever memory is short,
the completion thread is given for each event the watchers that the session says; and when all that
the server has sent has been received, the tables have the watches that are armed, and no others. -/
theorem collected_as_sent (hashfn : Path → UInt32) (limit : ℕ → ℕ) (watcher : F × Ptr)
    (fn : Ptr → F) (t : Tree) {ht : ZkHashtable Path (F × Ptr)}
    (hnew : ZkHashtable.create limit = some ht) {ok : Library F → Action → Prop}
    (hr : Reach (step hashfn limit watcher fn) ok (start t ht) s) :
    Reach World.step (fun _ _ => True) (World.start t) s.world ∧
      s.results = (s.world.inbox.take s.results.length).map (Msg.watchers fn) ∧
      (s.results.length = s.world.inbox.length →
        Holds hashfn s.active (s.world.armed.map (Watch.registration fn))) := by
  have hi := inv_of_reach t hnew hr
  exact ⟨reach_world hr, hi.results, hi.holds_of_received⟩

/-- `/p` is being watched, and is created. -/
lemma exists_created : ∃ ht s, ZkHashtable.create loads = some ht ∧
    Reach (step stringHashDjb2 loads (false, 0) fun _ => true) (fun _ _ => True)
      (start Tree.empty ht) s ∧
    s.results = [[], [(true, 0)]] ∧ s.world.inbox.length = 2 := by
  obtain ⟨s, hr, hs⟩ := exists_reach_of_exec
    (step stringHashDjb2 loads (false, 0) fun _ => true) (fun _ _ => True)
    (start Tree.empty ((ZkHashtable.create loads).get rfl))
    [.session (.watchPath ['/', 'p'] 0), .session .serve, .receive true,
      .session (.create ['/', 'p'] none), .receive true]
    (fun s => (s.results, s.world.inbox.length)) ([[], [(true, 0)]], 2) (by decide +kernel)
  obtain ⟨hresults, hlen⟩ := Prod.mk.inj hs
  have hnew : ZkHashtable.create (κ := Path) (ω := Bool × Ptr) loads = some _ :=
    (Option.some_get rfl).symm
  exact ⟨_, s, hnew, hr, hresults, hlen⟩

theorem collected_as_sent_created : ∃ ht s, ZkHashtable.create loads = some ht ∧
    Reach (step stringHashDjb2 loads (false, 0) fun _ => true) (fun _ _ => True)
      (start Tree.empty ht) s ∧
    s.results = [[], [(true, 0)]] ∧
    s.results = (s.world.inbox.take s.results.length).map (Msg.watchers fun _ => true) ∧
    Holds stringHashDjb2 s.active (s.world.armed.map (Watch.registration fun _ => true)) := by
  obtain ⟨ht, s, hnew, hr, hresults, hlen⟩ := exists_created
  obtain ⟨-, hsent, hall⟩ := collected_as_sent stringHashDjb2 loads (false, 0) (fun _ => true)
    Tree.empty hnew hr
  refine ⟨ht, s, hnew, hr, hresults, hsent, hall ?_⟩
  rw [hlen, hresults]
  rfl

/-! ## The session with the tables comes to rest -/

/-- The steps of the IO thread, the server and the completion thread. -/
def Action.Own : Action → Prop
  | .receive _ => True
  | .session a => a.Internal

/-- The work of the session, and the messages that have not been received. -/
def work (s : Library F) : ℕ := 2 * s.world.work + (s.world.inbox.length - s.results.length)

/-- Every such step leaves less work. -/
lemma lowers : Lowers (step hashfn limit watcher fn) Action.Own (Inv hashfn fn) work := by
  intro s a s' hi ha hs
  refine ⟨hi.step hs, ?_⟩
  obtain ⟨A, -, hA⟩ := hi.view
  have hle := hA.le
  cases a with
  | receive room =>
      obtain ⟨m, hm, rfl⟩ := Option.map_eq_some_iff.mp hs
      have hlt := (List.getElem?_eq_some_iff.mp hm).1
      simp only [work, List.length_append, List.length_singleton]
      omega
  | session b =>
      rcases ha with rfl | rfl
      · obtain ⟨w', hw, rfl⟩ := Option.map_eq_some_iff.mp hs
        have hlt := World.work_serve hw
        obtain ⟨r, rs, -, rfl⟩ := World.serve_cases hw
        dsimp only at hlt
        simp only [work, List.length_append, List.length_singleton]
        omega
      · rw [step] at hs
        cases hresults : s.results with
        | nil => simp [hresults] at hs
        | cons l results =>
            rw [hresults] at hs
            obtain ⟨w', hw, rfl⟩ := Option.map_eq_some_iff.mp hs
            have hlt := hi.wf.work_deliver hw
            obtain ⟨m, ms, hin, rfl⟩ := World.deliver_cases hw
            simp only [work, hin, hresults, List.length_cons]
            omega

/-- At rest nothing is in flight and nothing has been received that is not handled. -/
lemma settled_iff (hi : Inv hashfn fn s) :
    Settled (step hashfn limit watcher fn) Action.Own s ↔ s.world.Quiescent ∧ s.results = [] := by
  obtain ⟨A, -, hA⟩ := hi.view
  have hle := hA.le
  constructor
  · intro hset
    have hresults : s.results = [] := by
      cases hresults : s.results with
      | nil => rfl
      | cons l results =>
          have hdeliver := hset (.session .deliver) (Or.inr rfl)
          rw [step, hresults] at hdeliver
          have hnil := Option.map_eq_none_iff.mp hdeliver
          cases hin : s.world.inbox with
          | nil => simp [hin, hresults] at hle
          | cons m ms => simp [World.deliver, hin] at hnil
    refine ⟨⟨?_, ?_⟩, hresults⟩
    · have hserve := Option.map_eq_none_iff.mp (hset (.session .serve) (Or.inl rfl))
      cases hsent : s.world.client.sent with
      | nil => rfl
      | cons r rs => simp [World.step, World.serve, hsent] at hserve
    · have hreceive := Option.map_eq_none_iff.mp (hset (.receive true) trivial)
      rw [hresults] at hreceive
      simpa using hreceive
  · rintro ⟨⟨hsent, hin⟩, hresults⟩ a ha
    cases a with
    | receive room => simp [step, hin]
    | session b =>
        rcases ha with rfl | rfl
        · simp [step, World.step, World.serve, hsent]
        · simp [step, hresults]

/-- When nothing comes from outside the session comes to rest with the tables: from a state that
meets the invariant no run of it is longer than the work that is left, some run ends with nothing in
flight, and then the tables have the watches that are armed. -/
theorem tables_settle (hashfn : Path → UInt32) (limit : ℕ → ℕ) (watcher : F × Ptr) (fn : Ptr → F)
    (hi : Inv hashfn fn s) :
    (∀ acts s', Runs (step hashfn limit watcher fn) s acts s' → (∀ a ∈ acts, a.Own) →
      acts.length ≤ s.work) ∧
    ∃ acts s', Runs (step hashfn limit watcher fn) s acts s' ∧ (∀ a ∈ acts, a.Own) ∧
      s'.world.Quiescent ∧ s'.results = [] ∧
      Holds hashfn s'.active (s'.world.armed.map (Watch.registration fn)) := by
  constructor
  · intro acts s' h hown
    exact (Nat.le_add_right _ _).trans (lowers.runs hi h hown).2
  · obtain ⟨acts, s', h, hown, hset⟩ := lowers.exists_settled hi
    have hi' := (lowers.runs hi h hown).1
    obtain ⟨hq, hresults⟩ := (settled_iff hi').mp hset
    refine ⟨acts, s', h, hown, hq, hresults, hi'.holds_of_received ?_⟩
    rw [hresults, hq.2]
    rfl

theorem tables_settle_created : ∃ s : Library Bool, s.results.length = 2 ∧
    ∃ acts s', Runs (step stringHashDjb2 loads (false, 0) fun _ => true) s acts s' ∧
      (∀ a ∈ acts, a.Own) ∧ s'.world.Quiescent ∧ s'.results = [] ∧
      Holds stringHashDjb2 s'.active (s'.world.armed.map (Watch.registration fun _ => true)) := by
  obtain ⟨ht, s, hnew, hr, hresults, -⟩ := exists_created
  refine ⟨s, by rw [hresults]; rfl, ?_⟩
  exact (tables_settle stringHashDjb2 loads (false, 0) (fun _ => true)
    (inv_of_reach Tree.empty hnew hr)).2

end Library

end tables

end ConfigMonitor
