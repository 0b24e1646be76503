/-
# What the callbacks are told is true

Whatever the session delivers was read off the tree at some moment, and the messages are
delivered in the order in which they were sent.  So each call of a callback has a position in
the history of the tree at which what it says is true, and the positions never go back.
-/
import ConfigMonitor.Monitor.Ownership
import ConfigMonitor.Lib.History

namespace ConfigMonitor

open History

/-- The call reports what the tree holds. -/
def Call.TrueIn (k : Call) (t : Tree) : Prop :=
  match k with
  | .watch _ p .changed v => t.get p = some v
  | .watch _ p .del _ => t.get p = none
  | .watchSub _ .changed q v => t.get q = some v
  | .watchSub _ .del q _ => t.get q = none
  | .done _ _ => True

/-- The callback that a call is for. -/
def Call.cb : Call → Cb
  | .watch cb _ _ _ | .watchSub cb _ _ _ | .done cb _ => cb

/-- The message says what the tree holds. -/
def Msg.TrueIn (m : Msg) (t : Tree) : Prop :=
  match m with
  | .reply rep =>
      match rep.req.op with
      | .existsOp => rep.rc ≠ .zok → t.get rep.req.path = none
      | .getDataOp => rep.rc = .zok → t.get rep.req.path = some rep.val
      | _ => True
  | .event eve q _ => eve = .deleted → t.get q = none

/-! ## Handlers -/

namespace Client

/-- The calls a handler makes are true in every tree that `S` holds of. -/
def Tells (S : Tree → Prop) (c c' : Client) : Prop :=
  ∃ ks, c'.calls = c.calls ++ ks ∧ ∀ k ∈ ks, ∀ t, S t → k.TrueIn t

variable {S : Tree → Prop} {c c' c'' : Client} {x : Ptr}

lemma tells_of_eq (h : c'.calls = c.calls) : Tells S c c' := ⟨[], by simp [h], by simp⟩

lemma Tells.trans (h₁ : Tells S c c') (h₂ : Tells S c' c'') : Tells S c c'' := by
  obtain ⟨ks₁, hks₁, htrue₁⟩ := h₁
  obtain ⟨ks₂, hks₂, htrue₂⟩ := h₂
  refine ⟨ks₁ ++ ks₂, by rw [hks₂, hks₁, List.append_assoc], fun k hk => ?_⟩
  exact (List.mem_append.mp hk).elim (htrue₁ k) (htrue₂ k)

lemma tells_call {k : Call} (hk : ∀ t, S t → k.TrueIn t) : Tells S c (c.call k) :=
  ⟨[k], rfl, fun k' hk' => by rw [List.mem_singleton.mp hk']; exact hk⟩

lemma tells_runExists {cb : ExistsCallback} {rc : ZooError} {eve : ZkEvent}
    (hS : ∀ t, S t → rc ≠ .zok → t.get cb.path = none) : Tells S c (c.runExists cb rc eve) := by
  cases cb with
  | watchPath cb p =>
      rw [runExists]
      split_ifs with hdel
      · exact tells_call fun t ht => hS t ht hdel.1
      · exact tells_of_eq (by simp)
      · exact tells_of_eq rfl
  | watchSubPath cb pfx =>
      rw [runExists]
      split_ifs <;> exact tells_of_eq (by simp)

lemma tells_runGet {cb : GetCallback} {rc : ZooError} {eve : ZkEvent} {path : Path} {val : Data}
    (hcb : ∀ cb' p, cb = .watchPath cb' p → path = p)
    (hdel : ∀ t, S t → rc ≠ .zok → eve = .deleted → t.get path = none)
    (hval : ∀ t, S t → rc = .zok → t.get path = some val) :
    Tells S c (c.runGet cb rc eve path val) := by
  cases cb with
  | watchPath cb p =>
      rw [runGet]
      split_ifs with hrc
      · exact tells_call fun t ht => hcb cb p rfl ▸ hval t ht hrc
      · exact tells_of_eq rfl
  | monitor cb pfx =>
      rw [runGet]
      split_ifs with hd hrc
      · exact tells_call fun t ht => hdel t ht hd.1 hd.2
      · exact tells_call fun t ht => hval t ht hrc
      · exact tells_of_eq rfl

lemma tells_runOperate (c : Client) (cb : OperateCallback) (rc : ZooError) :
    Tells S c (c.runOperate cb rc) := by
  rw [runOperate]
  split <;> exact ⟨[.done cb.cb rc], rfl, by simp [Call.TrueIn]⟩

lemma tells_runChildren (c : Client) (cb : ChildrenCallback) (rc : ZooError)
    (subPaths : List Str) : Tells S c (c.runChildren cb rc subPaths) := by
  cases cb with
  | watchSubPath cb pfx =>
      rw [runChildren]
      split_ifs
      · exact tells_of_eq rfl
      · exact tells_of_eq (calls_runListing c cb pfx subPaths)
  | removeWatches cb p =>
      rw [runChildren]
      split_ifs
      · exact tells_runOperate c cb rc
      · refine tells_of_eq ?_
        dsimp only
        split <;> simp [zooAremoveAllWatches]

/-- The completion of an answer passes on what the answer says. -/
lemma tells_onReply {rep : Reply} (hwf : c.HeapWf)
    (h : c.Holds rep.req.ctx (·.For rep.req)) :
    Tells (Msg.TrueIn (.reply rep)) c (c.onReply rep) := by
  obtain ⟨d, hd, hfor⟩ := h
  have hw := hwf _ _ hd
  rw [onReply, hd]
  cases d with
  | existsData d =>
      refine tells_runExists fun t ht hrc => ?_
      rw [Msg.TrueIn, hfor.1] at ht
      rw [hfor.2.1]
      exact ht hrc
  | wget d =>
      have hget : Tells (Msg.TrueIn (.reply rep)) c
          (c.runGet d.cb rep.rc d.eve d.path rep.val) := by
        refine tells_runGet ?_ ?_ fun t ht hrc => ?_
        · -- the value that is told is the one of the path of the callback
          rintro cb' p hcb
          rcases d with ⟨_ | _, path, adv, eve⟩
          · obtain ⟨-, rfl⟩ := GetCallback.watchPath.inj hcb
            exact hw.1
          · simp at hcb
        · -- a deletion is never stored in the object of a read
          intro t _ _ heve
          rcases d with ⟨_ | _, path, adv, eve⟩
          · exact absurd heve hw.2.2
          · exact absurd heve hw.2
        · rw [Msg.TrueIn, hfor.1] at ht
          rw [hfor.2.1]
          exact ht hrc
      dsimp only
      rw [getCompletion]
      split_ifs
      · exact hget
      · exact hget.trans (tells_of_eq rfl)
  | getChildren d =>
      dsimp only
      rw [childrenCompletion]
      split_ifs
      · exact tells_runChildren c _ _ _
      · exact (tells_runChildren c _ _ _).trans (tells_of_eq rfl)
  | operate cb => exact (tells_runOperate c cb _).trans (tells_of_eq rfl)
  | removeChain cb subs =>
      dsimp only
      rw [removeChainCompletion]
      split
      · exact (tells_runOperate c cb _).trans (tells_of_eq rfl)
      · exact tells_of_eq (by simp [zooAremoveAllWatches])
      · exact tells_of_eq (by simp [zooAremoveAllWatches])

/-- A watcher makes a call for a deletion only. -/
lemma tells_onEvent {eve : ZkEvent} {q : Path} {ctxs : List Ptr} (c : Client) (x : Ptr) :
    Tells (Msg.TrueIn (.event eve q ctxs)) c (c.onEvent eve q x) := by
  rw [onEvent]
  split
  · rw [existsWatcher]
    split_ifs <;> exact tells_of_eq (by simp [zooAwexists])
  · rename_i d hd
    rw [getWatcher]
    split_ifs with hs hdel
    · exact tells_of_eq rfl
    · have hcall : Tells (Msg.TrueIn (.event eve q ctxs)) c
          (c.runGet d.cb .znonode .deleted q none) := by
        cases d.cb with
        | watchPath cb p => exact tells_of_eq rfl
        | monitor cb pfx => exact tells_call fun t ht => ht hdel
      exact hcall.trans (tells_of_eq (by simp))
    · exact tells_of_eq (by simp [zooAwget])
  · rw [childrenWatcher]
    split_ifs <;> exact tells_of_eq (by simp [zooAwgetChildren2])
  · exact tells_of_eq rfl

lemma tells_onEvent_foldl {eve : ZkEvent} {q : Path} {ctxs : List Ptr} (xs : List Ptr)
    (c : Client) : Tells (Msg.TrueIn (.event eve q ctxs)) c (xs.foldl (onEvent eve q) c) := by
  induction xs generalizing c with
  | nil => exact tells_of_eq rfl
  | cons x xs ih => exact (tells_onEvent c x).trans (ih _)

end Client

/-! ## The statements in flight -/

namespace World

variable {w w' : World} {h : List Tree}

/-- What has been told and what is on its way, in order. -/
def statements (w : World) : List (Tree → Prop) :=
  w.client.calls.map Call.TrueIn ++ w.inbox.map Msg.TrueIn

lemma explained_fire {eve : ZkEvent} {q : Path} (hlast : h.getLast? = some w.tree)
    (heve : eve = .deleted → w.tree.get q = none) (he : Explained h 0 w.statements) :
    Explained h 0 (w.fire eve q).statements := by
  rw [fire]
  split
  · exact he
  · rename_i x xs _
    have hpos : 0 < h.length := List.length_pos_iff.mpr (by rintro rfl; simp at hlast)
    have happ := he.append_last (P := Msg.TrueIn (.event eve q (x :: xs))) hlast heve hpos
    simpa [statements] using happ

/-- The answer of the server is true when it is given. -/
lemma trueIn_answer (t : Tree) (armed : List Watch) (r : Request) :
    (Msg.reply (answer t armed r)).TrueIn t := by
  rw [Msg.TrueIn, answer_req]
  cases hop : r.op with
  | existsOp =>
      dsimp only
      rw [answer_existsOp hop]
      intro hrc
      cases hget : t.get r.path with
      | some v => simp [hget] at hrc
      | none => rfl
  | getDataOp =>
      dsimp only
      rw [answer_getDataOp hop]
      intro hrc
      cases hget : t.get r.path with
      | some v => simp
      | none => simp [hget] at hrc
  | getChildrenOp => trivial
  | removeWatchesOp type => trivial

/-- The step of a run keeps the statements explained by the history. -/
lemma explained_step {a : Action} (hwf : w.Wf) (hloss : ∀ n order, a ≠ .loss n order)
    (he : Explained h 0 w.statements) (hs : w.step a = some w') :
    Explained (h ++ [w'.tree]) 0 w'.statements := by
  have hlast : ∀ t : Tree, (h ++ [t]).getLast? = some t := fun t => by simp
  have hpos : ∀ t : Tree, 0 < (h ++ [t]).length := fun t => by simp
  -- a step that makes no call and sends no message adds the tree of now only
  have hcall : ∀ c' : Client, c'.calls = w.client.calls →
      Explained (h ++ [w.tree]) 0 ({ w with client := c' } : World).statements := by
    intro c' hc
    have := he.extend [w.tree]
    rwa [statements, ← hc] at this
  cases a with
  | create q v =>
      obtain ⟨t, ht, rfl⟩ := Option.map_eq_some_iff.mp hs
      rw [tree_fire, tree_fire]
      refine explained_fire (by rw [tree_fire]; exact hlast t) (by simp) ?_
      exact explained_fire (w := { w with tree := t }) (hlast t) (by simp) (he.extend [t])
  | set q v =>
      obtain ⟨t, ht, rfl⟩ := Option.map_eq_some_iff.mp hs
      rw [tree_fire]
      exact explained_fire (w := { w with tree := t }) (hlast t) (by simp) (he.extend [t])
  | delete q =>
      obtain ⟨t, ht, rfl⟩ := Option.map_eq_some_iff.mp hs
      rw [tree_fire, tree_fire]
      refine explained_fire (by rw [tree_fire]; exact hlast t) (by simp) ?_
      -- the deletion that is told is true of the new tree
      refine explained_fire (w := { w with tree := t }) (hlast t) (fun _ => ?_) (he.extend [t])
      dsimp only
      rw [Tree.get_delete ht, if_pos rfl]
  | watchPath p cb =>
      obtain rfl := Option.some.inj hs
      exact hcall _ (by simp [Client.watchPath])
  | watchSubPath p cb =>
      obtain rfl := Option.some.inj hs
      exact hcall _ (by simp [Client.watchSubPath])
  | asyncRemoveWatches p type cb =>
      obtain rfl := Option.some.inj hs
      refine hcall _ ?_
      cases type <;>
        simp [Client.asyncRemoveWatches, Client.asyncRemoveWatchesCppzk,
          Client.zooAremoveAllWatches]
  | serve =>
      obtain ⟨r, rs, -, rfl⟩ := serve_cases hs
      have happ := (he.extend [w.tree]).append_last (hlast w.tree)
        (trueIn_answer w.tree w.armed r) (hpos w.tree)
      simpa [statements] using happ
  | deliver =>
      obtain ⟨m, ms, hin, rfl⟩ := deliver_cases hs
      have htells : Client.Tells m.TrueIn w.client (w.client.process m) := by
        cases m with
        | reply rep =>
            exact Client.tells_onReply hwf.heap (hwf.reply rep (hin ▸ List.mem_cons_self))
        | event eve q ctxs => exact Client.tells_onEvent_foldl ctxs w.client
      -- the calls take the place of the message that they pass on
      obtain ⟨ks, hks, htrue⟩ := htells
      have hext := he.extend [w.tree]
      rw [statements, hin, List.map_cons] at hext
      have hrep := hext.replace (ks.map Call.TrueIn) fun Q hQ t ht => by
        obtain ⟨k, hk, rfl⟩ := List.mem_map.mp hQ
        exact htrue k hk t ht
      simpa [statements, hks] using hrep
  | loss n order => exact absurd rfl (hloss n order)

/-- The statements of a run are explained by the trees it goes through. -/
lemma explained_of_trace {t : Tree} {ok : World → Action → Prop} {ws : List World}
    (hok : ∀ w a, ok w a → ∀ n order, a ≠ .loss n order) (hr : Run.Trace step ok (start t) ws w) :
    Explained (ws.map World.tree) 0 w.statements := by
  induction hr with
  | init => trivial
  | tail htr hok' hs ih =>
      rw [List.map_append]
      exact explained_step (wf_of_reach htr.reach) (hok _ _ hok') ih hs

end World

namespace Truthful

/-- The steps of a session without lost connections. -/
def Allowed (_ : World) : Action → Prop
  | .loss .. => False
  | _ => True

instance (w : World) : DecidablePred (Allowed w)
  | .loss .. => instDecidableFalse
  | .create .. | .set .. | .delete _ | .watchPath .. | .watchSubPath .. | .asyncRemoveWatches ..
  | .serve | .deliver => instDecidableTrue

/-- The calls of each callback have positions in the history of the server, none before the
one of an earlier call, at which what they report is true. -/
theorem calls_explained {t : Tree} {ws : List World} {w : World}
    (hr : Run.Trace World.step Allowed (World.start t) ws w) (cb : Cb) :
    ∃ ks : List ℕ, ks.Pairwise (· ≤ ·) ∧
      List.Forall₂ (fun k call => ∃ t, (ws.map World.tree)[k]? = some t ∧ call.TrueIn t) ks
        (w.client.calls.filter fun call => call.cb = cb) := by
  have he := World.explained_of_trace (fun _ _ h n order hn => by rw [hn] at h; exact h) hr
  have hsub : ((w.client.calls.filter fun call => call.cb = cb).map Call.TrueIn).Sublist
      w.statements :=
    (List.filter_sublist.map _).trans (List.sublist_append_left _ _)
  obtain ⟨ks, -, hpw, hall⟩ := (he.sublist hsub).exists_positions
  exact ⟨ks, hpw, hall⟩

/-- Two subscriptions with one callback, told of a creation, a child and a deletion. -/
theorem calls_explained_two : ∃ ws w,
    Run.Trace World.step Allowed (World.start Tree.empty) ws w ∧
    (w.client.calls.filter fun call => call.cb = 0).length = 3 ∧
    ∃ ks : List ℕ, ks.Pairwise (· ≤ ·) ∧
      List.Forall₂ (fun k call => ∃ t, (ws.map World.tree)[k]? = some t ∧ call.TrueIn t) ks
        (w.client.calls.filter fun call => call.cb = 0) := by
  obtain ⟨w, hr, hw⟩ := Run.exists_reach_of_exec World.step Allowed
    (World.start Tree.empty)
    [.watchPath ['/', 'p'] 0, .watchSubPath ['/', 'p'] 0, .create ['/', 'p'] none,
      .create ['/', 'p', '/', 'c'] (some ['v']), .serve, .serve, .deliver, .deliver, .serve,
      .serve, .deliver, .deliver, .serve, .deliver, .delete ['/', 'p', '/', 'c'], .deliver]
    (fun w => (w.client.calls.filter fun call => call.cb = 0).length) 3 rfl
  obtain ⟨ws, htr⟩ := hr.exists_trace
  exact ⟨ws, w, htr, hw, calls_explained htr 0⟩

end Truthful

end ConfigMonitor
