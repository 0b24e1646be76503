/-
# After a removal

`async_remove_watches` takes away the watches that are armed when the server handles its
requests.  What the subscription has in flight is not touched: a value that is still being read
is reported after the removal has ended, and a notification that the client had not handled yet
arms the watch again.  A subscription is silent once a removal has ended at a moment when
everything it had started has come to rest.
-/
import ConfigMonitor.Removal.Frame
import ConfigMonitor.Monitor.Recorded
import ConfigMonitor.Monitor.WatchPath
import ConfigMonitor.WatchSubPath.Session

namespace ConfigMonitor

open Run

/-- The state in which the path has just been watched, on a fresh session. -/
def World.subscribed (t : Tree) (kind : WatchType) (p : Path) (cb : Cb) : World :=
  match kind with
  | .watchPath => World.watching t p cb
  | .watchSubPath => World.watchingSub t p cb

/-- The end of a removal, and not a call of a subscription. -/
def Call.Done : Call → Prop
  | .done .. => True
  | .watch .. | .watchSub .. => False

instance : DecidablePred Call.Done
  | .done .. => instDecidableTrue
  | .watch .. | .watchSub .. => instDecidableFalse

/-- The request is one of a removal. -/
def Request.Removes (r : Request) : Prop :=
  match r.op with
  | .removeWatchesOp _ => True
  | .getChildrenOp => r.watch = false
  | _ => False

instance (r : Request) : Decidable r.Removes := by
  unfold Request.Removes
  split <;> infer_instance

namespace Removal

/-- The steps of a session in which one subscription is removed. -/
def Allowed (kind : WatchType) (p : Path) (d : Cb) (a : Action) : Prop :=
  a.Plain ∨ a = .asyncRemoveWatches p kind d

instance (kind : WatchType) (p : Path) (d : Cb) : DecidablePred (Allowed kind p d)
  | .asyncRemoveWatches p' kind' d' =>
      decidable_of_iff (p' = p ∧ kind' = kind ∧ d' = d)
        (by simp [Allowed, Action.Plain, Action.External])
  | .serve => isTrue (Or.inl (Or.inr (Or.inl rfl)))
  | .deliver => isTrue (Or.inl (Or.inr (Or.inr rfl)))
  | .create .. | .set .. | .delete _ => isTrue (Or.inl (Or.inl trivial))
  | .watchPath .. | .watchSubPath .. | .loss .. =>
      isFalse (by simp [Allowed, Action.Plain, Action.External])

/-- Once a removal has ended without an error, no subscription calls back. -/
def Silent (calls : List Call) : Prop :=
  calls.Pairwise fun k k' => (∃ d, k = .done d .zok) → k'.Done

/-- A subscription that is removed stays silent. -/
def StaysSilent : Prop :=
  ∀ t kind p cb d acts w, (∀ a ∈ acts, Allowed kind p d a) →
    acts.count (.asyncRemoveWatches p kind d) ≤ 1 →
      Runs World.step (World.subscribed t kind p cb) acts w → Silent w.client.calls

/-! ## A value that is still being read -/

theorem not_staysSilent : ¬ StaysSilent := by
  intro h
  have hexec : (exec World.step (fun _ _ => True)
      (World.subscribed bareP .watchPath ['/', 'p'] 0)
      [.serve, .deliver, .serve, .deliver, .set ['/', 'p'] (some ['b']), .deliver, .serve,
        .asyncRemoveWatches ['/', 'p'] .watchPath 1, .serve, .deliver, .deliver, .serve,
        .deliver]).map (fun w => w.client.calls) =
      some [.watch 0 ['/', 'p'] .changed none, .done 1 .zok,
        .watch 0 ['/', 'p'] .changed (some ['b'])] := rfl
  obtain ⟨w, hw, hcalls⟩ := Option.map_eq_some_iff.mp hexec
  have hsilent := h bareP .watchPath ['/', 'p'] 0 1 _ w
    (by simp [Allowed, Action.Plain, Action.External]) (by decide) (runs_of_exec hw)
  rw [hcalls, Silent] at hsilent
  exact (List.pairwise_cons.mp (List.pairwise_cons.mp hsilent).2).1 _ List.mem_cons_self ⟨1, rfl⟩

/-! ## The exact condition on a step -/

/-- The message makes no subscription call back and sends nothing for one: an answer to a
removal, a read or a listing that has failed, a listing without children, or the notice of a
deletion for listings only. -/
def Inert (c : Client) : Msg → Prop
  | .reply rep => rep.req.Removes ∨
      rep.req.op = .getDataOp ∧ rep.rc ≠ .zok ∨
      rep.req.op = .getChildrenOp ∧ (rep.rc ≠ .zok ∨ rep.strings = [])
  | .event eve _ ctxs => eve = .deleted ∧ ∀ x ∈ ctxs, ∃ d ∈ c.heap x, d matches .getChildren _

/-- No watch is armed, no request of a subscription is in flight, and no message on its way has
anything to tell one. -/
structure AtRest (w : World) : Prop where
  armed : w.armed = []
  sent : ∀ r ∈ w.client.sent, r.Removes
  inbox : ∀ m ∈ w.inbox, Inert w.client m

/-- The answer ends a removal without an error. -/
def EndsOk (c : Client) : Msg → Prop
  | .reply rep => rep.rc = .zok ∧ (c.ends (.reply rep)).isSome
  | .event .. => False

/-- A removal ends without an error only when everything is at rest otherwise. -/
def Rests (w : World) (a : Action) : Prop :=
  a = .deliver → ∀ m ∈ w.inbox.head?, EndsOk w.client m → AtRest { w with inbox := w.inbox.tail }

instance (c : Client) (m : Msg) : Decidable (Inert c m) := by
  cases m <;> unfold Inert <;> infer_instance

instance (c : Client) (m : Msg) : Decidable (EndsOk c m) := by
  cases m <;> unfold EndsOk <;> infer_instance

instance (w : World) : Decidable (AtRest w) :=
  decidable_of_iff (w.armed = [] ∧ (∀ r ∈ w.client.sent, r.Removes) ∧
    ∀ m ∈ w.inbox, Inert w.client m) ⟨fun h => ⟨h.1, h.2.1, h.2.2⟩, fun h => ⟨h.1, h.2, h.3⟩⟩

instance (w : World) (a : Action) : Decidable (Rests w a) := by
  unfold Rests; infer_instance

/-! ## Handlers that tell the subscriptions nothing -/

/-- The handler sends requests of removals only and calls their callbacks only. -/
structure Mute (c c' : Client) : Prop where
  sent : ∃ rs, c'.sent = c.sent ++ rs ∧ ∀ r ∈ rs, r.Removes
  calls : ∃ ks, c'.calls = c.calls ++ ks ∧ ∀ k ∈ ks, k.Done

variable {c c' c'' : Client} {w w' : World} {x : Ptr}

lemma mute_of_eq (hsent : c'.sent = c.sent) (hcalls : c'.calls = c.calls) : Mute c c' :=
  ⟨⟨[], by simp [hsent], by simp⟩, ⟨[], by simp [hcalls], by simp⟩⟩

lemma Mute.trans (h₁ : Mute c c') (h₂ : Mute c' c'') : Mute c c'' := by
  obtain ⟨⟨rs₁, hs₁, hrs₁⟩, ks₁, hk₁, hks₁⟩ := h₁
  obtain ⟨⟨rs₂, hs₂, hrs₂⟩, ks₂, hk₂, hks₂⟩ := h₂
  refine ⟨⟨rs₁ ++ rs₂, by rw [hs₂, hs₁, List.append_assoc], fun r hr => ?_⟩,
    ⟨ks₁ ++ ks₂, by rw [hk₂, hk₁, List.append_assoc], fun k hk => ?_⟩⟩
  · exact (List.mem_append.mp hr).elim (hrs₁ r) (hrs₂ r)
  · exact (List.mem_append.mp hk).elim (hks₁ k) (hks₂ k)

/-- A request of a removal is sent, or refused by the library. -/
lemma mute_send {r : Request} (hr : r.Removes) : Mute c (c.send r) := by
  refine ⟨?_, ⟨[], by simp, by simp⟩⟩
  rw [Client.send]
  split_ifs
  · exact ⟨[r], rfl, by simpa using hr⟩
  · exact ⟨[], by simp, by simp⟩

lemma mute_runOperate (c : Client) (cb : OperateCallback) (rc : ZooError) :
    Mute c (c.runOperate cb rc) :=
  ⟨⟨[], by simp [sent_runOperate], by simp⟩,
    ⟨[.done cb.cb rc], calls_runOperate c cb rc, by simp [Call.Done]⟩⟩

lemma mute_asyncRemoveWatches (c : Client) (p : Path) (type : WatchType) (d : Cb) :
    Mute c (c.asyncRemoveWatches p type d) := by
  cases type with
  | watchPath => exact (mute_of_eq rfl rfl : Mute c (c.alloc _)).trans (mute_send trivial)
  | watchSubPath => exact (mute_of_eq rfl rfl : Mute c (c.alloc _)).trans (mute_send rfl)

/-- The listing a removal begins with is answered. -/
lemma mute_runChildren (c : Client) (cb : OperateCallback) (p : Path) (rc : ZooError)
    (subPaths : List Str) : Mute c (c.runChildren (.removeWatches cb p) rc subPaths) := by
  rw [Client.runChildren]
  split_ifs
  · exact mute_runOperate c cb rc
  · dsimp only
    split
    · exact (mute_of_eq rfl rfl : Mute c (c.alloc _)).trans (mute_send trivial)
    · exact (mute_of_eq rfl rfl : Mute c (c.alloc _)).trans (mute_send trivial)
    · exact mute_of_eq rfl rfl

/-- A listing without children asks for nothing. -/
lemma mute_runListing (c : Client) (cb : Cb) (pfx : Path) : Mute c (c.runListing cb pfx []) := by
  obtain ⟨rs, hsent, hpath, -⟩ := WatchSubPath.runListing_spec cb pfx c []
  have hfresh : WatchSubPath.fresh c pfx [] = [] := by
    rw [WatchSubPath.fresh]
    split <;> rfl
  rw [hfresh, List.filter_nil, List.map_nil, List.map_eq_nil_iff] at hpath
  exact mute_of_eq (by rw [hsent, hpath, List.append_nil]) (Client.calls_runListing c cb pfx [])

/-- The answer to a request of a removal. -/
lemma mute_onReply_of_removes {rep : Reply} (hwf : c.HeapWf)
    (h : c.Holds rep.req.ctx (·.For rep.req)) (hr : rep.req.Removes) :
    Mute c (c.onReply rep) := by
  obtain ⟨d, hd, hfor⟩ := h
  have hw := hwf _ _ hd
  rw [Request.Removes] at hr
  rw [Client.onReply, hd]
  cases d with
  | existsData d => rw [hfor.1] at hr; exact absurd hr id
  | wget d => rw [hfor.1] at hr; exact absurd hr id
  | getChildren d =>
      rw [hfor.1] at hr
      rcases d with ⟨⟨cb, pfx⟩ | ⟨cb, p⟩, path, adv⟩
      · exact absurd (hw.2.symm.trans hfor.2.2) (by simp [hr])
      · have hrun := mute_runChildren c cb p rep.rc rep.strings
        dsimp only
        rw [Client.childrenCompletion]
        split_ifs
        · exact hrun
        · exact hrun.trans (mute_of_eq rfl rfl)
  | operate cb => exact (mute_runOperate c cb rep.rc).trans (mute_of_eq rfl rfl)
  | removeChain cb subs =>
      dsimp only
      rw [Client.removeChainCompletion]
      split
      · exact (mute_runOperate c cb rep.rc).trans (mute_of_eq rfl rfl)
      · exact (mute_of_eq rfl rfl : Mute c (c.store _ _)).trans (mute_send trivial)
      · exact (mute_of_eq rfl rfl : Mute c (c.store _ _)).trans (mute_send trivial)

/-- A failed read stores no deletion, so it is passed over in silence. -/
lemma mute_onReply_of_read {rep : Reply} (hwf : c.HeapWf)
    (h : c.Holds rep.req.ctx (·.For rep.req)) (hop : rep.req.op = .getDataOp)
    (hrc : rep.rc ≠ .zok) : Mute c (c.onReply rep) := by
  obtain ⟨d, hd, hfor⟩ := h
  have hw := hwf _ _ hd
  rw [Client.onReply, hd]
  cases d with
  | wget d =>
      have hrun : c.runGet d.cb rep.rc d.eve d.path rep.val = c := by
        rcases d with ⟨⟨cb, p⟩ | ⟨cb, pfx⟩, path, adv, eve⟩
        · rw [Client.runGet, if_neg hrc]
        · rw [Client.runGet, if_neg fun hdel => hw.2 hdel.2, if_neg hrc]
      dsimp only
      rw [Client.getCompletion, hrun]
      split_ifs <;> exact mute_of_eq rfl rfl
  | existsData d => exact absurd (hop.symm.trans hfor.1) (by simp)
  | getChildren d => exact absurd (hop.symm.trans hfor.1) (by simp)
  | operate cb | removeChain cb subs =>
      obtain ⟨type, hop'⟩ := hfor.1
      exact absurd (hop.symm.trans hop') (by simp)

/-- A listing that has failed, or that is empty. -/
lemma mute_onReply_of_listing {rep : Reply} (h : c.Holds rep.req.ctx (·.For rep.req))
    (hop : rep.req.op = .getChildrenOp) (hrc : rep.rc ≠ .zok ∨ rep.strings = []) :
    Mute c (c.onReply rep) := by
  obtain ⟨d, hd, hfor⟩ := h
  rw [Client.onReply, hd]
  cases d with
  | getChildren d =>
      have hrun : Mute c (c.runChildren d.cb rep.rc rep.strings) := by
        cases d.cb with
        | watchSubPath cb pfx =>
            rw [Client.runChildren]
            split_ifs with hne
            · exact mute_of_eq rfl rfl
            · rw [hrc.resolve_left hne]
              exact mute_runListing c cb pfx
        | removeWatches cb p => exact mute_runChildren c cb p _ _
      dsimp only
      rw [Client.childrenCompletion]
      split_ifs
      · exact hrun
      · exact hrun.trans (mute_of_eq rfl rfl)
  | existsData d => exact absurd (hop.symm.trans hfor.1) (by simp)
  | wget d => exact absurd (hop.symm.trans hfor.1) (by simp)
  | operate cb | removeChain cb subs =>
      obtain ⟨type, hop'⟩ := hfor.1
      exact absurd (hop.symm.trans hop') (by simp)

/-- The watcher of a listing gives its object up when the node is deleted. -/
lemma mute_onEvent_foldl {q : Path} (ctxs : List Ptr) (c : Client)
    (h : ∀ x ∈ ctxs, ∀ d ∈ c.heap x, d matches .getChildren _) :
    Mute c (ctxs.foldl (Client.onEvent .deleted q) c) := by
  induction ctxs generalizing c with
  | nil => exact mute_of_eq rfl rfl
  | cons x ctxs ih =>
      have hstep : c.onEvent .deleted q x = c ∨ c.onEvent .deleted q x = c.release x := by
        rw [Client.onEvent]
        cases hd : c.heap x with
        | none => exact Or.inl rfl
        | some d =>
            have hlist := h x List.mem_cons_self d hd
            cases d with
            | getChildren d => exact Or.inr rfl
            | _ => simp at hlist
      rw [List.foldl_cons]
      rcases hstep with hstep | hstep
      · rw [hstep]
        exact ih c fun y hy => h y (List.mem_cons_of_mem _ hy)
      · rw [hstep]
        refine (mute_of_eq (by simp) (by simp) : Mute c (c.release x)).trans
          (ih _ fun y hy d hd => h y (List.mem_cons_of_mem _ hy) d ?_)
        -- what is still there was there before
        rw [Client.release] at hd
        split_ifs at hd
        · change d ∈ Function.update c.heap x none y at hd
          by_cases hyx : y = x
          · subst hyx
            simp at hd
          · rwa [Function.update_of_ne hyx] at hd
        · exact hd

/-- Nothing of a subscription comes of a message that is inert. -/
lemma mute_process (hwf : w.Wf) {m : Msg} (hm : m ∈ w.inbox) (hi : Inert w.client m) :
    Mute w.client (w.client.process m) := by
  cases m with
  | reply rep =>
      have hobj := hwf.reply rep hm
      rcases hi with hr | ⟨hop, hrc⟩ | ⟨hop, hrc⟩
      · exact mute_onReply_of_removes hwf.heap hobj hr
      · exact mute_onReply_of_read hwf.heap hobj hop hrc
      · exact mute_onReply_of_listing hobj hop hrc
  | event eve q ctxs =>
      obtain ⟨rfl, hctxs⟩ := hi
      refine mute_onEvent_foldl ctxs w.client fun x hx d hd => ?_
      obtain ⟨d', hd', hlist⟩ := hctxs x hx
      rwa [Option.mem_unique hd hd']

/-! ## Which message ends a removal -/

/-- The handler makes no call that reports the success of a removal. -/
def Unended (c c' : Client) : Prop :=
  ∃ ks, c'.calls = c.calls ++ ks ∧ ∀ d, Call.done d .zok ∉ ks

lemma unended_of_eq (h : c'.calls = c.calls) : Unended c c' := ⟨[], by simp [h], by simp⟩

lemma Unended.trans (h₁ : Unended c c') (h₂ : Unended c' c'') : Unended c c'' := by
  obtain ⟨ks₁, hk₁, hno₁⟩ := h₁
  obtain ⟨ks₂, hk₂, hno₂⟩ := h₂
  refine ⟨ks₁ ++ ks₂, by rw [hk₂, hk₁, List.append_assoc], fun d hd => ?_⟩
  exact (List.mem_append.mp hd).elim (hno₁ d) (hno₂ d)

lemma unended_call {k : Call} (hk : ¬ k.Done) : Unended c (c.call k) := by
  refine ⟨[k], rfl, fun d hd => hk ?_⟩
  rw [← List.mem_singleton.mp hd]
  trivial

lemma unended_runOperate {rc : ZooError} (hrc : rc ≠ .zok) (c : Client) (cb : OperateCallback) :
    Unended c (c.runOperate cb rc) := by
  refine ⟨[.done cb.cb rc], calls_runOperate c cb rc, fun d hd => hrc ?_⟩
  exact (Call.done.inj (List.mem_singleton.mp hd)).2.symm

lemma unended_runExists (c : Client) (cb : ExistsCallback) (rc : ZooError) (eve : ZkEvent) :
    Unended c (c.runExists cb rc eve) := by
  cases cb <;> rw [Client.runExists] <;> split_ifs <;> first
    | exact unended_call id
    | exact unended_of_eq (by simp)

lemma unended_runGet (c : Client) (cb : GetCallback) (rc : ZooError) (eve : ZkEvent)
    (path : Path) (val : Data) : Unended c (c.runGet cb rc eve path val) := by
  cases cb <;> rw [Client.runGet] <;> split_ifs <;> first
    | exact unended_call id
    | exact unended_of_eq rfl

lemma unended_runChildren (c : Client) (cb : ChildrenCallback) (rc : ZooError)
    (subPaths : List Str) : Unended c (c.runChildren cb rc subPaths) := by
  cases cb with
  | watchSubPath cb pfx =>
      rw [Client.runChildren]
      split_ifs
      · exact unended_of_eq rfl
      · exact unended_of_eq (Client.calls_runListing c cb pfx subPaths)
  | removeWatches cb p =>
      rw [Client.runChildren]
      split_ifs with hrc
      · exact unended_runOperate hrc c cb
      · refine unended_of_eq ?_
        dsimp only
        split <;> simp [Client.zooAremoveAllWatches]

/-- An answer that does not end a removal without an error. -/
lemma unended_onReply {rep : Reply} (h : ¬ EndsOk c (.reply rep)) :
    Unended c (c.onReply rep) := by
  rw [EndsOk, not_and] at h
  have hfree : ∀ {c₁ : Client}, Unended c c₁ → Unended c (c₁.free rep.req.ctx) :=
    fun h₁ => h₁.trans (unended_of_eq rfl)
  rw [Client.onReply]
  rw [Client.ends] at h
  split
  · exact unended_runExists c _ _ _
  · rw [Client.getCompletion]
    split_ifs
    · exact unended_runGet c _ _ _ _ _
    · exact hfree (unended_runGet c _ _ _ _ _)
  · rw [Client.childrenCompletion]
    split_ifs
    · exact unended_runChildren c _ _ _
    · exact hfree (unended_runChildren c _ _ _)
  · rename_i cb hd
    rw [hd] at h
    exact hfree (unended_runOperate (fun hrc => h hrc rfl) c cb)
  · rename_i cb subs hd
    rw [hd] at h
    rw [Client.removeChainCompletion]
    split
    · rename_i htail
      exact hfree (unended_runOperate (fun hrc => h hrc (by simp [htail])) c cb)
    · exact unended_of_eq (by simp [Client.zooAremoveAllWatches])
    · exact unended_of_eq (by simp [Client.zooAremoveAllWatches])
  · exact unended_of_eq rfl

/-- No notification ends a removal. -/
lemma unended_onEvent (c : Client) (eve : ZkEvent) (q : Path) (x : Ptr) :
    Unended c (c.onEvent eve q x) := by
  rw [Client.onEvent]
  split
  · rw [Client.existsWatcher]
    split_ifs <;> exact unended_of_eq (by simp [Client.zooAwexists])
  · rw [Client.getWatcher]
    split_ifs
    · exact unended_of_eq rfl
    · exact (unended_runGet c _ _ _ _ _).trans (unended_of_eq (Client.calls_release _ _))
    · exact unended_of_eq (by simp [Client.zooAwget])
  · rw [Client.childrenWatcher]
    split_ifs <;> exact unended_of_eq (by simp [Client.zooAwgetChildren2])
  · exact unended_of_eq rfl

lemma unended_process {m : Msg} (h : ¬ EndsOk c m) : Unended c (c.process m) := by
  cases m with
  | reply rep => exact unended_onReply h
  | event eve q ctxs =>
      rw [Client.process]
      clear h
      induction ctxs generalizing c with
      | nil => exact unended_of_eq rfl
      | cons x ctxs ih => exact (unended_onEvent c eve q x).trans ih

/-! ## What is at rest stays at rest -/

lemma AtRest.of_mute (h : AtRest w) (hm : Mute w.client c') {ms : List Msg}
    (hms : ms ⊆ w.inbox)
    (hheap : ∀ eve q ctxs, Msg.event eve q ctxs ∈ ms → ∀ x ∈ ctxs, c'.heap x = w.client.heap x) :
    AtRest { w with inbox := ms, client := c' } := by
  obtain ⟨rs, hs, hrs⟩ := hm.sent
  refine ⟨h.armed, fun r hr => ?_, fun m hm => ?_⟩
  · exact (List.mem_append.mp (hs ▸ hr)).elim (h.sent r) (hrs r)
  · have hi := h.inbox m (hms hm)
    cases m with
    | reply rep => exact hi
    | event eve q ctxs =>
        refine ⟨hi.1, fun x hx => ?_⟩
        rw [show ({ w with inbox := ms, client := c' } : World).client.heap x = w.client.heap x
          from hheap eve q ctxs hm x hx]
        exact hi.2 x hx

lemma AtRest.deliver (h : AtRest w) (hwf : w.Wf) (hs : w.deliver = some w') :
    AtRest w' ∧ Mute w.client w'.client := by
  obtain ⟨m, ms, hin, rfl⟩ := World.deliver_cases hs
  have hm : m ∈ w.inbox := hin ▸ List.mem_cons_self
  have hmute := mute_process hwf hm (h.inbox m hm)
  refine ⟨h.of_mute hmute (fun m' hm' => hin ▸ List.mem_cons_of_mem _ hm')
    fun eve q ctxs hm' x hx => ?_, hmute⟩
  exact hwf.heap_process hin (World.tokens_ne_nil_of_event (w := { w with inbox := ms }) hm' hx)

/-- The server answers requests of removals, which arm nothing. -/
lemma AtRest.serve (h : AtRest w) (hs : w.serve = some w') : AtRest w' := by
  obtain ⟨r, rs, hsent, rfl⟩ := World.serve_cases hs
  have hr := h.sent r (hsent ▸ List.mem_cons_self)
  have hnone : (answer w.tree w.armed r).table? = none := by
    rw [Reply.table?, answer_req]
    rw [Request.Removes] at hr
    split_ifs with hw
    · cases hop : r.op with
      | removeWatchesOp type => simp [resultChecker]
      | existsOp | getDataOp => rw [hop] at hr; exact absurd hr id
      | getChildrenOp =>
          rw [hop] at hr
          exact absurd (hr.symm.trans hw) (by simp)
    · rfl
  refine ⟨?_, fun r' hr' => h.sent r' (hsent ▸ List.mem_cons_of_mem _ hr'), fun m hm => ?_⟩
  · exact List.sublist_nil.mp (h.armed ▸ activate_sublist hnone w.armed)
  · rcases List.mem_append.mp hm with hm | hm
    · have hi := h.inbox m hm
      cases m with
      | reply rep => exact hi
      | event eve q ctxs => exact hi
    · rw [List.mem_singleton.mp hm]
      exact Or.inl (by rwa [answer_req])

/-- No watch is armed that a change could fire. -/
lemma AtRest.external (h : AtRest w) {a : Action} (ha : a.External) (hs : w.step a = some w') :
    AtRest w' ∧ w'.client = w.client := by
  refine World.external_invariant (P := fun w' => AtRest w' ∧ w'.client = w.client)
    (fun t => ⟨⟨h.armed, h.sent, h.inbox⟩, rfl⟩) ?_ ha hs
  intro w₁ eve q ⟨h₁, hclient⟩
  have hnil : collectWatchers eve q w₁.armed = [] := by
    rw [h₁.armed]
    cases eve <;> rfl
  rw [World.fire, hnil]
  exact ⟨h₁, hclient⟩

lemma AtRest.asyncRemoveWatches (h : AtRest w) (hwf : w.Wf) (p : Path) (type : WatchType)
    (d : Cb) : AtRest { w with client := w.client.asyncRemoveWatches p type d } := by
  refine h.of_mute (mute_asyncRemoveWatches w.client p type d) (List.Subset.refl _)
    fun eve q ctxs hm x hx => ?_
  exact (Client.effect_asyncRemoveWatches w.client p type d).heap_eq x (by simp)
    (hwf.lt_next (World.tokens_ne_nil_of_event hm hx))

/-! ## Every run -/

section Steps

variable {kind : WatchType} {p : Path} {d : Cb} {a : Action}

/-- What a step adds to the calls. -/
lemma calls_of_step (ha : Allowed kind p d a) (hs : w.step a = some w') (hne : a ≠ .deliver) :
    w'.client.calls = w.client.calls := by
  rcases ha with (ha | rfl | rfl) | rfl
  · rw [(World.changed_of_external ha hs).client]
  · obtain ⟨r, rs, -, rfl⟩ := World.serve_cases hs
    rfl
  · exact absurd rfl hne
  · obtain rfl := Option.some.inj hs
    cases kind with
    | watchPath => exact Client.calls_send _ _
    | watchSubPath => exact Client.calls_asyncGetSubPath _ _ _ _

lemma AtRest.step (h : AtRest w) (hwf : w.Wf) (ha : Allowed kind p d a)
    (hs : w.step a = some w') :
    AtRest w' ∧ ∃ ks, w'.client.calls = w.client.calls ++ ks ∧ ∀ k ∈ ks, k.Done := by
  by_cases hne : a = .deliver
  · subst hne
    obtain ⟨hrest, hmute⟩ := h.deliver hwf hs
    exact ⟨hrest, hmute.calls⟩
  · refine ⟨?_, [], by rw [calls_of_step ha hs hne, List.append_nil], by simp⟩
    rcases ha with (ha | rfl | rfl) | rfl
    · exact (h.external ha hs).1
    · exact h.serve hs
    · exact absurd rfl hne
    · exact Option.some.inj hs ▸ h.asyncRemoveWatches hwf p kind d

/-- The answer that ends a removal is one to a request of a removal. -/
lemma EndsOk.mute (hwf : w.Wf) {m : Msg} (hm : m ∈ w.inbox) (h : EndsOk w.client m) :
    Mute w.client (w.client.process m) := by
  cases m with
  | event eve q ctxs => exact absurd h id
  | reply rep =>
      obtain ⟨hrc, hends⟩ := h
      refine mute_onReply_of_removes hwf.heap (hwf.reply rep hm) ?_
      obtain ⟨d, hd, hfor⟩ := hwf.reply rep hm
      rw [Client.ends, hd] at hends
      rw [Request.Removes]
      cases d with
      | operate cb | removeChain cb subs =>
          obtain ⟨type, hop⟩ := hfor.1
          rw [hop]
          trivial
      | getChildren d =>
          rcases d with ⟨cb | ⟨cb, p⟩, path, adv⟩
          · simp at hends
          · simp [hrc] at hends
      | existsData d => simp at hends
      | wget d => simp at hends

/-- The calls made so far are in order, and if a removal has succeeded everything is at
rest. -/
structure Inv (w : World) : Prop where
  wf : w.Wf
  silent : Silent w.client.calls
  rest : ∀ d, Call.done d .zok ∈ w.client.calls → AtRest w

lemma inv_subscribed (t : Tree) (kind : WatchType) (p : Path) (cb : Cb) :
    Inv (World.subscribed t kind p cb) := by
  cases kind with
  | watchPath =>
      have hcalls : (World.subscribed t .watchPath p cb).client.calls = [] :=
        Client.calls_send _ _
      exact ⟨(World.wf_start t).of_call (Client.effect_watchPath Client.init p cb),
        by rw [hcalls]; exact List.Pairwise.nil, by simp [hcalls]⟩
  | watchSubPath =>
      have hcalls : (World.subscribed t .watchSubPath p cb).client.calls = [] :=
        Client.calls_send _ _
      exact ⟨(World.wf_start t).of_call (Client.effect_watchSubPath Client.init p cb),
        by rw [hcalls]; exact List.Pairwise.nil, by simp [hcalls]⟩

/-- More ends of removals may follow a success, and anything that is not one before the first. -/
lemma Silent.append {calls ks : List Call} (h : Silent calls)
    (hks : (∀ k ∈ ks, k.Done) ∨ (∀ d, Call.done d .zok ∉ calls) ∧ ∀ d, Call.done d .zok ∉ ks) :
    Silent (calls ++ ks) := by
  rw [Silent, List.pairwise_append]
  rcases hks with hks | ⟨hcalls, hks⟩
  · exact ⟨h, List.pairwise_of_forall_mem_list fun _ _ k' hk' _ => hks k' hk',
      fun _ _ k' hk' _ => hks k' hk'⟩
  · refine ⟨h, List.pairwise_of_forall_mem_list ?_, ?_⟩
    · rintro k hk k' - ⟨d, rfl⟩
      exact absurd hk (hks d)
    · rintro k hk k' - ⟨d, rfl⟩
      exact absurd hk (hcalls d)

lemma Inv.step (h : Inv w) (ha : Allowed kind p d a) (hok : Rests w a)
    (hs : w.step a = some w') : Inv w' := by
  have hwf := h.wf.step hs
  by_cases hend : ∃ d', Call.done d' .zok ∈ w.client.calls
  · -- a removal has succeeded before
    obtain ⟨d', hd'⟩ := hend
    obtain ⟨hrest, ks, hcalls, hks⟩ := (h.rest d' hd').step h.wf ha hs
    exact ⟨hwf, hcalls ▸ h.silent.append (Or.inl hks), fun _ _ => hrest⟩
  · push Not at hend
    by_cases hne : a = .deliver
    · subst hne
      obtain ⟨m, ms, hin, rfl⟩ := World.deliver_cases hs
      have hm : m ∈ w.inbox := hin ▸ List.mem_cons_self
      by_cases hok' : EndsOk w.client m
      · -- this answer is the one
        have hmute := hok'.mute h.wf hm
        obtain ⟨ks, hcalls, hks⟩ := hmute.calls
        have hrest := hok rfl m (by rw [hin]; rfl) hok'
        rw [hin, List.tail_cons] at hrest
        refine ⟨hwf, ?_, fun _ _ => hrest.of_mute hmute (List.Subset.refl _)
          fun eve q ctxs hm' x hx => h.wf.heap_process hin
            (World.tokens_ne_nil_of_event (w := { w with inbox := ms }) hm' hx)⟩
        exact hcalls ▸ h.silent.append (Or.inl hks)
      · obtain ⟨ks, hcalls, hno⟩ := unended_process hok'
        refine ⟨hwf, hcalls ▸ h.silent.append (Or.inr ⟨hend, hno⟩), fun d' hd' => ?_⟩
        exact (List.mem_append.mp (hcalls ▸ hd')).elim (absurd · (hend d')) (absurd · (hno d'))
    · have hcalls := calls_of_step ha hs hne
      exact ⟨hwf, hcalls ▸ h.silent, fun d' hd' => absurd (hcalls ▸ hd') (hend d')⟩

end Steps

/-- In every run in which a removal ends without an error only when everything is at rest, the
subscription stays silent from then on. -/
theorem silent_of_rests {t : Tree} {kind : WatchType} {p : Path} {cb d : Cb}
    (hr : Reach World.step (fun w a => Allowed kind p d a ∧ Rests w a)
      (World.subscribed t kind p cb) w) : Silent w.client.calls :=
  (hr.invariant (inv_subscribed t kind p cb)
    fun _ _ _ h hok hs => h.step hok.1 hok.2 hs).silent

/-- A subscription that nothing is in flight for is removed, and its child changes. -/
theorem silent_of_rests_treePC : ∃ w : World,
    w.client.calls = [.watchSub 0 .changed ['/', 'p', '/', 'c'] (some ['a']), .done 1 .zok] ∧
      w.tree.get ['/', 'p', '/', 'c'] = some (some ['b']) ∧ Silent w.client.calls := by
  obtain ⟨w, hr, hw⟩ := exists_reach_of_exec World.step
    (fun w a => Allowed .watchSubPath ['/', 'p'] 1 a ∧ Rests w a)
    (World.subscribed WatchSubPath.treePC .watchSubPath ['/', 'p'] 0)
    [.serve, .deliver, .serve, .deliver, .serve, .deliver,
      .asyncRemoveWatches ['/', 'p'] .watchSubPath 1, .serve, .deliver, .serve, .deliver, .serve,
      .deliver, .set ['/', 'p', '/', 'c'] (some ['b'])]
    (fun w => (w.client.calls, w.tree.get ['/', 'p', '/', 'c']))
    ([.watchSub 0 .changed ['/', 'p', '/', 'c'] (some ['a']), .done 1 .zok], some (some ['b']))
    (by decide +kernel)
  simp only [Prod.mk.injEq] at hw
  exact ⟨w, hw.1, hw.2, silent_of_rests hr⟩

end Removal

end ConfigMonitor
