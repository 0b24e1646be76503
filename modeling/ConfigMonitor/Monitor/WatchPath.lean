/-
# One `watch_path` subscription

The callback learns what became of a node from a pair: the error of the exists request that
re-arms the watch, and the event that caused it.  The two need not fit each other, since the
node can change again before the request is handled; the callback is then not told.
`FitsEvent` says when this does no harm, and a run that takes only such steps leaves the
callback in agreement with the server.
-/
import ConfigMonitor.Monitor.External
import ConfigMonitor.Lib.Queue

namespace ConfigMonitor

open Queue

/-- The state in which `watch_path(p, cb)` has just been called, on a fresh session. -/
def World.watching (t : Tree) (p : Path) (cb : Cb) : World :=
  { World.start t with client := Client.init.watchPath p cb }

namespace WatchPath

/-- The last call of `cb` agrees with what the server holds at `p`. -/
def Agrees (cb : Cb) (p : Path) (v : Option Data) (last : Option Call) : Prop :=
  match v with
  | some v => last = some (.watch cb p .changed v)
  | none => last = none ∨ last = some (.watch cb p .del none)

instance (cb : Cb) (p : Path) (v : Option Data) (last : Option Call) :
    Decidable (Agrees cb p v last) :=
  match v with
  | some v => inferInstanceAs (Decidable (last = some (.watch cb p .changed v)))
  | none => inferInstanceAs (Decidable (last = none ∨ last = some (.watch cb p .del none)))

/-- In every quiescent state the last call of the callback agrees with the server. -/
def Converges : Prop :=
  ∀ (t : Tree) (p : Path) (cb : Cb) (w : World),
    Run.Reach World.step (fun _ a => a.Plain) (World.watching t p cb) w → w.Quiescent →
      Agrees cb p (w.tree.get p) w.client.calls.getLast?

/-! ## A node created again before the deletion is noticed -/

/-- A tree with the node `/p`. -/
def treeP : Tree where
  nodes := [(root, none), (['/', 'p'], some ['a'])]
  nodup := by decide
  root_mem := by decide
  closed := by decide
  valid := by decide

theorem not_converges : ¬ Converges := by
  intro h
  obtain ⟨w, hr, hw⟩ := Run.exists_reach_of_exec World.step (fun _ a => a.Plain)
    (World.watching treeP ['/', 'p'] 0)
    [.serve, .deliver, .serve, .deliver, .delete ['/', 'p'], .deliver,
      .create ['/', 'p'] (some ['b']), .serve, .deliver]
    (fun w => (w.client.sent, w.inbox, w.tree.get ['/', 'p'], w.client.calls))
    ([], [], some (some ['b']), [.watch 0 ['/', 'p'] .changed (some ['a'])]) rfl
  obtain ⟨hsent, hin, hget, hcalls⟩ : w.client.sent = [] ∧ w.inbox = [] ∧
      w.tree.get ['/', 'p'] = some (some ['b']) ∧
      w.client.calls = [.watch 0 ['/', 'p'] .changed (some ['a'])] := by
    simpa only [Prod.mk.injEq] using hw
  have hag := h treeP ['/', 'p'] 0 w hr ⟨hsent, hin⟩
  rw [hget, hcalls] at hag
  exact absurd hag (by decide)

/-! ## The objects of one subscription -/

/-- The event the exists object of the subscription has stored. -/
def eveOf (c : Client) : ZkEvent :=
  match c.heap 0 with
  | some (.existsData d) => d.eve
  | _ => .dummy

/-- The userdata the subscription uses for its reads. -/
def reader (cb : Cb) (p : Path) : Userdata :=
  .wget { cb := .watchPath cb p, path := p, advanced := false }

/-- Object `0` is the exists object of the subscription, every other object is one of its
reads; a child event is never stored. -/
structure Solo (cb : Cb) (p : Path) (c : Client) : Prop where
  zero : ∃ eve, c.heap 0 = some (.existsData { cb := .watchPath cb p, eve := eve }) ∧
    eve ≠ .child ∧ eve ≠ .session
  other : ∀ x d, x ≠ 0 → c.heap x = some d → d = reader cb p
  next_pos : 0 < c.next

variable {cb : Cb} {p : Path} {c c' : Client} {w w' : World} {x : Ptr}

lemma Solo.heap_zero (h : Solo cb p c) :
    c.heap 0 = some (.existsData { cb := .watchPath cb p, eve := eveOf c }) := by
  obtain ⟨eve, h0, -⟩ := h.zero
  rw [eveOf, h0]

lemma Solo.eveOf_ne (h : Solo cb p c) : eveOf c ≠ .child ∧ eveOf c ≠ .session := by
  obtain ⟨eve, h0, hne⟩ := h.zero
  rwa [eveOf, h0]

lemma Solo.eq_of_holds (h : Solo cb p c) {P : Userdata → Prop} (hx : c.Holds x P) :
    (x = 0 ∧ P (.existsData { cb := .watchPath cb p, eve := eveOf c })) ∨
      (x ≠ 0 ∧ c.heap x = some (reader cb p) ∧ P (reader cb p)) := by
  obtain ⟨d, hd, hP⟩ := hx
  by_cases hx0 : x = 0
  · subst hx0
    obtain rfl := Option.some.inj (h.heap_zero.symm.trans hd)
    exact Or.inl ⟨rfl, hP⟩
  · obtain rfl := h.other x d hx0 hd
    exact Or.inr ⟨hx0, hd, hP⟩

/-- A request of the subscription is its exists request or one of its reads. -/
lemma Solo.request (h : Solo cb p c) {r : Request} (hr : c.Holds r.ctx (·.For r)) :
    (r.ctx = 0 ∧ r.op = .existsOp ∧ r.path = p ∧ r.watch = true) ∨
      (r.ctx ≠ 0 ∧ c.heap r.ctx = some (reader cb p) ∧ r.op = .getDataOp ∧ r.path = p ∧
        r.watch = false) := by
  rcases h.eq_of_holds hr with ⟨h0, hop, hpath, hw⟩ | ⟨h0, hd, hop, hpath, hw⟩
  · exact Or.inl ⟨h0, hop, hpath.symm, hw⟩
  · exact Or.inr ⟨h0, hd, hop, hpath.symm, hw.symm⟩

/-- A watch of the subscription is its exists watch. -/
lemma Solo.watch (h : Solo cb p c) {tb : Table} {q : Path} (hx : c.Holds x (·.ForWatch tb q)) :
    x = 0 ∧ tb ≠ .child ∧ q = p := by
  rcases h.eq_of_holds hx with ⟨h0, htb, hpath⟩ | ⟨-, -, -, -, hadv⟩
  · exact ⟨h0, htb, hpath.symm⟩
  · simp at hadv

lemma solo_init (cb : Cb) (p : Path) : Solo cb p (Client.init.watchPath p cb) := by
  have hheap : (Client.init.watchPath p cb).heap = Function.update (fun _ => none) 0
      (some (.existsData { cb := .watchPath cb p })) := by
    simp [Client.watchPath, Client.init]
  refine ⟨⟨.dummy, by rw [hheap, Function.update_self], by simp, by simp⟩, fun x d hx hd => ?_,
    by simp [Client.watchPath]⟩
  rw [hheap, Function.update_of_ne hx] at hd
  simp at hd

/-! ## What a message does -/

/-- The call that a message makes when it is handled, `eve` being the event stored then. -/
def tells (cb : Cb) (p : Path) (eve : ZkEvent) : Msg → Option Call
  | .reply rep =>
      match rep.req.op with
      | .existsOp =>
          if rep.rc ≠ .zok ∧ eve = .deleted then some (.watch cb p .del none) else none
      | .getDataOp => if rep.rc = .zok then some (.watch cb p .changed rep.val) else none
      | _ => none
  | .event .. => none

/-- What the callback has been told last once the messages on their way have been handled. -/
def lastTold (cb : Cb) (p : Path) (w : World) : Option Call :=
  lastSome (tells cb p (eveOf w.client)) w.client.calls.getLast? w.inbox

lemma Solo.of_heap_eq (h : Solo cb p c) (c' : Client) (hheap : c'.heap = c.heap)
    (hnext : c'.next = c.next) : Solo cb p c' ∧ eveOf c' = eveOf c := by
  refine ⟨⟨?_, ?_, by rw [hnext]; exact h.next_pos⟩, by rw [eveOf, eveOf, hheap]⟩
  · rw [hheap]; exact h.zero
  · rw [hheap]; exact h.other

/-- Objects other than the exists object come and go. -/
lemma Solo.of_update (h : Solo cb p c) (hx : x ≠ 0) (c' : Client) {o : Option Userdata}
    (ho : ∀ d, o = some d → d = reader cb p) (hheap : c'.heap = Function.update c.heap x o)
    (hnext : c.next ≤ c'.next) : Solo cb p c' ∧ eveOf c' = eveOf c := by
  have h0 : c'.heap 0 = c.heap 0 := by rw [hheap, Function.update_of_ne (Ne.symm hx)]
  refine ⟨⟨by rw [h0]; exact h.zero, fun y d hy hd => ?_, h.next_pos.trans_le hnext⟩,
    by rw [eveOf, eveOf, h0]⟩
  rw [hheap] at hd
  by_cases hyx : y = x
  · subst hyx
    rw [Function.update_self] at hd
    exact ho d hd
  · rw [Function.update_of_ne hyx] at hd
    exact h.other y d hy hd

/-- The answer to an exists request makes a call, or starts a read, or is let pass. -/
lemma Solo.onReply_exists (h : Solo cb p c) {rep : Reply} (hctx : rep.req.ctx = 0)
    (hop : rep.req.op = .existsOp) :
    Solo cb p (c.onReply rep) ∧ eveOf (c.onReply rep) = eveOf c ∧
      (c.onReply rep).calls.getLast? =
        (tells cb p (eveOf c) (.reply rep)).or c.calls.getLast? ∧
      c.sent ⊆ (c.onReply rep).sent ∧
      (isValidPath p false = true → eveOf c ≠ .deleted →
        ∃ r ∈ (c.onReply rep).sent, r.op = .getDataOp) := by
  have hrun : c.onReply rep = c.runExists (.watchPath cb p) rep.rc (eveOf c) := by
    rw [Client.onReply, hctx, h.heap_zero]
  rw [hrun, Client.runExists, tells, hop]
  dsimp only
  split_ifs with hdel hgood
  · obtain ⟨hsolo, heve⟩ := h.of_heap_eq (c.call (.watch cb p .del none)) rfl rfl
    exact ⟨hsolo, heve, by simp, fun _ hr => hr, fun _ hne => absurd hdel.2 hne⟩
  · set r : Request := { op := .getDataOp, path := p, watch := false, ctx := c.next } with hr
    obtain ⟨hsolo, heve⟩ := h.of_update (Nat.pos_iff_ne_zero.mp h.next_pos)
      ((c.alloc (reader cb p)).send r) (o := some (reader cb p))
      (fun d hd => (Option.some.inj hd).symm) (by simp) (by simp)
    refine ⟨hsolo, heve, by simp, Client.sent_subset_send (c.alloc (reader cb p)) r,
      fun hv _ => ⟨r, ?_, rfl⟩⟩
    exact Client.mem_sent_send (c := c.alloc (reader cb p)) hv
  · refine ⟨h, rfl, by simp, fun _ hr => hr, fun _ hne => ?_⟩
    have hchild := h.eveOf_ne
    cases heve : eveOf c <;> simp_all

/-- The answer to a read makes a call. -/
lemma Solo.onReply_get (h : Solo cb p c) {rep : Reply} (hctx : rep.req.ctx ≠ 0)
    (hx : c.heap rep.req.ctx = some (reader cb p)) (hop : rep.req.op = .getDataOp) :
    Solo cb p (c.onReply rep) ∧ eveOf (c.onReply rep) = eveOf c ∧
      (c.onReply rep).calls.getLast? =
        (tells cb p (eveOf c) (.reply rep)).or c.calls.getLast? ∧
      c.sent ⊆ (c.onReply rep).sent := by
  have hrun : c.onReply rep =
      (c.runGet (.watchPath cb p) rep.rc .dummy p rep.val).free rep.req.ctx := by
    rw [Client.onReply, hx]
    rfl
  rw [hrun, Client.runGet, tells, hop]
  dsimp only
  split_ifs with hrc
  · obtain ⟨hsolo, heve⟩ := h.of_update hctx
      ((c.call (.watch cb p .changed rep.val)).free rep.req.ctx) (o := none) (by simp) rfl
      le_rfl
    exact ⟨hsolo, heve, by simp, fun _ hr => hr⟩
  · obtain ⟨hsolo, heve⟩ := h.of_update hctx (c.free rep.req.ctx) (o := none) (by simp) rfl
      le_rfl
    exact ⟨hsolo, heve, by simp, fun _ hr => hr⟩

/-- A notification makes the exists object store its event. -/
lemma Solo.onEvent (h : Solo cb p c) {eve : ZkEvent} {q : Path} {ctxs : List Ptr}
    (hctxs : ∀ y ∈ ctxs, y = 0) (heve : eve ≠ .child ∧ eve ≠ .session) :
    Solo cb p (ctxs.foldl (Client.onEvent eve q) c) ∧
      (ctxs.foldl (Client.onEvent eve q) c).calls = c.calls := by
  induction ctxs generalizing c with
  | nil => exact ⟨h, rfl⟩
  | cons y ctxs ih =>
      obtain rfl := hctxs y List.mem_cons_self
      have hev : c.onEvent eve q 0 =
          (c.store 0 (.existsData { cb := .watchPath cb p, eve := eve })).zooAwexists q 0 := by
        rw [Client.onEvent, h.heap_zero]
        dsimp only
        rw [Client.existsWatcher, if_neg heve.2]
      have hsolo : Solo cb p (c.onEvent eve q 0) := by
        rw [hev]
        refine ⟨⟨eve, by simp [Client.zooAwexists], heve⟩, fun x d hx hd => ?_,
          by simpa [Client.zooAwexists] using h.next_pos⟩
        rw [Client.zooAwexists, Client.heap_send, Client.heap_store,
          Function.update_of_ne hx] at hd
        exact h.other x d hx hd
      obtain ⟨hrest, hcalls⟩ := ih hsolo fun z hz => hctxs z (List.mem_cons_of_mem _ hz)
      exact ⟨hrest, hcalls.trans (by rw [hev]; simp [Client.zooAwexists])⟩

/-! ## The invariant -/

/-- A read will still be answered, or will still be started by the answer to an exists
request. -/
def Reading (w : World) : Prop :=
  (∃ r ∈ w.client.sent, r.op = .getDataOp) ∨
    (eveOf w.client ≠ .deleted ∧ ∃ rep, Msg.reply rep ∈ w.inbox ∧ rep.req.op = .existsOp)

/-- While the exists watch is armed, what the callback is told last agrees with the server, or
the value is going to be read. -/
structure Inv (cb : Cb) (p : Path) (w : World) : Prop where
  wf : w.Wf
  held : isValidPath p false = true → w.Registers 0 (.watchPath cb p)
  solo : Solo cb p w.client
  synced : ∀ a ∈ w.armed, Agrees cb p (w.tree.get p) (lastTold cb p w) ∨
    ((w.tree.get p).isSome ∧ Reading w)
  silent : isValidPath p false = false →
    (∀ rep, Msg.reply rep ∉ w.inbox) ∧ w.client.calls = []

/-- The server does not answer the exists request in flight in a way that does not fit the
stored event, the node being there after a deletion or not there after another event, unless
what the callback is told last agrees with the server anyway. -/
def FitsEvent (cb : Cb) (p : Path) (w : World) (a : Action) : Prop :=
  a = .serve → ∀ r ∈ w.client.sent.head?, r.op = .existsOp →
    ((w.tree.get p).isSome ↔ eveOf w.client = .deleted) →
      Agrees cb p (w.tree.get p) (lastTold cb p w)

instance (cb : Cb) (p : Path) (w : World) (a : Action) : Decidable (FitsEvent cb p w a) := by
  unfold FitsEvent; infer_instance

lemma tells_event (cb : Cb) (p : Path) (eve eve' : ZkEvent) (q : Path) (ctxs : List Ptr) :
    tells cb p eve (.event eve' q ctxs) = none := rfl

lemma Inv.external (h : Inv cb p w) {a : Action} (ha : a.External) (hs : w.step a = some w') :
    Inv cb p w' := by
  have hch := World.changed_of_external ha hs
  obtain ⟨evs, hevs, hno⟩ := hch.inbox
  refine ⟨h.wf.step hs, fun hv => (h.held hv).external ha hs, hch.client ▸ h.solo,
    fun b hb => ?_, fun hv => ⟨fun rep hm => ?_, hch.client ▸ (h.silent hv).2⟩⟩
  rotate_left
  · rw [hevs] at hm
    exact (List.mem_append.mp hm).elim ((h.silent hv).1 rep) (hno rep)
  have hb' := hch.armed hb
  obtain ⟨-, htb, hq⟩ := h.solo.watch (h.wf.armed b hb')
  have hget : w'.tree.get p = w.tree.get p := hq ▸ hch.get b hb htb
  have htold : lastTold cb p w' = lastTold cb p w := by
    rw [lastTold, hch.client, hevs, lastSome_append, lastSome_of_forall_none]
    · rfl
    · intro m hm
      cases m with
      | reply rep => exact absurd hm (hno rep)
      | event eve q ctxs => exact tells_event _ _ _ _ _ _
  rw [hget, htold]
  refine (h.synced b hb').imp_right fun hread => ⟨hread.1, ?_⟩
  rcases hread.2 with ⟨r, hr, hop⟩ | ⟨hne, rep, hm, hop⟩
  · exact Or.inl ⟨r, hch.client ▸ hr, hop⟩
  · exact Or.inr ⟨hch.client ▸ hne, rep, hevs ▸ List.mem_append_left _ hm, hop⟩

/-- No request of the subscription removes watches. -/
lemma Inv.no_removal (h : Inv cb p w) :
    ∀ r ∈ w.client.sent, ∀ type, r.op ≠ .removeWatchesOp type := by
  intro r hr type hop
  rcases h.solo.request (h.wf.sent r hr).2 with ⟨-, hop', -⟩ | ⟨-, -, hop', -⟩
  · rw [hop] at hop'; simp at hop'
  · rw [hop] at hop'; simp at hop'

lemma Inv.serve (h : Inv cb p w) (hfit : FitsEvent cb p w .serve) (hs : w.serve = some w') :
    Inv cb p w' := by
  have hwf' := h.wf.serve hs
  have hheld' := fun hv => (h.held hv).serve h.wf h.no_removal hs
  obtain ⟨r, rs, hsent, rfl⟩ := World.serve_cases hs
  have hr : r ∈ w.client.sent := hsent ▸ List.mem_cons_self
  refine ⟨hwf', hheld', (h.solo.of_heap_eq { w.client with sent := rs } rfl rfl).1,
    fun b hb => ?_, fun hv => ?_⟩
  rotate_left
  · -- no request for an invalid path has been sent
    have hpath : r.path = p := by
      rcases h.solo.request (h.wf.sent r hr).2 with ⟨-, -, hpath, -⟩ | ⟨-, -, -, hpath, -⟩ <;>
        exact hpath
    have hvalid := (h.wf.sent r hr).1
    rw [hpath, hv] at hvalid
    simp at hvalid
  have htold : lastTold cb p { w with
      armed := activate w.armed (answer w.tree w.armed r)
      inbox := w.inbox ++ [.reply (answer w.tree w.armed r)]
      client := { w.client with sent := rs } } =
      (tells cb p (eveOf w.client) (.reply (answer w.tree w.armed r))).or (lastTold cb p w) :=
    lastSome_append_singleton
  rw [htold]
  dsimp only at hb ⊢
  rcases h.solo.request (h.wf.sent r hr).2 with
    ⟨-, hop, hpath, -⟩ | ⟨-, -, hop, hpath, hw⟩
  · -- the exists request: its answer fits the stored event, or the callback is up to date
    have hfit' := hfit rfl r (by rw [hsent]; rfl) hop
    have hreq : (answer w.tree w.armed r).req = r := answer_req _ _ _
    rw [tells, hreq, hop]
    dsimp only
    rw [answer_existsOp hop, hpath]
    cases hget : w.tree.get p with
    | some v =>
        rw [hget] at hfit'
        by_cases hdel : eveOf w.client = .deleted
        · left
          simpa using hfit' (by simp [hdel])
        · refine Or.inr ⟨rfl, Or.inr ⟨hdel, _, List.mem_append_right _
            (List.mem_singleton.mpr rfl), hreq ▸ hop⟩⟩
    | none =>
        rw [hget] at hfit'
        left
        by_cases hdel : eveOf w.client = .deleted
        · simp [hdel, Agrees]
        · simpa [hdel] using hfit' (by simp [hdel])
  · -- a read: it sees the value the server has now
    have hb' : b ∈ w.armed := by
      have hnone : (answer w.tree w.armed r).table? = none := by
        rw [Reply.table?, answer_req, hw]; rfl
      exact (activate_sublist hnone w.armed).subset hb
    rw [tells, answer_req, hop]
    dsimp only
    rw [answer_getDataOp hop, hpath]
    left
    rcases h.synced b hb' with hag | ⟨hsome, -⟩
    · cases hget : w.tree.get p with
      | some v => simp [Agrees]
      | none => simpa [hget] using hag
    · obtain ⟨v, hv⟩ := Option.isSome_iff_exists.mp hsome
      rw [hv]
      simp [Agrees]

lemma Inv.deliver (h : Inv cb p w) (hs : w.deliver = some w') : Inv cb p w' := by
  have hwf' := h.wf.deliver hs
  have hheld' := fun hv => (h.held hv).deliver h.wf hs
  obtain ⟨m, ms, hin, rfl⟩ := World.deliver_cases hs
  -- an answer that is handled moves from the queue to the calls
  have hreply : ∀ {c' : Client} {rep : Reply}, m = .reply rep → Solo cb p c' →
      eveOf c' = eveOf w.client →
      c'.calls.getLast? = (tells cb p (eveOf w.client) m).or w.client.calls.getLast? →
      w.client.sent ⊆ c'.sent →
      (rep.req.op = .existsOp → isValidPath p false = true → eveOf w.client ≠ .deleted →
        ∃ r ∈ c'.sent, r.op = .getDataOp) →
      ∀ b ∈ w.armed, Agrees cb p (w.tree.get p) (lastTold cb p { w with inbox := ms, client := c' })
        ∨ ((w.tree.get p).isSome ∧ Reading { w with inbox := ms, client := c' }) := by
    intro c' rep hm hsolo heve hcalls hsub hread b hb
    have htold : lastTold cb p { w with inbox := ms, client := c' } = lastTold cb p w := by
      simp only [lastTold, hin, lastSome_cons, heve, hcalls]
    rw [htold]
    refine (h.synced b hb).imp_right fun ⟨hsome, hrd⟩ => ⟨hsome, ?_⟩
    rcases hrd with ⟨r, hr, hop⟩ | ⟨hne, rep', hm', hop⟩
    · exact Or.inl ⟨r, hsub hr, hop⟩
    · rw [hin, List.mem_cons, hm] at hm'
      rcases hm' with heq | hm'
      · obtain rfl := Msg.reply.inj heq
        exact Or.inl (hread hop (Tree.isValidPath_of_get hsome) hne)
      · exact Or.inr ⟨by rw [heve]; exact hne, rep', hm', hop⟩
  cases m with
  | reply rep =>
      have hm : Msg.reply rep ∈ w.inbox := hin ▸ List.mem_cons_self
      have hsilent : isValidPath p false = false →
          (∀ rep', Msg.reply rep' ∉ ms) ∧ (w.client.onReply rep).calls = [] :=
        fun hv => absurd hm ((h.silent hv).1 rep)
      rcases h.solo.request (h.wf.reply rep hm) with ⟨h0, hop, -⟩ | ⟨h0, hx, hop, -⟩
      · obtain ⟨hsolo, heve, hcalls, hsub, hread⟩ := h.solo.onReply_exists h0 hop
        exact ⟨hwf', hheld', hsolo, hreply rfl hsolo heve hcalls hsub fun _ => hread, hsilent⟩
      · obtain ⟨hsolo, heve, hcalls, hsub⟩ := h.solo.onReply_get h0 hx hop
        refine ⟨hwf', hheld', hsolo, hreply rfl hsolo heve hcalls hsub fun hop' => ?_, hsilent⟩
        rw [hop] at hop'
        simp at hop'
  | event eve q ctxs =>
      have hm : Msg.event eve q ctxs ∈ w.inbox := hin ▸ List.mem_cons_self
      cases ctxs with
      | nil =>
          refine ⟨hwf', hheld', h.solo, fun b hb => (h.synced b hb).imp ?_ ?_, fun hv =>
            ⟨fun rep hm' => (h.silent hv).1 rep (hin ▸ List.mem_cons_of_mem _ hm'),
              (h.silent hv).2⟩⟩
          · intro hag
            simpa [lastTold, hin, tells_event, Client.process] using hag
          · rintro ⟨hsome, hrd⟩
            refine ⟨hsome, hrd.imp_right fun ⟨hne, rep, hm', hop⟩ => ⟨hne, rep, ?_, hop⟩⟩
            rw [hin] at hm'
            simpa using hm'
      | cons y ys =>
          have hwatch : ∀ x ∈ y :: ys, x = 0 ∧ eve ≠ .child ∧ eve ≠ .session := by
            intro x hx
            obtain ⟨tb, htb, hholds⟩ := h.wf.event eve q (y :: ys) hm x hx
            obtain ⟨h0, hne, -⟩ := h.solo.watch hholds
            exact ⟨h0, ZkEvent.ne_of_mem_tables htb hne⟩
          have hy := hwatch y List.mem_cons_self
          obtain ⟨hsolo, hcalls⟩ := h.solo.onEvent (q := q) (fun x hx => (hwatch x hx).1) hy.2
          refine ⟨hwf', hheld', hsolo, fun b hb => ?_, fun hv =>
            ⟨fun rep hm' => (h.silent hv).1 rep (hin ▸ List.mem_cons_of_mem _ hm'),
              hcalls.trans (h.silent hv).2⟩⟩
          -- the exists watch has just been consumed
          have hb0 := (h.solo.watch (h.wf.armed b hb)).1
          exact absurd (hb0.trans hy.1.symm)
            ((h.wf.unreferenced hin List.mem_cons_self).2.1 b hb)

theorem inv_watching (t : Tree) (p : Path) (cb : Cb) : Inv cb p (World.watching t p cb) :=
  ⟨(World.wf_start t).of_call (Client.effect_watchPath _ p cb),
    fun hv => World.registers_watchPathEvent (World.start t)
      { Client.init with watchRecord := Client.init.watchRecord.insert p cb } rfl hv,
    solo_init cb p, by simp [World.watching, World.start], fun _ =>
      ⟨by simp [World.watching, World.start], by simp [World.watching, Client.watchPath, Client.init]⟩⟩

lemma Inv.step (h : Inv cb p w) {a : Action} (ha : a.Plain) (hfit : FitsEvent cb p w a)
    (hs : w.step a = some w') : Inv cb p w' := by
  rcases ha with ha | rfl | rfl
  · exact h.external ha hs
  · exact h.serve hfit hs
  · exact h.deliver hs

/-- In a quiescent state the exists watch is armed, if it could be set at all. -/
lemma Inv.agrees (h : Inv cb p w) (hq : w.Quiescent) :
    Agrees cb p (w.tree.get p) w.client.calls.getLast? := by
  by_cases hv : isValidPath p false = true
  · rcases (h.held hv).held with ⟨a, ha, -⟩ | ⟨r, hr, -⟩ | ⟨_, _, _, hm, -⟩
    · rcases h.synced a ha with hag | ⟨-, ⟨r, hr, -⟩ | ⟨-, rep, hm, -⟩⟩
      · rwa [lastTold, hq.2] at hag
      · rw [hq.1] at hr; simp at hr
      · rw [hq.2] at hm; simp at hm
    · rw [hq.1] at hr; simp at hr
    · rw [hq.2] at hm; simp at hm
  · -- no node has such a path, and no request was ever sent
    have hget : w.tree.get p = none := by
      rw [← Option.not_isSome_iff_eq_none]
      exact fun hsome => hv (Tree.isValidPath_of_get hsome)
    rw [hget, (h.silent (by simpa using hv)).2]
    exact Or.inl rfl

/-- A run in which every answer to an exists request fits the event before it, or does no
harm, leaves the callback in agreement with the server. -/
theorem converges_of_fitsEvent {t : Tree} {p : Path} {cb : Cb} {w : World}
    (hr : Run.Reach World.step (fun w a => a.Plain ∧ FitsEvent cb p w a)
      (World.watching t p cb) w) (hq : w.Quiescent) :
    Agrees cb p (w.tree.get p) w.client.calls.getLast? :=
  (hr.invariant (inv_watching t p cb)
    fun _ _ _ hinv hok hs => hinv.step hok.1 hok.2 hs).agrees hq

/-- A deletion and a creation, each noticed before the next change. -/
theorem converges_of_fitsEvent_treeP : ∃ w,
    Run.Reach World.step (fun w a => a.Plain ∧ FitsEvent 0 ['/', 'p'] w a)
      (World.watching treeP ['/', 'p'] 0) w ∧ w.Quiescent ∧
    Agrees 0 ['/', 'p'] (w.tree.get ['/', 'p']) w.client.calls.getLast? := by
  obtain ⟨w, hr, hw⟩ := Run.exists_reach_of_exec World.step
    (fun w a => a.Plain ∧ FitsEvent 0 ['/', 'p'] w a)
    (World.watching treeP ['/', 'p'] 0)
    [.serve, .deliver, .serve, .deliver, .delete ['/', 'p'], .deliver, .serve, .deliver,
      .create ['/', 'p'] (some ['b']), .deliver, .serve, .deliver, .serve, .deliver]
    (fun w => (w.client.sent, w.inbox)) ([], []) rfl
  have hq : w.Quiescent := by simpa [World.Quiescent] using hw
  exact ⟨w, hr, hq, converges_of_fitsEvent hr hq⟩

end WatchPath

end ConfigMonitor
