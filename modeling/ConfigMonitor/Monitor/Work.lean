/-
# The work that is left for the session

Each request and each message in flight is given a number that bounds the steps it can still
lead to when nothing comes from outside: an exists request ends with a read or a listing, a
listing with a read for each child or with a chain of removals, and a read with nothing.
-/
import ConfigMonitor.Lib.Settle
import ConfigMonitor.Monitor.Events
import Mathlib.Algebra.GroupWithZero.Nat
import Mathlib.Algebra.Order.BigOperators.Group.List
import Mathlib.Algebra.Order.Group.Nat

namespace ConfigMonitor

open Run

/-- The paths that a chain of removals has still to go through. -/
def Client.chain (c : Client) (x : Ptr) : ℕ :=
  match c.heap x with
  | some (.removeChain _ subs) => subs.length
  | _ => 0

/-- The steps a request can lead to, its own two included. -/
def Request.work (t : Tree) (c : Client) (r : Request) : ℕ :=
  match r.op with
  | .existsOp => 2 * (t.children r.path).length + 8
  | .getDataOp => 2
  | .getChildrenOp => 2 * (t.children r.path).length + 6
  | .removeWatchesOp _ => 2 * c.chain r.ctx + 2

/-- The steps a message can lead to, its delivery included. -/
def Msg.work (t : Tree) (c : Client) : Msg → ℕ
  | .reply rep =>
      match rep.req.op with
      | .existsOp => 2 * (t.children rep.req.path).length + 7
      | .getDataOp => 1
      | .getChildrenOp => 2 * rep.strings.length + 5
      | .removeWatchesOp _ => 2 * c.chain rep.req.ctx + 1
  | .event _ q ctxs => ctxs.length * (2 * (t.children q).length + 8) + 1

namespace Client

variable {t : Tree} {c c' c'' : Client} {n m : ℕ}

/-- The new requests are work for at most `n` steps. -/
def Spends (t : Tree) (n : ℕ) (c c' : Client) : Prop :=
  ∃ rs, c'.sent = c.sent ++ rs ∧ (rs.map (Request.work t c')).sum ≤ n

lemma spends_of_eq (h : c'.sent = c.sent) : Spends t n c c' := ⟨[], by simp [h], by simp⟩

lemma Spends.mono (h : Spends t n c c') (hle : n ≤ m) : Spends t m c c' := by
  obtain ⟨rs, hrs, hsum⟩ := h
  exact ⟨rs, hrs, hsum.trans hle⟩

/-- A request for a new object. -/
lemma spends_issue (c : Client) (d : Userdata) (op : Op) (path : Path) (watch : Bool)
    (hn : Request.work t (c.issue d op path watch)
      { op := op, path := path, watch := watch, ctx := c.next } ≤ n) :
    Spends t n c (c.issue d op path watch) := by
  refine ⟨_, sent_issue c d op path watch, ?_⟩
  split_ifs
  · simpa using hn
  · simp

lemma spends_runExists (c : Client) (cb : ExistsCallback) (rc : ZooError) (eve : ZkEvent) :
    Spends t (2 * (t.children cb.path).length + 6) c (c.runExists cb rc eve) := by
  cases cb with
  | watchPath cb p =>
      rw [runExists]
      split_ifs
      · exact spends_of_eq rfl
      · exact spends_issue c (.wget _) .getDataOp p false (by simp only [Request.work]; omega)
      · exact spends_of_eq rfl
  | watchSubPath cb pfx =>
      rw [runExists]
      split_ifs
      · exact spends_of_eq rfl
      · exact spends_of_eq rfl
      · exact spends_issue c (.getChildren _) .getChildrenOp pfx true le_rfl

lemma sent_runGet (c : Client) (cb : GetCallback) (rc : ZooError) (eve : ZkEvent) (path : Path)
    (val : Data) : (c.runGet cb rc eve path val).sent = c.sent := by
  cases cb <;> rw [runGet] <;> split_ifs <;> rfl

lemma sent_runOperate (c : Client) (cb : OperateCallback) (rc : ZooError) :
    (c.runOperate cb rc).sent = c.sent := by
  rw [runOperate]
  cases cb.type <;> rfl

/-- The reads of a listing. -/
lemma sent_monitor_foldl (cb : Cb) (pfx : Path) (subs : List Str) (c : Client) :
    ∃ rs, (subs.foldl (fun c sub => c.monitor cb pfx (subPath pfx sub)) c).sent = c.sent ++ rs ∧
      rs.length ≤ subs.length ∧ ∀ r ∈ rs, r.op = .getDataOp := by
  induction subs generalizing c with
  | nil => exact ⟨[], by simp, by simp, by simp⟩
  | cons sub subs ih =>
      obtain ⟨rs, hrs, hlen, hop⟩ := ih (c.monitor cb pfx (subPath pfx sub))
      have hsent : (c.monitor cb pfx (subPath pfx sub)).sent = _ :=
        sent_issue c (.wget _) .getDataOp (subPath pfx sub) true
      rw [hsent, List.append_assoc] at hrs
      refine ⟨_, hrs, ?_, ?_⟩
      · split_ifs
        · simpa using hlen
        · exact hlen.trans (Nat.le_succ _)
      · intro r hr
        rcases List.mem_append.mp hr with hr | hr
        · split_ifs at hr
          · rw [List.mem_singleton.mp hr]
          · exact absurd hr List.not_mem_nil
        · exact hop r hr

lemma sum_work_getDataOp {rs : List Request} (h : ∀ r ∈ rs, r.op = .getDataOp) (c : Client) :
    (rs.map (Request.work t c)).sum = 2 * rs.length := by
  induction rs with
  | nil => rfl
  | cons r rs ih =>
      obtain ⟨hr, hrs⟩ := List.forall_mem_cons.mp h
      rw [List.map_cons, List.sum_cons, ih hrs, Request.work, hr, List.length_cons]
      dsimp only
      omega

lemma spends_runListing (c : Client) (cb : Cb) (pfx : Path) (subPaths : List Str) :
    Spends t (2 * subPaths.length) c (c.runListing cb pfx subPaths) := by
  rw [runListing]
  cases c.lastSubPath.lookup pfx with
  | none =>
      obtain ⟨rs, hrs, hlen, hop⟩ := sent_monitor_foldl cb pfx subPaths c
      refine ⟨rs, hrs, ?_⟩
      rw [sum_work_getDataOp hop]
      exact Nat.mul_le_mul_left 2 hlen
  | some old =>
      obtain ⟨rs, hrs, hlen, hop⟩ :=
        sent_monitor_foldl cb pfx (subPaths.filter (· ∉ old)) c
      refine ⟨rs, hrs, ?_⟩
      rw [sum_work_getDataOp hop]
      exact Nat.mul_le_mul_left 2 (hlen.trans (List.length_filter_le _ _))

/-- A request that goes on with a chain of removals. -/
lemma spends_chain (hsent : c'.sent = c.sent) {r : Request} {type : WatcherType}
    (hop : r.op = .removeWatchesOp type) (hchain : (c'.send r).chain r.ctx ≤ m) :
    Spends t (2 * m + 2) c (c'.send r) := by
  have hwork : Request.work t (c'.send r) r ≤ 2 * m + 2 := by
    rw [Request.work, hop]
    dsimp only
    omega
  by_cases hv : isValidPath r.path false = true
  · refine ⟨[r], by rw [sent_send_of_valid _ hv, hsent], ?_⟩
    simpa using hwork
  · refine ⟨[], ?_, by simp⟩
    rw [send, if_neg hv, hsent, List.append_nil]

lemma spends_runChildren (c : Client) (cb : ChildrenCallback) (rc : ZooError)
    (subPaths : List Str) :
    Spends t (2 * subPaths.length + 4) c (c.runChildren cb rc subPaths) := by
  cases cb with
  | watchSubPath cb pfx =>
      rw [runChildren]
      split_ifs
      · exact spends_of_eq rfl
      · exact (spends_runListing c cb pfx subPaths).mono (by omega)
  | removeWatches cb p =>
      rw [runChildren]
      split_ifs
      · exact spends_of_eq (sent_runOperate c cb rc)
      · have hlen : (subPaths.map (subPath p) ++ [p]).length = subPaths.length + 1 := by simp
        dsimp only
        generalize subPaths.map (subPath p) ++ [p] = subs at hlen
        have hchain : ∀ r : Request, r.ctx = c.next →
            ((c.alloc (.removeChain cb subs)).send r).chain r.ctx ≤ subPaths.length + 1 := by
          intro r hr
          rw [chain, heap_send, heap_alloc, hr, Function.update_self]
          exact hlen.le
        cases subs with
        | nil => exact spends_of_eq rfl
        | cons q rest =>
            cases rest with
            | nil =>
                exact spends_chain (m := subPaths.length + 1) rfl rfl (hchain _ rfl)
            | cons q' rest =>
                exact spends_chain (m := subPaths.length + 1) rfl rfl (hchain _ rfl)

/-! ## Messages -/

/-- The object that the handler was given is freed at the end. -/
lemma Spends.free (h : Spends t n c c') (he : Effect [] c c') {x : Ptr} (hx : x < c.next) :
    Spends t n c (c'.free x) := by
  obtain ⟨rs, hrs, hsum⟩ := h
  obtain ⟨rs', hrs', -, hnew⟩ := he.sent
  obtain rfl := List.append_cancel_left (hrs.symm.trans hrs')
  refine ⟨rs, hrs, le_of_eq_of_le ?_ hsum⟩
  refine congrArg List.sum (List.map_congr_left fun r hr => ?_)
  -- the new requests are for new objects
  have hne : r.ctx ≠ x := by
    rcases (hnew r hr).1 with hnil | ⟨hge, -⟩
    · exact absurd hnil List.not_mem_nil
    · exact Nat.ne_of_gt (lt_of_lt_of_le hx hge)
  rw [Request.work, Request.work, chain, chain, heap_free, Function.update_of_ne hne]

lemma spends_onReply {rep : Reply} (hlt : rep.req.ctx < c.next)
    (h : c.Holds rep.req.ctx (·.For rep.req)) :
    Spends t ((Msg.reply rep).work t c - 1) c (c.onReply rep) := by
  obtain ⟨d, hd, hfor⟩ := h
  rw [onReply, hd]
  cases d with
  | existsData d =>
      have hspend := spends_runExists (t := t) c d.cb rep.rc d.eve
      rw [hfor.2.1] at hspend
      refine hspend.mono ?_
      rw [Msg.work, hfor.1]
      dsimp only
      omega
  | wget d =>
      refine spends_of_eq ?_
      dsimp only
      rw [getCompletion]
      split_ifs <;> exact sent_runGet c _ _ _ _ _
  | getChildren d =>
      have hspend := spends_runChildren (t := t) c d.cb rep.rc rep.strings
      dsimp only
      rw [Msg.work, hfor.1, childrenCompletion]
      split_ifs
      · exact hspend
      · exact hspend.free (effect_runChildren c _ _ _) hlt
  | operate cb => exact spends_of_eq (sent_runOperate c cb rep.rc)
  | removeChain cb subs =>
      obtain ⟨type, hop⟩ := hfor.1
      have hwork : (Msg.reply rep).work t c = 2 * subs.length + 1 := by
        rw [Msg.work, hop, chain, hd]
      -- a request for the next path of the chain
      have hnext : ∀ (q : Path) (rest : List Path), subs.tail = q :: rest → ∀ type,
          Spends t (2 * subs.length + 1 - 1) c ((c.store rep.req.ctx
            (.removeChain cb (q :: rest))).zooAremoveAllWatches q type rep.req.ctx) := by
        intro q rest htail type
        have hlen : (q :: rest).length = subs.length - 1 := by
          rw [← htail, List.length_tail]
        have hsent : (c.store rep.req.ctx (.removeChain cb (q :: rest))).sent = c.sent := rfl
        refine (spends_chain (m := (q :: rest).length) hsent rfl ?_).mono ?_
        · rw [chain, heap_send, heap_store, Function.update_self]
        · rw [List.length_cons] at hlen ⊢
          omega
      rw [hwork]
      dsimp only
      rw [removeChainCompletion]
      split
      · exact spends_of_eq (sent_runOperate c cb rep.rc)
      · exact hnext _ [] ‹_› _
      · exact hnext _ _ ‹_› _

/-- A watcher sends one request at most, for the path of the event. -/
lemma sent_onEvent (c : Client) (eve : ZkEvent) (q : Path) (x : Ptr) :
    ∃ rs, (onEvent eve q c x).sent = c.sent ++ rs ∧ rs.length ≤ 1 ∧
      ∀ r ∈ rs, r.path = q ∧ ∀ type, r.op ≠ .removeWatchesOp type := by
  have hsend : ∀ (c' : Client) (r : Request), c'.sent = c.sent → r.path = q →
      (∀ type, r.op ≠ .removeWatchesOp type) →
      ∃ rs, (c'.send r).sent = c.sent ++ rs ∧ rs.length ≤ 1 ∧
        ∀ r ∈ rs, r.path = q ∧ ∀ type, r.op ≠ .removeWatchesOp type := by
    intro c' r hsent hpath hop
    rw [send]
    split_ifs
    · exact ⟨[r], by rw [← hsent], le_rfl, fun r' hr' => by
        rw [List.mem_singleton.mp hr']
        exact ⟨hpath, hop⟩⟩
    · exact ⟨[], by rw [hsent, List.append_nil], by simp, by simp⟩
  have hnone : ∀ c' : Client, c'.sent = c.sent →
      ∃ rs, c'.sent = c.sent ++ rs ∧ rs.length ≤ 1 ∧
        ∀ r ∈ rs, r.path = q ∧ ∀ type, r.op ≠ .removeWatchesOp type :=
    fun c' hsent => ⟨[], by rw [hsent, List.append_nil], by simp, by simp⟩
  rw [onEvent]
  split
  · rw [existsWatcher]
    split_ifs
    · exact hnone c rfl
    · exact hsend _ _ rfl rfl (by simp)
  · rw [getWatcher]
    split_ifs
    · exact hnone c rfl
    · exact hnone _ (by rw [sent_release, sent_runGet])
    · exact hsend _ _ rfl rfl (by simp)
  · rw [childrenWatcher]
    split_ifs
    · exact hnone c rfl
    · exact hnone _ (sent_release c x)
    · exact hsend _ _ rfl rfl (by simp)
  · exact hnone c rfl

lemma sent_onEvent_foldl (c : Client) (eve : ZkEvent) (q : Path) (ctxs : List Ptr) :
    ∃ rs, (ctxs.foldl (onEvent eve q) c).sent = c.sent ++ rs ∧ rs.length ≤ ctxs.length ∧
      ∀ r ∈ rs, r.path = q ∧ ∀ type, r.op ≠ .removeWatchesOp type := by
  induction ctxs generalizing c with
  | nil => exact ⟨[], by simp, by simp, by simp⟩
  | cons x ctxs ih =>
      obtain ⟨rs₁, hrs₁, hlen₁, hop₁⟩ := sent_onEvent c eve q x
      obtain ⟨rs₂, hrs₂, hlen₂, hop₂⟩ := ih (onEvent eve q c x)
      refine ⟨rs₁ ++ rs₂, ?_, ?_, ?_⟩
      · rw [List.foldl_cons, hrs₂, hrs₁, List.append_assoc]
      · rw [List.length_append, List.length_cons]
        omega
      · exact fun r hr => (List.mem_append.mp hr).elim (hop₁ r) (hop₂ r)

/-- The requests of the watchers of a notification. -/
lemma spends_onEvent_foldl (c : Client) (eve : ZkEvent) (q : Path) (ctxs : List Ptr) :
    Spends t ((Msg.event eve q ctxs).work t c - 1) c (ctxs.foldl (onEvent eve q) c) := by
  obtain ⟨rs, hrs, hlen, hop⟩ := sent_onEvent_foldl c eve q ctxs
  refine ⟨rs, hrs, ?_⟩
  have hone : ∀ n ∈ rs.map (Request.work t (ctxs.foldl (onEvent eve q) c)),
      n ≤ 2 * (t.children q).length + 8 := by
    intro n hn
    obtain ⟨r, hr, rfl⟩ := List.mem_map.mp hn
    obtain ⟨hpath, hno⟩ := hop r hr
    rw [Request.work, hpath]
    cases hr : r.op with
    | existsOp => exact le_rfl
    | getDataOp => dsimp only; omega
    | getChildrenOp => dsimp only; omega
    | removeWatchesOp type => exact absurd hr (hno type)
  rw [Msg.work, Nat.add_sub_cancel]
  calc (rs.map (Request.work t (ctxs.foldl (onEvent eve q) c))).sum
      ≤ (rs.map (Request.work t (ctxs.foldl (onEvent eve q) c))).length *
          (2 * (t.children q).length + 8) := List.sum_le_card_nsmul _ _ hone
    _ ≤ ctxs.length * (2 * (t.children q).length + 8) := by
        rw [List.length_map]
        exact Nat.mul_le_mul_right _ hlen

end Client

namespace World

variable {w w' : World}

/-- The steps the session can still take when nothing comes from outside. -/
def work (w : World) : ℕ :=
  (w.client.sent.map (Request.work w.tree w.client)).sum +
    (w.inbox.map (Msg.work w.tree w.client)).sum

/-- The answer is less work than the request. -/
lemma work_answer (t : Tree) (armed : List Watch) (c : Client) (r : Request) :
    (Msg.reply (answer t armed r)).work t c + 1 ≤ r.work t c := by
  rw [Msg.work, Request.work, answer_req]
  cases hop : r.op with
  | existsOp => exact le_rfl
  | getDataOp => exact le_rfl
  | getChildrenOp =>
      rw [answer_getChildrenOp hop]
      dsimp only
      split_ifs
      · exact le_rfl
      · simp only [List.length_nil]
        omega
  | removeWatchesOp type => exact le_rfl

lemma work_serve (hs : w.serve = some w') : w'.work < w.work := by
  obtain ⟨r, rs, hsent, rfl⟩ := serve_cases hs
  have hle := work_answer w.tree w.armed w.client r
  rw [work, work, hsent]
  simp only [List.map_append, List.map_cons, List.map_nil, List.sum_append, List.sum_cons,
    List.sum_nil]
  change (rs.map (Request.work w.tree w.client)).sum +
    ((w.inbox.map (Msg.work w.tree w.client)).sum +
      ((Msg.reply (answer w.tree w.armed r)).work w.tree w.client + 0)) < _
  omega

/-- The other messages and requests in flight are as much work as before. -/
lemma Wf.work_process (h : w.Wf) {m : Msg} {ms : List Msg} (hin : w.inbox = m :: ms) :
    w.client.sent.map (Request.work w.tree (w.client.process m)) =
        w.client.sent.map (Request.work w.tree w.client) ∧
      ms.map (Msg.work w.tree (w.client.process m)) = ms.map (Msg.work w.tree w.client) := by
  have hchain : ∀ x, ({ w with inbox := ms } : World).tokens x ≠ [] →
      (w.client.process m).chain x = w.client.chain x := by
    intro x hx
    rw [Client.chain, Client.chain, h.heap_process hin hx]
  constructor
  · refine List.map_congr_left fun r hr => ?_
    rw [Request.work, Request.work,
      hchain _ (tokens_ne_nil_of_sent (w := { w with inbox := ms }) hr)]
  · refine List.map_congr_left fun m' hm' => ?_
    cases m' with
    | reply rep =>
        rw [Msg.work, Msg.work,
          hchain _ (tokens_ne_nil_of_reply (w := { w with inbox := ms }) hm')]
    | event eve q ctxs => rfl

lemma Wf.work_deliver (h : w.Wf) (hs : w.deliver = some w') : w'.work < w.work := by
  obtain ⟨m, ms, hin, rfl⟩ := deliver_cases hs
  obtain ⟨hsent, hms⟩ := h.work_process hin
  have hm : m ∈ w.inbox := hin ▸ List.mem_cons_self
  have hspend : Client.Spends w.tree (m.work w.tree w.client - 1) w.client
      (w.client.process m) := by
    cases m with
    | reply rep =>
        exact Client.spends_onReply (h.lt_next (tokens_ne_nil_of_reply hm)) (h.reply rep hm)
    | event eve q ctxs => exact Client.spends_onEvent_foldl _ _ _ _
  have hpos : 0 < m.work w.tree w.client := by
    cases m with
    | reply rep =>
        rw [Msg.work]
        cases rep.req.op <;> simp
    | event eve q ctxs => simp [Msg.work]
  obtain ⟨rs, hrs, hsum⟩ := hspend
  rw [work, work, hin]
  dsimp only
  rw [hrs, List.map_append, List.sum_append, hsent, hms, List.map_cons, List.sum_cons]
  omega

end World

end ConfigMonitor
