/-
# One data watch for each child

What the automaton of a child has reached at the end of the queue fits what the server holds:
nothing is open for an idle child, and one watch, one read or one notification for a busy one.
A listing starts a second read only when the server makes it while the child is still watched
or read.
-/
import ConfigMonitor.WatchSubPath.Session
import ConfigMonitor.WatchSubPath.Scan
import Mathlib.Data.List.Count

namespace ConfigMonitor

namespace WatchSubPath

/-- A data-watch userdata of the child `s` whose read is in flight or whose watch is armed, or
was armed and its notification has not arrived. -/
def Live (cb : Cb) (p : Path) (w : World) (s : Str) (x : Ptr) : Prop :=
  (∃ eve, w.client.heap x = some (childObj cb p s eve)) ∧ w.tokens x ≠ []

/-- In every reachable state each child has at most one live data-watch userdata, and a
notification for a child makes at most one call or request. -/
def WatchedOnce : Prop :=
  ∀ (t : Tree) (p : Path) (cb : Cb) (w : World),
    Run.Reach World.step (fun _ a => a.Plain) (World.watchingSub t p cb) w →
      (∀ s x y, Live cb p w s x → Live cb p w s y → x = y) ∧
      ∀ eve s ctxs ms, w.inbox = .event eve (subPath p s) ctxs :: ms →
        (w.client.process (.event eve (subPath p s) ctxs)).calls.length +
          (w.client.process (.event eve (subPath p s) ctxs)).sent.length ≤
            w.client.calls.length + w.client.sent.length + 1

/-! ## A child deleted and created again between two listings -/

theorem not_watchedOnce : ¬ WatchedOnce := by
  intro h
  obtain ⟨w, hr, hw⟩ := Run.exists_reach_of_exec World.step (fun _ a => a.Plain)
    (World.watchingSub treePC ['/', 'p'] 0)
    [.serve, .deliver, .serve, .deliver, .serve, .deliver,
      .create ['/', 'p', '/', 'd'] none, .deliver,
      .set ['/', 'p', '/', 'c'] (some ['b']), .deliver,
      .delete ['/', 'p', '/', 'c'], .serve,
      .create ['/', 'p', '/', 'c'] (some ['a']), .serve,
      .deliver, .deliver, .serve, .serve, .deliver, .deliver, .deliver]
    (fun w => (w.client.heap 2, w.tokens 2, w.client.heap 4, w.tokens 4))
    (some (childObj 0 ['/', 'p'] ['c'] .changed), [.armed],
      some (childObj 0 ['/', 'p'] ['c'] .dummy), [.request]) rfl
  obtain ⟨hd₂, htok₂, hd₄, htok₄⟩ :
      w.client.heap 2 = some (childObj 0 ['/', 'p'] ['c'] .changed) ∧ w.tokens 2 = [.armed] ∧
      w.client.heap 4 = some (childObj 0 ['/', 'p'] ['c'] .dummy) ∧ w.tokens 4 = [.request] := by
    simpa only [Prod.mk.injEq] using hw
  have heq := (h treePC ['/', 'p'] 0 w hr).1 ['c'] 2 4 ⟨⟨_, hd₂⟩, by rw [htok₂]; simp⟩
    ⟨⟨_, hd₄⟩, by rw [htok₄]; simp⟩
  exact absurd heq (by decide)

/-! ## The exact condition on a step -/

/-- The child `s` has a data watch, or a read that is in flight or on its way. -/
def Occupied (p : Path) (w : World) (s : Str) : Prop :=
  (∃ a ∈ w.armed, a.path = subPath p s) ∨
    (∃ r ∈ w.client.sent, r.op = .getDataOp ∧ r.path = subPath p s) ∨
    (∃ m ∈ w.inbox, Rereads (subPath p s) m) ∨
    startsRead s (knows w.client p s) w.inbox = true

instance (p : Path) (w : World) (s : Str) : Decidable (Occupied p w s) := by
  unfold Occupied; infer_instance

/-- The server does not list a child that will be new to the client while the child is still
watched or read. -/
def Unoccupied (p : Path) (w : World) (a : Action) : Prop :=
  a = .serve → ∀ r ∈ w.client.sent.head?, r.op = .getChildrenOp →
    ∀ s ∈ w.tree.children p, knownAfter s (knows w.client p s) w.inbox = false →
      ¬ Occupied p w s

instance (p : Path) (w : World) (a : Action) : Decidable (Unoccupied p w a) := by
  unfold Unoccupied; infer_instance

/-! ## The invariant -/

variable {cb : Cb} {p q : Path} {w w' : World} {s : Str} {known : Bool} {ph : Phase} {m : Msg}
  {ms : List Msg} {x y : Ptr}

/-- The objects with an armed watch on `q` or a read of it in flight to the server. -/
def openAt (w : World) (q : Path) : List Ptr :=
  (w.armed.filter fun a => a.path = q).map Watch.ctx ++
    (w.client.sent.filter fun r => r.op = .getDataOp ∧ r.path = q).map Request.ctx

/-- What the automaton has reached fits what the server holds. -/
def Fits (w : World) (q : Path) : Phase → Prop
  | .busy x => openAt w q = [x] ∨ (openAt w q = [] ∧ ∃ m ∈ w.inbox, Rereads q m)
  | .idle | .starting => openAt w q = []

/-- The messages on their way can be read by the automaton of the child. -/
def Scanned (p : Path) (w : World) (s : Str) : Prop :=
  ∃ ph₀ known ph, ph₀ ≠ .starting ∧
    scan (subPath p s) s (knows w.client p s) ph₀ w.inbox = some (known, ph) ∧
      Fits w (subPath p s) ph

/-- The automaton of each child can read the messages on their way. -/
structure OnceInv (cb : Cb) (p : Path) (w : World) : Prop where
  base : Base cb p w
  nodup : p ≠ root → ∀ rep, Msg.reply rep ∈ w.inbox → rep.req.op = .getChildrenOp →
    rep.strings.Nodup
  scanned : ∀ s, isValidPath (subPath p s) false = true → Scanned p w s

/-- Where a live object of a child is. -/
lemma Base.live_cases (h : Base cb p w) (hx : Live cb p w s x) :
    isValidPath (subPath p s) false = true ∧
      (x ∈ openAt w (subPath p s) ∨ ∃ m ∈ w.inbox, AboutObj (subPath p s) x m) := by
  obtain ⟨⟨eve, hd⟩, htok⟩ := hx
  by_cases harm : ∃ a ∈ w.armed, a.ctx = x
  · obtain ⟨a, ha, rfl⟩ := harm
    have hq := watch_of_child hd (h.wf.armed a ha)
    refine ⟨hq ▸ h.served.valid_armed a ha, Or.inl (List.mem_append_left _ ?_)⟩
    exact List.mem_map_of_mem (List.mem_filter.mpr ⟨ha, decide_eq_true hq⟩)
  by_cases hreq : ∃ r ∈ w.client.sent, r.ctx = x
  · obtain ⟨r, hr, rfl⟩ := hreq
    obtain ⟨hv, hfor⟩ := h.wf.sent r hr
    obtain ⟨hop, hq, -⟩ := request_of_child hd hfor
    refine ⟨hq ▸ hv, Or.inl (List.mem_append_right _ ?_)⟩
    exact List.mem_map_of_mem (List.mem_filter.mpr ⟨hr, decide_eq_true ⟨hop, hq⟩⟩)
  -- neither a watch nor a request refers to the object, so a message does
  obtain ⟨m, hm, hmx⟩ : ∃ m ∈ w.inbox, m.tokens x ≠ [] := by
    by_contra hno
    push Not at hno
    refine htok (World.tokens_eq_nil_iff.mpr ⟨hno, fun a ha hax => harm ⟨a, ha, hax⟩,
      fun r hr hrx => hreq ⟨r, hr, hrx⟩⟩)
  cases m with
  | reply rep =>
      obtain rfl : rep.req.ctx = x := by
        by_contra hne
        rw [Msg.tokens, if_neg hne] at hmx
        exact hmx rfl
      obtain ⟨hop, hq, -⟩ := request_of_child hd (h.wf.reply rep hm)
      exact ⟨hq ▸ h.served.valid_reply rep hm, Or.inr ⟨_, hm, hop, hq, rfl⟩⟩
  | event eve' q ctxs =>
      have hx : x ∈ ctxs := by
        by_contra hno
        rw [Msg.tokens, List.count_eq_zero.mpr hno] at hmx
        exact hmx rfl
      obtain ⟨tb, -, hfor⟩ := h.wf.event eve' q ctxs hm x hx
      have hq := watch_of_child hd hfor
      exact ⟨hq ▸ h.served.valid_event _ _ _ hm, Or.inr ⟨_, hm, hq, hx⟩⟩

lemma Fits.of_mem (h : Fits w q ph) (hx : x ∈ openAt w q) : ph = .busy x ∧ openAt w q = [x] := by
  cases ph with
  | busy y =>
      rcases h with heq | ⟨heq, -⟩
      · rw [heq, List.mem_singleton] at hx
        exact ⟨by rw [hx], by rw [heq, hx]⟩
      · rw [heq] at hx
        simp at hx
  | idle => rw [show openAt w q = [] from h] at hx; simp at hx
  | starting => rw [show openAt w q = [] from h] at hx; simp at hx

/-- The object that the automaton starts with is the only one that can be live. -/
lemma OnceInv.eq_of_live (h : OnceInv cb p w) (hx : Live cb p w s x) (hy : Live cb p w s y) :
    x = y := by
  obtain ⟨hv, -⟩ := h.base.live_cases hx
  obtain ⟨ph₀, known, ph, -, hscan, hfits⟩ := h.scanned s hv
  have hstart : ∀ z, Live cb p w s z → ph₀ = .busy z := by
    intro z hz
    rcases (h.base.live_cases hz).2 with hopen | ⟨m, hm, habout⟩
    · exact (scan_phase hscan).2 (hfits.of_mem hopen).1
    · exact scan_aboutObj hscan hm habout
  exact Phase.busy.inj ((hstart x hx).symm.trans (hstart y hy))

/-- A notification for a child is for one object. -/
lemma OnceInv.ctxs_eq (h : OnceInv cb p w) {eve : ZkEvent} {ctxs : List Ptr}
    (hin : w.inbox = .event eve (subPath p s) ctxs :: ms) : ∃ x, ctxs = [x] := by
  have hv := h.base.served.valid_event _ _ _ (hin ▸ List.mem_cons_self)
  obtain ⟨ph₀, known, ph, -, hscan, -⟩ := h.scanned s hv
  rw [hin] at hscan
  obtain ⟨a, ha, -⟩ := scan_cons_eq_some.mp hscan
  rw [scan1, if_pos rfl] at ha
  split_ifs at ha with hmap
  all_goals
    obtain ⟨x, hx, -⟩ := map_busy_eq.mp hmap
    exact ⟨x, hx⟩

/-! ## Changes of the tree -/

lemma Fits.mono (h : Fits w q ph) (hopen : openAt w' q = openAt w q)
    (hin : ∀ m ∈ w.inbox, Rereads q m → m ∈ w'.inbox) : Fits w' q ph := by
  cases ph with
  | busy x =>
      refine h.imp (fun heq => hopen.trans heq) fun ⟨heq, m, hm, hr⟩ => ⟨hopen.trans heq, m, ?_, hr⟩
      exact hin m hm hr
  | idle => exact hopen.trans h
  | starting => exact hopen.trans h

/-- When one object has the only watch on `q`, an event at `q` is for this object alone. -/
lemma collectWatchers_eq_singleton {eve : ZkEvent} (hne : collectWatchers eve q w.armed ≠ [])
    (hopen : openAt w q = [x]) : collectWatchers eve q w.armed = [x] := by
  have hmem : ∀ y ∈ collectWatchers eve q w.armed, y = x := by
    intro y hy
    obtain ⟨a, ha, hf, rfl⟩ := mem_collectWatchers.mp hy
    have : a.ctx ∈ openAt w q := List.mem_append_left _
      (List.mem_map_of_mem (List.mem_filter.mpr ⟨ha, decide_eq_true hf.2⟩))
    rwa [hopen, List.mem_singleton] at this
  have hcount : (collectWatchers eve q w.armed).count x ≤ 1 := by
    rw [count_collectWatchers]
    have hle : w.armed.countP (fun a => decide (a.FiredBy eve q) && decide (a.ctx = x)) ≤
        w.armed.countP fun a => a.path = q :=
      List.countP_mono_left fun a _ ha => by simp at ha ⊢; exact ha.1.2
    have hlen := congrArg List.length hopen
    rw [openAt, List.length_append, List.length_map, ← List.countP_eq_length_filter] at hlen
    simp only [List.length_cons, List.length_nil] at hlen
    omega
  rw [List.eq_replicate_of_mem hmem] at hcount hne ⊢
  rw [List.count_replicate_self] at hcount
  cases hn : (collectWatchers eve q w.armed).length with
  | zero => rw [hn] at hne; exact absurd rfl hne
  | succ n =>
      rw [hn] at hcount
      obtain rfl : n = 0 := by omega
      rfl

lemma Scanned.fire (h : Scanned p w s)
    (hnode : ∀ a ∈ w.armed, a.path = subPath p s → a.table = .node) (eve : ZkEvent) (q' : Path) :
    Scanned p (w.fire eve q') s := by
  rcases World.fire_cases w eve q' with ⟨heq, -⟩ | ⟨hne, heq⟩
  · rw [heq]; exact h
  obtain ⟨ph₀, known, ph, hph₀, hscan, hfits⟩ := h
  by_cases hq : q' = subPath p s
  · subst hq
    -- the event is for the object that is live, and consumes its watch
    obtain ⟨y, hy⟩ := List.exists_mem_of_ne_nil _ hne
    obtain ⟨a, ha, hf, rfl⟩ := mem_collectWatchers.mp hy
    have harmed : a.ctx ∈ (w.armed.filter fun b => b.path = subPath p s).map Watch.ctx :=
      List.mem_map_of_mem (List.mem_filter.mpr ⟨ha, decide_eq_true hf.2⟩)
    obtain ⟨rfl, hopen⟩ := hfits.of_mem (List.mem_append_left _ harmed)
    have hcol := collectWatchers_eq_singleton hne hopen
    have hsent : (w.client.sent.filter fun r => r.op = .getDataOp ∧ r.path = subPath p s).map
        Request.ctx = [] := by
      rw [openAt] at hopen
      cases hl : (w.armed.filter fun b => b.path = subPath p s).map Watch.ctx with
      | nil => rw [hl] at harmed; simp at harmed
      | cons z zs =>
          rw [hl, List.cons_append] at hopen
          exact (List.append_eq_nil_iff.mp (List.cons.inj hopen).2).2
    have hopen' : openAt (w.fire eve (subPath p s)) (subPath p s) = [] := by
      rw [heq, openAt, List.append_eq_nil_iff]
      refine ⟨?_, hsent⟩
      rw [List.map_eq_nil_iff, List.filter_filter, List.filter_eq_nil_iff]
      intro b hb hcond
      simp only [Bool.and_eq_true, decide_eq_true_eq] at hcond
      have htb : Table.node ∈ eve.tables := hnode a ha hf.2 ▸ hf.1
      exact hcond.2 ⟨hnode b hb hcond.1 ▸ htb, hcond.1⟩
    have hscan' : scan (subPath p s) s (knows (w.fire eve (subPath p s)).client p s) ph₀
        (w.fire eve (subPath p s)).inbox =
          some (known, if eve = .deleted then .idle else .busy a.ctx) := by
      rw [heq, hcol]
      refine (scan_append_singleton hscan).trans ?_
      rw [scan1, if_pos rfl, if_pos (map_busy_eq.mpr ⟨_, rfl, rfl⟩)]
    refine ⟨ph₀, known, _, hph₀, hscan', ?_⟩
    split_ifs with hdel
    · exact hopen'
    · refine Or.inr ⟨hopen', .event eve (subPath p s) [a.ctx], ?_, rfl, hdel⟩
      rw [heq, hcol]
      exact List.mem_append_right _ (List.mem_singleton.mpr rfl)
  · refine ⟨ph₀, known, ph, hph₀, ?_, hfits.mono ?_ fun m hm _ => ?_⟩
    · rw [heq]
      refine (scan_append_singleton hscan).trans ?_
      rw [scan1, if_neg hq]
    · rw [heq, openAt, openAt, List.filter_filter]
      congr 2
      refine List.filter_congr fun b _ => ?_
      by_cases hb : b.path = subPath p s
      · have hnf : ¬ b.FiredBy eve q' := fun hf => hq (hf.2.symm.trans hb)
        simp [hb, hnf]
      · simp [hb]
    · rw [heq]
      exact List.mem_append_left _ hm

/-- The watches on a child are data watches. -/
lemma Base.node_of_armed (h : Base cb p w) :
    ∀ a ∈ w.armed, a.path = subPath p s → a.table = .node := by
  intro a ha hq
  have hfor := h.wf.armed a ha
  rw [hq] at hfor
  exact (h.solo.watch_child hfor).2

lemma nodup_fire {eve : ZkEvent} {q' : Path}
    (h : ∀ rep, Msg.reply rep ∈ w.inbox → rep.req.op = .getChildrenOp → rep.strings.Nodup) :
    ∀ rep, Msg.reply rep ∈ (w.fire eve q').inbox → rep.req.op = .getChildrenOp →
      rep.strings.Nodup := by
  intro rep hm
  obtain ⟨evs, hevs, hno⟩ := World.inbox_fire w eve q'
  rw [hevs] at hm
  exact (List.mem_append.mp hm).elim (h rep) fun hm => absurd hm (hno rep)

lemma OnceInv.external (h : OnceInv cb p w) {a : Action} (ha : a.External)
    (hs : w.step a = some w') : OnceInv cb p w' := by
  have hnode := fun s => h.base.node_of_armed (s := s)
  have hnode' : ∀ t eve q s, ∀ b ∈ (({ w with tree := t } : World).fire eve q).armed,
      b.path = subPath p s → b.table = .node :=
    fun t eve q s b hb => hnode s b (World.mem_armed_fire.mp hb).1
  have htree : ∀ t s, isValidPath (subPath p s) false = true →
      Scanned p ({ w with tree := t } : World) s := fun t s hv => h.scanned s hv
  refine ⟨h.base.step (Or.inl ha) hs, fun hroot => ?_, fun s hv => ?_⟩
  · have hnd := h.nodup hroot
    cases a with
    | create q v =>
        obtain ⟨t, -, rfl⟩ := Option.map_eq_some_iff.mp hs
        exact nodup_fire (nodup_fire (w := { w with tree := t }) hnd)
    | set q v =>
        obtain ⟨t, -, rfl⟩ := Option.map_eq_some_iff.mp hs
        exact nodup_fire (w := { w with tree := t }) hnd
    | delete q =>
        obtain ⟨t, -, rfl⟩ := Option.map_eq_some_iff.mp hs
        exact nodup_fire (nodup_fire (w := { w with tree := t }) hnd)
    | _ => exact absurd ha id
  · cases a with
    | create q v =>
        obtain ⟨t, -, rfl⟩ := Option.map_eq_some_iff.mp hs
        exact ((htree t s hv).fire (hnode s) _ _).fire (hnode' t _ _ s) _ _
    | set q v =>
        obtain ⟨t, -, rfl⟩ := Option.map_eq_some_iff.mp hs
        exact (htree t s hv).fire (hnode s) _ _
    | delete q =>
        obtain ⟨t, -, rfl⟩ := Option.map_eq_some_iff.mp hs
        exact ((htree t s hv).fire (hnode s) _ _).fire (hnode' t _ _ s) _ _
    | _ => exact absurd ha id

/-! ## The server -/

lemma openAt_eq_singleton (h : openAt w q = [x]) {r : Request} (hr : r ∈ w.client.sent)
    (hop : r.op = .getDataOp) (hq : r.path = q) :
    r.ctx = x ∧ (w.armed.filter fun a => a.path = q) = [] ∧
      (w.client.sent.filter fun r => r.op = .getDataOp ∧ r.path = q) = [r] := by
  have hmem : r ∈ w.client.sent.filter fun r => r.op = .getDataOp ∧ r.path = q :=
    List.mem_filter.mpr ⟨hr, decide_eq_true ⟨hop, hq⟩⟩
  have hlen := congrArg List.length h
  rw [openAt, List.length_append, List.length_map, List.length_map, List.length_singleton] at hlen
  have hpos := List.length_pos_of_mem hmem
  have harmed : (w.armed.filter fun a => a.path = q) = [] :=
    List.eq_nil_of_length_eq_zero (by omega)
  obtain ⟨r', hr'⟩ := List.length_eq_one_iff.mp
    (show (w.client.sent.filter fun r => r.op = .getDataOp ∧ r.path = q).length = 1 by omega)
  rw [hr', List.mem_singleton] at hmem
  subst hmem
  rw [openAt, harmed, hr'] at h
  exact ⟨(List.cons.inj h).1, harmed, hr'⟩

/-- The state after the server has handled a request. -/
def servedWorld (w : World) (r : Request) (rs : List Request) : World :=
  { w with
    armed := activate w.armed (answer w.tree w.armed r)
    inbox := w.inbox ++ [.reply (answer w.tree w.armed r)]
    client := { w.client with sent := rs } }

/-- A request for another path leaves what is open for `q` alone. -/
lemma openAt_servedWorld {r : Request} {rs : List Request} (hsent : w.client.sent = r :: rs)
    (hr : ∀ type, r.op ≠ .removeWatchesOp type) (hne : r.path ≠ q) :
    openAt (servedWorld w r rs) q = openAt w q := by
  rw [openAt, openAt, servedWorld, hsent]
  dsimp only
  rw [List.filter_cons_of_neg (by simp [hne])]
  have hnew : (((answer w.tree w.armed r).table?.map fun tb =>
      (⟨tb, r.path, r.ctx⟩ : Watch)).toList.filter fun a => a.path = q) = [] := by
    cases (answer w.tree w.armed r).table? <;> simp [hne]
  rw [activate_answer w.tree w.armed hr, List.filter_append, hnew, List.append_nil]

lemma scan1_other {rep : Reply} (hop : rep.req.op ≠ .getChildrenOp)
    (hq : ¬ (rep.req.op = .getDataOp ∧ rep.req.path = q)) :
    scan1 q s known ph (.reply rep) = some (known, ph) := by
  rw [scan1, if_neg hop, if_neg hq]

lemma scan1_get {rep : Reply} {a : Bool × Phase} (hop : rep.req.op ≠ .getChildrenOp)
    (hph : ph ≠ .starting) (ha : scan1 q s known ph (.reply rep) = some a) :
    a.1 = known ∧ a.2 ≠ .starting := by
  rw [scan1, if_neg hop] at ha
  split_ifs at ha <;> obtain rfl := Option.some.inj ha
  · exact ⟨rfl, hph⟩
  · exact ⟨rfl, by simp⟩
  · exact ⟨rfl, hph⟩

/-- A read of `q` is answered. -/
lemma Scanned.serve_get {r : Request} {rs : List Request} (h : Scanned p w s)
    (hsent : w.client.sent = r :: rs) (hop : r.op = .getDataOp) (hq : r.path = subPath p s)
    (hw : r.watch = true) : Scanned p (servedWorld w r rs) s := by
  obtain ⟨ph₀, known, ph, hph₀, hscan, hfits⟩ := h
  have hr : r ∈ w.client.sent := hsent ▸ List.mem_cons_self
  have hmem : r.ctx ∈ openAt w (subPath p s) := List.mem_append_right _
    (List.mem_map_of_mem (List.mem_filter.mpr ⟨hr, decide_eq_true ⟨hop, hq⟩⟩))
  obtain ⟨rfl, hopen⟩ := hfits.of_mem hmem
  obtain ⟨-, harmed, hone⟩ := openAt_eq_singleton hopen hr hop hq
  rw [hsent, List.filter_cons_of_pos (by simp [hop, hq])] at hone
  have hrest := (List.cons.inj hone).2
  refine ⟨ph₀, known, if (answer w.tree w.armed r).rc = .zok then .busy r.ctx else .idle, hph₀,
    ?_, ?_⟩
  · refine (scan_append_singleton hscan).trans ?_
    rw [scan1, answer_req, if_neg (by rw [hop]; simp), if_pos ⟨hop, hq⟩, if_pos rfl]
  · -- the request was the only thing live of the child, and its answer is all that is left
    have hact : ∀ armed, activate w.armed (answer w.tree w.armed r) = armed →
        openAt (servedWorld w r rs) (subPath p s) =
          (armed.filter fun a => a.path = subPath p s).map Watch.ctx := by
      rintro _ rfl
      rw [openAt, servedWorld]
      dsimp only
      rw [hrest, List.map_nil, List.append_nil]
    cases hget : w.tree.get r.path with
    | some v =>
        have hans : answer w.tree w.armed r = { req := r, rc := .zok, val := v } := by
          rw [answer_getDataOp hop, hget]
        have htb : (answer w.tree w.armed r).table? = some .node := by
          rw [hans, Reply.table?, if_pos hw, hop]
          rfl
        rw [if_pos (by rw [hans])]
        refine Or.inl ?_
        rw [hact _ (activate_of_some htb _), List.filter_append, harmed, answer_req]
        simp [hq]
    | none =>
        have hans : answer w.tree w.armed r = { req := r, rc := .znonode } := by
          rw [answer_getDataOp hop, hget]
        rw [if_neg (by rw [hans]; simp)]
        refine (hact w.armed ?_).trans (by rw [harmed]; rfl)
        rw [hans, activate, Reply.table?, if_pos hw, hop]
        rfl

/-- A listing is made. -/
lemma Scanned.serve_list {r : Request} {rs : List Request} (h : Scanned p w s)
    (hsent : w.client.sent = r :: rs) (hop : r.op = .getChildrenOp) (hp : r.path = p)
    (hok : s ∈ w.tree.children p → knownAfter s (knows w.client p s) w.inbox = false →
      ¬ Occupied p w s) : Scanned p (servedWorld w r rs) s := by
  obtain ⟨ph₀, known, ph, hph₀, hscan, hfits⟩ := h
  have hopen : openAt (servedWorld w r rs) (subPath p s) = openAt w (subPath p s) :=
    openAt_servedWorld hsent (by simp [hop]) (hp ▸ (subPath_ne_self p s).symm)
  have hfits' : Fits (servedWorld w r rs) (subPath p s) ph :=
    hfits.mono hopen fun m hm _ => List.mem_append_left _ hm
  have hscan' : ∀ b,
      scan1 (subPath p s) s known ph (.reply (answer w.tree w.armed r)) = some b →
        scan (subPath p s) s (knows (servedWorld w r rs).client p s) ph₀
          (servedWorld w r rs).inbox = some b :=
    fun b hb => (scan_append_singleton hscan).trans hb
  have hreq : (answer w.tree w.armed r).req.op = .getChildrenOp := by rw [answer_req, hop]
  by_cases hrc : (answer w.tree w.armed r).rc = .zok
  · have hstr : (answer w.tree w.armed r).strings = w.tree.children p := by
      rw [answer_getChildrenOp hop] at hrc ⊢
      split_ifs at hrc ⊢
      rw [hp]
    by_cases hs : s ∈ w.tree.children p
    · cases hknown : known with
      | true =>
          refine ⟨ph₀, true, ph, hph₀, hscan' _ ?_, hfits'⟩
          rw [scan1, if_pos hreq, if_pos hrc, hstr, if_pos hs, hknown, if_pos rfl]
      | false =>
          -- the child is new to the client, so nothing of it is live
          have hfree := hok hs (by rw [← scan_known hscan, hknown])
          have hidle : ph = .idle := by
            cases hph : ph with
            | idle => rfl
            | busy x =>
                refine absurd ?_ hfree
                rw [hph] at hfits
                rcases hfits with hx | ⟨-, hm⟩
                · have hmem : x ∈ openAt w (subPath p s) := hx ▸ List.mem_singleton.mpr rfl
                  rcases List.mem_append.mp hmem with ha | hr
                  · obtain ⟨a, ha, -⟩ := List.mem_map.mp ha
                    obtain ⟨ha, hq⟩ := List.mem_filter.mp ha
                    exact Or.inl ⟨a, ha, of_decide_eq_true hq⟩
                  · obtain ⟨r', hr, -⟩ := List.mem_map.mp hr
                    obtain ⟨hr, hq⟩ := List.mem_filter.mp hr
                    exact Or.inr (Or.inl ⟨r', hr, of_decide_eq_true hq⟩)
                · exact Or.inr (Or.inr (Or.inl hm))
            | starting =>
                exact absurd (Or.inr (Or.inr (Or.inr (startsRead_of_scan hscan hph₀ hph)))) hfree
          subst hidle
          refine ⟨ph₀, true, .starting, hph₀, hscan' _ ?_, hfits'⟩
          rw [scan1, if_pos hreq, if_pos hrc, hstr, if_pos hs, hknown, if_neg (by simp),
            if_pos rfl]
    · refine ⟨ph₀, false, ph, hph₀, hscan' _ ?_, hfits'⟩
      rw [scan1, if_pos hreq, if_pos hrc, hstr, if_neg hs]
  · refine ⟨ph₀, known, ph, hph₀, hscan' _ ?_, hfits'⟩
    rw [scan1, if_pos hreq, if_neg hrc]

lemma OnceInv.serve (h : OnceInv cb p w) (hok : Unoccupied p w .serve)
    (hs : w.serve = some w') : OnceInv cb p w' := by
  have hbase := h.base.step (Or.inr (Or.inl rfl)) hs
  obtain ⟨r, rs, hsent, rfl⟩ := World.serve_cases hs
  obtain ⟨-, hfor⟩ := h.base.wf.sent r (hsent ▸ List.mem_cons_self)
  have hreq := h.base.solo.request hfor
  refine ⟨hbase, fun hroot rep hm hop => ?_, fun s hv => ?_⟩
  · rcases List.mem_append.mp hm with hm | hm
    · exact h.nodup hroot rep hm hop
    · obtain rfl := Msg.reply.inj (List.mem_singleton.mp hm)
      rw [answer_req] at hop
      rcases hreq with hreq | ⟨s, -, hreq⟩ | ⟨-, hreq⟩
      · rw [hreq] at hop; simp at hop
      · rw [hreq] at hop; simp at hop
      · rw [answer_getChildrenOp hop, hreq]
        dsimp only
        split_ifs
        · exact Tree.children_nodup hroot
        · exact List.nodup_nil
  · rcases hreq with hreq | ⟨s', -, hreq⟩ | ⟨-, hreq⟩
    · -- the exists request: nothing of a child changes
      obtain ⟨ph₀, known, ph, hph₀, hscan, hfits⟩ := h.scanned s hv
      have hne : r.path ≠ subPath p s := by
        rw [hreq]; exact (subPath_ne_self p s).symm
      refine ⟨ph₀, known, ph, hph₀, (scan_append_singleton hscan).trans ?_,
        hfits.mono (openAt_servedWorld hsent (by rw [hreq]; simp) hne)
          fun m hm _ => List.mem_append_left _ hm⟩
      exact scan1_other (by rw [answer_req, hreq]; simp) fun hc => by
        rw [answer_req, hreq] at hc; simp at hc
    · -- a read is of one child, and leaves the others alone
      by_cases hss : s' = s
      · subst hss
        exact (h.scanned s' hv).serve_get hsent (by rw [hreq]) (by rw [hreq]) (by rw [hreq])
      · obtain ⟨ph₀, known, ph, hph₀, hscan, hfits⟩ := h.scanned s hv
        have hne : r.path ≠ subPath p s := by
          rw [hreq]; exact fun hc => hss (subPath_injective hc)
        refine ⟨ph₀, known, ph, hph₀, (scan_append_singleton hscan).trans ?_,
          hfits.mono (openAt_servedWorld hsent (by rw [hreq]; simp) hne)
            fun m hm _ => List.mem_append_left _ hm⟩
        exact scan1_other (by rw [answer_req, hreq]; simp) fun hc => hne (by
          rw [answer_req] at hc; exact hc.2)
    · refine (h.scanned s hv).serve_list hsent (by rw [hreq]) (by rw [hreq]) ?_
      exact hok rfl r (by rw [hsent]; rfl) (by rw [hreq]) s

/-! ## The client -/

section Deliver

variable {c' : Client} {rs : List Request} {a : Bool × Phase}

lemma openAt_append (hsent : c'.sent = w.client.sent ++ rs) :
    openAt { w with inbox := ms, client := c' } q = openAt w q ++
      (rs.filter fun r => r.op = .getDataOp ∧ r.path = q).map Request.ctx := by
  rw [openAt, openAt]
  dsimp only
  rw [hsent, List.filter_append, List.map_append, List.append_assoc]

/-- A message after which the child is not read. -/
lemma Scanned.pop (rs : List Request) (hin : w.inbox = m :: ms)
    (hscan : scan (subPath p s) s a.1 a.2 ms = some (known, ph)) (hfits : Fits w (subPath p s) ph)
    (hph : a.2 ≠ .starting) (hknows : knows c' p s = a.1)
    (hsent : c'.sent = w.client.sent ++ rs)
    (hrs : ∀ r ∈ rs, r.op = .getDataOp → r.path ≠ subPath p s)
    (hm : ¬ Rereads (subPath p s) m) :
    Scanned p { w with inbox := ms, client := c' } s := by
  refine ⟨a.2, known, ph, hph, by rw [hknows]; exact hscan, hfits.mono ?_ fun m' hm' hr => ?_⟩
  · have hnil : (rs.filter fun r => r.op = .getDataOp ∧ r.path = subPath p s) = [] := by
      rw [List.filter_eq_nil_iff]
      intro r hr hc
      obtain ⟨hop, hq⟩ := of_decide_eq_true hc
      exact hrs r hr hop hq
    rw [openAt_append hsent, hnil, List.map_nil, List.append_nil]
  · rw [hin] at hm'
    rcases List.mem_cons.mp hm' with rfl | hm'
    · exact absurd hr hm
    · exact hm'

/-- The reads a listing starts for one child: one if the child is fresh, none otherwise. -/
lemma length_filter_listing {c : Client} {subPaths : List Str} (hnd : subPaths.Nodup)
    (hv : isValidPath (subPath p s) false = true)
    (hpath : rs.map Request.path =
      ((fresh c p subPaths).filter fun s => isValidPath (subPath p s) false).map (subPath p))
    (hget : ∀ r ∈ rs, r.op = .getDataOp) :
    (rs.filter fun r => r.op = .getDataOp ∧ r.path = subPath p s).length =
      if s ∈ fresh c p subPaths then 1 else 0 := by
  have hfresh : ((fresh c p subPaths).filter fun s => isValidPath (subPath p s) false).Nodup := by
    refine List.Nodup.filter _ ?_
    rw [fresh]
    cases c.lastSubPath.lookup p with
    | none => exact hnd
    | some old => exact hnd.filter _
  have hcount : (rs.map Request.path).count (subPath p s) =
      (rs.filter fun r => r.op = .getDataOp ∧ r.path = subPath p s).length := by
    rw [List.count, List.countP_map, ← List.countP_eq_length_filter]
    refine List.countP_congr fun r hr => ?_
    simp [hget r hr]
  rw [← hcount, hpath, List.count_map_of_injective _ _ fun _ _ => subPath_injective, hfresh.count]
  simp [hv]

lemma OnceInv.deliver_list (h : OnceInv cb p w) {rep : Reply} (hin : w.inbox = .reply rep :: ms)
    (hd : w.client.heap rep.req.ctx = some (listObj cb p)) (hop : rep.req.op = .getChildrenOp)
    (hv : isValidPath (subPath p s) false = true) :
    Scanned p { w with inbox := ms, client := w.client.onReply rep } s := by
  obtain ⟨ph₀, known, ph, hph₀, hscan, hfits⟩ := h.scanned s hv
  rw [hin] at hscan
  obtain ⟨a, ha, hscan⟩ := scan_cons_eq_some.mp hscan
  have hroot : p ≠ root := by
    rintro rfl
    rw [isValidPath_subPath_root] at hv
    exact Bool.false_ne_true hv
  have hnd := h.nodup hroot rep (hin ▸ List.mem_cons_self) hop
  rw [scan1, if_pos hop] at ha
  rw [onReply_list hd]
  by_cases hrc : rep.rc = .zok
  · rw [if_pos hrc] at ha ⊢
    obtain ⟨rs, hsent, hpath, hget, -, hlast⟩ :=
      runListing_spec cb p w.client rep.strings
    have hlen := length_filter_listing hnd hv hpath fun r hr => (hget r hr).1
    have hknows : knows (w.client.runListing cb p rep.strings) p s = decide (s ∈ rep.strings) := by
      rw [knows, hlast, AList.lookup_insert]
    -- a child that is not fresh is not read
    have hold : s ∉ fresh w.client p rep.strings → ∀ r ∈ rs, r.op = .getDataOp →
        r.path ≠ subPath p s := by
      intro hs r hr hop hq
      rw [if_neg hs, List.length_eq_zero_iff, List.filter_eq_nil_iff] at hlen
      exact hlen r hr (decide_eq_true ⟨hop, hq⟩)
    by_cases hs : s ∈ rep.strings
    · rw [if_pos hs] at ha
      cases hk : knows w.client p s with
      | true =>
          rw [hk, if_pos rfl] at ha
          obtain rfl := Option.some.inj ha
          refine Scanned.pop _ hin hscan hfits hph₀ (by rw [hknows, decide_eq_true hs]) hsent
            (hold fun hc => ?_) id
          rw [mem_fresh, hk] at hc
          exact Bool.false_ne_true hc.2.symm
      | false =>
          rw [hk, if_neg (by simp)] at ha
          split_ifs at ha with hidle
          obtain rfl := Option.some.inj ha
          rw [if_pos (mem_fresh.mpr ⟨hs, hk⟩)] at hlen
          obtain ⟨r, hr⟩ := List.length_eq_one_iff.mp hlen
          obtain ⟨hb, hscan'⟩ := scan_starting (.busy r.ctx) hscan (by simp)
          dsimp only at hb
          subst hb
          refine ⟨.busy r.ctx, known, .busy r.ctx, by simp, ?_, Or.inl ?_⟩
          · rw [hknows, decide_eq_true hs]
            exact hscan'
          · rw [openAt_append hsent, show openAt w (subPath p s) = [] from hfits, hr]
            rfl
    · rw [if_neg hs] at ha
      obtain rfl := Option.some.inj ha
      exact Scanned.pop _ hin hscan hfits hph₀ (by rw [hknows, decide_eq_false hs]) hsent
        (hold fun hc => hs (mem_fresh.mp hc).1) id
  · rw [if_neg hrc] at ha ⊢
    obtain rfl := Option.some.inj ha
    exact Scanned.pop [] hin hscan hfits hph₀ rfl (List.append_nil _).symm (by simp) id

lemma OnceInv.deliver_event (h : OnceInv cb p w) {eve : ZkEvent} {q' : Path} {ctxs : List Ptr}
    (hin : w.inbox = .event eve q' ctxs :: ms) (hv : isValidPath (subPath p s) false = true) :
    Scanned p { w with inbox := ms, client := w.client.process (.event eve q' ctxs) } s := by
  obtain ⟨ph₀, known, ph, hph₀, hscan, hfits⟩ := h.scanned s hv
  rw [hin] at hscan
  obtain ⟨a, ha, hscan⟩ := scan_cons_eq_some.mp hscan
  have hm : Msg.event eve q' ctxs ∈ w.inbox := hin ▸ List.mem_cons_self
  obtain ⟨hsent, -, hlast⟩ := Client.onEvent_foldl_spec ctxs (h.base.wf.ctxs_nodup hin)
    (fun x hx => h.base.wf.lt_next (World.tokens_ne_nil_of_event hm hx))
    (h.base.wf.event eve q' ctxs hm) (h.base.served.valid_event eve q' ctxs hm)
  rw [← Client.process] at hsent hlast
  -- the requests that follow an event are for its path
  have hfollow : ∀ r ∈ w.client.followUps eve q' ctxs, r.path = q' := by
    intro r hr
    obtain ⟨x, -, hx⟩ := List.mem_filterMap.mp hr
    obtain ⟨d, -, hd⟩ := Option.bind_eq_some_iff.mp hx
    exact Userdata.path_followUp hd
  by_cases hq : q' = subPath p s
  · subst hq
    rw [scan1, if_pos rfl] at ha
    split_ifs at ha with hmap hdel
    · -- the child is gone
      obtain rfl := Option.some.inj ha
      refine Scanned.pop _ hin hscan hfits (by simp) (knows_congr hlast) hsent (fun r hr hop => ?_)
        fun hc => hc.2 hdel
      obtain ⟨x, hx, hreq⟩ := List.mem_filterMap.mp hr
      rw [(h.base.event_child hm hx).1, Option.bind_some, childObj, Userdata.followUp,
        if_pos hdel] at hreq
      simp at hreq
    · -- the object is read again; nothing else refers to it
      obtain ⟨x, rfl, rfl⟩ := map_busy_eq.mp hmap
      obtain rfl := Option.some.inj ha
      obtain ⟨hmsgs, harmed, hreqs⟩ := h.base.wf.unreferenced hin (List.mem_singleton.mpr rfl)
      have hbusy : ph = .busy x := by
        refine ((scan_phase hscan).1 rfl).resolve_right ?_
        rintro ⟨m', hm', habout⟩
        exact habout.tokens_ne_nil (hmsgs m' hm')
      subst hbusy
      have hopen : openAt w (subPath p s) = [] := by
        rcases hfits with hx | ⟨hnil, -⟩
        · have hmem : x ∈ openAt w (subPath p s) := hx ▸ List.mem_singleton.mpr rfl
          rcases List.mem_append.mp hmem with hx | hx
          · obtain ⟨b, hb, hbx⟩ := List.mem_map.mp hx
            exact absurd hbx (harmed b (List.mem_filter.mp hb).1)
          · obtain ⟨r, hr, hrx⟩ := List.mem_map.mp hx
            exact absurd hrx (hreqs r (List.mem_filter.mp hr).1)
        · exact hnil
      have hreq : w.client.followUps eve (subPath p s) [x] =
          [{ op := .getDataOp, path := subPath p s, watch := true, ctx := x }] := by
        rw [Client.followUps, List.filterMap_cons,
          (h.base.event_child hm (List.mem_singleton.mpr rfl)).1, Option.bind_some, childObj,
          Userdata.followUp, if_neg hdel]
        rfl
      refine ⟨.busy x, known, .busy x, by simp, by rw [knows_congr hlast]; exact hscan,
        Or.inl ?_⟩
      rw [openAt_append hsent, hopen, hreq]
      simp
  · rw [scan1, if_neg hq] at ha
    obtain rfl := Option.some.inj ha
    exact Scanned.pop _ hin hscan hfits hph₀ (knows_congr hlast) hsent
      (fun r hr _ => hfollow r hr ▸ hq) fun hc => hq hc.1

lemma OnceInv.deliver (h : OnceInv cb p w) (hs : w.deliver = some w') : OnceInv cb p w' := by
  have hbase := h.base.step (Or.inr (Or.inr rfl)) hs
  obtain ⟨m, ms, hin, rfl⟩ := World.deliver_cases hs
  refine ⟨hbase, fun hroot rep hm => h.nodup hroot rep (hin ▸ List.mem_cons_of_mem _ hm),
    fun s hv => ?_⟩
  cases m with
  | event eve q' ctxs => exact h.deliver_event hin hv
  | reply rep =>
      have hm : Msg.reply rep ∈ w.inbox := hin ▸ List.mem_cons_self
      rcases h.base.solo.request (h.base.wf.reply rep hm) with hreq | ⟨s', hd, hreq⟩ | ⟨hd, hreq⟩
      · obtain ⟨ph₀, known, ph, hph₀, hscan, hfits⟩ := h.scanned s hv
        rw [hin] at hscan
        obtain ⟨a, ha, hscan⟩ := scan_cons_eq_some.mp hscan
        rw [scan1_other (by rw [hreq]; simp) (by rw [hreq]; simp)] at ha
        obtain rfl := Option.some.inj ha
        rw [Client.process, h.base.solo.onReply_exists (congrArg Request.ctx hreq)]
        split_ifs
        · let r : Request :=
            { op := .getChildrenOp, path := p, watch := true, ctx := w.client.next }
          refine Scanned.pop ([r].filter fun r => isValidPath r.path false) hin hscan hfits hph₀
            (knows_congr (Client.lastSubPath_asyncGetSubPath _ _ _ _)) ?_ (fun r hr hop => ?_) id
          · rw [Client.asyncGetSubPath, if_pos rfl, Client.sent_emplace,
              Client.zooAwgetChildren2, Client.send]
            split_ifs with hp <;> simp [r, hp]
          · rw [List.mem_singleton.mp (List.mem_filter.mp hr).1] at hop
            simp at hop
        · exact Scanned.pop [] hin hscan hfits hph₀ rfl (List.append_nil _).symm
            (by simp) id
      · obtain ⟨ph₀, known, ph, hph₀, hscan, hfits⟩ := h.scanned s hv
        rw [hin] at hscan
        obtain ⟨a, ha, hscan⟩ := scan_cons_eq_some.mp hscan
        obtain ⟨hknown, hphase⟩ := scan1_get (by rw [hreq]; simp) hph₀ ha
        refine Scanned.pop [] hin hscan hfits hphase ?_ ?_ (by simp) id
        · rw [hknown, Client.process, onReply_get h.base.wf.heap hd]
          split_ifs <;> rfl
        · rw [Client.process, onReply_get h.base.wf.heap hd, List.append_nil]
          split_ifs <;> rfl
      · exact h.deliver_list hin hd (by rw [hreq]) hv

end Deliver

/-! ## Runs -/

lemma onceInv_watchingSub (t : Tree) (p : Path) (cb : Cb) :
    OnceInv cb p (World.watchingSub t p cb) := by
  refine ⟨base_watchingSub t p cb, fun _ rep hm => ?_, fun s _ => ?_⟩
  · simp [World.watchingSub, World.start] at hm
  · refine ⟨.idle, knows (World.watchingSub t p cb).client p s, .idle, by simp, rfl, ?_⟩
    have hget : ∀ r ∈ (World.watchingSub t p cb).client.sent, r.op ≠ .getDataOp := by
      intro r hr
      rcases (base_watchingSub t p cb).solo.request
        ((base_watchingSub t p cb).wf.sent r hr).2 with hreq | ⟨s', hd, -⟩ | ⟨-, hreq⟩
      · rw [hreq]; simp
      · simp [World.watchingSub, Client.watchSubPath, Client.init, childObj, Function.update_apply] at hd
      · rw [hreq]; simp
    have hnil : ((World.watchingSub t p cb).client.sent.filter
        fun r => r.op = .getDataOp ∧ r.path = subPath p s) = [] := by
      rw [List.filter_eq_nil_iff]
      intro r hr hc
      exact hget r hr (of_decide_eq_true hc).1
    rw [Fits, openAt, hnil]
    rfl

lemma OnceInv.step (h : OnceInv cb p w) {a : Action} (ha : a.Plain) (hok : Unoccupied p w a)
    (hs : w.step a = some w') : OnceInv cb p w' := by
  rcases ha with ha | rfl | rfl
  · exact h.external ha hs
  · exact h.serve hok hs
  · exact h.deliver hs

/-- A run in which the server never lists a child as new while it is still watched or read
watches each child once. -/
theorem watchedOnce_of_unoccupied {t : Tree} {p : Path} {cb : Cb} {w : World}
    (hr : Run.Reach World.step (fun w a => a.Plain ∧ Unoccupied p w a)
      (World.watchingSub t p cb) w) :
    (∀ s x y, Live cb p w s x → Live cb p w s y → x = y) ∧
      ∀ eve s ctxs ms, w.inbox = .event eve (subPath p s) ctxs :: ms →
        (w.client.process (.event eve (subPath p s) ctxs)).calls.length +
          (w.client.process (.event eve (subPath p s) ctxs)).sent.length ≤
            w.client.calls.length + w.client.sent.length + 1 := by
  have hinv : OnceInv cb p w := hr.invariant (onceInv_watchingSub t p cb)
    fun _ _ _ h hok hs => h.step hok.1 hok.2 hs
  refine ⟨fun s x y hx hy => hinv.eq_of_live hx hy, fun eve s ctxs ms hin => ?_⟩
  have hm : Msg.event eve (subPath p s) ctxs ∈ w.inbox := hin ▸ List.mem_cons_self
  obtain ⟨hsent, hcalls, -⟩ := Client.onEvent_foldl_spec ctxs (hinv.base.wf.ctxs_nodup hin)
    (fun x hx => hinv.base.wf.lt_next (World.tokens_ne_nil_of_event hm hx))
    (hinv.base.wf.event eve _ ctxs hm) (hinv.base.served.valid_event eve _ ctxs hm)
  obtain ⟨x, rfl⟩ := hinv.ctxs_eq hin
  have hd := (hinv.base.event_child hm (List.mem_singleton.mpr rfl)).1
  have hone := Userdata.length_followUp_add_delCall eve (subPath p s) x
    (childObj cb p s (storedEve w.client x))
  have hfollow : w.client.followUps eve (subPath p s) [x] =
      ((childObj cb p s (storedEve w.client x)).followUp eve (subPath p s) x).toList := by
    rw [Client.followUps, List.filterMap_cons, hd, Option.bind_some]
    cases (childObj cb p s (storedEve w.client x)).followUp eve (subPath p s) x <;> rfl
  have hdel : w.client.delCalls eve (subPath p s) [x] =
      ((childObj cb p s (storedEve w.client x)).delCall eve (subPath p s)).toList := by
    rw [Client.delCalls, List.filterMap_cons, hd, Option.bind_some]
    cases (childObj cb p s (storedEve w.client x)).delCall eve (subPath p s) <;> rfl
  rw [Client.process, hsent, hcalls, hfollow, hdel, List.length_append, List.length_append]
  omega

/-- A child is changed and read again. -/
theorem watchedOnce_of_unoccupied_treePC : ∃ w,
    Run.Reach World.step (fun w a => a.Plain ∧ Unoccupied ['/', 'p'] w a)
      (World.watchingSub treePC ['/', 'p'] 0) w ∧
    Live 0 ['/', 'p'] w ['c'] 2 ∧ ∀ y, Live 0 ['/', 'p'] w ['c'] y → y = 2 := by
  obtain ⟨w, hr, hw⟩ := Run.exists_reach_of_exec World.step
    (fun w a => a.Plain ∧ Unoccupied ['/', 'p'] w a)
    (World.watchingSub treePC ['/', 'p'] 0)
    [.serve, .deliver, .serve, .deliver, .serve, .deliver,
      .set ['/', 'p', '/', 'c'] (some ['b']), .deliver, .serve, .deliver]
    (fun w => (w.client.heap 2, w.tokens 2))
    (some (childObj 0 ['/', 'p'] ['c'] .changed), [.armed]) rfl
  obtain ⟨hd, htok⟩ : w.client.heap 2 = some (childObj 0 ['/', 'p'] ['c'] .changed) ∧
      w.tokens 2 = [.armed] := by
    simpa only [Prod.mk.injEq] using hw
  have hlive : Live 0 ['/', 'p'] w ['c'] 2 := ⟨⟨_, hd⟩, by rw [htok]; simp⟩
  exact ⟨w, hr, hlive, fun y hy => (watchedOnce_of_unoccupied hr).1 ['c'] y 2 hy hlive⟩

end WatchSubPath

end ConfigMonitor
