/-
# One `watch_sub_path` subscription

The objects of a session in which `watch_sub_path(p, cb)` has been called once: the exists
object of `p` (object `0`), the objects of the children listings, and one object for each child
that `monitor` was called for.  What each message makes the client do is said here once, and
the theorems about ghosts, doubles and missed children go back to it.
-/
import ConfigMonitor.Monitor.Served
import ConfigMonitor.Lib.Queue

namespace ConfigMonitor

open Queue

/-- The state in which `watch_sub_path(p, cb)` has just been called, on a fresh session. -/
def World.watchingSub (t : Tree) (p : Path) (cb : Cb) : World :=
  { World.start t with client := Client.init.watchSubPath p cb }

namespace WatchSubPath

/-- A tree with the nodes `/p` and `/p/c`. -/
def treePC : Tree where
  nodes := [(root, none), (['/', 'p'], none), (['/', 'p', '/', 'c'], some ['a'])]
  nodup := by decide
  root_mem := by decide
  closed := by decide
  valid := by decide

/-! ## Objects -/

/-- The exists object of the subscription. -/
def pathObj (cb : Cb) (p : Path) (eve : ZkEvent) : Userdata :=
  .existsData { cb := .watchSubPath cb p, eve := eve }

/-- The object of a children listing. -/
def listObj (cb : Cb) (p : Path) : Userdata :=
  .getChildren { cb := .watchSubPath cb p, path := p, advanced := true }

/-- The object `monitor` makes for the child `s`. -/
def childObj (cb : Cb) (p : Path) (s : Str) (eve : ZkEvent) : Userdata :=
  .wget { cb := .monitor cb p, path := subPath p s, advanced := true, eve := eve }

/-- `cb` is told of a value of the node at `q`. -/
def changedAt (cb : Cb) (q : Path) (v : Data) : Call := .watchSub cb .changed q v

/-- `cb` is told that the node at `q` is gone. -/
def delAt (cb : Cb) (q : Path) : Call := .watchSub cb .del q none

/-- The event an object has stored. -/
def storedEve (c : Client) (x : Ptr) : ZkEvent :=
  match c.heap x with
  | some (.existsData d) => d.eve
  | some (.wget d) => d.eve
  | _ => .dummy

/-- The objects and the calls of the subscription. -/
structure Solo (cb : Cb) (p : Path) (c : Client) : Prop where
  zero : ∃ eve, c.heap 0 = some (pathObj cb p eve) ∧ eve ≠ .child ∧ eve ≠ .session
  other : ∀ x d, x ≠ 0 → c.heap x = some d →
    (∃ s eve, d = childObj cb p s eve) ∨ d = listObj cb p
  next_pos : 0 < c.next
  calls : ∀ k ∈ c.calls, ∃ s, k = delAt cb (subPath p s) ∨ ∃ v, k = changedAt cb (subPath p s) v

variable {cb : Cb} {p : Path} {c c' : Client} {w w' : World} {x : Ptr} {s : Str}

lemma Solo.heap_zero (h : Solo cb p c) : c.heap 0 = some (pathObj cb p (storedEve c 0)) := by
  obtain ⟨eve, h0, -⟩ := h.zero
  rw [storedEve, h0]
  rfl

/-- What an object is, once it satisfies `P`. -/
lemma Solo.eq_of_holds (h : Solo cb p c) {P : Userdata → Prop} (hx : c.Holds x P) :
    (x = 0 ∧ P (pathObj cb p (storedEve c 0))) ∨
      (x ≠ 0 ∧ ∃ s, c.heap x = some (childObj cb p s (storedEve c x)) ∧
        P (childObj cb p s (storedEve c x))) ∨
      (x ≠ 0 ∧ c.heap x = some (listObj cb p) ∧ P (listObj cb p)) := by
  obtain ⟨d, hd, hP⟩ := hx
  by_cases hx0 : x = 0
  · subst hx0
    obtain rfl := Option.some.inj (h.heap_zero.symm.trans hd)
    exact Or.inl ⟨rfl, hP⟩
  · rcases h.other x d hx0 hd with ⟨s, eve, rfl⟩ | rfl
    · have heve : storedEve c x = eve := by rw [storedEve, hd]; rfl
      exact Or.inr (Or.inl ⟨hx0, s, heve.symm ▸ hd, heve.symm ▸ hP⟩)
    · exact Or.inr (Or.inr ⟨hx0, hd, hP⟩)

/-- A request of the subscription is its exists request, a read of a child or a listing. -/
lemma Solo.request (h : Solo cb p c) {r : Request} (hr : c.Holds r.ctx (·.For r)) :
    (r = { op := .existsOp, path := p, watch := true, ctx := 0 }) ∨
      (∃ s, c.heap r.ctx = some (childObj cb p s (storedEve c r.ctx)) ∧
        r = { op := .getDataOp, path := subPath p s, watch := true, ctx := r.ctx }) ∨
      (c.heap r.ctx = some (listObj cb p) ∧
        r = { op := .getChildrenOp, path := p, watch := true, ctx := r.ctx }) := by
  rcases r with ⟨op, path, watch, ctx⟩
  rcases h.eq_of_holds hr with ⟨h0, hop, hpath, hw⟩ | ⟨-, s, hd, hop, hpath, hw⟩ |
    ⟨-, hd, hop, hpath, hw⟩
  · left
    dsimp only at h0 hop hpath hw
    rw [h0, hop, hw, ← hpath]
    rfl
  · right; left
    dsimp only at hop hpath hw
    exact ⟨s, hd, by rw [hop, ← hpath, ← hw]⟩
  · right; right
    dsimp only at hop hpath hw
    exact ⟨hd, by rw [hop, ← hpath, ← hw]⟩

lemma Solo.request_list (h : Solo cb p c) {r : Request} (hr : c.Holds r.ctx (·.For r))
    (hop : r.op = .getChildrenOp) : r.path = p ∧ r.watch = true := by
  rcases h.request hr with hreq | ⟨s, -, hreq⟩ | ⟨-, hreq⟩
  · rw [hreq] at hop
    simp at hop
  · rw [hreq] at hop
    simp at hop
  · rw [hreq]
    exact ⟨rfl, rfl⟩

/-- A watch of the subscription, armed or just fired. -/
lemma Solo.watch (h : Solo cb p c) {tb : Table} {q : Path} (hx : c.Holds x (·.ForWatch tb q)) :
    (x = 0 ∧ tb ≠ .child ∧ q = p) ∨
      (∃ s, c.heap x = some (childObj cb p s (storedEve c x)) ∧ tb = .node ∧ q = subPath p s) ∨
      (c.heap x = some (listObj cb p) ∧ tb = .child ∧ q = p) := by
  rcases h.eq_of_holds hx with ⟨h0, htb, hpath⟩ | ⟨-, s, hd, htb, hpath, -⟩ |
    ⟨-, hd, htb, hpath, -⟩
  · exact Or.inl ⟨h0, htb, hpath.symm⟩
  · exact Or.inr (Or.inl ⟨s, hd, htb, hpath.symm⟩)
  · exact Or.inr (Or.inr ⟨hd, htb, hpath.symm⟩)

/-- The watches on a child are those of its own objects. -/
lemma Solo.watch_child (h : Solo cb p c) {tb : Table}
    (hx : c.Holds x (·.ForWatch tb (subPath p s))) :
    c.heap x = some (childObj cb p s (storedEve c x)) ∧ tb = .node := by
  rcases h.watch hx with ⟨-, -, hq⟩ | ⟨s', hd, htb, hq⟩ | ⟨-, -, hq⟩
  · exact absurd hq (subPath_ne_self p s)
  · rw [subPath_injective hq]
    exact ⟨hd, htb⟩
  · exact absurd hq (subPath_ne_self p s)

/-- The requests and watches that refer to an object of a child are for the child. -/
lemma request_of_child {r : Request} {eve : ZkEvent}
    (hd : c.heap r.ctx = some (childObj cb p s eve)) (hr : c.Holds r.ctx (·.For r)) :
    r.op = .getDataOp ∧ r.path = subPath p s ∧ r.watch = true := by
  obtain ⟨d, hd', hop, hpath, hw⟩ : ∃ d, c.heap r.ctx = some (.wget d) ∧
      Userdata.For r (.wget d) := by
    obtain ⟨d, hd', hfor⟩ := hr
    obtain rfl := Option.some.inj (hd.symm.trans hd')
    exact ⟨_, hd, hfor⟩
  obtain rfl := Userdata.wget.inj (Option.some.inj (hd.symm.trans hd'))
  exact ⟨hop, hpath.symm, hw.symm⟩

lemma watch_of_child {tb : Table} {q : Path} {eve : ZkEvent}
    (hd : c.heap x = some (childObj cb p s eve)) (hx : c.Holds x (·.ForWatch tb q)) :
    q = subPath p s := by
  obtain ⟨d, hd', hfor⟩ := hx
  obtain rfl := Option.some.inj (hd.symm.trans hd')
  exact hfor.2.1.symm

/-! ## Answers -/

lemma Solo.onReply_exists (h : Solo cb p c) {rep : Reply} (hctx : rep.req.ctx = 0) :
    c.onReply rep = if rep.rc = .zok ∧ (storedEve c 0 = .dummy ∨ storedEve c 0 = .created)
      then c.asyncGetSubPath true p (.watchSubPath cb p) else c := by
  rw [Client.onReply, hctx, h.heap_zero]
  rw [pathObj]
  dsimp only
  rw [Client.runExists]
  split_ifs <;> tauto

lemma onReply_get {rep : Reply} {eve : ZkEvent} (hwf : c.HeapWf)
    (hx : c.heap rep.req.ctx = some (childObj cb p s eve)) :
    c.onReply rep = if rep.rc = .zok then c.call (changedAt cb (subPath p s) rep.val) else c := by
  have heve := (hwf _ _ hx).2
  rw [Client.onReply, hx, childObj]
  dsimp only
  rw [Client.getCompletion]
  dsimp only
  rw [if_pos rfl, Client.runGet, if_neg fun hd : _ ∧ eve = ZkEvent.deleted => heve hd.2]
  rfl

lemma onReply_list {rep : Reply} (hx : c.heap rep.req.ctx = some (listObj cb p)) :
    c.onReply rep = if rep.rc = .zok then c.runListing cb p rep.strings else c := by
  rw [Client.onReply, hx, listObj]
  dsimp only
  rw [Client.childrenCompletion, Client.runChildren]
  split_ifs <;> tauto

/-! ## A listing -/

/-- The children of a listing that `monitor` is called for. -/
def fresh (c : Client) (p : Path) (subPaths : List Str) : List Str :=
  match c.lastSubPath.lookup p with
  | none => subPaths
  | some old => subPaths.filter (· ∉ old)

/-- Is `s` in `last_sub_path_[p]`? -/
def knows (c : Client) (p : Path) (s : Str) : Bool :=
  match c.lastSubPath.lookup p with
  | some old => decide (s ∈ old)
  | none => false

lemma knows_congr (h : c'.lastSubPath = c.lastSubPath) : knows c' p s = knows c p s := by
  rw [knows, knows, h]

lemma mem_fresh {subPaths : List Str} :
    s ∈ fresh c p subPaths ↔ s ∈ subPaths ∧ knows c p s = false := by
  rw [fresh, knows]
  cases c.lastSubPath.lookup p with
  | none => simp
  | some old => simp

lemma heap_monitor (cb : Cb) (p : Path) (s : Str) (c : Client) :
    (c.monitor cb p (subPath p s)).heap =
      Function.update c.heap c.next (some (childObj cb p s .dummy)) := by
  simp [Client.monitor, Client.asyncGetPathValue, Client.zooAwget, childObj]

lemma next_monitor (cb : Cb) (p : Path) (s : Str) (c : Client) :
    (c.monitor cb p (subPath p s)).next = c.next + 1 := by
  simp [Client.monitor, Client.asyncGetPathValue, Client.zooAwget]

/-- `monitor` asks for the value of a child whose path is valid. -/
lemma sent_monitor (cb : Cb) (p : Path) (s : Str) (c : Client) :
    (c.monitor cb p (subPath p s)).sent = c.sent ++
      if isValidPath (subPath p s) false then
        [{ op := .getDataOp, path := subPath p s, watch := true, ctx := c.next }] else [] := by
  rw [Client.monitor, Client.asyncGetPathValue, if_pos rfl, Client.sent_emplace, Client.zooAwget,
    Client.send]
  split_ifs <;> simp

/-- `monitor` is called for one child after the other. -/
lemma monitor_foldl_spec (cb : Cb) (p : Path) (subs : List Str) (c : Client) :
    ∃ rs, (subs.foldl (fun c s => c.monitor cb p (subPath p s)) c).sent = c.sent ++ rs ∧
      rs.map Request.path =
        (subs.filter fun s => isValidPath (subPath p s) false).map (subPath p) ∧
      (∀ r ∈ rs, r.op = .getDataOp ∧ r.watch = true) ∧
      (∀ x d, (subs.foldl (fun c s => c.monitor cb p (subPath p s)) c).heap x = some d →
        c.heap x = some d ∨ c.next ≤ x ∧ ∃ s ∈ subs, d = childObj cb p s .dummy) := by
  induction subs generalizing c with
  | nil => exact ⟨[], by simp, rfl, by simp, fun x d hd => Or.inl hd⟩
  | cons s subs ih =>
      obtain ⟨rs, hsent, hpath, hget, hheap⟩ := ih (c.monitor cb p (subPath p s))
      have hheap' : ∀ x d, (c.monitor cb p (subPath p s)).heap x = some d →
          c.heap x = some d ∨ x = c.next ∧ d = childObj cb p s .dummy := by
        intro x d hd
        rw [heap_monitor] at hd
        by_cases hx : x = c.next
        · subst hx
          rw [Function.update_self] at hd
          exact Or.inr ⟨rfl, (Option.some.inj hd).symm⟩
        · rw [Function.update_of_ne hx] at hd
          exact Or.inl hd
      have hnext : c.next ≤ (c.monitor cb p (subPath p s)).next :=
        (Nat.le_succ _).trans_eq (next_monitor cb p s c).symm
      refine ⟨(if isValidPath (subPath p s) false then
        [{ op := .getDataOp, path := subPath p s, watch := true, ctx := c.next }] else []) ++ rs,
        ?_, ?_, ?_, ?_⟩
      · rw [List.foldl_cons, hsent, sent_monitor, List.append_assoc]
      · rw [List.map_append, hpath, List.filter_cons]
        split_ifs <;> simp
      · intro r hr
        rcases List.mem_append.mp hr with hr | hr
        · split_ifs at hr
          · rw [List.mem_singleton.mp hr]
            exact ⟨rfl, rfl⟩
          · simp at hr
        · exact hget r hr
      · intro x d hd
        rcases hheap x d hd with hd | ⟨hge, s', hs', rfl⟩
        · rcases hheap' x d hd with hd | ⟨rfl, rfl⟩
          · exact Or.inl hd
          · exact Or.inr ⟨le_rfl, s, List.mem_cons_self, rfl⟩
        · exact Or.inr ⟨hnext.trans hge, s', List.mem_cons_of_mem _ hs', rfl⟩

/-- A listing starts a read of each fresh child and replaces the set of known children. -/
lemma runListing_spec (cb : Cb) (p : Path) (c : Client) (subPaths : List Str) :
    ∃ rs, (c.runListing cb p subPaths).sent = c.sent ++ rs ∧
      rs.map Request.path =
        ((fresh c p subPaths).filter fun s => isValidPath (subPath p s) false).map (subPath p) ∧
      (∀ r ∈ rs, r.op = .getDataOp ∧ r.watch = true) ∧
      (∀ x d, (c.runListing cb p subPaths).heap x = some d → c.heap x = some d ∨
        c.next ≤ x ∧ ∃ s ∈ fresh c p subPaths, d = childObj cb p s .dummy) ∧
      (c.runListing cb p subPaths).lastSubPath = c.lastSubPath.insert p subPaths := by
  obtain ⟨rs, hsent, hpath, hget, hheap⟩ :=
    monitor_foldl_spec cb p (fresh c p subPaths) c
  refine ⟨rs, ?_, hpath, hget, ?_, Client.lastSubPath_runListing c cb p subPaths⟩
  · rw [Client.runListing]; exact hsent
  · rw [Client.runListing]; exact hheap

/-! ## The subscription keeps its shape -/

lemma solo_init (cb : Cb) (p : Path) : Solo cb p (Client.init.watchSubPath p cb) := by
  have hheap : (Client.init.watchSubPath p cb).heap =
      Function.update (fun _ => none) 0 (some (pathObj cb p .dummy)) := by
    simp [Client.watchSubPath, Client.init, pathObj]
  refine ⟨⟨.dummy, by rw [hheap, Function.update_self], by simp, by simp⟩, fun x d hx hd => ?_,
    by simp [Client.watchSubPath],
    by simp [Client.watchSubPath, Client.init]⟩
  rw [hheap, Function.update_of_ne hx] at hd
  simp at hd

/-- Handlers that add objects of the subscription and make its calls. -/
lemma Solo.of_heap (h : Solo cb p c) (h0 : c'.heap 0 = c.heap 0) (hnext : c.next ≤ c'.next)
    (hheap : ∀ x d, x ≠ 0 → c'.heap x = some d → c.heap x = some d ∨
      (∃ s eve, d = childObj cb p s eve) ∨ d = listObj cb p)
    (hcalls : ∀ k ∈ c'.calls, k ∈ c.calls ∨
      ∃ s, k = delAt cb (subPath p s) ∨ ∃ v, k = changedAt cb (subPath p s) v) :
    Solo cb p c' := by
  refine ⟨by rw [h0]; exact h.zero, fun x d hx hd => ?_, h.next_pos.trans_le hnext,
    fun k hk => ?_⟩
  · rcases hheap x d hx hd with hd | hd
    · exact h.other x d hx hd
    · exact hd
  · rcases hcalls k hk with hk | hk
    · exact h.calls k hk
    · exact hk

lemma Solo.onReply (h : Solo cb p c) (hwf : c.HeapWf) {rep : Reply}
    (hlt : rep.req.ctx < c.next) (hr : c.Holds rep.req.ctx (·.For rep.req)) :
    Solo cb p (c.onReply rep) := by
  have heff := Client.effect_onReply hlt hr
  have hnext := heff.next_le
  rcases h.request hr with hreq | ⟨s, hd, hreq⟩ | ⟨hd, hreq⟩
  · -- the exists answer: the children are listed, with a new object
    have hctx : rep.req.ctx = 0 := congrArg Request.ctx hreq
    rw [h.onReply_exists hctx] at hnext ⊢
    split_ifs at hnext ⊢
    · have hget := Client.effect_asyncGetSubPath true c p (.watchSubPath cb p)
        ⟨rfl, rfl⟩
      refine h.of_heap (hget.heap_eq 0 (by simp) h.next_pos) hget.next_le (fun x d hx hd => ?_)
        fun k hk => Or.inl (by simpa using hk)
      rw [Client.asyncGetSubPath, if_pos rfl, Client.heap_emplace, Client.zooAwgetChildren2,
        Client.heap_send, Client.heap_alloc] at hd
      by_cases hxn : x = c.next
      · subst hxn
        rw [Function.update_self] at hd
        exact Or.inr (Or.inr (Option.some.inj hd).symm)
      · rw [Function.update_of_ne hxn] at hd
        exact Or.inl hd
    · exact h
  · -- the value of a child: its callback is called
    rw [onReply_get hwf hd]
    split_ifs
    · refine h.of_heap rfl le_rfl (fun x d _ hd => Or.inl hd) fun k hk => ?_
      rw [Client.calls_call, List.mem_append, List.mem_singleton] at hk
      rcases hk with hk | rfl
      · exact Or.inl hk
      · exact Or.inr ⟨s, Or.inr ⟨_, rfl⟩⟩
    · exact h
  · -- the children: each fresh one is read, with an object of its own
    rw [onReply_list hd]
    split_ifs
    · have hrun := Client.effect_runListing c cb p rep.strings
      obtain ⟨rs, -, -, -, hheap, -⟩ := runListing_spec cb p c rep.strings
      refine h.of_heap (hrun.heap_eq 0 (by simp) h.next_pos) hrun.next_le (fun x d _ hd => ?_)
        fun k hk => Or.inl (by rwa [Client.calls_runListing] at hk)
      rcases hheap x d hd with hd | ⟨-, s, -, rfl⟩
      · exact Or.inl hd
      · exact Or.inr (Or.inl ⟨s, .dummy, rfl⟩)
    · exact h

lemma Solo.onEvent (h : Solo cb p c) {eve : ZkEvent} {q : Path} {tb : Table}
    (htb : tb ∈ eve.tables) (hlt : x < c.next) (hx : c.Holds x (·.ForWatch tb q)) :
    Solo cb p (c.onEvent eve q x) := by
  have hses := ZkEvent.ne_session htb
  -- giving up an object other than the first keeps the shape
  have hrel : ∀ {c₁ : Client} {y : Ptr}, Solo cb p c₁ → y ≠ 0 → Solo cb p (c₁.release y) := by
    intro c₁ y h₁ hy
    rw [Client.release]
    split_ifs
    · refine h₁.of_heap (Function.update_of_ne (Ne.symm hy) _ _) le_rfl (fun z d _ hd => ?_)
        fun k hk => Or.inl hk
      by_cases hzy : z = y
      · subst hzy; simp at hd
      · dsimp only at hd
        rw [Function.update_of_ne hzy] at hd
        exact Or.inl hd
    · exact h₁
  rcases h.watch hx with ⟨rfl, htb', rfl⟩ | ⟨s, hd, rfl, rfl⟩ | ⟨hd, rfl, rfl⟩
  · -- the event is for the path: the exists object stores it and asks again
    have heve := ZkEvent.ne_of_mem_tables htb htb'
    rw [Client.onEvent, h.heap_zero, pathObj]
    dsimp only
    rw [Client.existsWatcher, if_neg hses]
    refine ⟨⟨eve, by simp [Client.zooAwexists, pathObj], heve⟩, fun x d hx hd => ?_,
      by simpa [Client.zooAwexists] using h.next_pos, by simpa [Client.zooAwexists] using h.calls⟩
    rw [Client.zooAwexists, Client.heap_send, Client.heap_store, Function.update_of_ne hx] at hd
    exact h.other x d hx hd
  · have hx0 : x ≠ 0 := by
      rintro rfl
      rw [h.heap_zero, pathObj, childObj] at hd
      simp at hd
    -- the event is for a child: a deletion is told, and anything else is read
    rw [Client.onEvent, hd, childObj]
    dsimp only
    rw [Client.getWatcher, if_neg hses]
    split_ifs
    · refine hrel ?_ hx0
      refine h.of_heap rfl le_rfl (fun x d _ hd => Or.inl hd) fun k hk => ?_
      have hk' : k ∈ c.calls ++ [delAt cb (subPath p s)] := hk
      rcases List.mem_append.mp hk' with hk | hk
      · exact Or.inl hk
      · exact Or.inr ⟨s, Or.inl (List.mem_singleton.mp hk)⟩
    · refine h.of_heap ?_ (by simp [Client.zooAwget]) (fun y d hy hd' => ?_)
        fun k hk => Or.inl (by simpa [Client.zooAwget] using hk)
      · rw [Client.zooAwget, Client.heap_send, Client.heap_store,
          Function.update_of_ne (Ne.symm hx0)]
      · rw [Client.zooAwget, Client.heap_send, Client.heap_store] at hd'
        by_cases hyx : y = x
        · subst hyx
          rw [Function.update_self] at hd'
          exact Or.inr (Or.inl ⟨s, eve, (Option.some.inj hd').symm⟩)
        · rw [Function.update_of_ne hyx] at hd'
          exact Or.inl hd'
  · have hx0 : x ≠ 0 := by
      rintro rfl
      rw [h.heap_zero, pathObj, listObj] at hd
      simp at hd
    -- the event is for the list of children, which is read again unless the path is gone
    rw [Client.onEvent, hd, listObj]
    dsimp only
    rw [Client.childrenWatcher, if_neg hses]
    split_ifs
    · exact hrel h hx0
    · exact h.of_heap (by simp [Client.zooAwgetChildren2]) (by simp [Client.zooAwgetChildren2])
        (fun y d _ hd => Or.inl (by simpa [Client.zooAwgetChildren2] using hd))
        fun k hk => Or.inl (by simpa [Client.zooAwgetChildren2] using hk)

lemma Solo.onEvent_foldl (h : Solo cb p c) {eve : ZkEvent} {q : Path} (ctxs : List Ptr)
    (hnd : ctxs.Nodup) (hlt : ∀ x ∈ ctxs, x < c.next)
    (hctxs : ∀ x ∈ ctxs, ∃ tb ∈ eve.tables, c.Holds x (·.ForWatch tb q)) :
    Solo cb p (ctxs.foldl (Client.onEvent eve q) c) := by
  induction ctxs generalizing c with
  | nil => exact h
  | cons x ctxs ih =>
      obtain ⟨hx, hnd'⟩ := List.nodup_cons.mp hnd
      obtain ⟨tb, htb, hholds⟩ := hctxs x List.mem_cons_self
      have hxlt := hlt x List.mem_cons_self
      have heff := Client.effect_onEvent htb hxlt hholds
      refine ih (h.onEvent htb hxlt hholds) hnd'
        (fun y hy => lt_of_lt_of_le (hlt y (List.mem_cons_of_mem _ hy)) heff.next_le)
        fun y hy => ?_
      obtain ⟨tb', htb', d, hd, hfor⟩ := hctxs y (List.mem_cons_of_mem _ hy)
      refine ⟨tb', htb', d, ?_, hfor⟩
      rw [heff.heap_eq y (fun hyx => hx (List.mem_singleton.mp hyx ▸ hy))
        (hlt y (List.mem_cons_of_mem _ hy)), hd]

/-! ## What the session keeps, and what is told -/

/-- What holds in every state of the session. -/
structure Base (cb : Cb) (p : Path) (w : World) : Prop where
  wf : w.Wf
  served : w.Served
  solo : Solo cb p w.client

lemma base_watchingSub (t : Tree) (p : Path) (cb : Cb) : Base cb p (World.watchingSub t p cb) :=
  ⟨(World.wf_start t).of_call (Client.effect_watchSubPath _ p cb), World.served_start t _,
    solo_init cb p⟩

lemma Base.step (h : Base cb p w) {a : Action} (ha : a.Plain) (hs : w.step a = some w') :
    Base cb p w' := by
  refine ⟨h.wf.step hs, h.served.step h.wf ha hs, ?_⟩
  rcases ha with ha | rfl | rfl
  · exact (World.changed_of_external ha hs).client ▸ h.solo
  · obtain ⟨r, rs, -, rfl⟩ := World.serve_cases hs
    have hheap : ({ w.client with sent := rs } : Client).heap 0 = w.client.heap 0 := rfl
    exact h.solo.of_heap hheap le_rfl
      (fun x d _ hd => Or.inl hd) fun k hk => Or.inl hk
  · obtain ⟨m, ms, hin, rfl⟩ := World.deliver_cases hs
    cases m with
    | reply rep =>
        have hm : Msg.reply rep ∈ w.inbox := hin ▸ List.mem_cons_self
        exact h.solo.onReply h.wf.heap (h.wf.lt_next (World.tokens_ne_nil_of_reply hm))
          (h.wf.reply rep hm)
    | event eve q ctxs =>
        have hm : Msg.event eve q ctxs ∈ w.inbox := hin ▸ List.mem_cons_self
        exact h.solo.onEvent_foldl ctxs (h.wf.ctxs_nodup hin)
          (fun x hx => h.wf.lt_next (World.tokens_ne_nil_of_event hm hx))
          (h.wf.event eve q ctxs hm)

/-- The watchers of a notification send their requests. -/
lemma Base.mem_sent_of_followUp (h : Base cb p w) {eve : ZkEvent} {q : Path} {ctxs : List Ptr}
    {ms : List Msg} (hin : w.inbox = .event eve q ctxs :: ms) (hx : x ∈ ctxs) {d : Userdata}
    (hd : w.client.heap x = some d) {r : Request} (hr : d.followUp eve q x = some r) :
    r ∈ (w.client.process (.event eve q ctxs)).sent := by
  have hm : Msg.event eve q ctxs ∈ w.inbox := hin ▸ List.mem_cons_self
  rw [Client.process, (Client.onEvent_foldl_spec ctxs (h.wf.ctxs_nodup hin)
    (fun y hy => h.wf.lt_next (World.tokens_ne_nil_of_event hm hy))
    (h.wf.event eve q ctxs hm) (h.served.valid_event eve q ctxs hm)).1]
  refine List.mem_append_right _ (List.mem_filterMap.mpr ⟨x, hx, ?_⟩)
  rw [hd, Option.bind_some, hr]

/-- The call is about the node at `q`. -/
def About (q : Path) : Call → Prop
  | .watchSub _ _ q' _ => q' = q
  | _ => False

instance (q : Path) : DecidablePred (About q)
  | .watchSub _ _ q' _ => inferInstanceAs (Decidable (q' = q))
  | .watch .. | .done .. => instDecidableFalse

/-- The last call about the node at `q`. -/
def lastAbout (q : Path) (calls : List Call) : Option Call :=
  (calls.filter fun k => About q k).getLast?

/-- The call about `q` that a message makes when it is handled. -/
def tells (cb : Cb) (q : Path) : Msg → Option Call
  | .reply rep =>
      if rep.req.op = .getDataOp ∧ rep.req.path = q ∧ rep.rc = .zok then
        some (changedAt cb q rep.val)
      else none
  | .event eve q' _ => if eve = .deleted ∧ q' = q then some (delAt cb q) else none

/-- What the callback has been told last about `q` once the messages on their way have been
handled. -/
def lastTold (cb : Cb) (q : Path) (w : World) : Option Call :=
  lastSome (tells cb q) (lastAbout q w.client.calls) w.inbox

lemma lastAbout_append (q : Path) (calls ks : List Call) :
    lastAbout q (calls ++ ks) = (lastAbout q ks).or (lastAbout q calls) := by
  rw [lastAbout, List.filter_append, List.getLast?_append]
  rfl

lemma lastAbout_eq_none {q : Path} {ks : List Call} (h : ∀ k ∈ ks, ¬ About q k) :
    lastAbout q ks = none := by
  have hnil : (ks.filter fun k => About q k) = [] := by
    rw [List.filter_eq_nil_iff]
    intro k hk
    simpa using h k hk
  rw [lastAbout, hnil]
  rfl

lemma about_of_mem_delCalls {eve : ZkEvent} {q : Path} {ctxs : List Ptr} {k : Call}
    (hk : k ∈ c.delCalls eve q ctxs) : ∃ cb', k = .watchSub cb' .del q none := by
  obtain ⟨x, -, hx⟩ := List.mem_filterMap.mp hk
  obtain ⟨d, -, hd⟩ := Option.bind_eq_some_iff.mp hx
  rcases d with _ | ⟨_ | _, _, _, _⟩ | _ | _ | _ <;> simp [Userdata.delCall] at hd
  exact ⟨_, hd.2.symm⟩

/-- A notification about a child is for objects of this child. -/
lemma Base.event_child (h : Base cb p w) {eve : ZkEvent} {ctxs : List Ptr}
    (hm : Msg.event eve (subPath p s) ctxs ∈ w.inbox) (hx : x ∈ ctxs) :
    w.client.heap x = some (childObj cb p s (storedEve w.client x)) ∧ Table.node ∈ eve.tables := by
  obtain ⟨tb, htb, hholds⟩ := h.wf.event eve _ ctxs hm x hx
  obtain ⟨hd, rfl⟩ := h.solo.watch_child hholds
  exact ⟨hd, htb⟩

/-- The calls that a notification about a child makes. -/
lemma Base.delCalls_child (h : Base cb p w) {eve : ZkEvent} {ctxs : List Ptr}
    (hm : Msg.event eve (subPath p s) ctxs ∈ w.inbox) :
    w.client.delCalls eve (subPath p s) ctxs =
      if eve = .deleted then ctxs.map fun _ => delAt cb (subPath p s) else [] := by
  have hcall : ∀ x ∈ ctxs, (w.client.heap x).bind (·.delCall eve (subPath p s)) =
      if eve = .deleted then some (delAt cb (subPath p s)) else none := by
    intro x hx
    rw [(h.event_child hm hx).1]
    rfl
  rw [Client.delCalls, List.filterMap_congr hcall]
  split_ifs
  · exact congrFun List.filterMap_eq_map' ctxs
  · simp

lemma Base.lastAbout_delCalls (h : Base cb p w) {eve : ZkEvent} {q : Path} {ctxs : List Ptr}
    (hm : Msg.event eve q ctxs ∈ w.inbox) (s : Str) :
    lastAbout (subPath p s) (w.client.delCalls eve q ctxs) =
      tells cb (subPath p s) (.event eve q ctxs) := by
  by_cases hq : q = subPath p s
  · subst hq
    rw [h.delCalls_child hm, tells]
    by_cases hdel : eve = .deleted
    · rw [if_pos hdel, if_pos ⟨hdel, rfl⟩, lastAbout]
      have hall : ((ctxs.map fun _ => delAt cb (subPath p s)).filter
          fun k => About (subPath p s) k) = ctxs.map fun _ => delAt cb (subPath p s) := by
        rw [List.filter_eq_self]
        intro k hk
        obtain ⟨_, -, rfl⟩ := List.mem_map.mp hk
        simp [About, delAt]
      rw [hall, List.getLast?_map]
      cases hl : ctxs.getLast? with
      | none => exact absurd (List.getLast?_eq_none_iff.mp hl) (h.served.ctxs_ne _ _ _ hm)
      | some x => rfl
    · rw [if_neg hdel, if_neg fun hc => hdel hc.1]
      rfl
  · rw [tells, if_neg fun hc => hq hc.2]
    refine lastAbout_eq_none fun k hk => ?_
    obtain ⟨cb', rfl⟩ := about_of_mem_delCalls hk
    exact hq

/-- What the completion of an answer tells about a child. -/
lemma Base.lastAbout_onReply (h : Base cb p w) {rep : Reply} (hm : Msg.reply rep ∈ w.inbox)
    (s : Str) : lastAbout (subPath p s) (w.client.onReply rep).calls =
      (tells cb (subPath p s) (.reply rep)).or (lastAbout (subPath p s) w.client.calls) := by
  have hnone : rep.req.op ≠ .getDataOp → tells cb (subPath p s) (.reply rep) = none := by
    intro hop
    rw [tells, if_neg fun hc => hop hc.1]
  rcases h.solo.request (h.wf.reply rep hm) with hreq | ⟨s', hd, hreq⟩ | ⟨hd, hreq⟩
  · rw [h.solo.onReply_exists (congrArg Request.ctx hreq), hnone (by rw [hreq]; simp),
      Option.none_or]
    split_ifs
    · rw [Client.calls_asyncGetSubPath]
    · rfl
  · rw [onReply_get h.wf.heap hd, tells, hreq]
    by_cases hrc : rep.rc = .zok
    · rw [if_pos hrc, Client.calls_call, lastAbout_append]
      by_cases hs : subPath p s' = subPath p s
      · rw [if_pos ⟨rfl, hs, hrc⟩, hs]
        simp [lastAbout, About, changedAt]
      · rw [if_neg fun hc => hs hc.2.1, lastAbout_eq_none]
        intro k hk
        rw [List.mem_singleton.mp hk]
        exact hs
    · rw [if_neg hrc, if_neg fun hc => hrc hc.2.2]
      rfl
  · rw [onReply_list hd, hnone (by rw [hreq]; simp), Option.none_or]
    split_ifs
    · rw [Client.calls_runListing]
    · rfl

/-- Handling a message does not change what the callback is told last about a child. -/
lemma Base.lastTold_deliver (h : Base cb p w) (hs : w.deliver = some w') (s : Str) :
    lastTold cb (subPath p s) w' = lastTold cb (subPath p s) w := by
  obtain ⟨m, ms, hin, rfl⟩ := World.deliver_cases hs
  have hm : m ∈ w.inbox := hin ▸ List.mem_cons_self
  rw [lastTold, lastTold, hin, lastSome_cons]
  dsimp only
  congr 1
  cases m with
  | reply rep => exact h.lastAbout_onReply hm s
  | event eve q ctxs =>
      rw [Client.process, (Client.onEvent_foldl_spec ctxs (h.wf.ctxs_nodup hin)
        (fun x hx => h.wf.lt_next (World.tokens_ne_nil_of_event hm hx))
        (h.wf.event eve q ctxs hm) (h.served.valid_event eve q ctxs hm)).2.1, lastAbout_append,
        h.lastAbout_delCalls hm]

end WatchSubPath

end ConfigMonitor
