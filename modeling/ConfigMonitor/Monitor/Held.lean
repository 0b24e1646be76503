/-
# A registration is not dropped

An exists watch is registered again by every notification.  `World.Held w x` says that the
session still holds the object `x`: its watch is armed, or a request for it is in flight, or a
notification for it is on its way.  Nothing but a lost connection and a removal makes the
session drop an exists object whose path is valid (`World.Registers`).
-/
import ConfigMonitor.Monitor.Ownership

namespace ConfigMonitor

namespace Client

/-- A handler that was given the objects `X` registers every exists object again that it was
given or has made. -/
structure Keeps (X : List Ptr) (c c' : Client) : Prop where
  sent : c.sent ⊆ c'.sent
  exists_or : ∀ x d, c'.heap x = some (.existsData d) →
    (x ∉ X ∧ ∃ d₀, c.heap x = some (.existsData d₀) ∧ d₀.cb = d.cb) ∨
      (isValidPath d.cb.path false = true → ∃ r ∈ c'.sent, r.ctx = x)

variable {c c' c'' : Client} {X Y : List Ptr} {x : Ptr}

lemma Keeps.refl (c : Client) : Keeps [] c c :=
  ⟨fun _ hr => hr, fun _ d hd => Or.inl ⟨by simp, d, hd, rfl⟩⟩

lemma Keeps.trans (h₁ : Keeps X c c') (h₂ : Keeps Y c' c'') : Keeps (X ++ Y) c c'' := by
  refine ⟨fun r hr => h₂.sent (h₁.sent hr), fun x d hd => ?_⟩
  rcases h₂.exists_or x d hd with ⟨hxY, d₁, hd₁, hcb₁⟩ | hreq
  · rcases h₁.exists_or x d₁ hd₁ with ⟨hxX, d₀, hd₀, hcb₀⟩ | hreq
    · exact Or.inl ⟨by simp [hxX, hxY], d₀, hd₀, hcb₀.trans hcb₁⟩
    · refine Or.inr fun hv => ?_
      obtain ⟨r, hr, hrx⟩ := hreq (hcb₁ ▸ hv)
      exact ⟨r, h₂.sent hr, hrx⟩
  · exact Or.inr hreq

lemma Keeps.trans_nil (h₁ : Keeps [] c c') (h₂ : Keeps [] c' c'') : Keeps [] c c'' :=
  h₁.trans h₂

/-- A handler that changes no exists object. -/
lemma keeps_of_heap (hsent : c.sent ⊆ c'.sent)
    (hheap : ∀ x d, c'.heap x = some (.existsData d) →
      x ∉ X ∧ c.heap x = some (.existsData d)) : Keeps X c c' :=
  ⟨hsent, fun x d hd => Or.inl ⟨(hheap x d hd).1, d, (hheap x d hd).2, rfl⟩⟩

lemma mem_sent_send {r : Request} (hr : isValidPath r.path false = true) :
    r ∈ (c.send r).sent := by
  rw [sent_send_of_valid _ hr]
  exact List.mem_append_right _ (List.mem_singleton.mpr rfl)

/-- The object at `x` is given up or rewritten; it is no exists object any more. -/
lemma keeps_of_update (hsent : c.sent ⊆ c'.sent) {o : Option Userdata}
    (ho : ∀ d, o ≠ some (.existsData d)) (hheap : c'.heap = Function.update c.heap x o) :
    Keeps [x] c c' := by
  refine keeps_of_heap hsent fun y d hy => ?_
  rw [hheap] at hy
  by_cases hyx : y = x
  · subst hyx
    rw [Function.update_self] at hy
    exact absurd hy (ho d)
  · rw [Function.update_of_ne hyx] at hy
    exact ⟨by simpa using hyx, hy⟩

/-- The same for a new object, which is not given to the handler. -/
lemma keeps_of_alloc (hsent : c.sent ⊆ c'.sent) {d : Userdata} (hd : ∀ e, d ≠ .existsData e)
    (hheap : c'.heap = Function.update c.heap c.next (some d)) : Keeps [] c c' := by
  refine ⟨hsent, fun y e hy => ?_⟩
  rw [hheap] at hy
  by_cases hyx : y = c.next
  · subst hyx
    rw [Function.update_self] at hy
    exact absurd (Option.some.inj hy) (hd e)
  · rw [Function.update_of_ne hyx] at hy
    exact Or.inl ⟨by simp, e, hy, rfl⟩

lemma keeps_asyncGetPathValue (adv : Bool) (c : Client) (path : Path) (cb : GetCallback) :
    Keeps [] c (asyncGetPathValue adv c path cb) := by
  have hsent := sent_subset_send (c.alloc (.wget { cb := cb, path := path, advanced := adv }))
    { op := .getDataOp, path := path, watch := adv, ctx := c.next }
  rw [asyncGetPathValue]
  split_ifs
  · exact keeps_of_alloc (d := .wget _) hsent (by simp) (heap_send _ _)
  · exact keeps_of_alloc (d := .wget _) hsent (by simp) (heap_send _ _)

lemma keeps_asyncGetSubPath (adv : Bool) (c : Client) (path : Path) (cb : ChildrenCallback) :
    Keeps [] c (asyncGetSubPath adv c path cb) := by
  have hsent := sent_subset_send
    (c.alloc (.getChildren { cb := cb, path := path, advanced := adv }))
    { op := .getChildrenOp, path := path, watch := adv, ctx := c.next }
  rw [asyncGetSubPath]
  split_ifs
  · exact keeps_of_alloc (d := .getChildren _) hsent (by simp) (heap_send _ _)
  · exact keeps_of_alloc (d := .getChildren _) hsent (by simp) (heap_send _ _)

lemma keeps_of_eq (hsent : c'.sent = c.sent) (hheap : c'.heap = c.heap) : Keeps [] c c' :=
  keeps_of_heap (fun _ hr => hsent ▸ hr) fun _ _ hy => ⟨by simp, hheap ▸ hy⟩

lemma keeps_watchPathEvent (c : Client) (path : Path) {cb : ExistsCallback}
    (hcb : cb.path = path) : Keeps [] c (c.watchPathEvent path cb) := by
  refine ⟨sent_subset_send (c.alloc (.existsData { cb := cb })) _, fun y d hy => ?_⟩
  rw [show (c.watchPathEvent path cb).heap =
    Function.update c.heap c.next (some (.existsData { cb := cb })) from heap_send _ _] at hy
  by_cases hyx : y = c.next
  · subst hyx
    rw [Function.update_self] at hy
    obtain rfl : { cb := cb } = d := by simpa using hy
    exact Or.inr fun hv => ⟨_, mem_sent_send (hcb ▸ hv), rfl⟩
  · rw [Function.update_of_ne hyx] at hy
    exact Or.inl ⟨by simp, d, hy, rfl⟩

lemma keeps_watchPath (c : Client) (path : Path) (cb : Cb) : Keeps [] c (c.watchPath path cb) :=
  (keeps_of_eq rfl rfl : Keeps [] c
    { c with watchRecord := c.watchRecord.insert path cb }).trans_nil
    (keeps_watchPathEvent _ path rfl)

/-! ## Callbacks, watchers and completions -/

lemma keeps_runExists (c : Client) (cb : ExistsCallback) (rc : ZooError) (eve : ZkEvent) :
    Keeps [] c (c.runExists cb rc eve) := by
  cases cb with
  | watchPath cb p =>
      rw [runExists]
      split_ifs
      · exact keeps_of_eq rfl rfl
      · exact keeps_asyncGetPathValue _ c p _
      · exact Keeps.refl c
  | watchSubPath cb pfx =>
      rw [runExists]
      split_ifs
      · exact Keeps.refl c
      · exact Keeps.refl c
      · exact keeps_asyncGetSubPath _ c pfx _

lemma keeps_runGet (c : Client) (cb : GetCallback) (rc : ZooError) (eve : ZkEvent)
    (path : Path) (val : Data) : Keeps [] c (c.runGet cb rc eve path val) := by
  cases cb <;> rw [runGet] <;> split_ifs <;> exact keeps_of_eq rfl rfl

lemma keeps_runOperate (c : Client) (cb : OperateCallback) (rc : ZooError) :
    Keeps [] c (c.runOperate cb rc) := by
  rw [runOperate]
  split <;> exact keeps_of_eq rfl rfl

lemma keeps_runListing (c : Client) (cb : Cb) (pfx : Path) (subPaths : List Str) :
    Keeps [] c (c.runListing cb pfx subPaths) := by
  have hfold : ∀ (subs : List Str) (c : Client),
      Keeps [] c (subs.foldl (fun c sub => c.monitor cb pfx (subPath pfx sub)) c) := by
    intro subs
    induction subs with
    | nil => exact Keeps.refl
    | cons sub subs ih =>
        exact fun c => (keeps_asyncGetPathValue true c (subPath pfx sub) _).trans_nil (ih _)
  rw [runListing]
  exact (hfold _ c).trans_nil (keeps_of_eq rfl rfl)

lemma keeps_runChildren (c : Client) (cb : ChildrenCallback) (rc : ZooError)
    (subPaths : List Str) : Keeps [] c (c.runChildren cb rc subPaths) := by
  cases cb with
  | watchSubPath cb pfx =>
      rw [runChildren]
      split_ifs
      · exact Keeps.refl c
      · exact keeps_runListing c cb pfx subPaths
  | removeWatches cb p =>
      rw [runChildren]
      split_ifs
      · exact keeps_runOperate c cb rc
      · dsimp only
        split
        · exact keeps_of_alloc (d := .removeChain _ _) (sent_subset_send (c.alloc _) _)
            (by simp) (heap_send _ _)
        · exact keeps_of_alloc (d := .removeChain _ _) (sent_subset_send (c.alloc _) _)
            (by simp) (heap_send _ _)
        · exact keeps_of_alloc (d := .removeChain _ _) (fun _ hr => hr) (by simp) rfl

lemma keeps_release (hx : ∀ d, c.heap x ≠ some (.existsData d)) : Keeps [x] c (c.release x) := by
  rw [release]
  split_ifs
  · exact keeps_of_update (fun _ hr => hr) (o := none) (by simp) rfl
  · refine keeps_of_heap (fun _ hr => hr) fun y d hy => ⟨?_, hy⟩
    rw [List.mem_singleton]
    rintro rfl
    exact hx d hy

/-- A watcher sends the next request for an exists object it is given. -/
lemma keeps_onEvent {eve : ZkEvent} {q : Path} {tb : Table} (htb : tb ∈ eve.tables)
    (h : c.Holds x (·.ForWatch tb q)) : Keeps [x] c (c.onEvent eve q x) := by
  have hses := ZkEvent.ne_session htb
  obtain ⟨d, hd, hfor⟩ := h
  rw [onEvent, hd]
  cases d with
  | existsData d =>
      dsimp only
      rw [existsWatcher, if_neg hses]
      refine ⟨sent_subset_send (c.store x _) _, fun y e hy => ?_⟩
      rw [zooAwexists, heap_send, heap_store] at hy
      by_cases hyx : y = x
      · subst hyx
        rw [Function.update_self] at hy
        obtain rfl : { d with eve := eve } = e := by simpa using hy
        refine Or.inr fun hv => ⟨_, mem_sent_send (c := c.store y _) ?_, rfl⟩
        rw [← hfor.2]
        exact hv
      · rw [Function.update_of_ne hyx] at hy
        exact Or.inl ⟨by simpa using hyx, e, hy, rfl⟩
  -- only an exists object has to be kept; the others are not of this kind
  | wget d =>
      dsimp only
      rw [getWatcher, if_neg hses]
      split_ifs
      · refine (keeps_runGet c _ _ _ _ _).trans (keeps_release fun e he => ?_)
        have heq : (c.runGet d.cb .znonode .deleted q none).heap = c.heap := by
          cases d.cb <;> rw [runGet] <;> split_ifs <;> rfl
        rw [heq, hd] at he
        simp at he
      · exact keeps_of_update (sent_subset_send (c.store x _) _) (o := some (.wget _)) (by simp)
          (heap_send _ _)
  | getChildren d =>
      dsimp only
      rw [childrenWatcher, if_neg hses]
      split_ifs
      · exact keeps_release (by simp [hd])
      · refine keeps_of_heap (sent_subset_send c _) fun y e hy => ?_
        rw [zooAwgetChildren2, heap_send] at hy
        refine ⟨?_, hy⟩
        rw [List.mem_singleton]
        rintro rfl
        simp [hd] at hy
  | operate cb => exact absurd hfor id
  | removeChain cb subs => exact absurd hfor id

/-- No completion gives up an exists object. -/
lemma keeps_onReply (c : Client) (rep : Reply) : Keeps [] c (c.onReply rep) := by
  have hfree : ∀ {c₁ : Client} (x : Ptr), Keeps [] c c₁ → Keeps [] c (c₁.free x) := by
    intro c₁ x h
    refine h.trans_nil (keeps_of_heap (fun _ hr => hr) fun y d hy => ⟨by simp, ?_⟩)
    rw [heap_free] at hy
    by_cases hyx : y = x
    · subst hyx; simp at hy
    · rwa [Function.update_of_ne hyx] at hy
  rw [onReply]
  split
  · exact keeps_runExists c _ _ _
  · rw [getCompletion]
    split_ifs
    · exact keeps_runGet c _ _ _ _ _
    · exact hfree _ (keeps_runGet c _ _ _ _ _)
  · rw [childrenCompletion]
    split_ifs
    · exact keeps_runChildren c _ _ _
    · exact hfree _ (keeps_runChildren c _ _ _)
  · exact hfree _ (keeps_runOperate c _ _)
  · rename_i cb subs hx
    have hstore : ∀ (l : List Path) (r : Request),
        Keeps [] c ((c.store rep.req.ctx (.removeChain cb l)).send r) := by
      intro l r
      refine keeps_of_heap (sent_subset_send (c.store rep.req.ctx _) _) fun y d hy => ⟨by simp, ?_⟩
      rw [heap_send, heap_store] at hy
      by_cases hyx : y = rep.req.ctx
      · subst hyx; simp at hy
      · rwa [Function.update_of_ne hyx] at hy
    rw [removeChainCompletion]
    split
    · exact hfree _ (keeps_runOperate c _ _)
    · exact hstore _ _
    · exact hstore _ _
  · exact Keeps.refl c

/-- The watchers of one notification. -/
lemma keeps_onEvent_foldl {eve : ZkEvent} {q : Path} (ctxs : List Ptr) (hnd : ctxs.Nodup)
    (hlt : ∀ x ∈ ctxs, x < c.next)
    (h : ∀ x ∈ ctxs, ∃ tb ∈ eve.tables, c.Holds x (·.ForWatch tb q)) :
    Keeps ctxs c (ctxs.foldl (onEvent eve q) c) := by
  induction ctxs generalizing c with
  | nil => exact Keeps.refl c
  | cons x ctxs ih =>
      obtain ⟨hx, hnd'⟩ := List.nodup_cons.mp hnd
      obtain ⟨tb, htb, hholds⟩ := h x List.mem_cons_self
      have heff := effect_onEvent htb (hlt x List.mem_cons_self) hholds
      refine (keeps_onEvent htb hholds).trans (ih hnd' (fun y hy => ?_) fun y hy => ?_)
      · exact lt_of_lt_of_le (hlt y (List.mem_cons_of_mem _ hy)) heff.next_le
      · obtain ⟨tb', htb', d, hd, hfor⟩ := h y (List.mem_cons_of_mem _ hy)
        have hyx : y ∉ [x] := fun hyx => hx (List.mem_singleton.mp hyx ▸ hy)
        exact ⟨tb', htb', d,
          (heff.heap_eq y hyx (hlt y (List.mem_cons_of_mem _ hy))).trans hd, hfor⟩

/-! ## Exists objects stay, removals do not appear -/

/-- A completion leaves every exists object as it is. -/
lemma heap_onReply_existsData {rep : Reply} {y : Ptr} {d : ExistsUserdata}
    (hx : rep.req.ctx < c.next) (h : c.Holds rep.req.ctx (·.For rep.req))
    (hy : c.heap y = some (.existsData d)) (hlt : y < c.next) :
    (c.onReply rep).heap y = some (.existsData d) := by
  by_cases hctx : y = rep.req.ctx
  · have hrun : c.onReply rep = c.runExists d.cb rep.rc d.eve := by
      rw [onReply, ← hctx, hy]
    rw [hrun, (effect_runExists c d.cb rep.rc d.eve).heap_eq y (by simp) hlt, hy]
  · rw [(effect_onReply hx h).heap_eq y (by split_ifs <;> simp [hctx]) hlt, hy]

/-- A notification leaves the exists objects there, with their callbacks. -/
lemma heap_onEvent_foldl_existsData {eve : ZkEvent} {q : Path} (ctxs : List Ptr)
    (hnd : ctxs.Nodup) (hlt : ∀ x ∈ ctxs, x < c.next)
    (h : ∀ x ∈ ctxs, ∃ tb ∈ eve.tables, c.Holds x (·.ForWatch tb q)) {y : Ptr}
    {d : ExistsUserdata} (hy : c.heap y = some (.existsData d)) (hylt : y < c.next) :
    ∃ d', (ctxs.foldl (onEvent eve q) c).heap y = some (.existsData d') ∧ d'.cb = d.cb := by
  by_cases hmem : y ∈ ctxs
  · -- the object is rewritten when its turn comes and left alone before and after
    obtain ⟨l₁, l₂, rfl⟩ := List.append_of_mem hmem
    have hnd' := List.nodup_middle.mp hnd
    have hy₁ : y ∉ l₁ := fun hy' => (List.nodup_cons.mp hnd').1 (List.mem_append_left _ hy')
    have hy₂ : y ∉ l₂ := fun hy' => (List.nodup_cons.mp hnd').1 (List.mem_append_right _ hy')
    have hnd₁ : l₁.Nodup := (List.nodup_append.mp hnd).1
    have hnd₂ : l₂.Nodup := (List.nodup_append.mp (List.nodup_cons.mp hnd').2).2.1
    have he₁ := effect_onEvent_foldl (c := c) eve q l₁ hnd₁
      (fun x hx => hlt x (List.mem_append_left _ hx))
      (fun x hx => h x (List.mem_append_left _ hx))
    set c₁ := l₁.foldl (onEvent eve q) c with hc₁
    have hy₁' : c₁.heap y = some (.existsData d) := (he₁.heap_eq y hy₁ hylt).trans hy
    obtain ⟨tb, htb, -⟩ := h y hmem
    have hev : c₁.onEvent eve q y =
        (c₁.store y (.existsData { d with eve := eve })).zooAwexists q y := by
      rw [onEvent, hy₁']
      dsimp only
      rw [existsWatcher, if_neg (ZkEvent.ne_session htb)]
    have hy₂' : (c₁.onEvent eve q y).heap y = some (.existsData { d with eve := eve }) := by
      rw [hev, zooAwexists, heap_send, heap_store, Function.update_self]
    have hnext : (c₁.onEvent eve q y).next = c₁.next := by
      rw [hev, zooAwexists, next_send, next_store]
    have he₂ := effect_onEvent_foldl (c := c₁.onEvent eve q y) eve q l₂ hnd₂
      (fun x hx => by
        rw [hnext]
        exact lt_of_lt_of_le (hlt x (by simp [hx])) he₁.next_le)
      (fun x hx => by
        obtain ⟨tb', htb', d', hd', hfor⟩ := h x (by simp [hx])
        have hxy : x ≠ y := fun hxy => hy₂ (hxy ▸ hx)
        have hx₁ : x ∉ l₁ := fun hx₁ =>
          (List.nodup_append.mp hnd).2.2 x hx₁ x (List.mem_cons_of_mem _ hx) rfl
        refine ⟨tb', htb', d', ?_, hfor⟩
        rw [hev, zooAwexists, heap_send, heap_store, Function.update_of_ne hxy,
          he₁.heap_eq x hx₁ (hlt x (by simp [hx])), hd'])
    refine ⟨{ d with eve := eve }, ?_, rfl⟩
    rw [List.foldl_append, List.foldl_cons, ← hc₁, he₂.heap_eq y hy₂ ?_, hy₂']
    rw [hnext]
    exact lt_of_lt_of_le hylt he₁.next_le
  · exact ⟨d, ((effect_onEvent_foldl eve q ctxs hnd hlt h).heap_eq y hmem hylt).trans hy, rfl⟩

end Client

namespace World

/-- The session holds the object at `x`. -/
def Held (w : World) (x : Ptr) : Prop :=
  (∃ a ∈ w.armed, a.ctx = x) ∨ (∃ r ∈ w.client.sent, r.ctx = x) ∨
    ∃ eve q ctxs, Msg.event eve q ctxs ∈ w.inbox ∧ x ∈ ctxs

/-- The object at `x` is an exists object for a valid path, with callback `cb`, and held. -/
structure Registers (w : World) (x : Ptr) (cb : ExistsCallback) : Prop where
  heap : ∃ eve, w.client.heap x = some (.existsData { cb := cb, eve := eve })
  valid : isValidPath cb.path false = true
  held : w.Held x

variable {w w' : World} {x : Ptr} {cb : ExistsCallback}

lemma Held.tokens_ne_nil (h : w.Held x) : w.tokens x ≠ [] := by
  rcases h with ⟨a, ha, rfl⟩ | ⟨r, hr, rfl⟩ | ⟨eve, q, ctxs, hm, hx⟩
  · exact tokens_ne_nil_of_armed ha
  · exact tokens_ne_nil_of_sent hr
  · exact tokens_ne_nil_of_event hm hx

lemma Held.fire (h : w.Held x) (eve : ZkEvent) (q : Path) : (w.fire eve q).Held x := by
  rw [World.fire]
  cases hc : collectWatchers eve q w.armed with
  | nil => exact h
  | cons y ys =>
      rcases h with ⟨a, ha, rfl⟩ | hr | ⟨eve', q', ctxs, hm, hx⟩
      · by_cases hfired : a.FiredBy eve q
        · refine Or.inr (Or.inr ⟨eve, q, y :: ys, by simp, ?_⟩)
          rw [← hc]
          exact mem_collectWatchers.mpr ⟨a, ha, hfired, rfl⟩
        · exact Or.inl ⟨a, List.mem_filter.mpr ⟨ha, decide_eq_true hfired⟩, rfl⟩
      · exact Or.inr (Or.inl hr)
      · exact Or.inr (Or.inr ⟨eve', q', ctxs, List.mem_append_left _ hm, hx⟩)

lemma held_of_fire {eve : ZkEvent} {q : Path} (h : (w.fire eve q).Held x) : w.Held x := by
  rw [World.fire] at h
  cases hc : collectWatchers eve q w.armed with
  | nil => rwa [hc] at h
  | cons y ys =>
      rw [hc] at h
      rcases h with ⟨a, ha, hax⟩ | hr | ⟨eve', q', ctxs, hm, hx⟩
      · exact Or.inl ⟨a, List.mem_of_mem_filter ha, hax⟩
      · exact Or.inr (Or.inl hr)
      · rcases List.mem_append.mp hm with hm | hm
        · exact Or.inr (Or.inr ⟨eve', q', ctxs, hm, hx⟩)
        · obtain ⟨-, -, rfl⟩ : eve' = eve ∧ q' = q ∧ ctxs = y :: ys := by simpa using hm
          rw [← hc] at hx
          obtain ⟨a, ha, -, hax⟩ := mem_collectWatchers.mp hx
          exact Or.inl ⟨a, ha, hax⟩

/-- A handler works on objects the session holds, or on new ones. -/
lemma held_of_effect {c' : Client} {X : List Ptr} (hlt : x < w.client.next)
    (he : Client.Effect X w.client c') (hX : x ∈ X → w.Held x) {ms : List Msg} (hms : ms ⊆ w.inbox)
    (h : ({ w with inbox := ms, client := c' } : World).Held x) : w.Held x := by
  rcases h with ha | ⟨r, hr, hrx⟩ | ⟨eve, q, ctxs, hm, hx⟩
  · exact Or.inl ha
  · obtain ⟨rs, hs, -, hrs⟩ := he.sent
    rw [show ({ w with inbox := ms, client := c' } : World).client.sent = w.client.sent ++ rs
      from hs] at hr
    rcases List.mem_append.mp hr with hr | hr
    · exact Or.inr (Or.inl ⟨r, hr, hrx⟩)
    · rcases (hrs r hr).1 with hmem | ⟨hge, -⟩
      · exact hX (hrx ▸ hmem)
      · exact absurd hlt (not_lt.mpr (hrx ▸ hge))
  · exact Or.inr (Or.inr ⟨eve, q, ctxs, hms hm, hx⟩)

/-- The server arms no watch but the one that was asked for. -/
lemma held_of_serve {r : Request} {rs : List Request} (hsent : w.client.sent = r :: rs)
    (h : Held { w with
      armed := activate w.armed (answer w.tree w.armed r)
      inbox := w.inbox ++ [.reply (answer w.tree w.armed r)]
      client := { w.client with sent := rs } } x) : w.Held x := by
  rcases h with ⟨a, ha, hax⟩ | ⟨r', hr', hrx⟩ | ⟨eve, q, ctxs, hm, hx⟩
  · rcases mem_of_mem_activate ha with ha | ⟨tb, -, rfl⟩
    · exact Or.inl ⟨a, ha, hax⟩
    · rw [answer_req] at hax
      exact Or.inr (Or.inl ⟨r, hsent ▸ List.mem_cons_self, hax⟩)
  · exact Or.inr (Or.inl ⟨r', hsent ▸ List.mem_cons_of_mem _ hr', hrx⟩)
  · exact Or.inr (Or.inr ⟨eve, q, ctxs, by simpa using hm, hx⟩)

lemma Registers.fire (h : w.Registers x cb) (eve : ZkEvent) (q : Path) :
    (w.fire eve q).Registers x cb :=
  ⟨by rw [client_fire]; exact h.heap, h.valid, h.held.fire eve q⟩

/-- A handler runs that keeps the object, on a message that has been taken out of the
queue. -/
lemma Registers.of_keeps (h : w.Registers x cb) {c' : Client} {X : List Ptr} {ms : List Msg}
    (hk : Client.Keeps X w.client c')
    (hheap : ∃ eve, c'.heap x = some (.existsData { cb := cb, eve := eve }))
    (hms : ∀ eve q ctxs, Msg.event eve q ctxs ∈ w.inbox → x ∈ ctxs →
      Msg.event eve q ctxs ∈ ms ∨ x ∈ X) :
    ({ w with inbox := ms, client := c' } : World).Registers x cb := by
  refine ⟨hheap, h.valid, ?_⟩
  obtain ⟨eve, hx⟩ := hheap
  rcases hk.exists_or x _ hx with ⟨hxX, -⟩ | hreq
  · rcases h.held with ha | ⟨r, hr, hrx⟩ | ⟨eve, q, ctxs, hm, hx⟩
    · exact Or.inl ha
    · exact Or.inr (Or.inl ⟨r, hk.sent hr, hrx⟩)
    · rcases hms eve q ctxs hm hx with hm' | hxX'
      · exact Or.inr (Or.inr ⟨eve, q, ctxs, hm', hx⟩)
      · exact absurd hxX' hxX
  · exact Or.inr (Or.inl (hreq h.valid))

/-- A new exists object is registered by its first request. -/
lemma registers_watchPathEvent (w : World) (c : Client) {path : Path} (hcb : cb.path = path)
    (hv : isValidPath path false = true) :
    ({ w with client := c.watchPathEvent path cb } : World).Registers c.next cb := by
  refine ⟨⟨.dummy, ?_⟩, hcb ▸ hv, Or.inr (Or.inl ⟨_, Client.mem_sent_send ?_, rfl⟩)⟩
  · dsimp only
    rw [Client.heap_watchPathEvent, Function.update_self]
  · exact hv

lemma Registers.deliver (h : w.Registers x cb) (hwf : w.Wf) (hs : w.deliver = some w') :
    w'.Registers x cb := by
  obtain ⟨m, ms, hin, rfl⟩ := deliver_cases hs
  obtain ⟨eve₀, hx⟩ := h.heap
  have hxlt := hwf.lt_next h.held.tokens_ne_nil
  cases m with
  | reply rep =>
      have hm : Msg.reply rep ∈ w.inbox := hin ▸ List.mem_cons_self
      refine h.of_keeps (Client.keeps_onReply w.client rep) ⟨eve₀, ?_⟩ fun eve q ctxs hm' _ => ?_
      · exact Client.heap_onReply_existsData (hwf.lt_next (tokens_ne_nil_of_reply hm))
          (hwf.reply rep hm) hx hxlt
      · rw [hin] at hm'
        exact Or.inl (by simpa using hm')
  | event eve q ctxs =>
      have hm : Msg.event eve q ctxs ∈ w.inbox := hin ▸ List.mem_cons_self
      have hlt : ∀ y ∈ ctxs, y < w.client.next :=
        fun y hy => hwf.lt_next (tokens_ne_nil_of_event hm hy)
      obtain ⟨⟨cb', eve'⟩, hx', hcb⟩ := Client.heap_onEvent_foldl_existsData ctxs
        (hwf.ctxs_nodup hin) hlt (hwf.event eve q ctxs hm) hx hxlt
      obtain rfl : cb' = cb := hcb
      refine h.of_keeps (Client.keeps_onEvent_foldl ctxs (hwf.ctxs_nodup hin) hlt
        (hwf.event eve q ctxs hm)) ⟨eve', hx'⟩ fun eve' q' ctxs' hm' hx => ?_
      rw [hin] at hm'
      rcases List.mem_cons.mp hm' with heq | hm'
      · obtain ⟨rfl, rfl, rfl⟩ := Msg.event.inj heq
        exact Or.inr hx
      · exact Or.inl hm'

/-- The server arms the watch of an exists request whether the node is there or not, and takes
no watch of the object away unless a removal does. -/
lemma Registers.serve_of_kept (h : w.Registers x cb) (hwf : w.Wf)
    (hkept : ∀ r ∈ w.client.sent.head?, ∀ a ∈ w.armed, a.ctx = x →
      a ∈ activate w.armed (answer w.tree w.armed r))
    (hs : w.serve = some w') : w'.Registers x cb := by
  obtain ⟨r, rs, hsent, rfl⟩ := serve_cases hs
  have hr : r ∈ w.client.sent := hsent ▸ List.mem_cons_self
  refine ⟨h.heap, h.valid, ?_⟩
  obtain ⟨eve₀, hd⟩ := h.heap
  rcases h.held with ⟨a, ha, hax⟩ | ⟨r', hr', hrx⟩ | ⟨eve, q, ctxs, hm, hx⟩
  · exact Or.inl ⟨a, hkept r (by rw [hsent]; rfl) a ha hax, hax⟩
  · rw [hsent] at hr'
    rcases List.mem_cons.mp hr' with rfl | hr'
    · obtain ⟨d', hd', hfor⟩ := (hwf.sent r' hr).2
      rw [hrx, hd] at hd'
      obtain rfl := Option.some.inj hd'
      have htb := table?_answer_existsOp w.tree w.armed hfor.1 hfor.2.2
      exact Or.inl ⟨_, mem_activate htb w.armed, by rw [answer_req]; exact hrx⟩
    · exact Or.inr (Or.inl ⟨r', hr', hrx⟩)
  · exact Or.inr (Or.inr ⟨eve, q, ctxs, List.mem_append_left _ hm, hx⟩)

lemma Registers.serve (h : w.Registers x cb) (hwf : w.Wf)
    (hrem : ∀ r ∈ w.client.sent, ∀ type, r.op ≠ .removeWatchesOp type)
    (hs : w.serve = some w') : w'.Registers x cb :=
  h.serve_of_kept hwf (fun r hr _ ha _ =>
    subset_activate w.tree w.armed (hrem r (List.mem_of_head? hr)) ha) hs

/-- The requests that fail when the connection is lost with `n` messages received. -/
def failing (w : World) (n : ℕ) : List Request := answered (w.inbox.drop n) ++ w.client.sent

/-- A connection is lost while no request for the object is unanswered. -/
lemma Registers.loss (h : w.Registers x cb) {n : ℕ} {order : List Watch}
    (hn : ∀ r ∈ w.failing n, r.ctx ≠ x) (hs : w.loss n order = some w') : w'.Registers x cb := by
  obtain ⟨kept, lost, hin, rfl, -, -, rfl⟩ := loss_cases hs
  refine setAgain_invariant (P := fun w => w.Registers x cb) (fun w eve q hw => hw.fire eve q)
    order ⟨h.heap, h.valid, ?_⟩
  have hgone : x ∉ (answered (w.inbox.drop n)).map Request.ctx := by
    intro hx
    obtain ⟨r, hr, hrx⟩ := List.mem_map.mp hx
    exact hn r (List.mem_append_left _ hr) hrx
  rcases h.held with ⟨a, ha, rfl⟩ | ⟨r, hr, hrx⟩ | ⟨eve, q, ctxs, hm, hx⟩
  · refine Or.inl ⟨a, List.mem_append_left _ (List.mem_filter.mpr ⟨ha, ?_⟩), rfl⟩
    simpa using hgone
  · exact absurd hrx (hn r (List.mem_append_right _ hr))
  · rw [← hin] at hm
    rcases List.mem_append.mp hm with hm | hm
    · exact Or.inr (Or.inr ⟨eve, q, ctxs, List.mem_append_left _ hm, hx⟩)
    · -- the watch of a notification that is lost is restored
      refine Or.inl ⟨⟨tableOf w.client eve x, q, x⟩, List.mem_append_right _ ?_, rfl⟩
      rw [mem_restored]
      exact ⟨eve, q, ctxs, hm, x, hx, hgone, rfl⟩

end World

end ConfigMonitor
