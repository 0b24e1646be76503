/-
# What a handler may do to the client

A completion or a watcher function works on the object it was given and on objects it makes
itself.  `Effect X c c'` says so: the objects in `X` are the ones given up to the handler, all
older objects stay as they are, and the requests sent are for distinct objects of `X` or new
ones, each of the type the completion of its request expects.
-/
import ConfigMonitor.Monitor.World

namespace ConfigMonitor

/-- The path a callback of an exists request is registered for. -/
def ExistsCallback.path : ExistsCallback → Path
  | .watchPath _ p => p
  | .watchSubPath _ pfx => pfx

/-- The fields of an object agree with each other; no object stores a delete event, except
that of an exists request. -/
def Userdata.Wf : Userdata → Prop
  | .wget { cb := .watchPath _ p, path := path, advanced := adv, eve := eve } =>
      path = p ∧ adv = false ∧ eve ≠ .deleted
  | .wget { cb := .monitor _ _, path := _, advanced := adv, eve := eve } =>
      adv = true ∧ eve ≠ .deleted
  | .getChildren { cb := .watchSubPath _ pfx, path := path, advanced := adv } =>
      path = pfx ∧ adv = true
  | .getChildren { cb := .removeWatches _ _, path := _, advanced := adv } => adv = false
  | _ => True

/-- The object is of the type, and for the path, that the completion of the request expects. -/
def Userdata.For (r : Request) : Userdata → Prop
  | .existsData d => r.op = .existsOp ∧ d.cb.path = r.path ∧ r.watch = true
  | .wget d => r.op = .getDataOp ∧ d.path = r.path ∧ d.advanced = r.watch
  | .getChildren d => r.op = .getChildrenOp ∧ d.path = r.path ∧ d.advanced = r.watch
  | .operate _ | .removeChain _ _ => (∃ type, r.op = .removeWatchesOp type) ∧ r.watch = false

/-- The object is of the type, and for the path, that the watcher of an armed watch expects. -/
def Userdata.ForWatch (tb : Table) (q : Path) : Userdata → Prop
  | .existsData d => tb ≠ .child ∧ d.cb.path = q
  | .wget d => tb = .node ∧ d.path = q ∧ d.advanced = true
  | .getChildren d => tb = .child ∧ d.path = q ∧ d.advanced = true
  | .operate _ | .removeChain _ _ => False

/-- The completion that arms the watch of a request leaves an object its watcher expects. -/
lemma Userdata.For.forWatch {d : Userdata} {rep : Reply} {tb : Table} (h : d.For rep.req)
    (htb : rep.table? = some tb) : d.ForWatch tb rep.req.path := by
  rw [Reply.table?] at htb
  split_ifs at htb with hw
  cases d with
  | existsData d =>
      obtain ⟨hop, hpath, -⟩ := h
      rw [hop] at htb
      refine ⟨?_, hpath⟩
      rintro rfl
      cases hrc : rep.rc <;> rw [hrc] at htb <;> simp [resultChecker] at htb
  | wget d =>
      obtain ⟨hop, hpath, hadv⟩ := h
      rw [hop] at htb
      refine ⟨?_, hpath, hadv.trans hw⟩
      cases hrc : rep.rc <;> rw [hrc] at htb <;> simp_all [resultChecker]
  | getChildren d =>
      obtain ⟨hop, hpath, hadv⟩ := h
      rw [hop] at htb
      refine ⟨?_, hpath, hadv.trans hw⟩
      cases hrc : rep.rc <;> rw [hrc] at htb <;> simp_all [resultChecker]
  | operate cb => exact absurd hw (by rw [h.2]; simp)
  | removeChain cb subs => exact absurd hw (by rw [h.2]; simp)

namespace Client

/-- The object at `x` is there and satisfies `P`. -/
def Holds (c : Client) (x : Ptr) (P : Userdata → Prop) : Prop :=
  ∃ d, c.heap x = some d ∧ P d

/-- Every object is well-formed. -/
def HeapWf (c : Client) : Prop := ∀ x d, c.heap x = some d → d.Wf

/-- `c'` is what a handler that was given the objects `X` may turn `c` into. -/
structure Effect (X : List Ptr) (c c' : Client) : Prop where
  next_le : c.next ≤ c'.next
  heap_eq : ∀ y, y ∉ X → y < c.next → c'.heap y = c.heap y
  sent : ∃ rs, c'.sent = c.sent ++ rs ∧ (rs.map Request.ctx).Nodup ∧
    ∀ r ∈ rs, (r.ctx ∈ X ∨ c.next ≤ r.ctx ∧ r.ctx < c'.next) ∧
      isValidPath r.path false = true ∧ c'.Holds r.ctx (·.For r)
  wf : c.HeapWf → c'.HeapWf

variable {c c' c'' : Client} {X Y : List Ptr} {x : Ptr}

lemma Effect.mono (h : Effect X c c') (hXY : X ⊆ Y) : Effect Y c c' := by
  obtain ⟨rs, hs, hnd, hrs⟩ := h.sent
  refine ⟨h.next_le, fun y hy hlt => h.heap_eq y (fun hX => hy (hXY hX)) hlt,
    ⟨rs, hs, hnd, fun r hr => ?_⟩, h.wf⟩
  obtain ⟨hctx, hrest⟩ := hrs r hr
  exact ⟨hctx.imp_left (fun hX => hXY hX), hrest⟩

lemma Effect.refl (c : Client) : Effect [] c c :=
  ⟨le_rfl, fun _ _ _ => rfl, ⟨[], by simp⟩, id⟩

/-- A handler that leaves requests, objects and the supply of addresses alone. -/
lemma effect_of_eq (hsent : c'.sent = c.sent) (hheap : c'.heap = c.heap)
    (hnext : c'.next = c.next) : Effect [] c c' := by
  refine ⟨hnext.ge, fun y _ _ => by rw [hheap], ⟨[], by simp [hsent]⟩, fun h x d hx => ?_⟩
  rw [hheap] at hx
  exact h x d hx

/-- Two handlers one after the other, when the second is given none of the first's objects. -/
lemma Effect.trans (h₁ : Effect X c c') (h₂ : Effect Y c' c'') (hX : ∀ x ∈ X, x < c.next)
    (hY : ∀ y ∈ Y, y < c.next ∧ y ∉ X) : Effect (X ++ Y) c c'' := by
  obtain ⟨rs₁, hs₁, hnd₁, hrs₁⟩ := h₁.sent
  obtain ⟨rs₂, hs₂, hnd₂, hrs₂⟩ := h₂.sent
  have hlt : ∀ r ∈ rs₁, r.ctx < c'.next ∧ r.ctx ∉ Y := by
    intro r hr
    rcases (hrs₁ r hr).1 with hx | ⟨hge, hlt⟩
    · exact ⟨lt_of_lt_of_le (hX _ hx) h₁.next_le, fun hy => (hY _ hy).2 hx⟩
    · exact ⟨hlt, fun hy => absurd (hY _ hy).1 (not_lt.mpr hge)⟩
  refine ⟨h₁.next_le.trans h₂.next_le, ?_, ⟨rs₁ ++ rs₂, ?_, ?_, ?_⟩, fun h => h₂.wf (h₁.wf h)⟩
  · intro y hy hlt'
    rw [List.mem_append, not_or] at hy
    rw [h₂.heap_eq y hy.2 (lt_of_lt_of_le hlt' h₁.next_le), h₁.heap_eq y hy.1 hlt']
  · rw [hs₂, hs₁, List.append_assoc]
  · rw [List.map_append, List.nodup_append]
    refine ⟨hnd₁, hnd₂, ?_⟩
    intro a ha b hb hab
    obtain ⟨r₁, hr₁, rfl⟩ := List.mem_map.mp ha
    obtain ⟨r₂, hr₂, rfl⟩ := List.mem_map.mp hb
    rcases (hrs₂ r₂ hr₂).1 with hy | ⟨hge, _⟩
    · exact (hlt r₁ hr₁).2 (hab ▸ hy)
    · exact absurd (hlt r₁ hr₁).1 (by rw [hab]; exact not_lt.mpr hge)
  · intro r hr
    rcases List.mem_append.mp hr with hr | hr
    · obtain ⟨hctx, hvalid, d, hd, hfor⟩ := hrs₁ r hr
      refine ⟨?_, hvalid, d, ?_, hfor⟩
      · exact hctx.imp (fun h => List.mem_append_left _ h)
          (fun h => ⟨h.1, lt_of_lt_of_le h.2 h₂.next_le⟩)
      · rw [h₂.heap_eq _ (hlt r hr).2 (hlt r hr).1, hd]
    · obtain ⟨hctx, hvalid, hholds⟩ := hrs₂ r hr
      refine ⟨?_, hvalid, hholds⟩
      exact hctx.imp (fun h => List.mem_append_right _ h)
        (fun h => ⟨h₁.next_le.trans h.1, h.2⟩)

/-- The same when neither handler is given an object. -/
lemma Effect.trans_nil (h₁ : Effect [] c c') (h₂ : Effect [] c' c'') : Effect [] c c'' :=
  h₁.trans h₂ (by simp) (by simp)

/-! ## The building blocks -/

/-- A new object and the first request for it. -/
lemma effect_alloc_send (c : Client) {d : Userdata} (hd : d.Wf) {r : Request}
    (hctx : r.ctx = c.next) (hfor : d.For r) : Effect [] c ((c.alloc d).send r) := by
  have hheap : ((c.alloc d).send r).heap = Function.update c.heap c.next (some d) := by
    rw [send]; split_ifs <;> rfl
  have hnext : ((c.alloc d).send r).next = c.next + 1 := by
    rw [send]; split_ifs <;> rfl
  refine ⟨hnext ▸ Nat.le_succ _, fun y _ hlt => ?_, ?_, ?_⟩
  · rw [hheap, Function.update_of_ne (Nat.ne_of_lt hlt)]
  · by_cases hv : isValidPath r.path false = true
    · refine ⟨[r], by simp [send, hv, alloc], by simp, ?_⟩
      intro r' hr'
      obtain rfl := List.mem_singleton.mp hr'
      refine ⟨Or.inr ⟨hctx.ge, by rw [hctx, hnext]; exact Nat.lt_succ_self _⟩, hv, d, ?_, hfor⟩
      rw [hheap, hctx, Function.update_self]
    · exact ⟨[], by simp [send, hv, alloc], by simp, by simp⟩
  · intro hwf y d' hy
    rw [hheap] at hy
    by_cases hyx : y = c.next
    · subst hyx
      rw [Function.update_self] at hy
      exact Option.some.inj hy ▸ hd
    · rw [Function.update_of_ne hyx] at hy
      exact hwf y d' hy

/-- The object given to the handler is rewritten and a request for it is sent. -/
lemma effect_store_send (c : Client) {d : Userdata} (hd : c.HeapWf → d.Wf) {r : Request}
    (hx : x < c.next) (hctx : r.ctx = x) (hfor : d.For r) :
    Effect [x] c ((c.store x d).send r) := by
  have hheap : ((c.store x d).send r).heap = Function.update c.heap x (some d) := by
    rw [send]; split_ifs <;> rfl
  have hnext : ((c.store x d).send r).next = c.next := by
    rw [send]; split_ifs <;> rfl
  refine ⟨hnext.ge, fun y hy _ => ?_, ?_, ?_⟩
  · rw [hheap, Function.update_of_ne (by simpa using hy)]
  · by_cases hv : isValidPath r.path false = true
    · refine ⟨[r], by simp [send, hv, store], by simp, ?_⟩
      intro r' hr'
      obtain rfl := List.mem_singleton.mp hr'
      refine ⟨Or.inl (by simp [hctx]), hv, d, ?_, hfor⟩
      rw [hheap, hctx, Function.update_self]
    · exact ⟨[], by simp [send, hv, store], by simp, by simp⟩
  · intro hwf y d' hy
    rw [hheap] at hy
    by_cases hyx : y = x
    · subst hyx
      rw [Function.update_self] at hy
      exact Option.some.inj hy ▸ hd hwf
    · rw [Function.update_of_ne hyx] at hy
      exact hwf y d' hy

/-- A request for the object given to the handler. -/
lemma effect_send (c : Client) {r : Request} (hfor : c.Holds r.ctx (·.For r)) :
    Effect [r.ctx] c (c.send r) := by
  have hheap : (c.send r).heap = c.heap := by rw [send]; split_ifs <;> rfl
  have hnext : (c.send r).next = c.next := by rw [send]; split_ifs <;> rfl
  refine ⟨hnext.ge, fun y _ _ => by rw [hheap], ?_, ?_⟩
  · by_cases hv : isValidPath r.path false = true
    · refine ⟨[r], by simp [send, hv], by simp, ?_⟩
      intro r' hr'
      obtain rfl := List.mem_singleton.mp hr'
      obtain ⟨d, hd, hf⟩ := hfor
      exact ⟨Or.inl (by simp), hv, d, by rw [hheap, hd], hf⟩
    · exact ⟨[], by simp [send, hv], by simp, by simp⟩
  · intro hwf y d hy
    rw [hheap] at hy
    exact hwf y d hy

/-- An object given to the handler is destroyed. -/
lemma effect_update_none (hsent : c'.sent = c.sent) (hnext : c'.next = c.next)
    (hheap : c'.heap = Function.update c.heap x none) : Effect [x] c c' := by
  refine ⟨hnext.ge, fun y hy _ => ?_, ⟨[], by simp [hsent]⟩, fun hwf y d hy => ?_⟩
  · rw [hheap, Function.update_of_ne (by simpa using hy)]
  · rw [hheap] at hy
    by_cases hyx : y = x
    · subst hyx
      simp at hy
    · rw [Function.update_of_ne hyx] at hy
      exact hwf y d hy

lemma effect_free (c : Client) (x : Ptr) : Effect [x] c (c.free x) :=
  effect_update_none rfl rfl rfl

lemma effect_release (c : Client) (x : Ptr) : Effect [x] c (c.release x) := by
  rw [release]
  split_ifs
  · exact effect_update_none rfl rfl rfl
  · exact (Effect.refl c).mono (by simp)

lemma effect_call (c : Client) (k : Call) : Effect [] c (c.call k) :=
  effect_of_eq rfl rfl rfl

/-! ## The requests of `cppzk` -/

lemma effect_watchPathEvent (c : Client) (path : Path) {cb : ExistsCallback}
    (hcb : cb.path = path) : Effect [] c (c.watchPathEvent path cb) :=
  (effect_alloc_send c (d := .existsData { cb := cb }) trivial rfl ⟨rfl, hcb, rfl⟩).trans_nil
    (effect_of_eq rfl rfl rfl)

lemma effect_asyncGetPathValue (adv : Bool) (c : Client) (path : Path) (cb : GetCallback)
    (hwf : (Userdata.wget { cb := cb, path := path, advanced := adv }).Wf) :
    Effect [] c (asyncGetPathValue adv c path cb) := by
  have halloc := effect_alloc_send c hwf
    (r := { op := .getDataOp, path := path, watch := adv, ctx := c.next }) rfl ⟨rfl, rfl, rfl⟩
  rw [asyncGetPathValue]
  split_ifs
  · exact halloc.trans_nil (effect_of_eq rfl rfl rfl)
  · exact halloc

lemma effect_asyncGetSubPath (adv : Bool) (c : Client) (path : Path) (cb : ChildrenCallback)
    (hwf : (Userdata.getChildren { cb := cb, path := path, advanced := adv }).Wf) :
    Effect [] c (asyncGetSubPath adv c path cb) := by
  have halloc := effect_alloc_send c hwf
    (r := { op := .getChildrenOp, path := path, watch := adv, ctx := c.next }) rfl
    ⟨rfl, rfl, rfl⟩
  rw [asyncGetSubPath]
  split_ifs
  · exact halloc.trans_nil (effect_of_eq rfl rfl rfl)
  · exact halloc

/-! ## The calls of `config_monitor` -/

lemma effect_watchPath (c : Client) (path : Path) (cb : Cb) :
    Effect [] c (c.watchPath path cb) :=
  (effect_of_eq rfl rfl rfl : Effect [] c
    { c with watchRecord := c.watchRecord.insert path cb }).trans_nil
    (effect_watchPathEvent _ path rfl)

lemma effect_watchSubPath (c : Client) (path : Path) (cb : Cb) :
    Effect [] c (c.watchSubPath path cb) :=
  (effect_of_eq rfl rfl rfl : Effect [] c
    { c with watchSubRecord := c.watchSubRecord.insert path cb }).trans_nil
    (effect_watchPathEvent _ path rfl)

lemma effect_asyncRemoveWatches (c : Client) (path : Path) (type : WatchType) (cb : Cb) :
    Effect [] c (c.asyncRemoveWatches path type cb) := by
  rw [asyncRemoveWatches]
  cases type with
  | watchPath =>
      exact effect_alloc_send c (d := .operate { type := .watchPath, p := path, cb := cb })
        trivial rfl ⟨⟨_, rfl⟩, rfl⟩
  | watchSubPath =>
      exact effect_asyncGetSubPath false c path
        (.removeWatches { type := .watchSubPath, p := path, cb := cb } path) rfl

/-! ## The callbacks -/

lemma effect_runExists (c : Client) (cb : ExistsCallback) (rc : ZooError) (eve : ZkEvent) :
    Effect [] c (c.runExists cb rc eve) := by
  cases cb with
  | watchPath cb p =>
      rw [runExists]
      split_ifs
      · exact effect_call c _
      · exact effect_asyncGetPathValue _ c p _ ⟨rfl, rfl, by decide⟩
      · exact Effect.refl c
  | watchSubPath cb pfx =>
      rw [runExists]
      split_ifs
      · exact Effect.refl c
      · exact Effect.refl c
      · exact effect_asyncGetSubPath _ c pfx _ ⟨rfl, rfl⟩

lemma effect_runGet (c : Client) (cb : GetCallback) (rc : ZooError) (eve : ZkEvent)
    (path : Path) (val : Data) : Effect [] c (c.runGet cb rc eve path val) := by
  cases cb with
  | watchPath cb p =>
      rw [runGet]
      split_ifs
      · exact effect_call c _
      · exact Effect.refl c
  | monitor cb pfx =>
      rw [runGet]
      split_ifs
      · exact effect_call c _
      · exact effect_call c _
      · exact Effect.refl c

lemma effect_runOperate (c : Client) (cb : OperateCallback) (rc : ZooError) :
    Effect [] c (c.runOperate cb rc) := by
  rw [runOperate]
  split <;> exact effect_of_eq rfl rfl rfl

/-- The children of a listing are monitored one after the other. -/
lemma effect_monitor_foldl (cb : Cb) (pfx : Path) (subs : List Str) (c : Client) :
    Effect [] c (subs.foldl (fun c sub => c.monitor cb pfx (subPath pfx sub)) c) := by
  induction subs generalizing c with
  | nil => exact Effect.refl c
  | cons sub subs ih =>
      exact (effect_asyncGetPathValue true c (subPath pfx sub) (.monitor cb pfx)
        ⟨rfl, by decide⟩).trans_nil (ih _)

lemma effect_runListing (c : Client) (cb : Cb) (pfx : Path) (subPaths : List Str) :
    Effect [] c (c.runListing cb pfx subPaths) := by
  rw [runListing]
  exact (effect_monitor_foldl cb pfx _ c).trans_nil (effect_of_eq rfl rfl rfl)

lemma effect_runChildren (c : Client) (cb : ChildrenCallback) (rc : ZooError)
    (subPaths : List Str) : Effect [] c (c.runChildren cb rc subPaths) := by
  cases cb with
  | watchSubPath cb pfx =>
      rw [runChildren]
      split_ifs
      · exact Effect.refl c
      · exact effect_runListing c cb pfx subPaths
  | removeWatches cb p =>
      rw [runChildren]
      split_ifs
      · exact effect_runOperate c cb rc
      · cases hs : subPaths.map (subPath p) ++ [p] with
        | nil => simp at hs
        | cons q rest =>
            cases rest with
            | nil =>
                exact effect_alloc_send c (d := .removeChain cb [q]) trivial rfl ⟨⟨_, rfl⟩, rfl⟩
            | cons q' rest =>
                exact effect_alloc_send c (d := .removeChain cb (q :: q' :: rest)) trivial rfl
                  ⟨⟨_, rfl⟩, rfl⟩

/-! ## Watchers and completions -/

/-- A watcher is given its object: the watch is consumed. -/
lemma effect_onEvent {eve : ZkEvent} {q : Path} {tb : Table} (htb : tb ∈ eve.tables)
    (hx : x < c.next) (h : c.Holds x (·.ForWatch tb q)) : Effect [x] c (c.onEvent eve q x) := by
  obtain ⟨d, hd, hfor⟩ := h
  rw [onEvent, hd]
  cases d with
  | existsData d =>
      dsimp only
      rw [existsWatcher]
      split_ifs
      · exact (Effect.refl c).mono (by simp)
      · exact effect_store_send c (d := .existsData { d with eve := eve }) (fun _ => trivial) hx
          rfl ⟨rfl, hfor.2, rfl⟩
  | wget d =>
      obtain ⟨rfl, hpath, hadv⟩ := hfor
      dsimp only
      rw [getWatcher]
      split_ifs with hs hdel
      · exact (Effect.refl c).mono (by simp)
      · exact (effect_runGet c _ _ _ _ _).trans (effect_release _ x) (by simp)
          (by simpa using hx)
      · refine effect_store_send c (fun hwf => ?_) hx rfl ⟨rfl, rfl, hadv⟩
        have hw := hwf x _ hd
        rcases d with ⟨_ | _, path, adv, e⟩
        · exact absurd hw.2.1 (by simp at hadv; simp [hadv])
        · exact ⟨hadv, hdel⟩
  | getChildren d =>
      dsimp only
      rw [childrenWatcher]
      split_ifs
      · exact (Effect.refl c).mono (by simp)
      · exact effect_release c x
      · exact effect_send c (r := { op := .getChildrenOp, path := q, watch := true, ctx := x })
          ⟨.getChildren d, hd, rfl, hfor.2.1, hfor.2.2⟩
  | operate cb => exact absurd hfor id
  | removeChain cb subs => exact absurd hfor id

/-- A completion is given its object unless the answer has armed the watch. -/
lemma effect_onReply {rep : Reply} (hx : rep.req.ctx < c.next)
    (h : c.Holds rep.req.ctx (·.For rep.req)) :
    Effect (if rep.table?.isSome then [] else [rep.req.ctx]) c (c.onReply rep) := by
  obtain ⟨d, hd, hfor⟩ := h
  -- without a watcher the answer arms nothing, so the object is given up
  have hnone : rep.req.watch = false → rep.table?.isSome = false := by
    intro hw; rw [Reply.table?, hw]; rfl
  rw [onReply, hd]
  cases d with
  | existsData d => exact (effect_runExists c _ _ _).mono (by simp)
  | wget d =>
      dsimp only
      rw [getCompletion]
      split_ifs with hsome hadv hadv
      · exact effect_runGet c _ _ _ _ _
      · rw [hnone (by rw [← hfor.2.2]; simpa using hadv)] at hsome
        exact absurd hsome (by simp)
      · exact (effect_runGet c _ _ _ _ _).mono (by simp)
      · exact (effect_runGet c _ _ _ _ _).trans (effect_free _ _) (by simp) (by simpa using hx)
  | getChildren d =>
      dsimp only
      rw [childrenCompletion]
      split_ifs with hsome hadv hadv
      · exact effect_runChildren c _ _ _
      · rw [hnone (by rw [← hfor.2.2]; simpa using hadv)] at hsome
        exact absurd hsome (by simp)
      · exact (effect_runChildren c _ _ _).mono (by simp)
      · exact (effect_runChildren c _ _ _).trans (effect_free _ _) (by simp) (by simpa using hx)
  | operate cb =>
      rw [hnone hfor.2]
      exact (effect_runOperate c cb rep.rc).trans (effect_free _ _) (by simp) (by simpa using hx)
  | removeChain cb subs =>
      rw [hnone hfor.2]
      change Effect [rep.req.ctx] c (c.removeChainCompletion cb subs rep.rc rep.req.ctx)
      -- the object is freed with the last request of the chain and kept before
      rw [removeChainCompletion]
      split
      · exact (effect_runOperate c cb rep.rc).trans (effect_free _ _) (by simp)
          (by simpa using hx)
      · rename_i q _
        exact effect_store_send c (d := .removeChain cb [q]) (fun _ => trivial) hx rfl
          ⟨⟨_, rfl⟩, rfl⟩
      · rename_i q rest _ _
        exact effect_store_send c (d := .removeChain cb (q :: rest)) (fun _ => trivial) hx rfl
          ⟨⟨_, rfl⟩, rfl⟩

/-- The watchers of one notification, each on its own object. -/
lemma effect_onEvent_foldl (eve : ZkEvent) (q : Path) (ctxs : List Ptr) (hnd : ctxs.Nodup)
    (hlt : ∀ x ∈ ctxs, x < c.next)
    (h : ∀ x ∈ ctxs, ∃ tb ∈ eve.tables, c.Holds x (·.ForWatch tb q)) :
    Effect ctxs c (ctxs.foldl (onEvent eve q) c) := by
  induction ctxs generalizing c with
  | nil => exact Effect.refl c
  | cons x ctxs ih =>
      obtain ⟨hx, hnd'⟩ := List.nodup_cons.mp hnd
      obtain ⟨tb, htb, hholds⟩ := h x List.mem_cons_self
      have hxlt := hlt x List.mem_cons_self
      have heff := effect_onEvent htb hxlt hholds
      have hrest := ih (c := c.onEvent eve q x) hnd'
        (fun y hy => lt_of_lt_of_le (hlt y (List.mem_cons_of_mem _ hy)) heff.next_le) ?_
      · exact heff.trans hrest (by simpa using hxlt)
          (fun y hy => ⟨hlt y (List.mem_cons_of_mem _ hy), by
            rintro hyx
            simp at hyx
            exact hx (hyx ▸ hy)⟩)
      · intro y hy
        obtain ⟨tb', htb', d, hd, hfor⟩ := h y (List.mem_cons_of_mem _ hy)
        refine ⟨tb', htb', d, ?_, hfor⟩
        rw [heff.heap_eq y (by rintro hyx; simp at hyx; exact hx (hyx ▸ hy))
          (hlt y (List.mem_cons_of_mem _ hy)), hd]

end Client

end ConfigMonitor
