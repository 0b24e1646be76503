/-
# The handlers as a view sees them

A handler run for an object of the view does to what is seen of the client what it does to the
client; a handler run for another object is not seen.
-/
import ConfigMonitor.Independence.View

namespace ConfigMonitor

namespace Client

variable {V : View} {nm : Ptr → Option Ptr} {c c' c'' c₁ c₁' c₁'' : Client} {x y : Ptr}

/-- `c₁` is seen of `c'`, a later state of `c`, and the older objects keep their names. -/
def SeenAfter (V : View) (nm : Ptr → Option Ptr) (c c' c₁ : Client) : Prop :=
  ∃ nm', (∀ x < c.next, nm' x = nm x) ∧ Seen V nm' c' c₁

lemma Seen.after (h : Seen V nm c' c₁) : SeenAfter V nm c c' c₁ := ⟨nm, fun _ _ => rfl, h⟩

/-- Two handlers, one after the other. -/
lemma SeenAfter.bind (h : SeenAfter V nm c c' c₁') (hle : c.next ≤ c'.next)
    (hnext : ∀ nm', (∀ x < c.next, nm' x = nm x) → Seen V nm' c' c₁' →
      SeenAfter V nm' c' c'' c₁'') : SeenAfter V nm c c'' c₁'' := by
  obtain ⟨nm', hold, hseen⟩ := h
  obtain ⟨nm'', hold', hseen'⟩ := hnext nm' hold hseen
  exact ⟨nm'', fun x hx => (hold' x (lt_of_lt_of_le hx hle)).trans (hold x hx), hseen'⟩

lemma SeenAfter.map (h : SeenAfter V nm c c' c₁')
    (hnext : ∀ nm', (∀ x < c.next, nm' x = nm x) → Seen V nm' c' c₁' → Seen V nm' c'' c₁'') :
    SeenAfter V nm c c'' c₁'' := by
  obtain ⟨nm', hold, hseen⟩ := h
  exact ⟨nm', hold, hnext nm' hold hseen⟩

/-! ## Requests for a new object -/

lemma Seen.issue (h : Seen V nm c c₁) {d : Userdata} (hfit : V.Fits d) (op : Op) (path : Path)
    (watch : Bool) : SeenAfter V nm c (c.issue d op path watch)
      (if V.mine d.cb = true then c₁.issue d op path watch else c₁) := by
  split_ifs with hd
  · have hself : Function.update nm c.next (some c₁.next) c.next = some c₁.next := by simp
    have hsend := (h.alloc hd hfit).send
      (r := { op := op, path := path, watch := watch, ctx := c.next }) hself
    refine ⟨Function.update nm c.next (some c₁.next), fun x hx =>
      Function.update_of_ne (Nat.ne_of_lt hx) _ _, ?_⟩
    cases watch with
    | true => exact hsend.emplace hself
    | false => exact hsend
  · rw [Bool.not_eq_true] at hd
    have hsend := (h.alloc_other hd hfit).send_other
      (r := { op := op, path := path, watch := watch, ctx := c.next }) h.nm_next
      (Nat.lt_succ_self _)
    cases watch with
    | true =>
        refine (hsend.emplace_other h.nm_next ?_).after
        rw [next_send]
        exact Nat.lt_succ_self _
    | false => exact hsend.after

/-! ## Callbacks -/

lemma Seen.runExists (h : Seen V nm c c₁) (cb : ExistsCallback) (rc : ZooError) (eve : ZkEvent)
    (hfit : V.Fits (.existsData { cb := cb })) : SeenAfter V nm c (c.runExists cb rc eve)
      (if V.mine cb.cb = true then c₁.runExists cb rc eve else c₁) := by
  cases cb with
  | watchPath cb p =>
      rw [Client.runExists, Client.runExists]
      by_cases hdel : rc ≠ .zok ∧ eve = .deleted
      · rw [if_pos hdel, if_pos hdel]
        exact (h.call _).after
      by_cases hget : eve = .dummy ∨ eve = .created ∨ eve = .changed
      · rw [if_neg hdel, if_pos hget, if_neg hdel, if_pos hget]
        exact h.issue (d := .wget _) trivial .getDataOp p false
      · rw [if_neg hdel, if_neg hget, if_neg hdel, if_neg hget, ite_self]
        exact h.after
  | watchSubPath cb pfx =>
      rw [Client.runExists, Client.runExists]
      by_cases hrc : rc ≠ .zok
      · rw [if_pos hrc, if_pos hrc, ite_self]
        exact h.after
      by_cases heve : eve ≠ .dummy ∧ eve ≠ .created
      · rw [if_neg hrc, if_pos heve, if_neg hrc, if_pos heve, ite_self]
        exact h.after
      · rw [if_neg hrc, if_neg heve, if_neg hrc, if_neg heve]
        exact h.issue (d := .getChildren
          { cb := .watchSubPath cb pfx, path := pfx, advanced := true }) hfit .getChildrenOp pfx true

lemma Seen.runGet (h : Seen V nm c c₁) (cb : GetCallback) (rc : ZooError) (eve : ZkEvent)
    (path : Path) (val : Data) : Seen V nm (c.runGet cb rc eve path val)
      (if V.mine cb.cb = true then c₁.runGet cb rc eve path val else c₁) := by
  cases cb with
  | watchPath cb p =>
      rw [Client.runGet, Client.runGet]
      by_cases hrc : rc = .zok
      · rw [if_pos hrc, if_pos hrc]
        exact h.call _
      · rw [if_neg hrc, if_neg hrc, ite_self]
        exact h
  | monitor cb pfx =>
      rw [Client.runGet, Client.runGet]
      by_cases hdel : rc ≠ .zok ∧ eve = .deleted
      · rw [if_pos hdel, if_pos hdel]
        exact h.call _
      by_cases hrc : rc = .zok
      · rw [if_neg hdel, if_pos hrc, if_neg hdel, if_pos hrc]
        exact h.call _
      · rw [if_neg hdel, if_neg hrc, if_neg hdel, if_neg hrc, ite_self]
        exact h

lemma next_monitor_le (cb : Cb) (pfx : Path) (c : Client) (sub : Path) :
    c.next ≤ (monitor cb pfx c sub).next := by
  rw [monitor, asyncGetPathValue_eq, next_issue]
  exact Nat.le_succ _

/-- The children of a listing, one after the other. -/
lemma Seen.monitor_foldl (h : Seen V nm c c₁) (cb : Cb) (pfx : Path) (subs : List Str) :
    SeenAfter V nm c (subs.foldl (fun c sub => c.monitor cb pfx (subPath pfx sub)) c)
      (if V.mine cb = true then
        subs.foldl (fun c sub => c.monitor cb pfx (subPath pfx sub)) c₁ else c₁) := by
  induction subs generalizing nm c c₁ with
  | nil =>
      rw [List.foldl_nil, List.foldl_nil, ite_self]
      exact h.after
  | cons sub subs ih =>
      have hissue := h.issue (d := .wget
        { cb := .monitor cb pfx, path := subPath pfx sub, advanced := true })
        trivial .getDataOp (subPath pfx sub) true
      refine hissue.bind (next_monitor_le cb pfx c (subPath pfx sub)) fun nm' _ hseen => ?_
      have hrest := ih hseen
      by_cases hmine : V.mine cb = true
      · simp only [hmine, if_true, Userdata.cb, GetCallback.cb] at hrest ⊢
        exact hrest
      · simp only [hmine, Userdata.cb, GetCallback.cb] at hrest ⊢
        exact hrest

lemma Seen.runListing (h : Seen V nm c c₁) (cb : Cb) (pfx : Path) (subPaths : List Str)
    (hfit : V.mine cb = V.side pfx) : SeenAfter V nm c (c.runListing cb pfx subPaths)
      (if V.mine cb = true then c₁.runListing cb pfx subPaths else c₁) := by
  have hfresh : ∀ fresh : List Str, SeenAfter V nm c
      { fresh.foldl (fun c sub => c.monitor cb pfx (subPath pfx sub)) c with
        lastSubPath := (fresh.foldl (fun c sub => c.monitor cb pfx (subPath pfx sub))
          c).lastSubPath.insert pfx subPaths }
      (if V.mine cb = true then
        { fresh.foldl (fun c sub => c.monitor cb pfx (subPath pfx sub)) c₁ with
          lastSubPath := (fresh.foldl (fun c sub => c.monitor cb pfx (subPath pfx sub))
            c₁).lastSubPath.insert pfx subPaths } else c₁) := by
    intro fresh
    obtain ⟨nm', hold, hseen⟩ := h.monitor_foldl cb pfx fresh
    have hins := hseen.insertLast pfx subPaths
    rw [← hfit] at hins
    refine ⟨nm', hold, ?_⟩
    split_ifs at hins ⊢ <;> exact hins
  by_cases hmine : V.mine cb = true
  · -- the new children are the same ones, since the entry is one of the view
    rw [Client.runListing, Client.runListing, h.lastSubPath pfx (hfit ▸ hmine)]
    cases c.lastSubPath.lookup pfx <;> exact hfresh _
  · simp only [if_neg hmine] at hfresh ⊢
    rw [Client.runListing]
    cases c.lastSubPath.lookup pfx <;> exact hfresh _

/-- The end of a removal. -/
lemma Seen.runOperate (h : Seen V nm c c₁) {cb : OperateCallback} (hcb : V.Spares cb)
    (rc : ZooError) : Seen V nm (c.runOperate cb rc)
      (if V.mine cb.cb = true then c₁.runOperate cb rc else c₁) := by
  rw [Client.runOperate, Client.runOperate]
  by_cases hmine : V.mine cb.cb = true
  · have hcall : ∀ c' c₁', Seen V nm c' c₁' →
        Seen V nm (c'.call (.done cb.cb rc)) (c₁'.call (.done cb.cb rc)) := by
      intro c' c₁' h'
      have hdone := h'.call (.done cb.cb rc)
      rwa [if_pos (by exact hmine)] at hdone
    rw [if_pos hmine]
    cases cb.type with
    | watchPath => exact hcall _ _ { h with }
    | watchSubPath => exact hcall _ _ { h.eraseLast cb.p with }
  · have hcall : ∀ c', Seen V nm c' c₁ → Seen V nm (c'.call (.done cb.cb rc)) c₁ := by
      intro c' h'
      have hdone := h'.call (.done cb.cb rc)
      rwa [if_neg (by exact hmine)] at hdone
    rw [if_neg hmine]
    cases htype : cb.type with
    | watchPath => exact hcall _ { h with }
    | watchSubPath =>
        exact hcall _ { h.eraseLast_other (hcb (Bool.not_eq_true _ ▸ hmine) htype) with }

lemma Seen.runChildren (h : Seen V nm c c₁) (cb : ChildrenCallback) (rc : ZooError)
    (subPaths : List Str) {path : Path} {adv : Bool}
    (hfit : V.Fits (.getChildren { cb := cb, path := path, advanced := adv })) :
    SeenAfter V nm c (c.runChildren cb rc subPaths)
      (if V.mine cb.cb = true then c₁.runChildren cb rc subPaths else c₁) := by
  cases cb with
  | watchSubPath cb pfx =>
      rw [Client.runChildren, Client.runChildren]
      by_cases hrc : rc ≠ .zok
      · rw [if_pos hrc, if_pos hrc, ite_self]
        exact h.after
      · rw [if_neg hrc, if_neg hrc]
        exact h.runListing cb pfx subPaths hfit
  | removeWatches cb p =>
      rw [ChildrenCallback.cb, Client.runChildren, Client.runChildren]
      by_cases hrc : rc ≠ .zok
      · rw [if_pos hrc, if_pos hrc]
        exact (h.runOperate hfit rc).after
      · rw [if_neg hrc, if_neg hrc]
        -- the first request of the chain
        have hissue : ∀ q rest op, SeenAfter V nm c
            ((c.alloc (.removeChain cb (q :: rest))).send
              { op := op, path := q, watch := false, ctx := c.next })
            (if V.mine cb.cb = true then
              (c₁.alloc (.removeChain cb (q :: rest))).send
                { op := op, path := q, watch := false, ctx := c₁.next } else c₁) :=
          fun q rest op => h.issue (d := .removeChain cb (q :: rest)) hfit op q false
        obtain ⟨q, rest, hs⟩ := List.exists_cons_of_ne_nil
          (List.append_ne_nil_of_right_ne_nil (subPaths.map (subPath p)) (List.cons_ne_nil p []))
        rw [hs]
        cases rest <;> exact hissue q _ _

/-! ## Watchers and completions -/

lemma next_onEvent (c : Client) (eve : ZkEvent) (q : Path) (x : Ptr) :
    (onEvent eve q c x).next = c.next := by
  rw [onEvent]
  split
  · rw [existsWatcher]
    split_ifs <;> simp [zooAwexists]
  · rename_i d _
    rw [getWatcher]
    split_ifs
    · rfl
    · rw [next_release]
      rcases d with ⟨_ | _, path, adv, e⟩ <;> rw [Client.runGet] <;> split_ifs <;> rfl
    · simp [zooAwget]
  · rw [childrenWatcher]
    split_ifs <;> simp [zooAwgetChildren2]
  · rfl

/-- The watcher of an object of the view. -/
lemma Seen.onEvent (h : Seen V nm c c₁) (eve : ZkEvent) (q : Path) (hx : nm x = some y) :
    Seen V nm (Client.onEvent eve q c x) (Client.onEvent eve q c₁ y) := by
  rw [Client.onEvent, Client.onEvent, h.heap x y hx]
  cases hd : c.heap x with
  | none => exact h
  | some d =>
      obtain ⟨hfit, hmine⟩ := h.obj x d hd
      rw [hx, Option.isSome_some] at hmine
      cases d with
      | existsData d =>
          dsimp only
          rw [existsWatcher, existsWatcher]
          split_ifs
          · exact h
          · have hfit' : V.Fits (.existsData { d with eve := eve }) := by
              rcases d with ⟨_ | _, e⟩ <;> exact hfit
            exact (h.store hx hfit' hmine).send
              (r := { op := .existsOp, path := q, watch := true, ctx := x }) hx
      | wget d =>
          dsimp only
          rw [getWatcher, getWatcher]
          split_ifs
          · exact h
          · have hrun := h.runGet d.cb .znonode .deleted q none
            rw [if_pos (by exact hmine)] at hrun
            exact hrun.release hx
          · exact (h.store (d := .wget { d with path := q, eve := eve }) hx trivial hmine).send
              (r := { op := .getDataOp, path := q, watch := true, ctx := x }) hx
      | getChildren d =>
          dsimp only
          rw [childrenWatcher, childrenWatcher]
          split_ifs
          · exact h
          · exact h.release hx
          · exact h.send (r := { op := .getChildrenOp, path := q, watch := true, ctx := x }) hx
      | operate cb => exact h
      | removeChain cb subs => exact h

/-- The watcher of an object of another subscription. -/
lemma Seen.onEvent_other (h : Seen V nm c c₁) (eve : ZkEvent) (q : Path) (hx : nm x = none)
    (hlt : x < c.next) : Seen V nm (Client.onEvent eve q c x) c₁ := by
  rw [Client.onEvent]
  cases hd : c.heap x with
  | none => exact h
  | some d =>
      obtain ⟨hfit, hmine⟩ := h.obj x d hd
      rw [hx, Option.isSome_none] at hmine
      cases d with
      | existsData d =>
          dsimp only
          rw [existsWatcher]
          split_ifs
          · exact h
          · have hfit' : V.Fits (.existsData { d with eve := eve }) := by
              rcases d with ⟨_ | _, e⟩ <;> exact hfit
            exact (h.store_other hx hfit' hmine).send_other
              (r := { op := .existsOp, path := q, watch := true, ctx := x }) hx hlt
      | wget d =>
          dsimp only
          rw [getWatcher]
          split_ifs
          · exact h
          · have hrun := h.runGet d.cb .znonode .deleted q none
            rw [if_neg (by rw [show V.mine d.cb.cb = false from hmine]; simp)] at hrun
            exact hrun.release_other hx
          · exact (h.store_other (d := .wget { d with path := q, eve := eve }) hx trivial
              hmine).send_other
              (r := { op := .getDataOp, path := q, watch := true, ctx := x }) hx hlt
      | getChildren d =>
          dsimp only
          rw [childrenWatcher]
          split_ifs
          · exact h
          · exact h.release_other hx
          · exact h.send_other
              (r := { op := .getChildrenOp, path := q, watch := true, ctx := x }) hx hlt
      | operate cb => exact h
      | removeChain cb subs => exact h

/-- The watchers of a notification: those of the view are run in both. -/
lemma Seen.onEvent_foldl (h : Seen V nm c c₁) (eve : ZkEvent) (q : Path) (ctxs : List Ptr)
    (hlt : ∀ x ∈ ctxs, x < c.next) : Seen V nm (ctxs.foldl (Client.onEvent eve q) c)
      ((ctxs.filterMap nm).foldl (Client.onEvent eve q) c₁) := by
  induction ctxs generalizing c c₁ with
  | nil => exact h
  | cons x ctxs ih =>
      have hlt' : ∀ z ∈ ctxs, z < (Client.onEvent eve q c x).next := by
        intro z hz
        rw [next_onEvent]
        exact hlt z (List.mem_cons_of_mem _ hz)
      cases hx : nm x with
      | none =>
          rw [List.filterMap_cons_none hx]
          exact ih (h.onEvent_other eve q hx (hlt x List.mem_cons_self)) hlt'
      | some y =>
          rw [List.filterMap_cons_some hx]
          exact ih (h.onEvent eve q hx) hlt'

lemma Seen.getCompletion (h : Seen V nm c c₁) (d : WgetUserdata) (rc : ZooError) (val : Data)
    (hx : nm x = some y) (hmine : V.mine d.cb.cb = true) :
    Seen V nm (c.getCompletion d rc val x) (c₁.getCompletion d rc val y) := by
  have hrun := h.runGet d.cb rc d.eve d.path val
  rw [if_pos hmine] at hrun
  rw [Client.getCompletion, Client.getCompletion]
  split_ifs
  · exact hrun
  · exact hrun.free hx

/-- The completion of an object of the view. -/
lemma Seen.onReply (h : Seen V nm c c₁) {rep : Reply} (hx : nm rep.req.ctx = some y) :
    SeenAfter V nm c (c.onReply rep)
      (c₁.onReply { rep with req := { rep.req with ctx := y } }) := by
  rw [Client.onReply, Client.onReply]
  dsimp only
  rw [h.heap _ y hx]
  cases hd : c.heap rep.req.ctx with
  | none => exact h.after
  | some d =>
      obtain ⟨hfit, hmine⟩ := h.obj _ d hd
      rw [hx, Option.isSome_some] at hmine
      cases d with
      | existsData d =>
          have hfit' : V.Fits (.existsData { cb := d.cb }) := by
            rcases d with ⟨_ | _, e⟩ <;> exact hfit
          have hrun := h.runExists d.cb rep.rc d.eve hfit'
          rwa [if_pos (by exact hmine)] at hrun
      | wget d => exact (h.getCompletion d rep.rc rep.val hx hmine).after
      | getChildren d =>
          have hrun := h.runChildren d.cb rep.rc rep.strings hfit
          rw [if_pos (by exact hmine)] at hrun
          dsimp only
          rw [childrenCompletion, childrenCompletion]
          split_ifs
          · exact hrun
          · exact hrun.map fun nm' hold hseen =>
              hseen.free ((hold _ (h.lt _ y hx).1).trans hx)
      | operate cb =>
          have hrun := h.runOperate hfit rep.rc
          rw [if_pos (by exact hmine)] at hrun
          exact (hrun.free hx).after
      | removeChain cb subs =>
          -- the object is rewritten for the rest of the chain, and a request is sent for it
          have hsend : ∀ rest op q, SeenAfter V nm c ((c.store rep.req.ctx
              (.removeChain cb rest)).send
                { op := op, path := q, watch := false, ctx := rep.req.ctx })
              ((c₁.store y (.removeChain cb rest)).send
                { op := op, path := q, watch := false, ctx := y }) :=
            fun rest op q => ((h.store (d := .removeChain cb rest) hx hfit hmine).send
              (r := { op := op, path := q, watch := false, ctx := rep.req.ctx }) hx).after
          dsimp only
          rw [removeChainCompletion, removeChainCompletion]
          split
          · have hrun := h.runOperate hfit rep.rc
            rw [if_pos (by exact hmine)] at hrun
            exact (hrun.free hx).after
          · exact hsend _ _ _
          · exact hsend _ _ _

/-- The completion of an object of another subscription. -/
lemma Seen.onReply_other (h : Seen V nm c c₁) {rep : Reply} (hx : nm rep.req.ctx = none)
    (hlt : rep.req.ctx < c.next) : SeenAfter V nm c (c.onReply rep) c₁ := by
  rw [Client.onReply]
  cases hd : c.heap rep.req.ctx with
  | none => exact h.after
  | some d =>
      obtain ⟨hfit, hmine⟩ := h.obj _ d hd
      rw [hx, Option.isSome_none] at hmine
      have hother : ¬ V.mine d.cb = true := by rw [hmine]; exact Bool.false_ne_true
      cases d with
      | existsData d =>
          have hfit' : V.Fits (.existsData { cb := d.cb }) := by
            rcases d with ⟨_ | _, e⟩ <;> exact hfit
          have hrun := h.runExists d.cb rep.rc d.eve hfit'
          rwa [if_neg (by exact hother)] at hrun
      | wget d =>
          have hrun := h.runGet d.cb rep.rc d.eve d.path rep.val
          rw [if_neg (by exact hother)] at hrun
          dsimp only
          rw [Client.getCompletion]
          split_ifs
          · exact hrun.after
          · exact (hrun.free_other hx).after
      | getChildren d =>
          have hrun := h.runChildren d.cb rep.rc rep.strings hfit
          rw [if_neg (by exact hother)] at hrun
          dsimp only
          rw [childrenCompletion]
          split_ifs
          · exact hrun
          · exact hrun.map fun nm' hold hseen => hseen.free_other ((hold _ hlt).trans hx)
      | operate cb =>
          have hrun := h.runOperate hfit rep.rc
          rw [if_neg (by exact hother)] at hrun
          exact (hrun.free_other hx).after
      | removeChain cb subs =>
          -- the object is rewritten for the rest of the chain, and a request is sent for it
          have hsend : ∀ rest op q, SeenAfter V nm c ((c.store rep.req.ctx
              (.removeChain cb rest)).send
                { op := op, path := q, watch := false, ctx := rep.req.ctx }) c₁ :=
            fun rest op q => ((h.store_other (d := .removeChain cb rest) hx hfit
              hmine).send_other
                (r := { op := op, path := q, watch := false, ctx := rep.req.ctx }) hx hlt).after
          dsimp only
          rw [removeChainCompletion]
          split
          · have hrun := h.runOperate hfit rep.rc
            rw [if_neg (by exact hother)] at hrun
            exact (hrun.free_other hx).after
          · exact hsend _ _ _
          · exact hsend _ _ _

/-- A message of the view is handled in both, another one is not seen. -/
lemma Seen.process (h : Seen V nm c c₁) (m : Msg)
    (hlt : match m with
      | .reply rep => rep.req.ctx < c.next
      | .event _ _ ctxs => ∀ x ∈ ctxs, x < c.next) :
    SeenAfter V nm c (c.process m)
      (match m.seen nm with
      | some m' => c₁.process m'
      | none => c₁) := by
  cases m with
  | reply rep =>
      cases hx : nm rep.req.ctx with
      | none =>
          rw [Msg.seen, Request.seen, hx]
          exact h.onReply_other hx hlt
      | some y =>
          rw [Msg.seen, Request.seen, hx]
          exact h.onReply hx
  | event eve q ctxs =>
      have hfold := h.onEvent_foldl eve q ctxs hlt
      rw [Msg.seen]
      cases hnm : ctxs.filterMap nm with
      | nil =>
          rw [hnm] at hfold
          exact hfold.after
      | cons y ys =>
          rw [hnm] at hfold
          exact hfold.after

/-! ## Calls of the user -/

lemma Seen.watchPath (h : Seen V nm c c₁) (p : Path) (cb : Cb) :
    SeenAfter V nm c (c.watchPath p cb)
      (if V.mine cb = true then c₁.watchPath p cb else c₁) := by
  have hrec : Seen V nm { c with watchRecord := c.watchRecord.insert p cb }
      (if V.mine cb = true then { c₁ with watchRecord := c₁.watchRecord.insert p cb }
        else c₁) := by
    split_ifs <;> exact { h with }
  obtain ⟨nm', hold, hseen⟩ := hrec.issue (d := .existsData { cb := .watchPath cb p })
    trivial .existsOp p true
  refine ⟨nm', hold, ?_⟩
  by_cases hmine : V.mine cb = true
  · simp only [hmine, if_true, Userdata.cb, ExistsCallback.cb] at hseen ⊢
    exact hseen
  · simp only [hmine, Userdata.cb, ExistsCallback.cb] at hseen ⊢
    exact hseen

lemma Seen.watchSubPath (h : Seen V nm c c₁) (p : Path) (cb : Cb) (hfit : V.mine cb = V.side p) :
    SeenAfter V nm c (c.watchSubPath p cb)
      (if V.mine cb = true then c₁.watchSubPath p cb else c₁) := by
  have hrec : Seen V nm { c with watchSubRecord := c.watchSubRecord.insert p cb }
      (if V.mine cb = true then { c₁ with watchSubRecord := c₁.watchSubRecord.insert p cb }
        else c₁) := by
    split_ifs <;> exact { h with }
  obtain ⟨nm', hold, hseen⟩ := hrec.issue (d := .existsData { cb := .watchSubPath cb p })
    hfit .existsOp p true
  refine ⟨nm', hold, ?_⟩
  by_cases hmine : V.mine cb = true
  · simp only [hmine, if_true, Userdata.cb, ExistsCallback.cb] at hseen ⊢
    exact hseen
  · simp only [hmine, Userdata.cb, ExistsCallback.cb] at hseen ⊢
    exact hseen

lemma Seen.asyncRemoveWatches (h : Seen V nm c c₁) (p : Path) (type : WatchType) (cb : Cb)
    (hcb : V.Spares { type := type, p := p, cb := cb }) :
    SeenAfter V nm c (c.asyncRemoveWatches p type cb)
      (if V.mine cb = true then c₁.asyncRemoveWatches p type cb else c₁) := by
  cases type with
  | watchPath =>
      exact h.issue (d := .operate { type := .watchPath, p := p, cb := cb }) hcb
        (.removeWatchesOp .data) p false
  | watchSubPath =>
      exact h.issue (d := .getChildren
        { cb := .removeWatches { type := .watchSubPath, p := p, cb := cb } p, path := p,
          advanced := false }) hcb .getChildrenOp p false

end Client

end ConfigMonitor
