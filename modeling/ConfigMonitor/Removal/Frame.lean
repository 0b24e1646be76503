/-
# What a removal takes away

`async_remove_watches` on a monitor at rest: one remove-watches request, or, for a sub-path
subscription, a listing and then one request for each child and one for the path itself, each
sent when the last one is answered.  While nothing else happens, the watches gone afterwards are
those on the paths of the requests, whoever they belong to.
-/
import ConfigMonitor.Monitor.External

namespace ConfigMonitor

open Run

/-- The subscription an object works for. -/
def Userdata.owner : Userdata → Option (WatchType × Path)
  | .existsData { cb := .watchPath _ p, eve := _ } => some (.watchPath, p)
  | .existsData { cb := .watchSubPath _ pfx, eve := _ } => some (.watchSubPath, pfx)
  | .wget { cb := .watchPath _ p, path := _, advanced := _, eve := _ } => some (.watchPath, p)
  | .wget { cb := .monitor _ pfx, path := _, advanced := _, eve := _ } =>
      some (.watchSubPath, pfx)
  | .getChildren { cb := .watchSubPath _ pfx, path := _, advanced := _ } =>
      some (.watchSubPath, pfx)
  | .getChildren { cb := .removeWatches _ _, path := _, advanced := _ } => none
  | .operate _ | .removeChain _ _ => none

/-- The subscription the object at `x` works for. -/
def Client.owner (c : Client) (x : Ptr) : Option (WatchType × Path) :=
  (c.heap x).bind Userdata.owner

namespace Removal

/-- A removal is run to completion: the call is made in `w`, and when `w'` is reached its
callback has been called and nothing is in flight. -/
structure Completes (w : World) (p : Path) (type : WatchType) (cb : Cb) (w' : World) : Prop where
  run : Reach World.step (fun _ a => a.Internal)
    { w with client := w.client.asyncRemoveWatches p type cb } w'
  quiescent : w'.Quiescent
  done : ∃ rc, w'.client.calls = w.client.calls ++ [.done cb rc]

/-- No removal disarms a watch of another subscription. -/
def Framed : Prop :=
  ∀ t w p type cb w', Reach World.step (fun _ _ => True) (World.start t) w → w.Quiescent →
    Completes w p type cb w' →
      ∀ a ∈ w.armed, w.client.owner a.ctx ≠ some (type, p) → a ∈ w'.armed

/-! ## A path watched in both ways -/

/-- A tree with the node `/p`, without data. -/
def bareP : Tree where
  nodes := [(root, none), (['/', 'p'], none)]
  nodup := by decide
  root_mem := by decide
  closed := by decide
  valid := by decide

theorem not_framed : ¬ Framed := by
  intro h
  obtain ⟨w, hr, hw⟩ := exists_reach_of_exec World.step (fun _ _ => True) (World.start bareP)
    [.watchPath ['/', 'p'] 0, .watchSubPath ['/', 'p'] 1, .serve, .serve, .deliver, .deliver,
      .serve, .serve, .deliver, .deliver]
    (fun w => (decide w.Quiescent, w.armed, w.client.owner 1,
      (exec World.step (fun _ a => a.Internal)
        { w with client := w.client.asyncRemoveWatches ['/', 'p'] .watchPath 2 }
        [.serve, .deliver]).map fun w' : World =>
          (decide w'.Quiescent, w'.armed.map Watch.ctx,
            decide (w'.client.calls = w.client.calls ++ [.done 2 .zok]))))
    (true, [⟨.node, ['/', 'p'], 0⟩, ⟨.node, ['/', 'p'], 1⟩, ⟨.child, ['/', 'p'], 3⟩],
      some (.watchSubPath, ['/', 'p']), some (true, [3], true)) rfl
  simp only [Prod.mk.injEq, decide_eq_true_eq] at hw
  obtain ⟨hq, harmed, howner, hrun⟩ := hw
  obtain ⟨w', hw', hrun⟩ := Option.map_eq_some_iff.mp hrun
  simp only [Prod.mk.injEq, decide_eq_true_eq] at hrun
  obtain ⟨hq', harmed', hcalls⟩ := hrun
  have hmem := h bareP w ['/', 'p'] .watchPath 2 w' hr hq ⟨reach_of_exec hw', hq', _, hcalls⟩
    ⟨.node, ['/', 'p'], 1⟩ (by rw [harmed]; simp) (by rw [howner]; simp)
  have hctx := List.mem_map_of_mem (f := Watch.ctx) hmem
  rw [harmed'] at hctx
  simp at hctx

/-! ## The requests of a removal -/

/-- The kind of the watches a request takes away when the paths `rest` are left: all watches of
the last path of a sub-path subscription, else those of the data. -/
def kindBefore (type : WatchType) (rest : List Path) : WatcherType :=
  if type = .watchSubPath ∧ rest = [] then .any else .data

/-- The requests for the paths that are left. -/
def removals (type : WatchType) : List Path → List (WatcherType × Path)
  | [] => []
  | q :: rest => (kindBefore type rest, q) :: removals type rest

/-- The paths a removal goes through while the tree is `t`. -/
def paths (t : Tree) (p : Path) : WatchType → List Path
  | .watchPath => [p]
  | .watchSubPath =>
      if (t.get p).isSome then (t.children p).map (subPath p) ++ [p] else []

/-- The watches that requests leave. -/
def leave (taken : List (WatcherType × Path)) (armed : List Watch) : List Watch :=
  armed.filter fun a => ∀ k ∈ taken, ¬ (a.table ∈ k.1.tables ∧ a.path = k.2)

/-- The object whose completion goes on with the paths that are left. -/
def chainObj (cb : OperateCallback) (subs : List Path) : Userdata :=
  match cb.type with
  | .watchPath => .operate cb
  | .watchSubPath => .removeChain cb subs

/-- The object of the listing a removal begins with. -/
def listObj (cb : OperateCallback) (p : Path) : Userdata :=
  .getChildren { cb := .removeWatches cb p, path := p, advanced := false }

/-- How far the removal is that began in `w`. -/
inductive Stage (w : World) (p : Path) (cb : OperateCallback) (w' : World) : Prop
  | listing (x : Ptr) (type : cb.type = .watchSubPath)
      (heap : w'.client.heap x = some (listObj cb p))
      (sent : w'.client.sent =
        [{ op := .getChildrenOp, path := p, watch := false, ctx := x }])
      (inbox : w'.inbox = []) (armed : w'.armed = w.armed)
      (calls : w'.client.calls = w.client.calls)
  | listed (rep : Reply) (type : cb.type = .watchSubPath)
      (heap : w'.client.heap rep.req.ctx = some (listObj cb p))
      (sent : w'.client.sent = []) (inbox : w'.inbox = [.reply rep])
      (rc : rep.rc = if (w.tree.get p).isSome then .zok else .znonode)
      (strings : (w.tree.get p).isSome → rep.strings = w.tree.children p)
      (armed : w'.armed = w.armed) (calls : w'.client.calls = w.client.calls)
  | asked (x : Ptr) (q : Path) (rest : List Path) (taken : List (WatcherType × Path))
      (heap : w'.client.heap x = some (chainObj cb (q :: rest)))
      (one : cb.type = .watchPath → rest = [])
      (sent : w'.client.sent =
        [{ op := .removeWatchesOp (kindBefore cb.type rest), path := q, watch := false, ctx := x }])
      (inbox : w'.inbox = [])
      (split : taken ++ removals cb.type (q :: rest) = removals cb.type (paths w.tree p cb.type))
      (armed : w'.armed = leave taken w.armed) (calls : w'.client.calls = w.client.calls)
  | answered (rep : Reply) (q : Path) (rest : List Path) (taken : List (WatcherType × Path))
      (heap : w'.client.heap rep.req.ctx = some (chainObj cb (q :: rest)))
      (one : cb.type = .watchPath → rest = [])
      (sent : w'.client.sent = []) (inbox : w'.inbox = [.reply rep])
      (split : taken ++ removals cb.type rest = removals cb.type (paths w.tree p cb.type))
      (armed : w'.armed = leave taken w.armed) (calls : w'.client.calls = w.client.calls)
  | finished (sent : w'.client.sent = []) (inbox : w'.inbox = [])
      (calls : w'.client.calls = w.client.calls ∨
        w'.armed = leave (removals cb.type (paths w.tree p cb.type)) w.armed)

variable {w w' w'' : World} {p q : Path} {cb : OperateCallback} {a : Action}


/-! ## Going on with the removal -/

lemma leave_append (taken taken' : List (WatcherType × Path)) (armed : List Watch) :
    leave (taken ++ taken') armed = leave taken' (leave taken armed) := by
  rw [leave, leave, leave, List.filter_filter]
  refine List.filter_congr fun a _ => ?_
  simp only [List.mem_append, or_imp, forall_and, Bool.decide_and]
  rw [Bool.and_comm]

/-- The server's answer takes the watches away that the request is for. -/
lemma activate_removeWatches (t : Tree) (armed : List Watch) {r : Request} {type : WatcherType}
    (hr : r.op = .removeWatchesOp type) :
    activate armed (answer t armed r) = leave [(type, r.path)] armed := by
  rw [activate_answer_removeWatchesOp t armed hr, leave]
  simp only [List.mem_singleton, forall_eq]

lemma calls_runOperate (c : Client) (cb : OperateCallback) (rc : ZooError) :
    (c.runOperate cb rc).calls = c.calls ++ [.done cb.cb rc] := by
  rw [Client.runOperate]
  cases cb.type <;> rfl

lemma sent_runOperate (c : Client) (cb : OperateCallback) (rc : ZooError) :
    (c.runOperate cb rc).sent = c.sent := by
  rw [Client.runOperate]
  cases cb.type <;> rfl

/-- The last answer ends the removal. -/
lemma onReply_last {c : Client} {rep : Reply}
    (h : c.heap rep.req.ctx = some (chainObj cb [q])) :
    c.onReply rep = (c.runOperate cb rep.rc).free rep.req.ctx := by
  rw [Client.onReply, h, chainObj]
  cases cb.type <;> rfl

/-- An answer before the last makes the client ask for the next path. -/
lemma onReply_next {c : Client} {rep : Reply} {q' : Path} {rest : List Path}
    (htype : cb.type = .watchSubPath)
    (h : c.heap rep.req.ctx = some (chainObj cb (q :: q' :: rest))) :
    c.onReply rep = (c.store rep.req.ctx (chainObj cb (q' :: rest))).send
      { op := .removeWatchesOp (kindBefore cb.type rest), path := q', watch := false,
        ctx := rep.req.ctx } := by
  rw [chainObj, htype] at h
  rw [Client.onReply, h, chainObj, htype]
  cases rest <;> simp [kindBefore, Client.removeChainCompletion, Client.zooAremoveAllWatches]

lemma send_free (c : Client) (r : Request) (x : Ptr) : (c.free x).send r = (c.send r).free x := by
  rw [Client.send, Client.send]
  split_ifs <;> rfl

/-- After the listing the client asks for the first path. -/
lemma runChildren_removeWatches (c : Client) {subPaths : List Str} {rest : List Path}
    (htype : cb.type = .watchSubPath) (hsubs : subPaths.map (subPath p) ++ [p] = q :: rest) :
    c.runChildren (.removeWatches cb p) .zok subPaths = (c.alloc (chainObj cb (q :: rest))).send
      { op := .removeWatchesOp (kindBefore cb.type rest), path := q, watch := false,
        ctx := c.next } := by
  rw [Client.runChildren, if_neg (by simp)]
  dsimp only
  rw [hsubs, chainObj, htype]
  cases rest <;> simp [kindBefore, Client.zooAremoveAllWatches]

/-- The request for the next path is sent, or refused because the path is not valid. -/
lemma stage_send (w' : World) (rest : List Path) (taken : List (WatcherType × Path))
    {c : Client} {r : Request} (hinbox : w'.inbox = [])
    (hsent : c.sent = []) (hcalls : c.calls = w.client.calls)
    (hr : r = { op := .removeWatchesOp (kindBefore cb.type rest), path := q, watch := false,
                ctx := r.ctx })
    (hheap : c.heap r.ctx = some (chainObj cb (q :: rest)))
    (hone : cb.type = .watchPath → rest = [])
    (hsplit : taken ++ removals cb.type (q :: rest) = removals cb.type (paths w.tree p cb.type))
    (harmed : w'.armed = leave taken w.armed) :
    Stage w p cb { w' with client := c.send r } := by
  by_cases hv : isValidPath r.path false = true
  · refine .asked r.ctx q rest taken ?_ hone ?_ hinbox hsplit harmed ?_
    · rw [Client.heap_send, hheap]
    · rw [Client.sent_send_of_valid c hv, hsent, List.nil_append, ← hr]
    · rw [Client.calls_send, hcalls]
  · refine .finished ?_ hinbox (Or.inl ?_)
    · rw [Client.send, if_neg hv, hsent]
    · rw [Client.calls_send, hcalls]

/-- The server answers the request of the removal. -/
lemma Stage.serve (h : Stage w p cb w') (htree : w'.tree = w.tree) (hs : w'.serve = some w'') :
    Stage w p cb w'' := by
  obtain ⟨r, rs, hsent', rfl⟩ := World.serve_cases hs
  cases h with
  | listing x type heap sent inbox armed calls =>
      obtain ⟨rfl, rfl⟩ := List.cons.inj (hsent'.symm.trans sent)
      have hact : activate w'.armed (answer w'.tree w'.armed
          { op := .getChildrenOp, path := p, watch := false, ctx := x }) = w'.armed := by
        rw [activate_answer _ _ (by simp), Reply.table?, answer_req]
        exact List.append_nil _
      refine .listed _ type ?_ rfl (by rw [inbox]; rfl) ?_ ?_ (hact.trans armed) calls
      · rw [answer_req]
        exact heap
      · rw [answer_getChildrenOp rfl, htree]
        split_ifs <;> rfl
      · intro hsome
        rw [answer_getChildrenOp rfl, htree, if_pos hsome]
  | asked x q rest taken heap one sent inbox split armed calls =>
      obtain ⟨rfl, rfl⟩ := List.cons.inj (hsent'.symm.trans sent)
      refine .answered _ q rest (taken ++ [(kindBefore cb.type rest, q)]) ?_ one rfl
        (by rw [inbox]; rfl) ?_ ?_ calls
      · rw [answer_req]
        exact heap
      · rw [List.append_assoc, ← split]
        rfl
      · rw [leave_append, ← armed]
        exact activate_removeWatches _ _ rfl
  | listed rep _ _ sent | answered rep _ _ _ _ _ sent | finished sent =>
      rw [sent] at hsent'
      simp at hsent'

/-- The client reads the listing, or the answer to the last request. -/
lemma Stage.deliver (h : Stage w p cb w') (hwf : w'.Wf) (hs : w'.deliver = some w'') :
    Stage w p cb w'' := by
  obtain ⟨m, ms, hin, rfl⟩ := World.deliver_cases hs
  cases h with
  | listed rep type heap sent inbox rc strings armed calls =>
      obtain ⟨rfl, rfl⟩ := List.cons.inj (hin.symm.trans inbox)
      have hreply : w'.client.onReply rep =
          (w'.client.runChildren (.removeWatches cb p) rep.rc rep.strings).free rep.req.ctx := by
        rw [Client.onReply, heap]
        rfl
      have hne : w'.client.next ≠ rep.req.ctx :=
        (hwf.lt_next (World.tokens_ne_nil_of_reply (hin ▸ List.mem_cons_self))).ne'
      rw [Client.process, hreply]
      by_cases hsome : (w.tree.get p).isSome
      · have hpaths : paths w.tree p cb.type = rep.strings.map (subPath p) ++ [p] := by
          rw [type, paths, if_pos hsome, strings hsome]
        obtain ⟨q, rest, hsubs⟩ : ∃ q rest, rep.strings.map (subPath p) ++ [p] = q :: rest :=
          List.exists_cons_of_ne_nil (by simp)
        have hrun := runChildren_removeWatches w'.client type hsubs
        rw [rc, if_pos hsome, hrun, ← send_free]
        refine stage_send { w' with inbox := [] } rest [] rfl ?_ ?_ rfl ?_
          (by simp [type]) (by rw [hpaths, hsubs, List.nil_append]) ?_
        · rw [Client.sent_free, Client.sent_alloc, sent]
        · rw [Client.calls_free, Client.calls_alloc, calls]
        · rw [Client.heap_free, Function.update_of_ne hne, Client.heap_alloc,
            Function.update_self]
        · rw [armed]
          simp [leave]
      · rw [Client.runChildren]
        -- there is no node, and the removal ends with the error
        rw [rc, if_neg hsome, if_pos (by simp)]
        refine .finished ?_ rfl (Or.inr ?_)
        · rw [Client.sent_free, sent_runOperate, sent]
        · rw [type, paths, if_neg hsome, armed]
          simp [leave, removals]
  | answered rep q rest taken heap one sent inbox split armed calls =>
      obtain ⟨rfl, rfl⟩ := List.cons.inj (hin.symm.trans inbox)
      cases rest with
      | nil =>
          rw [Client.process, onReply_last heap]
          refine .finished ?_ rfl (Or.inr ?_)
          · rw [Client.sent_free, sent_runOperate, sent]
          · rw [armed, ← split, removals, List.append_nil]
      | cons q' rest =>
          have htype : cb.type = .watchSubPath := by
            cases htype : cb.type with
            | watchPath => exact absurd (one htype) (by simp)
            | watchSubPath => rfl
          rw [Client.process, onReply_next htype heap]
          refine stage_send { w' with inbox := [] } rest taken rfl ?_ ?_ rfl ?_ (by simp [htype])
            split armed
          · rw [Client.sent_store, sent]
          · rw [Client.calls_store, calls]
          · rw [Client.heap_store, Function.update_self]
  | listing _ _ _ _ inbox | asked _ _ _ _ _ _ _ inbox | finished _ inbox =>
      rw [inbox] at hin
      simp at hin

/-- The call makes the first request. -/
lemma stage_start (hw : w.Quiescent) (p : Path) (type : WatchType) (cb : Cb) :
    Stage w p { type := type, p := p, cb := cb }
      { w with client := w.client.asyncRemoveWatches p type cb } := by
  rw [Client.asyncRemoveWatches]
  cases type with
  | watchPath =>
      refine stage_send (q := p) w [] [] hw.2 hw.1 rfl rfl ?_
        (fun _ => rfl) rfl ?_
      · rw [Client.heap_alloc, Function.update_self]
        rfl
      · simp [leave]
  | watchSubPath =>
      rw [Client.asyncRemoveWatchesCppzk, Client.asyncGetSubPath, if_neg (by simp),
        Client.zooAwgetChildren2]
      by_cases hv : isValidPath p false = true
      · refine .listing w.client.next rfl ?_ ?_ hw.2 rfl ?_
        · rw [Client.heap_send, Client.heap_alloc, Function.update_self]
          rfl
        · rw [Client.sent_send_of_valid _ hv, Client.sent_alloc, hw.1, List.nil_append]
        · rw [Client.calls_send, Client.calls_alloc]
      · refine .finished ?_ hw.2 (Or.inl ?_)
        · rw [Client.send, if_neg hv, Client.sent_alloc, hw.1]
        · rw [Client.calls_send, Client.calls_alloc]

/-- A removal under way. -/
structure Underway (w : World) (p : Path) (cb : OperateCallback) (w' : World) : Prop where
  wf : w'.Wf
  tree : w'.tree = w.tree
  stage : Stage w p cb w'

lemma Underway.step (h : Underway w p cb w') (ha : a.Internal) (hs : w'.step a = some w'') :
    Underway w p cb w'' := by
  refine ⟨h.wf.step hs, ?_, ?_⟩
  · rcases ha with rfl | rfl
    · obtain ⟨r, rs, -, rfl⟩ := World.serve_cases hs
      exact h.tree
    · obtain ⟨m, ms, -, rfl⟩ := World.deliver_cases hs
      exact h.tree
  · rcases ha with rfl | rfl
    · exact h.stage.serve h.tree hs
    · exact h.stage.deliver h.wf hs

/-- What is armed when a removal has completed. -/
lemma Completes.armed {type : WatchType} {cb : Cb} (hwf : w.Wf) (hw : w.Quiescent)
    (h : Completes w p type cb w') :
    w'.armed = leave (removals type (paths w.tree p type)) w.armed := by
  have hunder := h.run.invariant (I := Underway w p { type := type, p := p, cb := cb })
    ⟨hwf.step (a := .asyncRemoveWatches p type cb) rfl, rfl, stage_start hw p type cb⟩
    fun t a u ht ha hs => ht.step ha hs
  obtain ⟨rc, hdone⟩ := h.done
  have hne : w'.client.calls ≠ w.client.calls := by
    rw [hdone]
    simp
  cases hunder.stage with
  | finished _ _ calls => exact calls.resolve_left hne
  | listing _ _ _ _ _ _ calls | listed _ _ _ _ _ _ _ _ calls | asked _ _ _ _ _ _ _ _ _ _ calls
  | answered _ _ _ _ _ _ _ _ _ _ calls => exact absurd calls hne

/-! ## Which watches are gone -/

/-- A removal takes the watch away: it is one on the path itself, or, for a sub-path
subscription to a node that is there, one on the path or one for the data of a child. -/
def Touches (t : Tree) (p : Path) (type : WatchType) (a : Watch) : Prop :=
  match type with
  | .watchPath => a.path = p ∧ a.table ≠ .child
  | .watchSubPath => (t.get p).isSome ∧
      (a.path = p ∨ a.table ≠ .child ∧ ∃ s ∈ t.children p, a.path = subPath p s)

lemma mem_removals {l : List Path} {k : WatcherType × Path} :
    k ∈ removals .watchSubPath (l ++ [p]) ↔ k = (.any, p) ∨ ∃ q ∈ l, k = (.data, q) := by
  induction l with
  | nil => simp [removals, kindBefore]
  | cons q l ih =>
      rw [List.cons_append, removals, List.mem_cons, ih, kindBefore, if_neg (by simp)]
      constructor
      · rintro (rfl | rfl | ⟨q', hq', rfl⟩)
        · exact Or.inr ⟨q, List.mem_cons_self, rfl⟩
        · exact Or.inl rfl
        · exact Or.inr ⟨q', List.mem_cons_of_mem _ hq', rfl⟩
      · rintro (rfl | ⟨q', hq', rfl⟩)
        · exact Or.inr (Or.inl rfl)
        · rcases List.mem_cons.mp hq' with rfl | hq'
          · exact Or.inl rfl
          · exact Or.inr (Or.inr ⟨q', hq', rfl⟩)

lemma mem_tables_data {tb : Table} : tb ∈ WatcherType.data.tables ↔ tb ≠ .child := by
  cases tb <;> simp [WatcherType.tables]

lemma mem_tables_any (tb : Table) : tb ∈ WatcherType.any.tables := by
  cases tb <;> simp [WatcherType.tables]

lemma mem_leave_removals {t : Tree} {type : WatchType} {armed : List Watch} {x : Watch} :
    x ∈ leave (removals type (paths t p type)) armed ↔ x ∈ armed ∧ ¬ Touches t p type x := by
  rw [leave, List.mem_filter, decide_eq_true_eq]
  refine and_congr_right fun _ => ?_
  cases type with
  | watchPath =>
      rw [paths, Touches, removals, removals]
      simp only [List.mem_singleton, forall_eq, kindBefore]
      rw [if_neg (by simp), mem_tables_data, and_comm]
  | watchSubPath =>
      rw [paths, Touches]
      split_ifs with hsome
      · constructor
        · rintro hno ⟨-, hpath | ⟨htb, s, hs, hpath⟩⟩
          · exact hno _ (mem_removals.mpr (Or.inl rfl)) ⟨mem_tables_any _, hpath⟩
          · exact hno _ (mem_removals.mpr (Or.inr ⟨_, List.mem_map_of_mem hs, rfl⟩))
              ⟨mem_tables_data.mpr htb, hpath⟩
        · rintro hno k hk ⟨htb, hpath⟩
          rcases mem_removals.mp hk with rfl | ⟨q, hq, rfl⟩
          · exact hno ⟨hsome, Or.inl hpath⟩
          · obtain ⟨s, hs, rfl⟩ := List.mem_map.mp hq
            exact hno ⟨hsome, Or.inr ⟨mem_tables_data.mp htb, s, hs, hpath⟩⟩
      · simp [removals, hsome]

/-- A removal disarms no watch of another subscription if and only if it touches none of them. -/
theorem framed_iff_not_touches {t : Tree} {type : WatchType} {cb : Cb}
    (hr : Reach World.step (fun _ _ => True) (World.start t) w) (hw : w.Quiescent)
    (h : Completes w p type cb w') :
    (∀ a ∈ w.armed, w.client.owner a.ctx ≠ some (type, p) → a ∈ w'.armed) ↔
      ∀ a ∈ w.armed, w.client.owner a.ctx ≠ some (type, p) → ¬ Touches w.tree p type a := by
  have hwf := World.wf_of_reach hr
  rw [h.armed hwf hw]
  refine forall₂_congr fun a ha => imp_congr_right fun _ => ?_
  rw [mem_leave_removals]
  exact and_iff_right ha

/-- Two paths are watched, and the watch of one is removed. -/
theorem framed_iff_not_touches_two : ∃ w w' : World, Completes w ['/', 'p'] .watchPath 2 w' ∧
    w.armed = [⟨.node, ['/', 'p'], 0⟩, ⟨.exist, ['/', 'q'], 1⟩] ∧
    ∀ a ∈ w.armed, w.client.owner a.ctx ≠ some (.watchPath, ['/', 'p']) → a ∈ w'.armed := by
  obtain ⟨w, hr, hw⟩ := exists_reach_of_exec World.step (fun _ _ => True) (World.start bareP)
    [.watchPath ['/', 'p'] 0, .watchPath ['/', 'q'] 1, .serve, .serve, .deliver, .deliver,
      .serve, .deliver, .serve, .deliver]
    (fun w => (decide w.Quiescent, w.armed, w.client.owner 0,
      (exec World.step (fun _ a => a.Internal)
        { w with client := w.client.asyncRemoveWatches ['/', 'p'] .watchPath 2 }
        [.serve, .deliver]).map fun w' : World =>
          (decide w'.Quiescent, decide (w'.client.calls = w.client.calls ++ [.done 2 .zok]))))
    (true, [⟨.node, ['/', 'p'], 0⟩, ⟨.exist, ['/', 'q'], 1⟩],
      some (.watchPath, ['/', 'p']), some (true, true)) rfl
  simp only [Prod.mk.injEq, decide_eq_true_eq] at hw
  obtain ⟨hq, harmed, howner, hrun⟩ := hw
  obtain ⟨w', hw', hrun⟩ := Option.map_eq_some_iff.mp hrun
  simp only [Prod.mk.injEq, decide_eq_true_eq] at hrun
  have hcompletes : Completes w ['/', 'p'] .watchPath 2 w' :=
    ⟨reach_of_exec hw', hrun.1, _, hrun.2⟩
  refine ⟨w, w', hcompletes, harmed, (framed_iff_not_touches hr hq hcompletes).mpr ?_⟩
  rw [harmed]
  intro a ha hother htouch
  rcases List.mem_cons.mp ha with rfl | ha
  · exact hother howner
  · rw [List.mem_singleton.mp ha] at htouch
    exact absurd htouch.1 (by decide)

end Removal

end ConfigMonitor
