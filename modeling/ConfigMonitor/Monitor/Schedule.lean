/-
# The order of the session's own steps does not matter

Handling a message only appends requests, and handling a request only appends a message, so that
the server and the client can be run in either order.  When nothing comes from outside, the
session comes to rest, and the state it comes to rest in, the calls of the user's callbacks
included, does not depend on when the server and the client are run.
-/
import ConfigMonitor.Monitor.Work

namespace ConfigMonitor

open Run

namespace Client

/-- The client with some older requests in flight. -/
def push (rs : List Request) (c : Client) : Client := { c with sent := rs ++ c.sent }

section Push

variable (rs : List Request) (c : Client) (x : Ptr) (d : Userdata)

@[simp] lemma heap_push : (c.push rs).heap = c.heap := rfl
@[simp] lemma next_push : (c.push rs).next = c.next := rfl
@[simp] lemma lastSubPath_push : (c.push rs).lastSubPath = c.lastSubPath := rfl

@[simp] lemma send_push (r : Request) : (c.push rs).send r = (c.send r).push rs := by
  rw [send, send]
  split_ifs
  · simp [push]
  · rfl

@[simp] lemma alloc_push : (c.push rs).alloc d = (c.alloc d).push rs := rfl
@[simp] lemma store_push : (c.push rs).store x d = (c.store x d).push rs := rfl
@[simp] lemma free_push : (c.push rs).free x = (c.free x).push rs := rfl
@[simp] lemma emplace_push : (c.push rs).emplace x = (c.emplace x).push rs := rfl
@[simp] lemma call_push (k : Call) : (c.push rs).call k = (c.call k).push rs := rfl

@[simp] lemma release_push : (c.push rs).release x = (c.release x).push rs := by
  rw [release, release]
  split_ifs with h h' h'
  · rfl
  · exact absurd h h'
  · exact absurd h' h
  · rfl

@[simp] lemma asyncGetPathValue_push (adv : Bool) (path : Path) (cb : GetCallback) :
    asyncGetPathValue adv (c.push rs) path cb = (asyncGetPathValue adv c path cb).push rs := by
  cases adv <;> simp [asyncGetPathValue, zooAwget]

@[simp] lemma asyncGetSubPath_push (adv : Bool) (path : Path) (cb : ChildrenCallback) :
    asyncGetSubPath adv (c.push rs) path cb = (asyncGetSubPath adv c path cb).push rs := by
  cases adv <;> simp [asyncGetSubPath, zooAwgetChildren2]

lemma runExists_push (cb : ExistsCallback) (rc : ZooError) (eve : ZkEvent) :
    (c.push rs).runExists cb rc eve = (c.runExists cb rc eve).push rs := by
  cases cb <;> simp only [runExists] <;> split_ifs <;> simp

lemma runGet_push (cb : GetCallback) (rc : ZooError) (eve : ZkEvent) (path : Path) (val : Data) :
    (c.push rs).runGet cb rc eve path val = (c.runGet cb rc eve path val).push rs := by
  cases cb <;> simp only [runGet] <;> split_ifs <;> simp

lemma runOperate_push (cb : OperateCallback) (rc : ZooError) :
    (c.push rs).runOperate cb rc = (c.runOperate cb rc).push rs := by
  rw [runOperate, runOperate]
  cases cb.type <;> rfl

lemma monitor_foldl_push (cb : Cb) (pfx : Path) (subs : List Str) :
    subs.foldl (fun c sub => c.monitor cb pfx (subPath pfx sub)) (c.push rs) =
      (subs.foldl (fun c sub => c.monitor cb pfx (subPath pfx sub)) c).push rs := by
  induction subs generalizing c with
  | nil => rfl
  | cons sub subs ih =>
      rw [List.foldl_cons, List.foldl_cons, monitor, asyncGetPathValue_push]
      exact ih _

lemma runListing_push (cb : Cb) (pfx : Path) (subPaths : List Str) :
    (c.push rs).runListing cb pfx subPaths = (c.runListing cb pfx subPaths).push rs := by
  rw [runListing, runListing, lastSubPath_push, monitor_foldl_push]
  rfl

lemma runChildren_push (cb : ChildrenCallback) (rc : ZooError) (subPaths : List Str) :
    (c.push rs).runChildren cb rc subPaths = (c.runChildren cb rc subPaths).push rs := by
  cases cb with
  | watchSubPath cb pfx =>
      simp only [runChildren]
      split_ifs
      · rfl
      · exact runListing_push rs c cb pfx subPaths
  | removeWatches cb p =>
      simp only [runChildren]
      split_ifs
      · exact runOperate_push rs c cb rc
      · cases subPaths.map (subPath p) ++ [p] with
        | nil => rfl
        | cons q rest => cases rest <;> simp [zooAremoveAllWatches]

lemma onEvent_push (eve : ZkEvent) (q : Path) :
    onEvent eve q (c.push rs) x = (onEvent eve q c x).push rs := by
  rw [onEvent, onEvent, heap_push]
  split
  · rw [existsWatcher, existsWatcher]
    split_ifs <;> simp [zooAwexists]
  · rw [getWatcher, getWatcher]
    split_ifs <;> simp [zooAwget, runGet_push]
  · rw [childrenWatcher, childrenWatcher]
    split_ifs <;> simp [zooAwgetChildren2]
  · rfl

lemma onReply_push (rep : Reply) : (c.push rs).onReply rep = (c.onReply rep).push rs := by
  rw [onReply, onReply, heap_push]
  split
  · exact runExists_push rs c _ _ _
  · rw [getCompletion, getCompletion, runGet_push]
    split_ifs <;> rfl
  · rw [childrenCompletion, childrenCompletion, runChildren_push]
    split_ifs <;> rfl
  · rw [runOperate_push, free_push]
  · rw [removeChainCompletion, removeChainCompletion]
    split
    · rw [runOperate_push, free_push]
    · simp [zooAremoveAllWatches]
    · simp [zooAremoveAllWatches]
  · rfl

/-- What a message makes the client do does not depend on the requests in flight. -/
lemma process_push (m : Msg) : (c.push rs).process m = (c.process m).push rs := by
  cases m with
  | reply rep => exact onReply_push rs c rep
  | event eve q ctxs =>
      rw [process, process]
      induction ctxs generalizing c with
      | nil => rfl
      | cons x ctxs ih =>
          rw [List.foldl_cons, List.foldl_cons, onEvent_push]
          exact ih _

end Push

end Client

namespace World

variable {w w₁ w₂ : World}

/-- The server and the client can be run in either order. -/
lemma serve_deliver (hs : w.serve = some w₁) (hd : w.deliver = some w₂) :
    ∃ w', w₁.deliver = some w' ∧ w₂.serve = some w' := by
  obtain ⟨r, rs, hsent, rfl⟩ := serve_cases hs
  obtain ⟨m, ms, hin, rfl⟩ := deliver_cases hd
  -- the client as it is without its oldest request
  have hpush : w.client = ({ w.client with sent := rs } : Client).push [r] := by
    rw [Client.push, List.singleton_append, ← hsent]
  set c : Client := { w.client with sent := rs } with hc
  refine ⟨{ w with
    armed := activate w.armed (answer w.tree w.armed r)
    inbox := ms ++ [.reply (answer w.tree w.armed r)]
    client := c.process m }, ?_, ?_⟩
  · rw [World.deliver]
    dsimp only
    rw [hin]
    rfl
  · rw [World.serve]
    dsimp only
    rw [hpush, Client.process_push]
    rfl

lemma exchanges : Exchanges step Action.Internal fun _ => True := by
  rintro w a b w₁ w₂ - (rfl | rfl) (rfl | rfl) h₁ h₂
  · exact Or.inl (Option.some.inj (h₁.symm.trans h₂))
  · obtain ⟨w', hd, hs⟩ := serve_deliver h₁ h₂
    exact Or.inr ⟨w', hd, hs⟩
  · obtain ⟨w', hd, hs⟩ := serve_deliver h₂ h₁
    exact Or.inr ⟨w', hs, hd⟩
  · exact Or.inl (Option.some.inj (h₁.symm.trans h₂))

/-- Nothing is left to do for the session exactly when nothing is in flight. -/
lemma settled_iff : Settled step Action.Internal w ↔ w.Quiescent := by
  constructor
  · intro h
    constructor
    · cases hsent : w.client.sent with
      | nil => rfl
      | cons r rs =>
          have hnone := h .serve (Or.inl rfl)
          rw [step, World.serve, hsent] at hnone
          simp at hnone
    · cases hin : w.inbox with
      | nil => rfl
      | cons m ms =>
          have hnone := h .deliver (Or.inr rfl)
          rw [step, World.deliver, hin] at hnone
          simp at hnone
  · rintro ⟨hsent, hin⟩ a (rfl | rfl)
    · rw [step, World.serve, hsent]
    · rw [step, World.deliver, hin]

/-- Every step of the session leaves less work. -/
lemma lowers : Lowers step Action.Internal Wf work := by
  rintro w a w' hwf (rfl | rfl) hs
  · exact ⟨hwf.step hs, work_serve hs⟩
  · exact ⟨hwf.step hs, hwf.work_deliver hs⟩

variable {t : Tree}

/-- When nothing comes from outside the session comes to rest: from a state that meets the
invariant no run of it is longer than the work that is left, and some run ends with nothing in
flight. -/
theorem settles (hwf : w.Wf) :
    (∀ acts w', Runs step w acts w' → (∀ a ∈ acts, a.Internal) → acts.length ≤ w.work) ∧
      ∃ acts w', Runs step w acts w' ∧ (∀ a ∈ acts, a.Internal) ∧ w'.Quiescent := by
  constructor
  · intro acts w' h hown
    exact (Nat.le_add_right _ _).trans (lowers.runs hwf h hown).2
  · obtain ⟨acts, w', h, hown, hset⟩ := lowers.exists_settled hwf
    exact ⟨acts, w', h, hown, settled_iff.mp hset⟩

/-- `/p` and the children of `/q` are being watched. -/
def begun : List Action := [.watchPath ['/', 'p'] 0, .watchSubPath ['/', 'q'] 1, .serve]

lemma exists_begun : ∃ w, Reach step (fun _ _ => True) (start Tree.empty) w ∧
    (w.client.sent.length, w.inbox.length) = (1, 1) :=
  exists_reach_of_exec step (fun _ _ => True) (start Tree.empty) begun
    (fun w => (w.client.sent.length, w.inbox.length)) (1, 1) rfl

theorem settles_begun : ∃ w, w.client.sent.length = 1 ∧
    ∃ acts w', Runs step w acts w' ∧ (∀ a ∈ acts, a.Internal) ∧ w'.Quiescent := by
  obtain ⟨w, hr, hobs⟩ := exists_begun
  exact ⟨w, (Prod.mk.inj hobs).1, (settles (wf_of_reach hr)).2⟩

/-- From every state that meets the invariant the server and the client lead to one quiescent
state, in one number of steps, in whatever order they are run. -/
theorem schedule_independent (hwf : w.Wf) :
    ∃ w' n, w'.Quiescent ∧ ∀ acts v, Runs step w acts v → (∀ a ∈ acts, a.Internal) →
      (∃ acts', Runs step v acts' w' ∧ (∀ a ∈ acts', a.Internal) ∧ acts.length + acts'.length = n) ∧
        (v.Quiescent → v = w' ∧ acts.length = n) := by
  obtain ⟨acts₀, w', h₀, hown₀, hset⟩ := lowers.exists_settled hwf
  refine ⟨w', acts₀.length, settled_iff.mp hset, fun acts v h hown => ?_⟩
  obtain ⟨acts', h', hown', hlen⟩ :=
    exchanges.runs (fun _ _ _ _ _ _ => trivial) trivial h₀ hown₀ hset h hown
  refine ⟨⟨acts', h', hown', hlen⟩, fun hq => ?_⟩
  obtain rfl := (settled_iff.mpr hq).eq_nil h' hown'
  exact ⟨(h'.unique .nil).symm, by simpa using hlen⟩

theorem schedule_independent_begun : ∃ w, w.client.sent.length = 1 ∧ ∃ w' n, w'.Quiescent ∧
    ∀ acts v, Runs step w acts v → (∀ a ∈ acts, a.Internal) → v.Quiescent →
      v = w' ∧ acts.length = n := by
  obtain ⟨w, hr, hobs⟩ := exists_begun
  obtain ⟨w', n, hq, hall⟩ := schedule_independent (wf_of_reach hr)
  exact ⟨w, (Prod.mk.inj hobs).1, w', n, hq, fun acts v h hown => (hall acts v h hown).2⟩

end World

end ConfigMonitor
