/-
# What a notification makes the client do

Each watcher of a notification sends one more request for its object, or makes a call, or
neither, depending on the type of the object and on the event; `followUp` and `delCall` say
which.  The requests are sent in the order in which the watchers are run.
-/
import ConfigMonitor.Monitor.NoRemoval

namespace ConfigMonitor

/-- The request the watcher of an object sends on an event at `q`. -/
def Userdata.followUp (eve : ZkEvent) (q : Path) (x : Ptr) : Userdata → Option Request
  | .existsData _ => some { op := .existsOp, path := q, watch := true, ctx := x }
  | .wget _ =>
      if eve = .deleted then none
      else some { op := .getDataOp, path := q, watch := true, ctx := x }
  | .getChildren _ =>
      if eve = .deleted then none
      else some { op := .getChildrenOp, path := q, watch := true, ctx := x }
  | _ => none

/-- The call the watcher of an object makes on an event at `q`. -/
def Userdata.delCall (eve : ZkEvent) (q : Path) : Userdata → Option Call
  | .wget { cb := .monitor cb _, path := _, advanced := _, eve := _ } =>
      if eve = .deleted then some (.watchSub cb .del q none) else none
  | _ => none

lemma Userdata.path_followUp {eve : ZkEvent} {q : Path} {x : Ptr} {d : Userdata} {r : Request}
    (h : d.followUp eve q x = some r) : r.path = q := by
  cases d with
  | existsData d => rw [← Option.some.inj h]
  | wget d | getChildren d =>
      rw [Userdata.followUp] at h
      split_ifs at h
      rw [← Option.some.inj h]
  | operate cb => cases h
  | removeChain cb subs => cases h

/-- A watcher sends a request or makes a call, not both. -/
lemma Userdata.length_followUp_add_delCall (eve : ZkEvent) (q : Path) (x : Ptr) (d : Userdata) :
    (d.followUp eve q x).toList.length + (d.delCall eve q).toList.length ≤ 1 := by
  cases d with
  | existsData d => simp [Userdata.followUp, Userdata.delCall]
  | wget d =>
      by_cases hdel : eve = .deleted
      · rw [Userdata.followUp, if_pos hdel]
        cases (Userdata.wget d).delCall eve q <;> simp
      · rcases d with ⟨_ | _, path, adv, e⟩ <;> simp [Userdata.followUp, Userdata.delCall, hdel]
  | getChildren d =>
      rw [Userdata.followUp]
      split_ifs <;> simp [Userdata.delCall]
  | operate cb => simp [Userdata.followUp, Userdata.delCall]
  | removeChain cb subs => simp [Userdata.followUp, Userdata.delCall]

namespace Client

variable {c : Client} {x : Ptr} {eve : ZkEvent} {q : Path}

/-- The requests the watchers of `ctxs` send. -/
def followUps (c : Client) (eve : ZkEvent) (q : Path) (ctxs : List Ptr) : List Request :=
  ctxs.filterMap fun x => (c.heap x).bind (·.followUp eve q x)

/-- The calls the watchers of `ctxs` make. -/
def delCalls (c : Client) (eve : ZkEvent) (q : Path) (ctxs : List Ptr) : List Call :=
  ctxs.filterMap fun x => (c.heap x).bind (·.delCall eve q)

lemma onEvent_spec {d : Userdata} (hd : c.heap x = some d) (hses : eve ≠ .session)
    (hv : isValidPath q false = true) :
    (c.onEvent eve q x).sent = c.sent ++ (d.followUp eve q x).toList ∧
      (c.onEvent eve q x).calls = c.calls ++ (d.delCall eve q).toList ∧
      (c.onEvent eve q x).lastSubPath = c.lastSubPath := by
  rw [onEvent, hd]
  cases d with
  | existsData d =>
      dsimp only
      rw [existsWatcher, if_neg hses]
      exact ⟨sent_send_of_valid (c.store x _) hv, by simp [zooAwexists, Userdata.delCall],
        by simp [zooAwexists]⟩
  | wget d =>
      dsimp only
      rw [getWatcher, if_neg hses]
      split_ifs with hdel
      · rcases d with ⟨_ | _, path, adv, e⟩
        · simp [runGet, Userdata.followUp, Userdata.delCall, hdel]
        · simp [runGet, Userdata.followUp, Userdata.delCall, hdel]
      · refine ⟨?_, ?_, by simp [zooAwget]⟩
        · rw [Userdata.followUp, if_neg hdel]
          exact sent_send_of_valid (c.store x _) hv
        · rcases d with ⟨_ | _, path, adv, e⟩ <;>
            simp [zooAwget, Userdata.delCall, hdel]
  | getChildren d =>
      dsimp only
      rw [childrenWatcher, if_neg hses]
      split_ifs with hdel
      · simp [Userdata.followUp, Userdata.delCall, hdel]
      · refine ⟨?_, by simp [zooAwgetChildren2, Userdata.delCall], by simp [zooAwgetChildren2]⟩
        rw [Userdata.followUp, if_neg hdel]
        exact sent_send_of_valid c hv
  | operate cb => simp [Userdata.followUp, Userdata.delCall]
  | removeChain cb subs => simp [Userdata.followUp, Userdata.delCall]

/-- A notification: the objects of its watchers are pairwise distinct, so that each watcher
finds its object as it was when the notification arrived. -/
lemma onEvent_foldl_spec (ctxs : List Ptr) (hnd : ctxs.Nodup) (hlt : ∀ x ∈ ctxs, x < c.next)
    (h : ∀ x ∈ ctxs, ∃ tb ∈ eve.tables, c.Holds x (·.ForWatch tb q))
    (hv : isValidPath q false = true) :
    (ctxs.foldl (onEvent eve q) c).sent = c.sent ++ c.followUps eve q ctxs ∧
      (ctxs.foldl (onEvent eve q) c).calls = c.calls ++ c.delCalls eve q ctxs ∧
      (ctxs.foldl (onEvent eve q) c).lastSubPath = c.lastSubPath := by
  induction ctxs generalizing c with
  | nil => simp [followUps, delCalls]
  | cons x ctxs ih =>
      obtain ⟨hx, hnd'⟩ := List.nodup_cons.mp hnd
      obtain ⟨tb, htb, hholds⟩ := h x List.mem_cons_self
      have hses := ZkEvent.ne_session htb
      have heff := effect_onEvent htb (hlt x List.mem_cons_self) hholds
      obtain ⟨d, hd, -⟩ := hholds
      obtain ⟨hsent, hcalls, hlast⟩ := onEvent_spec (q := q) hd hses hv
      have hold : ∀ y ∈ ctxs, (c.onEvent eve q x).heap y = c.heap y := fun y hy =>
        heff.heap_eq y (fun hyx => hx (List.mem_singleton.mp hyx ▸ hy))
          (hlt y (List.mem_cons_of_mem _ hy))
      obtain ⟨hsent', hcalls', hlast'⟩ := ih (c := c.onEvent eve q x) hnd'
        (fun y hy => lt_of_lt_of_le (hlt y (List.mem_cons_of_mem _ hy)) heff.next_le)
        (fun y hy => by
          obtain ⟨tb', htb', d', hd', hfor⟩ := h y (List.mem_cons_of_mem _ hy)
          exact ⟨tb', htb', d', (hold y hy).trans hd', hfor⟩)
      have hreq : (c.onEvent eve q x).followUps eve q ctxs = c.followUps eve q ctxs :=
        List.filterMap_congr fun y hy => by rw [hold y hy]
      have hdel : (c.onEvent eve q x).delCalls eve q ctxs = c.delCalls eve q ctxs :=
        List.filterMap_congr fun y hy => by rw [hold y hy]
      refine ⟨?_, ?_, hlast'.trans hlast⟩
      · rw [List.foldl_cons, hsent', hsent, hreq, followUps, followUps, List.filterMap_cons, hd,
          Option.bind_some]
        cases d.followUp eve q x <;> simp
      · rw [List.foldl_cons, hcalls', hcalls, hdel, delCalls, delCalls, List.filterMap_cons, hd,
          Option.bind_some]
        cases d.delCall eve q <;> simp

/-- The object of a wget watcher after the notification. -/
lemma heap_onEvent_foldl_wget (ctxs : List Ptr) (hnd : ctxs.Nodup)
    (hlt : ∀ x ∈ ctxs, x < c.next)
    (h : ∀ x ∈ ctxs, ∃ tb ∈ eve.tables, c.Holds x (·.ForWatch tb q)) {y : Ptr} (hy : y ∈ ctxs)
    (hdel : eve ≠ .deleted) {d : WgetUserdata} (hd : c.heap y = some (.wget d)) :
    (ctxs.foldl (onEvent eve q) c).heap y = some (.wget { d with path := q, eve := eve }) := by
  induction ctxs generalizing c with
  | nil => simp at hy
  | cons x ctxs ih =>
      obtain ⟨hx, hnd'⟩ := List.nodup_cons.mp hnd
      obtain ⟨tb, htb, hholds⟩ := h x List.mem_cons_self
      have heff := effect_onEvent htb (hlt x List.mem_cons_self) hholds
      have hold : ∀ y ∈ ctxs, (c.onEvent eve q x).heap y = c.heap y := fun y hy =>
        heff.heap_eq y (fun hyx => hx (List.mem_singleton.mp hyx ▸ hy))
          (hlt y (List.mem_cons_of_mem _ hy))
      have hlt' : ∀ y ∈ ctxs, y < (c.onEvent eve q x).next := fun y hy =>
        lt_of_lt_of_le (hlt y (List.mem_cons_of_mem _ hy)) heff.next_le
      have h' : ∀ y ∈ ctxs, ∃ tb ∈ eve.tables,
          (c.onEvent eve q x).Holds y (·.ForWatch tb q) := by
        intro y hy
        obtain ⟨tb', htb', d', hd', hfor⟩ := h y (List.mem_cons_of_mem _ hy)
        exact ⟨tb', htb', d', (hold y hy).trans hd', hfor⟩
      rcases List.mem_cons.mp hy with rfl | hy
      · have hses := ZkEvent.ne_session htb
        rw [List.foldl_cons, (effect_onEvent_foldl eve q ctxs hnd' hlt' h').heap_eq y hx
          (lt_of_lt_of_le (hlt y List.mem_cons_self) heff.next_le), onEvent, hd]
        dsimp only
        rw [getWatcher, if_neg hses, if_neg hdel, zooAwget, heap_send, heap_store,
          Function.update_self]
      · exact ih hnd' hlt' h' hy ((hold y hy).trans hd)

end Client

end ConfigMonitor
