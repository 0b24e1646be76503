/-
# Children that are gone

A deletion is reported by the notification of an armed data watch.  After a change the watch is
armed again by a second read of the child, and when the child has been deleted in between this
read is refused: the watch is gone and nobody is told.
-/
import ConfigMonitor.WatchSubPath.Session

namespace ConfigMonitor

open Queue

namespace WatchSubPath

/-- In every quiescent state each child that `cb` was told a value of, and that does not exist
any more, has been reported deleted. -/
def NoGhost : Prop :=
  ∀ (t : Tree) (p : Path) (cb : Cb) (w : World),
    Run.Reach World.step (fun _ a => a.Plain) (World.watchingSub t p cb) w → w.Quiescent →
      ∀ s v, changedAt cb (subPath p s) v ∈ w.client.calls → w.tree.get (subPath p s) = none →
        lastAbout (subPath p s) w.client.calls = some (delAt cb (subPath p s))

/-! ## A child deleted before it is read again -/

theorem not_noGhost : ¬ NoGhost := by
  intro h
  obtain ⟨w, hr, hw⟩ := Run.exists_reach_of_exec World.step (fun _ a => a.Plain)
    (World.watchingSub treePC ['/', 'p'] 0)
    [.serve, .deliver, .serve, .deliver, .serve, .deliver,
      .set ['/', 'p', '/', 'c'] (some ['b']), .delete ['/', 'p', '/', 'c'], .deliver, .deliver,
      .serve, .deliver, .serve, .deliver]
    (fun w => (w.client.sent, w.inbox, w.tree.get ['/', 'p', '/', 'c'], w.client.calls))
    ([], [], none, [changedAt 0 ['/', 'p', '/', 'c'] (some ['a'])]) rfl
  obtain ⟨hsent, hin, hget, hcalls⟩ : w.client.sent = [] ∧ w.inbox = [] ∧
      w.tree.get ['/', 'p', '/', 'c'] = none ∧
      w.client.calls = [changedAt 0 ['/', 'p', '/', 'c'] (some ['a'])] := by
    simpa only [Prod.mk.injEq] using hw
  have hdel := h treePC ['/', 'p'] 0 w hr ⟨hsent, hin⟩ ['c'] (some ['a'])
    (by rw [hcalls]; simp [subPath]) hget
  rw [hcalls] at hdel
  exact absurd hdel (by decide)

/-! ## The exact condition on a step -/

/-- The server does not refuse to read a child again (its watcher has stored an event) of which
the callback would be left with a value. -/
def Noticed (cb : Cb) (w : World) (a : Action) : Prop :=
  a = .serve → ∀ r ∈ w.client.sent.head?, r.op = .getDataOp → w.tree.get r.path = none →
    storedEve w.client r.ctx ≠ .dummy → ∀ k ∈ lastTold cb r.path w, k = delAt cb r.path

instance (cb : Cb) (w : World) (a : Action) : Decidable (Noticed cb w a) := by
  unfold Noticed; infer_instance

/-- The watch on `q` is armed, or will be armed again. -/
def Carried (w : World) (q : Path) : Prop :=
  (∃ a ∈ w.armed, a.table = .node ∧ a.path = q) ∨
    (∃ r ∈ w.client.sent, r.op = .getDataOp ∧ r.path = q ∧
      storedEve w.client r.ctx ≠ .dummy) ∨
    ∃ eve ctxs, Msg.event eve q ctxs ∈ w.inbox ∧ eve ≠ .deleted

variable {cb : Cb} {p q : Path} {w w' : World}

/-- A child whose value was told last is still watched. -/
structure GhostInv (cb : Cb) (p : Path) (w : World) : Prop where
  base : Base cb p w
  carried : ∀ s v, lastTold cb (subPath p s) w = some (changedAt cb (subPath p s) v) →
    Carried w (subPath p s)

lemma carried_fire {eve : ZkEvent} {q' : Path} {v : Data}
    (h : lastTold cb q w = some (changedAt cb q v) → Carried w q)
    (htold : lastTold cb q (w.fire eve q') = some (changedAt cb q v)) :
    Carried (w.fire eve q') q := by
  rcases World.fire_cases w eve q' with ⟨heq, -⟩ | ⟨-, heq⟩
  · rw [heq] at htold ⊢
    exact h htold
  · have happ : lastTold cb q (w.fire eve q') =
        (tells cb q (.event eve q' (collectWatchers eve q' w.armed))).or (lastTold cb q w) := by
      rw [heq]
      exact lastSome_append_singleton
    rw [happ, tells] at htold
    by_cases hdel : eve = .deleted ∧ q' = q
    · -- the deletion is what is told last
      rw [if_pos hdel, Option.some_or] at htold
      simp [delAt, changedAt] at htold
    · rw [if_neg hdel, Option.none_or] at htold
      rcases h htold with ⟨a, ha, htb, hq⟩ | hr | ⟨eve', ctxs, hm, hne⟩
      · by_cases hf : a.FiredBy eve q'
        · obtain rfl : q' = q := hf.2.symm.trans hq
          refine Or.inr (Or.inr ⟨eve, collectWatchers eve q' w.armed, ?_, fun hd => ?_⟩)
          · rw [heq]
            exact List.mem_append_right _ (List.mem_singleton.mpr rfl)
          · exact hdel ⟨hd, rfl⟩
        · exact Or.inl ⟨a, World.mem_armed_fire.mpr ⟨ha, hf⟩, htb, hq⟩
      · refine Or.inr (Or.inl ?_)
        rw [World.client_fire]
        exact hr
      · obtain ⟨evs, hevs, -⟩ := World.inbox_fire w eve q'
        exact Or.inr (Or.inr ⟨eve', ctxs, hevs ▸ List.mem_append_left _ hm, hne⟩)

lemma GhostInv.external (h : GhostInv cb p w) {a : Action} (ha : a.External)
    (hs : w.step a = some w') : GhostInv cb p w' := by
  refine ⟨h.base.step (Or.inl ha) hs, fun s v => ?_⟩
  have htree : ∀ t, lastTold cb (subPath p s) ({ w with tree := t } : World) =
      some (changedAt cb (subPath p s) v) → Carried ({ w with tree := t } : World) (subPath p s) :=
    fun t htold => h.carried s v htold
  cases a with
  | create q v =>
      obtain ⟨t, -, rfl⟩ := Option.map_eq_some_iff.mp hs
      exact carried_fire (carried_fire (htree t))
  | set q v =>
      obtain ⟨t, -, rfl⟩ := Option.map_eq_some_iff.mp hs
      exact carried_fire (htree t)
  | delete q =>
      obtain ⟨t, -, rfl⟩ := Option.map_eq_some_iff.mp hs
      exact carried_fire (carried_fire (htree t))
  | _ => exact absurd ha id

lemma GhostInv.serve (h : GhostInv cb p w) (hn : Noticed cb w .serve)
    (hs : w.serve = some w') : GhostInv cb p w' := by
  have hbase := h.base.step (Or.inr (Or.inl rfl)) hs
  obtain ⟨r, rs, hsent, rfl⟩ := World.serve_cases hs
  have hr := (h.base.wf.sent r (hsent ▸ List.mem_cons_self)).2
  have hop : ∀ type, r.op ≠ .removeWatchesOp type := by
    rcases h.base.solo.request hr with hreq | ⟨_, -, hreq⟩ | ⟨-, hreq⟩ <;> rw [hreq] <;> simp
  refine ⟨hbase, fun s v htold => ?_⟩
  have happ : lastTold cb (subPath p s) { w with
      armed := activate w.armed (answer w.tree w.armed r)
      inbox := w.inbox ++ [.reply (answer w.tree w.armed r)]
      client := { w.client with sent := rs } } =
      (tells cb (subPath p s) (.reply (answer w.tree w.armed r))).or
        (lastTold cb (subPath p s) w) := lastSome_append_singleton
  rw [happ, tells, answer_req] at htold
  by_cases hget : r.op = .getDataOp ∧ r.path = subPath p s
  · have hw : r.watch = true := by
      rcases h.base.solo.request hr with hreq | ⟨_, -, hreq⟩ | ⟨-, hreq⟩ <;> rw [hreq]
    cases hval : w.tree.get (subPath p s) with
    | some u =>
        -- the read has armed the watch
        have htb : (answer w.tree w.armed r).table? = some .node := by
          rw [Reply.table?, answer_req, if_pos hw, answer_getDataOp hget.1, hget.2, hval, hget.1]
          rfl
        exact Or.inl ⟨_, mem_activate htb w.armed, rfl, by rw [answer_req]; exact hget.2⟩
    | none =>
        rw [answer_getDataOp hget.1, hget.2, hval, if_neg (by simp), Option.none_or] at htold
        have hnot := hn rfl r (by rw [hsent]; rfl) hget.1 (hget.2 ▸ hval)
        rw [hget.2, htold] at hnot
        rcases h.carried s v htold with ⟨a, ha, htb, hq⟩ | ⟨r', hr', hop', hq, hne⟩ | hev
        · exact Or.inl ⟨a, subset_activate _ _ hop ha, htb, hq⟩
        · rw [hsent] at hr'
          rcases List.mem_cons.mp hr' with rfl | hr'
          · have := hnot hne _ rfl
            simp [changedAt, delAt] at this
          · exact Or.inr (Or.inl ⟨r', hr', hop', hq, hne⟩)
        · obtain ⟨eve, ctxs, hm, hne⟩ := hev
          exact Or.inr (Or.inr ⟨eve, ctxs, List.mem_append_left _ hm, hne⟩)
  · rw [if_neg fun hc => hget ⟨hc.1, hc.2.1⟩, Option.none_or] at htold
    rcases h.carried s v htold with ⟨a, ha, htb, hq⟩ | ⟨r', hr', hop', hq, hne⟩ | hev
    · exact Or.inl ⟨a, subset_activate _ _ hop ha, htb, hq⟩
    · rw [hsent] at hr'
      rcases List.mem_cons.mp hr' with rfl | hr'
      · exact absurd ⟨hop', hq⟩ hget
      · exact Or.inr (Or.inl ⟨r', hr', hop', hq, hne⟩)
    · obtain ⟨eve, ctxs, hm, hne⟩ := hev
      exact Or.inr (Or.inr ⟨eve, ctxs, List.mem_append_left _ hm, hne⟩)

lemma GhostInv.deliver (h : GhostInv cb p w) (hs : w.deliver = some w') : GhostInv cb p w' := by
  refine ⟨h.base.step (Or.inr (Or.inr rfl)) hs, fun s v htold => ?_⟩
  rw [h.base.lastTold_deliver hs s] at htold
  obtain ⟨m, ms, hin, rfl⟩ := World.deliver_cases hs
  have hm : m ∈ w.inbox := hin ▸ List.mem_cons_self
  -- a read in flight stays in flight, and its object is left alone
  have hsent := h.base.wf.sent_subset_process hin
  rcases h.carried s v htold with ⟨a, ha, htb, hq⟩ | ⟨r, hr, hop, hq, hne⟩ |
    ⟨eve, ctxs, hev, hne⟩
  · exact Or.inl ⟨a, ha, htb, hq⟩
  · refine Or.inr (Or.inl ⟨r, hsent hr, hop, hq, ?_⟩)
    have hheap := h.base.wf.heap_process hin
      (World.tokens_ne_nil_of_sent (w := { w with inbox := ms }) hr)
    rw [storedEve] at hne ⊢
    rwa [hheap]
  · rw [hin] at hev
    rcases List.mem_cons.mp hev with rfl | hev
    · -- the watcher of the child reads it again
      obtain ⟨x, hx⟩ := List.exists_mem_of_ne_nil _ (h.base.served.ctxs_ne _ _ _ hm)
      obtain ⟨hd, htb⟩ := h.base.event_child hm hx
      have hnd := h.base.wf.ctxs_nodup hin
      have hlt : ∀ y ∈ ctxs, y < w.client.next :=
        fun y hy => h.base.wf.lt_next (World.tokens_ne_nil_of_event hm hy)
      have hholds := h.base.wf.event _ _ _ hm
      refine Or.inr (Or.inl
        ⟨{ op := .getDataOp, path := subPath p s, watch := true, ctx := x }, ?_, rfl, rfl, ?_⟩)
      · refine h.base.mem_sent_of_followUp hin hx hd ?_
        rw [childObj, Userdata.followUp, if_neg hne]
      · rw [storedEve, Client.process,
          Client.heap_onEvent_foldl_wget ctxs hnd hlt hholds hx hne hd]
        rintro rfl
        simp [ZkEvent.tables] at htb
    · exact Or.inr (Or.inr ⟨eve, ctxs, hev, hne⟩)

lemma GhostInv.step (h : GhostInv cb p w) {a : Action} (ha : a.Plain) (hn : Noticed cb w a)
    (hs : w.step a = some w') : GhostInv cb p w' := by
  rcases ha with ha | rfl | rfl
  · exact h.external ha hs
  · exact h.serve hn hs
  · exact h.deliver hs

lemma ghostInv_watchingSub (t : Tree) (p : Path) (cb : Cb) :
    GhostInv cb p (World.watchingSub t p cb) := by
  refine ⟨base_watchingSub t p cb, fun s v htold => ?_⟩
  simp [lastTold, lastAbout, World.watchingSub, World.start, Client.watchSubPath,
    Client.init] at htold

/-- The calls about a child are its values and its deletions. -/
lemma Base.lastAbout_cases (h : Base cb p w) {s : Str} {k : Call}
    (hk : lastAbout (subPath p s) w.client.calls = some k) :
    k = delAt cb (subPath p s) ∨ ∃ v, k = changedAt cb (subPath p s) v := by
  have hmem := List.mem_of_getLast? hk
  rw [List.mem_filter] at hmem
  obtain ⟨s', hs'⟩ := h.solo.calls k hmem.1
  have hs : subPath p s' = subPath p s := by
    rcases hs' with rfl | ⟨v, rfl⟩ <;> exact of_decide_eq_true hmem.2
  rwa [hs] at hs'

/-- A run in which no second read that matters is refused leaves no ghost child. -/
theorem noGhost_of_noticed {t : Tree} {p : Path} {cb : Cb} {w : World}
    (hr : Run.Reach World.step (fun w a => a.Plain ∧ Noticed cb w a) (World.watchingSub t p cb) w)
    (hq : w.Quiescent) {s : Str} {v : Data}
    (hv : changedAt cb (subPath p s) v ∈ w.client.calls)
    (hget : w.tree.get (subPath p s) = none) :
    lastAbout (subPath p s) w.client.calls = some (delAt cb (subPath p s)) := by
  have hinv : GhostInv cb p w := hr.invariant (ghostInv_watchingSub t p cb)
    fun _ _ _ h hok hs => h.step hok.1 hok.2 hs
  have htold : lastTold cb (subPath p s) w = lastAbout (subPath p s) w.client.calls := by
    rw [lastTold, hq.2, lastSome_nil]
  cases hlast : lastAbout (subPath p s) w.client.calls with
  | none =>
      have hmem : changedAt cb (subPath p s) v ∈
          w.client.calls.filter fun k => About (subPath p s) k :=
        List.mem_filter.mpr ⟨hv, by simp [About, changedAt]⟩
      rw [List.getLast?_eq_none_iff.mp hlast] at hmem
      simp at hmem
  | some k =>
      rcases hinv.base.lastAbout_cases hlast with rfl | ⟨u, rfl⟩
      · rfl
      · rcases hinv.carried s u (htold.trans hlast) with ⟨a, ha, htb, hq'⟩ | ⟨r, hr, -⟩ |
          ⟨_, _, hm, -⟩
        · have := hinv.base.served.present a ha (by rw [htb]; simp)
          rw [hq', hget] at this
          simp at this
        · rw [hq.1] at hr; simp at hr
        · rw [hq.2] at hm; simp at hm

/-- A child is changed, read again and deleted. -/
theorem noGhost_of_noticed_treePC : ∃ w,
    Run.Reach World.step (fun w a => a.Plain ∧ Noticed 0 w a)
      (World.watchingSub treePC ['/', 'p'] 0) w ∧
    lastAbout ['/', 'p', '/', 'c'] w.client.calls = some (delAt 0 ['/', 'p', '/', 'c']) := by
  obtain ⟨w, hr, hw⟩ := Run.exists_reach_of_exec World.step
    (fun w a => a.Plain ∧ Noticed 0 w a) (World.watchingSub treePC ['/', 'p'] 0)
    [.serve, .deliver, .serve, .deliver, .serve, .deliver,
      .set ['/', 'p', '/', 'c'] (some ['b']), .deliver, .serve, .deliver,
      .delete ['/', 'p', '/', 'c'], .deliver, .deliver, .serve, .deliver]
    (fun w => (w.client.sent, w.inbox, w.tree.get ['/', 'p', '/', 'c'],
      decide (changedAt 0 ['/', 'p', '/', 'c'] (some ['b']) ∈ w.client.calls)))
    ([], [], none, true) rfl
  obtain ⟨hsent, hin, hget, hmem⟩ : w.client.sent = [] ∧ w.inbox = [] ∧
      w.tree.get ['/', 'p', '/', 'c'] = none ∧
      changedAt 0 ['/', 'p', '/', 'c'] (some ['b']) ∈ w.client.calls := by
    simpa only [Prod.mk.injEq, decide_eq_true_eq] using hw
  exact ⟨w, hr, noGhost_of_noticed hr ⟨hsent, hin⟩ (s := ['c']) hmem hget⟩

end WatchSubPath

end ConfigMonitor
