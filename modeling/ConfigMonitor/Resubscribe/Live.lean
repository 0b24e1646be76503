/-
# The records and the live subscriptions

The re-subscription after expiry goes by `watch_record_` and `watch_sub_record_`.  An entry is
written when the request for the exists watch is sent and erased when the removal is answered,
whatever the answer; in between the server arms watches and takes them away.  The entries name
the watches that are armed as long as no step lets the two come apart.
-/
import ConfigMonitor.Resubscribe.Owed
import ConfigMonitor.Monitor.Recorded
import ConfigMonitor.Monitor.Truthful

namespace ConfigMonitor

open Run

namespace ExistsCallback

/-- The entry a registration is recorded under. -/
def key : ExistsCallback → WatchType × Path
  | .watchPath _ p => (.watchPath, p)
  | .watchSubPath _ pfx => (.watchSubPath, pfx)

/-- The callback of the user. -/
def callback : ExistsCallback → Cb
  | .watchPath cb _ => cb
  | .watchSubPath cb _ => cb

end ExistsCallback

namespace Resubscribe

/-- The entries name the live subscriptions: there is one exactly if an exists watch of a
registration for it is armed, and each such watch carries the recorded callback. -/
structure Named (w : World) : Prop where
  live : ∀ k, (w.client.recorded k).isSome ↔
    ∃ a ∈ w.armed, ∃ cb, existsAt w.client a.ctx = some cb ∧ cb.key = k
  carried : ∀ a ∈ w.armed, ∀ cb, existsAt w.client a.ctx = some cb →
    w.client.recorded cb.key = some cb.callback

/-- Without a lost connection the entries name the live subscriptions whenever nothing is in
flight. -/
def AlwaysNamed : Prop :=
  ∀ t w, Reach World.step Truthful.Allowed (World.start t) w → w.Quiescent → Named w

/-! ## A removal while the node is not there -/

theorem not_alwaysNamed : ¬ AlwaysNamed := by
  intro h
  obtain ⟨w, hr, hw⟩ := exists_reach_of_exec World.step Truthful.Allowed (World.start Tree.empty)
    [.watchSubPath ['/', 'p'] 0, .serve, .deliver, .asyncRemoveWatches ['/', 'p'] .watchSubPath 1,
      .serve, .deliver]
    (fun w => (decide w.Quiescent, w.armed, existsAt w.client 0,
      w.client.recorded (.watchSubPath, ['/', 'p'])))
    (true, [⟨.exist, ['/', 'p'], 0⟩], some (.watchSubPath 0 ['/', 'p']), none) rfl
  simp only [Prod.mk.injEq, decide_eq_true_eq] at hw
  obtain ⟨hq, harmed, hobj, hnone⟩ := hw
  have hcarried := (h Tree.empty w hr hq).carried ⟨.exist, ['/', 'p'], 0⟩ (by rw [harmed]; simp)
    (.watchSubPath 0 ['/', 'p']) hobj
  rw [show ExistsCallback.key (.watchSubPath 0 ['/', 'p']) = (.watchSubPath, ['/', 'p']) from rfl,
    hnone] at hcarried
  simp at hcarried

/-! ## The condition on a step -/

/-- The objects the session holds. -/
def holders (w : World) : List Ptr :=
  w.armed.map Watch.ctx ++ w.client.sent.map Request.ctx ++ w.inbox.flatMap fun
    | .reply _ => []
    | .event _ _ ctxs => ctxs

/-- The registrations for an entry that the session holds. -/
def registrations (w : World) (k : WatchType × Path) : List ExistsCallback :=
  ((holders w).filterMap (existsAt w.client)).filter fun cb => cb.key = k

/-- The path is valid, and every other registration for the entry has the same callback. -/
def Joins (w : World) (cb : ExistsCallback) : Prop :=
  isValidPath cb.path false = true ∧ ∀ cb' ∈ registrations w cb.key, cb' = cb

/-- The exists watches the server takes away belong to the entry that the answer erases. -/
def TakesOwn (w : World) : Prop :=
  ∀ r ∈ w.client.sent.head?, ∀ a ∈ w.armed, a ∉ activate w.armed (answer w.tree w.armed r) →
    ∀ cb ∈ existsAt w.client a.ctx,
      w.client.ends (.reply (answer w.tree w.armed r)) = some cb.key

/-- No registration is left for the entry that the oldest message erases. -/
def ErasesGone (w : World) : Prop :=
  ∀ m ∈ w.inbox.head?, ∀ k ∈ w.client.ends m, registrations w k = []

/-- The step does not part the entries from the watches. -/
def Careful (w : World) : Action → Prop
  | .watchPath p cb => Joins w (.watchPath cb p)
  | .watchSubPath p cb => Joins w (.watchSubPath cb p)
  | .serve => TakesOwn w
  | .deliver => ErasesGone w
  | .loss .. => False
  | .create .. | .set .. | .delete _ | .asyncRemoveWatches .. => True

instance (w : World) (cb : ExistsCallback) : Decidable (Joins w cb) := by
  unfold Joins; infer_instance

instance (w : World) : Decidable (TakesOwn w) := by unfold TakesOwn; infer_instance

instance (w : World) : Decidable (ErasesGone w) := by unfold ErasesGone; infer_instance

instance (w : World) : DecidablePred (Careful w)
  | .watchPath p cb => inferInstanceAs (Decidable (Joins w (.watchPath cb p)))
  | .watchSubPath p cb => inferInstanceAs (Decidable (Joins w (.watchSubPath cb p)))
  | .serve => inferInstanceAs (Decidable (TakesOwn w))
  | .deliver => inferInstanceAs (Decidable (ErasesGone w))
  | .loss .. => instDecidableFalse
  | .create .. | .set .. | .delete _ | .asyncRemoveWatches .. => instDecidableTrue

variable {w w' : World} {c c' c'' : Client} {x : Ptr} {cb : ExistsCallback} {k : WatchType × Path}
  {X : List Ptr}

lemma mem_holders : x ∈ holders w ↔ w.Held x := by
  rw [holders, List.mem_append, List.mem_append, List.mem_map, List.mem_map, List.mem_flatMap,
    or_assoc, World.Held]
  refine or_congr_right (or_congr_right ⟨?_, ?_⟩)
  · rintro ⟨m, hm, hx⟩
    cases m with
    | reply rep => simp at hx
    | event eve q ctxs => exact ⟨eve, q, ctxs, hm, hx⟩
  · rintro ⟨eve, q, ctxs, hm, hx⟩
    exact ⟨_, hm, hx⟩

lemma mem_registrations : cb ∈ registrations w k ↔
    cb.key = k ∧ ∃ x, w.Held x ∧ existsAt w.client x = some cb := by
  rw [registrations, List.mem_filter, List.mem_filterMap, decide_eq_true_eq, and_comm]
  simp only [mem_holders]

/-! ## Only a registration makes an exists object -/

/-- The exists objects of `c'` are those of `c`. -/
def Older (c c' : Client) : Prop :=
  ∀ x cb, existsAt c' x = some cb → existsAt c x = some cb

lemma Older.refl (c : Client) : Older c c := fun _ _ h => h

lemma Older.trans (h₁ : Older c c') (h₂ : Older c' c'') : Older c c'' :=
  fun x cb h => h₁ x cb (h₂ x cb h)

lemma existsAt_congr (h : c'.heap x = c.heap x) : existsAt c' x = existsAt c x := by
  rw [existsAt, existsAt, h]

lemma existsAt_of_heap {d : ExistsUserdata} (h : c.heap x = some (.existsData d)) :
    existsAt c x = some d.cb := by
  rw [existsAt, h]

lemma heap_of_existsAt (h : existsAt c x = some cb) :
    ∃ eve, c.heap x = some (.existsData { cb := cb, eve := eve }) := by
  rw [existsAt] at h
  split at h
  · rename_i d hd
    obtain rfl := Option.some.inj h
    exact ⟨d.eve, hd⟩
  · simp at h

lemma older_of_heap (h : c'.heap = c.heap) : Older c c' :=
  fun x _ hx => (existsAt_congr (congrFun h x)).symm.trans hx

/-- An object that is no exists object is made or changed. -/
lemma older_of_update {o : Option Userdata} (ho : ∀ d, o ≠ some (.existsData d))
    (h : c'.heap = Function.update c.heap x o) : Older c c' := by
  intro y cb hy
  obtain ⟨eve, hd⟩ := heap_of_existsAt hy
  rw [h] at hd
  by_cases hyx : y = x
  · subst hyx
    rw [Function.update_self] at hd
    exact absurd hd (ho _)
  · rw [Function.update_of_ne hyx] at hd
    exact existsAt_of_heap hd

lemma older_asyncGetPathValue (adv : Bool) (c : Client) (path : Path) (cb : GetCallback) :
    Older c (Client.asyncGetPathValue adv c path cb) := by
  rw [Client.asyncGetPathValue]
  split_ifs <;> exact older_of_update (o := some (.wget _)) (by simp) (Client.heap_send _ _)

lemma older_asyncGetSubPath (adv : Bool) (c : Client) (path : Path) (cb : ChildrenCallback) :
    Older c (Client.asyncGetSubPath adv c path cb) := by
  rw [Client.asyncGetSubPath]
  split_ifs <;> exact older_of_update (o := some (.getChildren _)) (by simp) (Client.heap_send _ _)

lemma older_release (c : Client) (x : Ptr) : Older c (c.release x) := by
  rw [Client.release]
  split_ifs
  · exact older_of_update (o := none) (by simp) rfl
  · exact Older.refl c

lemma older_free (c : Client) (x : Ptr) : Older c (c.free x) :=
  older_of_update (o := none) (by simp) rfl

lemma older_runExists (c : Client) (cb : ExistsCallback) (rc : ZooError) (eve : ZkEvent) :
    Older c (c.runExists cb rc eve) := by
  cases cb with
  | watchPath cb p =>
      rw [Client.runExists]
      split_ifs
      · exact older_of_heap rfl
      · exact older_asyncGetPathValue _ c p _
      · exact Older.refl c
  | watchSubPath cb pfx =>
      rw [Client.runExists]
      split_ifs
      · exact Older.refl c
      · exact Older.refl c
      · exact older_asyncGetSubPath _ c pfx _

lemma older_runGet (c : Client) (cb : GetCallback) (rc : ZooError) (eve : ZkEvent) (path : Path)
    (val : Data) : Older c (c.runGet cb rc eve path val) := by
  cases cb <;> rw [Client.runGet] <;> split_ifs <;> exact older_of_heap rfl

lemma older_runOperate (c : Client) (cb : OperateCallback) (rc : ZooError) :
    Older c (c.runOperate cb rc) := by
  rw [Client.runOperate]
  split <;> exact older_of_heap rfl

lemma older_runListing (c : Client) (cb : Cb) (pfx : Path) (subPaths : List Str) :
    Older c (c.runListing cb pfx subPaths) := by
  have hfold : ∀ (subs : List Str) (c : Client),
      Older c (subs.foldl (fun c sub => c.monitor cb pfx (subPath pfx sub)) c) := by
    intro subs
    induction subs with
    | nil => exact Older.refl
    | cons sub subs ih => exact fun c => (older_asyncGetPathValue true c _ _).trans (ih _)
  rw [Client.runListing]
  exact (hfold _ c).trans (older_of_heap rfl)

lemma older_runChildren (c : Client) (cb : ChildrenCallback) (rc : ZooError)
    (subPaths : List Str) : Older c (c.runChildren cb rc subPaths) := by
  cases cb with
  | watchSubPath cb pfx =>
      rw [Client.runChildren]
      split_ifs
      · exact Older.refl c
      · exact older_runListing c cb pfx subPaths
  | removeWatches cb p =>
      rw [Client.runChildren]
      split_ifs
      · exact older_runOperate c cb rc
      · dsimp only
        split
        · exact older_of_update (o := some (.removeChain _ _)) (by simp) (Client.heap_send _ _)
        · exact older_of_update (o := some (.removeChain _ _)) (by simp) (Client.heap_send _ _)
        · exact older_of_update (o := some (.removeChain _ _)) (by simp) rfl

lemma older_onReply (c : Client) (rep : Reply) : Older c (c.onReply rep) := by
  rw [Client.onReply]
  split
  · exact older_runExists c _ _ _
  · rw [Client.getCompletion]
    split_ifs
    · exact older_runGet c _ _ _ _ _
    · exact (older_runGet c _ _ _ _ _).trans (older_free _ _)
  · rw [Client.childrenCompletion]
    split_ifs
    · exact older_runChildren c _ _ _
    · exact (older_runChildren c _ _ _).trans (older_free _ _)
  · exact (older_runOperate c _ _).trans (older_free _ _)
  · rw [Client.removeChainCompletion]
    split
    · exact (older_runOperate c _ _).trans (older_free _ _)
    · exact older_of_update (o := some (.removeChain _ _)) (by simp) (Client.heap_send _ _)
    · exact older_of_update (o := some (.removeChain _ _)) (by simp) (Client.heap_send _ _)
  · exact Older.refl c

lemma older_onEvent (c : Client) (eve : ZkEvent) (q : Path) (x : Ptr) :
    Older c (c.onEvent eve q x) := by
  rw [Client.onEvent]
  split
  · rename_i d hd
    rw [Client.existsWatcher]
    split_ifs
    · exact Older.refl c
    · -- the object keeps its callback
      intro y cb hy
      obtain ⟨eve', hd'⟩ := heap_of_existsAt hy
      rw [Client.zooAwexists, Client.heap_send, Client.heap_store] at hd'
      by_cases hyx : y = x
      · subst hyx
        rw [Function.update_self] at hd'
        simp only [Option.some.injEq, Userdata.existsData.injEq, ExistsUserdata.mk.injEq] at hd'
        exact hd'.1 ▸ existsAt_of_heap hd
      · rw [Function.update_of_ne hyx] at hd'
        exact existsAt_of_heap hd'
  · rw [Client.getWatcher]
    split_ifs
    · exact Older.refl c
    · exact (older_runGet c _ _ _ _ _).trans (older_release _ _)
    · exact older_of_update (o := some (.wget _)) (by simp) (Client.heap_send _ _)
  · rw [Client.childrenWatcher]
    split_ifs
    · exact Older.refl c
    · exact older_release c x
    · exact older_of_heap (Client.heap_send _ _)
  · exact Older.refl c

lemma older_process (c : Client) (m : Msg) : Older c (c.process m) := by
  cases m with
  | reply rep => exact older_onReply c rep
  | event eve q ctxs =>
      rw [Client.process]
      induction ctxs generalizing c with
      | nil => exact Older.refl c
      | cons x ctxs ih => exact (older_onEvent c eve q x).trans (ih _)

/-! ## The invariant -/

/-- What the session holds is recorded, and what is recorded is held or about to be erased. -/
structure Agrees (w : World) : Prop where
  wf : w.Wf
  fresh : ∀ x cb, existsAt w.client x = some cb → x < w.client.next
  held : ∀ k, ∀ cb ∈ registrations w k, w.client.recorded k = some cb.callback
  live : ∀ k, (w.client.recorded k).isSome →
    (∃ x cb, w.Registers x cb ∧ cb.key = k) ∨ ∃ m ∈ w.inbox, w.client.ends m = some k

/-- A step that makes the session hold no more registrations. -/
lemma Agrees.held_of (h : Agrees w) (hcb : cb ∈ registrations w' k)
    (hheld : ∀ x cb, existsAt w'.client x = some cb → w'.Held x →
      w.Held x ∧ existsAt w.client x = some cb) : w.client.recorded k = some cb.callback := by
  obtain ⟨hk, x, hx, hd⟩ := mem_registrations.mp hcb
  exact h.held k cb (mem_registrations.mpr ⟨hk, x, hheld x cb hd hx⟩)

lemma subset_inbox_fire (w : World) (eve : ZkEvent) (q : Path) :
    w.inbox ⊆ (w.fire eve q).inbox := by
  rw [World.fire]
  split
  · exact fun _ hm => hm
  · exact List.subset_append_left _ _

lemma Agrees.fire (h : Agrees w) (eve : ZkEvent) (q : Path) : Agrees (w.fire eve q) := by
  have hclient : (w.fire eve q).client = w.client := World.client_fire w eve q
  refine ⟨h.wf.fire eve q, ?_, fun k cb hcb => ?_, fun k hk => ?_⟩
  · rw [hclient]
    exact h.fresh
  · rw [hclient]
    exact h.held_of hcb fun x cb hd hx => ⟨World.held_of_fire hx, hclient ▸ hd⟩
  · rw [hclient] at hk ⊢
    rcases h.live k hk with ⟨x, cb, hreg, hkey⟩ | ⟨m, hm, hends⟩
    · exact Or.inl ⟨x, cb, hreg.fire eve q, hkey⟩
    · exact Or.inr ⟨m, subset_inbox_fire w eve q hm, hends⟩

lemma Agrees.setTree (h : Agrees w) (t : Tree) : Agrees { w with tree := t } :=
  ⟨h.wf.setTree t, h.fresh, h.held, fun k hk => (h.live k hk).imp_left
    fun ⟨x, cb, hreg, hkey⟩ => ⟨x, cb, ⟨hreg.heap, hreg.valid, hreg.held⟩, hkey⟩⟩

/-! ## Calls of the user -/

/-- A call of the user leaves the objects there are alone. -/
lemma registers_of_call (hwf : w.Wf) (he : Client.Effect [] w.client c')
    (h : w.Registers x cb) : ({ w with client := c' } : World).Registers x cb := by
  refine ⟨?_, h.valid, ?_⟩
  · rw [show ({ w with client := c' } : World).client.heap x = w.client.heap x from
      he.heap_eq x (by simp) (hwf.lt_next h.held.tokens_ne_nil)]
    exact h.heap
  · obtain ⟨rs, hs, -, -⟩ := he.sent
    rcases h.held with ha | ⟨r, hr, hrx⟩ | hev
    · exact Or.inl ha
    · exact Or.inr (Or.inl ⟨r, hs ▸ List.mem_append_left _ hr, hrx⟩)
    · exact Or.inr (Or.inr hev)

lemma ends_of_call (hwf : w.Wf) (he : Client.Effect [] w.client c') {m : Msg}
    (hm : m ∈ w.inbox) : c'.ends m = w.client.ends m := by
  refine Client.ends_congr fun rep hrep => ?_
  subst hrep
  exact he.heap_eq _ (by simp) (hwf.lt_next (World.tokens_ne_nil_of_reply hm))

/-- The call makes a registration. -/
lemma Agrees.register (h : Agrees w) (hjoin : Joins w cb) (he : Client.Effect [] w.client c')
    (hnew : ∀ y cb', existsAt c' y = some cb' →
      y = w.client.next ∧ cb' = cb ∨ existsAt w.client y = some cb')
    (hreg : ({ w with client := c' } : World).Registers w.client.next cb)
    (hrec : c'.recorded = Function.update w.client.recorded cb.key (some cb.callback)) :
    Agrees { w with client := c' } := by
  have hwf' : ({ w with client := c' } : World).Wf := h.wf.of_call he
  refine ⟨hwf', fun y cb' hy => ?_, fun k cb' hcb' => ?_, fun k hk => ?_⟩
  · rcases hnew y cb' hy with ⟨rfl, -⟩ | hold
    · exact hwf'.lt_next hreg.held.tokens_ne_nil
    · exact lt_of_lt_of_le (h.fresh y cb' hold) he.next_le
  · obtain ⟨hkey, y, hy, hd⟩ := mem_registrations.mp hcb'
    dsimp only
    rw [hrec]
    rcases hnew y cb' hd with ⟨-, rfl⟩ | hold
    · rw [hkey, Function.update_self]
    · have hheld : w.Held y := World.held_of_effect (h.fresh y cb' hold) he (by simp)
        (List.Subset.refl _) hy
      have hmem : cb' ∈ registrations w k := mem_registrations.mpr ⟨hkey, y, hheld, hold⟩
      by_cases hk : k = cb.key
      · subst hk
        rw [Function.update_self, hjoin.2 cb' hmem]
      · rw [Function.update_of_ne hk]
        exact h.held k cb' hmem
  · by_cases hkey : cb.key = k
    · exact Or.inl ⟨_, cb, hreg, hkey⟩
    · dsimp only at hk
      rw [hrec, Function.update_of_ne (Ne.symm hkey)] at hk
      rcases h.live k hk with ⟨y, cb', hreg', hkey'⟩ | ⟨m, hm, hends⟩
      · exact Or.inl ⟨y, cb', registers_of_call h.wf he hreg', hkey'⟩
      · exact Or.inr ⟨m, hm, (ends_of_call h.wf he hm).trans hends⟩

/-- The object a registration makes. -/
lemma existsAt_watchPathEvent {y : Ptr} {cb' : ExistsCallback} {path : Path}
    (h : existsAt (c.watchPathEvent path cb) y = some cb') :
    y = c.next ∧ cb' = cb ∨ existsAt c y = some cb' := by
  have hheap : (c.watchPathEvent path cb).heap =
      Function.update c.heap c.next (some (.existsData { cb := cb })) := Client.heap_send _ _
  obtain ⟨eve, hd⟩ := heap_of_existsAt h
  rw [hheap] at hd
  by_cases hy : y = c.next
  · subst hy
    rw [Function.update_self] at hd
    simp only [Option.some.injEq, Userdata.existsData.injEq, ExistsUserdata.mk.injEq] at hd
    exact Or.inl ⟨rfl, hd.1.symm⟩
  · rw [Function.update_of_ne hy] at hd
    exact Or.inr (existsAt_of_heap hd)

lemma Agrees.watchPath (h : Agrees w) {p : Path} {cb : Cb} (hjoin : Joins w (.watchPath cb p)) :
    Agrees { w with client := w.client.watchPath p cb } :=
  h.register hjoin (Client.effect_watchPath w.client p cb) (fun _ _ => existsAt_watchPathEvent)
    (World.registers_watchPathEvent w
      { w.client with watchRecord := w.client.watchRecord.insert p cb } rfl hjoin.1)
    (Client.recorded_watchPath w.client p cb)

lemma Agrees.watchSubPath (h : Agrees w) {p : Path} {cb : Cb}
    (hjoin : Joins w (.watchSubPath cb p)) :
    Agrees { w with client := w.client.watchSubPath p cb } :=
  h.register hjoin (Client.effect_watchSubPath w.client p cb) (fun _ _ => existsAt_watchPathEvent)
    (World.registers_watchPathEvent w
      { w.client with watchSubRecord := w.client.watchSubRecord.insert p cb } rfl hjoin.1)
    (Client.recorded_watchSubPath w.client p cb)

lemma older_asyncRemoveWatches (c : Client) (p : Path) (type : WatchType) (cb : Cb) :
    Older c (c.asyncRemoveWatches p type cb) := by
  cases type
  · exact older_of_update (o := some (.operate _)) (by simp) (Client.heap_send _ _)
  · exact older_asyncGetSubPath false c p _

/-- A removal has done nothing yet when it is called. -/
lemma Agrees.asyncRemoveWatches (h : Agrees w) (p : Path) (type : WatchType) (cb : Cb) :
    Agrees { w with client := w.client.asyncRemoveWatches p type cb } := by
  have he := Client.effect_asyncRemoveWatches w.client p type cb
  have hold := older_asyncRemoveWatches w.client p type cb
  have hrec := Client.recorded_asyncRemoveWatches w.client p type cb
  refine ⟨h.wf.of_call he, fun y cb' hy => ?_, fun k cb' hcb' => ?_, fun k hk => ?_⟩
  · exact lt_of_lt_of_le (h.fresh y cb' (hold y cb' hy)) he.next_le
  · dsimp only
    rw [hrec]
    refine h.held_of hcb' fun y cb'' hd hy => ⟨?_, hold y cb'' hd⟩
    exact World.held_of_effect (h.fresh y cb'' (hold y cb'' hd)) he (by simp) (List.Subset.refl _) hy
  · dsimp only at hk
    rw [hrec] at hk
    rcases h.live k hk with ⟨y, cb', hreg, hkey⟩ | ⟨m, hm, hends⟩
    · exact Or.inl ⟨y, cb', registers_of_call h.wf he hreg, hkey⟩
    · exact Or.inr ⟨m, hm, (ends_of_call h.wf he hm).trans hends⟩

/-! ## The session -/

/-- A watch that is taken away is one of the entry that the answer erases. -/
lemma Agrees.serve (h : Agrees w) (hok : TakesOwn w) (hs : w.serve = some w') : Agrees w' := by
  have hwf' := h.wf.serve hs
  have hkeep : ∀ x cb, w.Registers x cb → (∀ r ∈ w.client.sent.head?, ∀ a ∈ w.armed, a.ctx = x →
      a ∈ activate w.armed (answer w.tree w.armed r)) → w'.Registers x cb :=
    fun x cb hreg hkept => hreg.serve_of_kept h.wf hkept hs
  obtain ⟨r, rs, hsent, rfl⟩ := World.serve_cases hs
  refine ⟨hwf', h.fresh, fun k cb hcb => ?_, fun k hk => ?_⟩
  · exact h.held_of hcb fun x cb hd hx => ⟨World.held_of_serve hsent hx, hd⟩
  · rcases h.live k hk with ⟨x, cb, hreg, rfl⟩ | ⟨m, hm, hends⟩
    · by_cases hkept : ∀ r ∈ w.client.sent.head?, ∀ a ∈ w.armed, a.ctx = x →
          a ∈ activate w.armed (answer w.tree w.armed r)
      · exact Or.inl ⟨x, cb, hkeep x cb hreg hkept, rfl⟩
      · push Not at hkept
        obtain ⟨r', hr', a, ha, rfl, hgone⟩ := hkept
        obtain ⟨eve, hd⟩ := hreg.heap
        have hends := hok r' hr' a ha hgone cb (existsAt_of_heap hd)
        obtain rfl : r = r' := by simpa [hsent] using hr'
        exact Or.inr ⟨_, List.mem_append_right _ (List.mem_singleton.mpr rfl), hends⟩
    · exact Or.inr ⟨m, List.mem_append_left _ hm, hends⟩

/-- What a message gives to its handler is held, if it is an exists object. -/
lemma effect_held (hwf : w.Wf) {m : Msg} {ms : List Msg} (hin : w.inbox = m :: ms)
    (hx : existsAt w.client x = some cb) :
    ∃ X, Client.Effect X w.client (w.client.process m) ∧ (x ∈ X → w.Held x) := by
  have hm : m ∈ w.inbox := hin ▸ List.mem_cons_self
  cases m with
  | event eve q ctxs =>
      have hlt : ∀ y ∈ ctxs, y < w.client.next :=
        fun y hy => hwf.lt_next (World.tokens_ne_nil_of_event hm hy)
      exact ⟨ctxs, Client.effect_onEvent_foldl eve q ctxs (hwf.ctxs_nodup hin) hlt
        (hwf.event eve q ctxs hm), fun hmem => Or.inr (Or.inr ⟨eve, q, ctxs, hm, hmem⟩)⟩
  | reply rep =>
      by_cases hctx : rep.req.ctx = x
      · -- an exists completion leaves its object alone
        obtain ⟨eve, hd⟩ := heap_of_existsAt hx
        refine ⟨[], ?_, by simp⟩
        rw [Client.process, Client.onReply, hctx, hd]
        exact Client.effect_runExists w.client cb rep.rc eve
      · refine ⟨_, Client.effect_onReply (hwf.lt_next (World.tokens_ne_nil_of_reply hm))
          (hwf.reply rep hm), fun hmem => ?_⟩
        split_ifs at hmem
        · simp at hmem
        · exact absurd (List.mem_singleton.mp hmem).symm hctx

lemma Agrees.deliver (h : Agrees w) (hok : ErasesGone w) (hs : w.deliver = some w') :
    Agrees w' := by
  have hwf' := h.wf.deliver hs
  have hkeep : ∀ x cb, w.Registers x cb → w'.Registers x cb := fun x cb hreg => hreg.deliver h.wf hs
  obtain ⟨m, ms, hin, rfl⟩ := World.deliver_cases hs
  have hold := older_process w.client m
  have hrec := Client.recorded_process w.client m
  have hgone : ∀ k, w.client.ends m = some k → registrations w k = [] :=
    fun k hk => hok m (by rw [hin]; rfl) k hk
  -- an entry is erased only if no registration for it is left
  have hnot : ∀ k, w.client.ends m ≠ some k →
      (w.client.process m).recorded k = w.client.recorded k := by
    intro k hk
    rw [hrec]
    cases hends : w.client.ends m with
    | none => rfl
    | some k' => exact Function.update_of_ne (fun heq => hk (by rw [heq, hends])) _ _
  have hback : ∀ x cb, existsAt (w.client.process m) x = some cb →
      ({ w with inbox := ms, client := w.client.process m } : World).Held x →
      w.Held x ∧ existsAt w.client x = some cb := by
    intro x cb hd hx
    have hd' := hold x cb hd
    obtain ⟨X, he, hX⟩ := effect_held h.wf hin hd'
    exact ⟨World.held_of_effect (h.fresh x cb hd') he hX
      (fun _ hm' => hin ▸ List.mem_cons_of_mem _ hm') hx, hd'⟩
  refine ⟨hwf', fun x cb hd => ?_, fun k cb hcb => ?_, fun k hk => ?_⟩
  · obtain ⟨X, he, -⟩ := h.wf.effect_process hin
    exact lt_of_lt_of_le (h.fresh x cb (hold x cb hd)) he.next_le
  · obtain ⟨hkey, x, hx, hd⟩ := mem_registrations.mp hcb
    obtain ⟨hx', hd'⟩ := hback x cb hd hx
    have hmem : cb ∈ registrations w k := mem_registrations.mpr ⟨hkey, x, hx', hd'⟩
    dsimp only
    rw [hnot k fun hends => by simp [hgone k hends] at hmem]
    exact h.held k cb hmem
  · by_cases hends : w.client.ends m = some k
    · dsimp only at hk
      rw [hrec, hends] at hk
      simp at hk
    · dsimp only at hk
      rw [hnot k hends] at hk
      rcases h.live k hk with ⟨x, cb, hreg, hkey⟩ | ⟨m', hm', hends'⟩
      · exact Or.inl ⟨x, cb, hkeep x cb hreg, hkey⟩
      · rw [hin] at hm'
        rcases List.mem_cons.mp hm' with rfl | hm'
        · exact absurd hends' hends
        · refine Or.inr ⟨m', hm', Eq.trans (Client.ends_congr fun rep hrep => ?_) hends'⟩
          subst hrep
          exact h.wf.heap_process hin
            (World.tokens_ne_nil_of_reply (w := { w with inbox := ms }) hm')

/-! ## Every careful run -/

lemma Agrees.step (h : Agrees w) {a : Action} (hok : Careful w a) (hs : w.step a = some w') :
    Agrees w' := by
  have hext : a.External → Agrees w' := fun ha =>
    World.external_invariant h.setTree (fun _ eve q hw => hw.fire eve q) ha hs
  cases a with
  | create q v => exact hext trivial
  | set q v => exact hext trivial
  | delete q => exact hext trivial
  | watchPath p cb => exact Option.some.inj hs ▸ h.watchPath hok
  | watchSubPath p cb => exact Option.some.inj hs ▸ h.watchSubPath hok
  | asyncRemoveWatches p type cb => exact Option.some.inj hs ▸ h.asyncRemoveWatches p type cb
  | serve => exact h.serve hok hs
  | deliver => exact h.deliver hok hs
  | loss n order => exact absurd hok id

lemma agrees_start (t : Tree) : Agrees (World.start t) := by
  refine ⟨World.wf_start t, fun x cb hx => ?_, fun k cb hcb => ?_, fun k hk => ?_⟩
  · simp [existsAt, World.start, Client.init] at hx
  · simp [registrations, holders, World.start, Client.init] at hcb
  · rcases k with ⟨_ | _, p⟩ <;> simp [Client.recorded, World.start, Client.init,
      Client.records, Records.lookup] at hk

/-- In a run of careful steps the entries name the live subscriptions whenever nothing is in
flight. -/
theorem named_of_careful {t : Tree} (hr : Reach World.step Careful (World.start t) w)
    (hw : w.Quiescent) : Named w := by
  have hinv : Agrees w := hr.invariant (agrees_start t) fun _ _ _ h hok hs => h.step hok hs
  refine ⟨fun k => ⟨fun hk => ?_, ?_⟩, fun a ha cb hd => ?_⟩
  · rcases hinv.live k hk with ⟨x, cb, hreg, hkey⟩ | ⟨m, hm, -⟩
    · obtain ⟨eve, hd⟩ := hreg.heap
      rcases hreg.held with ⟨a, ha, rfl⟩ | ⟨r, hr, -⟩ | ⟨eve, q, ctxs, hm, -⟩
      · exact ⟨a, ha, cb, existsAt_of_heap hd, hkey⟩
      · simp [hw.1] at hr
      · simp [hw.2] at hm
    · simp [hw.2] at hm
  · rintro ⟨a, ha, cb, hd, rfl⟩
    rw [hinv.held cb.key cb (mem_registrations.mpr ⟨rfl, a.ctx, Or.inl ⟨a, ha, rfl⟩, hd⟩)]
    rfl
  · exact hinv.held cb.key cb (mem_registrations.mpr ⟨rfl, a.ctx, Or.inl ⟨a, ha, rfl⟩, hd⟩)

/-- A path is watched, its node changes, it is removed and watched again. -/
theorem named_of_careful_again : ∃ w : World, Named w ∧
    w.client.recorded (.watchPath, ['/', 'p']) = some 2 ∧
    w.client.recorded (.watchSubPath, ['/', 'q']) = some 3 ∧ w.armed.length = 2 := by
  obtain ⟨w, hr, hw⟩ := exists_reach_of_exec World.step Careful (World.start WatchSubPath.treePC)
    [.watchPath ['/', 'p'] 0, .serve, .deliver, .watchSubPath ['/', 'q'] 3, .serve, .serve,
      .set ['/', 'p'] (some ['b']), .deliver, .deliver, .deliver, .serve, .deliver, .serve,
      .deliver, .asyncRemoveWatches ['/', 'p'] .watchPath 1, .serve, .deliver,
      .watchPath ['/', 'p'] 2, .serve, .deliver, .serve, .deliver]
    (fun w => (decide w.Quiescent, w.client.recorded (.watchPath, ['/', 'p']),
      w.client.recorded (.watchSubPath, ['/', 'q']), w.armed.length))
    (true, some 2, some 3, 2) rfl
  simp only [Prod.mk.injEq, decide_eq_true_eq] at hw
  exact ⟨w, named_of_careful hr hw.1, hw.2⟩

end Resubscribe

end ConfigMonitor
