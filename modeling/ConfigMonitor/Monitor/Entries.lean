/-
# The entries of `releaser_`

An object that a watcher is registered with is put into `releaser_` when its first request has
been sent, whether the request was accepted or not, and taken out by the notification that its
node is deleted.  `Adds` says what a handler that works on new objects does to `releaser_`;
`Client.mem_releaser_onEvent_foldl` says what a notification takes out of it.
-/
import ConfigMonitor.Monitor.Served
import ConfigMonitor.WatchSubPath.Session

namespace ConfigMonitor

namespace Client

/-- A handler that makes objects, sends requests for them and puts those that have a watcher
into `releaser_`.  `lost` says whether an object has been put there without a request. -/
structure Adds (lost : Prop) (c c' : Client) : Prop where
  next_le : c.next ≤ c'.next
  subset : c.releaser ⊆ c'.releaser
  old_or_new : ∀ x ∈ c'.releaser, x ∈ c.releaser ∨ c.next ≤ x ∧ x < c'.next
  sent : ∃ rs, c'.sent = c.sent ++ rs ∧
    (∀ r ∈ rs, (c.next ≤ r.ctx ∧ r.ctx < c'.next) ∧ (r.watch = true ↔ r.ctx ∈ c'.releaser)) ∧
    (lost ↔ ∃ x ∈ c'.releaser, (c.next ≤ x ∧ x < c'.next) ∧ ∀ r ∈ rs, r.ctx ≠ x)

/-- No entry is at an address that has not been given out. -/
def Entered (c : Client) : Prop := ∀ x ∈ c.releaser, x < c.next

variable {c c' c'' : Client} {lost lost' : Prop} {x : Ptr}

lemma Adds.congr (h : Adds lost c c') (hiff : lost ↔ lost') : Adds lost' c c' := by
  obtain ⟨rs, hs, hrs, hlost⟩ := h.sent
  exact ⟨h.next_le, h.subset, h.old_or_new, rs, hs, hrs, hiff.symm.trans hlost⟩

lemma Adds.entered (h : Adds lost c c') (hc : c.Entered) : c'.Entered := by
  intro x hx
  rcases h.old_or_new x hx with hx | hx
  · exact lt_of_lt_of_le (hc x hx) h.next_le
  · exact hx.2

/-- A handler that makes no object. -/
lemma adds_of_eq (hsent : c'.sent = c.sent) (hrel : c'.releaser = c.releaser)
    (hnext : c'.next = c.next) : Adds False c c' := by
  refine ⟨hnext.ge, fun x hx => hrel ▸ hx, fun x hx => Or.inl (hrel ▸ hx), [], by simp [hsent],
    by simp, ⟨False.elim, ?_⟩⟩
  rintro ⟨x, -, ⟨hge, hlt⟩, -⟩
  exact absurd (hnext ▸ hlt) (not_lt.mpr hge)

lemma Adds.trans (h₁ : Adds lost c c') (h₂ : Adds lost' c' c'') : Adds (lost ∨ lost') c c'' := by
  obtain ⟨rs₁, hs₁, hrs₁, hlost₁⟩ := h₁.sent
  obtain ⟨rs₂, hs₂, hrs₂, hlost₂⟩ := h₂.sent
  -- what the second handler adds is above what the first has made
  have hback : ∀ x ∈ c''.releaser, x < c'.next → x ∈ c'.releaser := by
    intro x hx hlt
    rcases h₂.old_or_new x hx with hx | ⟨hge, -⟩
    · exact hx
    · exact absurd hlt (not_lt.mpr hge)
  refine ⟨h₁.next_le.trans h₂.next_le, fun x hx => h₂.subset (h₁.subset hx), fun x hx => ?_,
    rs₁ ++ rs₂, by rw [hs₂, hs₁, List.append_assoc], fun r hr => ?_, ?_, ?_⟩
  · rcases h₂.old_or_new x hx with hx | ⟨hge, hlt⟩
    · exact (h₁.old_or_new x hx).imp_right fun h => ⟨h.1, lt_of_lt_of_le h.2 h₂.next_le⟩
    · exact Or.inr ⟨h₁.next_le.trans hge, hlt⟩
  · rcases List.mem_append.mp hr with hr | hr
    · obtain ⟨⟨hge, hlt⟩, hwatch⟩ := hrs₁ r hr
      exact ⟨⟨hge, lt_of_lt_of_le hlt h₂.next_le⟩,
        hwatch.trans ⟨fun hx => h₂.subset hx, fun hx => hback _ hx hlt⟩⟩
    · obtain ⟨⟨hge, hlt⟩, hwatch⟩ := hrs₂ r hr
      exact ⟨⟨h₁.next_le.trans hge, hlt⟩, hwatch⟩
  · rintro (hl | hl)
    · obtain ⟨x, hx, ⟨hge, hlt⟩, hno⟩ := hlost₁.mp hl
      refine ⟨x, h₂.subset hx, ⟨hge, lt_of_lt_of_le hlt h₂.next_le⟩, fun r hr => ?_⟩
      rcases List.mem_append.mp hr with hr | hr
      · exact hno r hr
      · exact (lt_of_lt_of_le hlt (hrs₂ r hr).1.1).ne'
    · obtain ⟨x, hx, ⟨hge, hlt⟩, hno⟩ := hlost₂.mp hl
      refine ⟨x, hx, ⟨h₁.next_le.trans hge, hlt⟩, fun r hr => ?_⟩
      rcases List.mem_append.mp hr with hr | hr
      · exact (lt_of_lt_of_le (hrs₁ r hr).1.2 hge).ne
      · exact hno r hr
  · rintro ⟨x, hx, ⟨hge, hlt⟩, hno⟩
    by_cases hx' : x < c'.next
    · exact Or.inl (hlost₁.mpr ⟨x, hback x hx hx', ⟨hge, hx'⟩,
        fun r hr => hno r (List.mem_append_left _ hr)⟩)
    · exact Or.inr (hlost₂.mpr ⟨x, hx, ⟨not_lt.mp hx', hlt⟩,
        fun r hr => hno r (List.mem_append_right _ hr)⟩)

lemma Adds.trans_left (h₁ : Adds lost c c') (h₂ : Adds False c' c'') : Adds lost c c'' :=
  (h₁.trans h₂).congr (by rw [or_false])

/-! ## Objects and their first requests -/

variable {r : Request}

/-- An object without a watcher. -/
lemma adds_alloc_send (hc : c.Entered) (d : Userdata) (hctx : r.ctx = c.next)
    (hw : r.watch = false) : Adds False c ((c.alloc d).send r) := by
  have hnot : c.next ∉ c.releaser := fun hx => lt_irrefl _ (hc _ hx)
  refine ⟨by simp, by simp, fun x hx => Or.inl (by simpa using hx), ?_⟩
  by_cases hv : isValidPath r.path false = true
  · refine ⟨[r], sent_send_of_valid _ hv, ?_, ⟨False.elim, ?_⟩⟩
    · intro r' hr'
      obtain rfl := List.mem_singleton.mp hr'
      simp [hctx, hw, hnot]
    · rintro ⟨x, hx, ⟨hge, -⟩, -⟩
      rw [releaser_send, releaser_alloc] at hx
      exact absurd (hc x hx) (not_lt.mpr hge)
  · refine ⟨[], by simp [send, hv], by simp, ⟨False.elim, ?_⟩⟩
    rintro ⟨x, hx, ⟨hge, -⟩, -⟩
    rw [releaser_send, releaser_alloc] at hx
    exact absurd (hc x hx) (not_lt.mpr hge)

/-- An object with a watcher is entered even if the request for it has been refused. -/
lemma adds_alloc_send_emplace (hc : c.Entered) (d : Userdata) (hctx : r.ctx = c.next)
    (hw : r.watch = true) :
    Adds (isValidPath r.path false = false) c (((c.alloc d).send r).emplace c.next) := by
  have hold : ∀ x ∈ (((c.alloc d).send r).emplace c.next).releaser,
      x ∈ c.releaser ∨ x = c.next := by
    intro x hx
    simpa using hx
  refine ⟨by simp, by simp, fun x hx => (hold x hx).imp_right ?_, ?_⟩
  · rintro rfl
    simp
  by_cases hv : isValidPath r.path false = true
  · refine ⟨[r], sent_send_of_valid _ hv, ?_, ⟨by simp [hv], ?_⟩⟩
    · intro r' hr'
      obtain rfl := List.mem_singleton.mp hr'
      simp [hctx, hw]
    · rintro ⟨x, hx, ⟨hge, -⟩, hno⟩
      rcases hold x hx with hx | rfl
      · exact absurd (hc x hx) (not_lt.mpr hge)
      · exact absurd hctx (hno r (List.mem_singleton.mpr rfl))
  · exact ⟨[], by simp [send, hv], by simp, fun _ => ⟨c.next, by simp, by simp, by simp⟩,
      fun _ => by simpa using hv⟩

lemma adds_watchPathEvent (hc : c.Entered) (path : Path) (cb : ExistsCallback) :
    Adds (isValidPath path false = false) c (c.watchPathEvent path cb) :=
  adds_alloc_send_emplace
    (r := { op := .existsOp, path := path, watch := true, ctx := c.next }) hc _ rfl rfl

lemma adds_asyncGetPathValue (hc : c.Entered) (adv : Bool) (path : Path) (cb : GetCallback) :
    Adds (adv = true ∧ isValidPath path false = false) c (asyncGetPathValue adv c path cb) := by
  rw [asyncGetPathValue]
  cases adv with
  | true => exact (adds_alloc_send_emplace hc _ rfl rfl).congr (by simp)
  | false => exact (adds_alloc_send hc _ rfl rfl).congr (by simp)

lemma adds_asyncGetSubPath (hc : c.Entered) (adv : Bool) (path : Path) (cb : ChildrenCallback) :
    Adds (adv = true ∧ isValidPath path false = false) c (asyncGetSubPath adv c path cb) := by
  rw [asyncGetSubPath]
  cases adv with
  | true => exact (adds_alloc_send_emplace hc _ rfl rfl).congr (by simp)
  | false => exact (adds_alloc_send hc _ rfl rfl).congr (by simp)

/-! ## Calls and completions -/

lemma adds_watchPath (hc : c.Entered) (path : Path) (cb : Cb) :
    Adds (isValidPath path false = false) c (c.watchPath path cb) := by
  have hrec : Adds False c { c with watchRecord := c.watchRecord.insert path cb } :=
    adds_of_eq rfl rfl rfl
  exact (hrec.trans (adds_watchPathEvent (hrec.entered hc) path _)).congr (by rw [false_or])

lemma adds_watchSubPath (hc : c.Entered) (path : Path) (cb : Cb) :
    Adds (isValidPath path false = false) c (c.watchSubPath path cb) := by
  have hrec : Adds False c { c with watchSubRecord := c.watchSubRecord.insert path cb } :=
    adds_of_eq rfl rfl rfl
  exact (hrec.trans (adds_watchPathEvent (hrec.entered hc) path _)).congr (by rw [false_or])

lemma adds_runExists (hc : c.Entered) {cb : ExistsCallback} (rc : ZooError) (eve : ZkEvent)
    (hv : isValidPath cb.path false = true) : Adds False c (c.runExists cb rc eve) := by
  cases cb with
  | watchPath cb p =>
      rw [runExists]
      split_ifs
      · exact adds_of_eq rfl rfl rfl
      · exact (adds_asyncGetPathValue hc false p _).congr (by simp)
      · exact adds_of_eq rfl rfl rfl
  | watchSubPath cb pfx =>
      have hv' : isValidPath pfx false = true := hv
      rw [runExists]
      split_ifs
      · exact adds_of_eq rfl rfl rfl
      · exact adds_of_eq rfl rfl rfl
      · exact (adds_asyncGetSubPath hc true pfx _).congr (by simp [hv'])

lemma adds_runGet (c : Client) (cb : GetCallback) (rc : ZooError) (eve : ZkEvent) (path : Path)
    (val : Data) : Adds False c (c.runGet cb rc eve path val) := by
  cases cb <;> rw [runGet] <;> split_ifs <;> exact adds_of_eq rfl rfl rfl

lemma adds_monitor_foldl (cb : Cb) (pfx : Path) (subs : List Str) (hc : c.Entered) :
    Adds (∃ s ∈ subs, isValidPath (subPath pfx s) false = false) c
      (subs.foldl (fun c s => c.monitor cb pfx (subPath pfx s)) c) := by
  induction subs generalizing c with
  | nil => exact (adds_of_eq rfl rfl rfl).congr (by simp)
  | cons s subs ih =>
      have hadd := adds_asyncGetPathValue hc true (subPath pfx s) (.monitor cb pfx)
      exact (hadd.trans (ih (hadd.entered hc))).congr (by simp)

lemma adds_runListing (cb : Cb) (pfx : Path) (subPaths : List Str) (hc : c.Entered) :
    Adds (∃ s ∈ WatchSubPath.fresh c pfx subPaths, isValidPath (subPath pfx s) false = false) c
      (c.runListing cb pfx subPaths) :=
  (adds_monitor_foldl cb pfx _ hc).trans_left (adds_of_eq rfl rfl rfl)

/-- A listing in which there is a child that `monitor` cannot read, because the path made for
it is not valid. -/
def LosesChild (c : Client) (rep : Reply) : Prop :=
  match c.heap rep.req.ctx with
  | some (.getChildren { cb := .watchSubPath _ pfx, path := _, advanced := _ }) =>
      rep.rc = .zok ∧ ∃ s ∈ WatchSubPath.fresh c pfx rep.strings,
        isValidPath (subPath pfx s) false = false
  | _ => False

/-- Without a removal, no completion works on an older object. -/
lemma adds_onReply (hc : c.Entered) (hw : c.Watching) {rep : Reply}
    (h : c.Holds rep.req.ctx (·.For rep.req)) (hv : isValidPath rep.req.path false = true) :
    Adds (c.LosesChild rep) c (c.onReply rep) := by
  obtain ⟨d, hd, hfor⟩ := h
  rw [onReply, LosesChild, hd]
  cases d with
  | existsData d => exact adds_runExists hc rep.rc d.eve (hfor.2.1 ▸ hv)
  | wget d =>
      dsimp only
      rw [getCompletion]
      split_ifs
      · exact adds_runGet c _ _ _ _ _
      · exact (adds_runGet c _ _ _ _ _).trans_left (adds_of_eq rfl rfl rfl)
  | getChildren d =>
      have hcb := hw _ _ hd
      rcases d with ⟨cb | cb, path, adv⟩
      · rename_i pfx
        have hrun : Adds (rep.rc = .zok ∧ ∃ s ∈ WatchSubPath.fresh c pfx rep.strings,
            isValidPath (subPath pfx s) false = false) c
            (c.runChildren (.watchSubPath cb pfx) rep.rc rep.strings) := by
          rw [runChildren]
          split_ifs with hrc
          · exact (adds_of_eq rfl rfl rfl).congr (by simp [hrc])
          · exact (adds_runListing cb pfx rep.strings hc).congr (by simp [not_not.mp hrc])
        dsimp only
        rw [childrenCompletion]
        split_ifs
        · exact hrun
        · exact hrun.trans_left (adds_of_eq rfl rfl rfl)
      · exact absurd hcb id
  | operate cb => exact absurd (hw _ _ hd) id
  | removeChain cb subs => exact absurd (hw _ _ hd) id

/-! ## Notifications -/

variable {eve : ZkEvent} {q : Path}

lemma releaser_release (c : Client) (x : Ptr) :
    (c.release x).releaser = c.releaser.filter (· ≠ x) := by
  rw [release]
  split_ifs with hx
  · rfl
  · refine (List.filter_eq_self.mpr fun y hy => ?_).symm
    rw [decide_eq_true_eq]
    rintro rfl
    exact hx hy

lemma releaser_runGet (c : Client) (cb : GetCallback) (rc : ZooError) (eve : ZkEvent)
    (path : Path) (val : Data) : (c.runGet cb rc eve path val).releaser = c.releaser := by
  cases cb <;> rw [runGet] <;> split_ifs <;> rfl

/-- A watcher gives up its object or sends the next request for it. -/
lemma mem_releaser_onEvent {tb : Table} (htb : tb ∈ eve.tables)
    (h : c.Holds x (·.ForWatch tb q)) {y : Ptr} : y ∈ (c.onEvent eve q x).releaser ↔
      y ∈ c.releaser ∧ (y = x → ((c.heap y).bind (·.followUp eve q y)).isSome) := by
  have hses := ZkEvent.ne_session htb
  obtain ⟨d, hd, hfor⟩ := h
  -- a watcher that asks again keeps the entry, and one that does not drops it
  have hkeep : (d.followUp eve q x).isSome →
      (y ∈ c.releaser ↔ y ∈ c.releaser ∧
        (y = x → ((c.heap y).bind (·.followUp eve q y)).isSome)) := by
    intro hsome
    refine (and_iff_left ?_).symm
    rintro rfl
    rwa [hd, Option.bind_some]
  have hdrop : d.followUp eve q x = none →
      (y ∈ c.releaser.filter (· ≠ x) ↔ y ∈ c.releaser ∧
        (y = x → ((c.heap y).bind (·.followUp eve q y)).isSome)) := by
    intro hnone
    rw [List.mem_filter, decide_eq_true_eq]
    refine and_congr_right fun _ => imp_congr_right ?_
    rintro rfl
    rw [hd, Option.bind_some, hnone]
    simp
  rw [onEvent, hd]
  cases d with
  | existsData d =>
      dsimp only
      rw [existsWatcher, if_neg hses, zooAwexists, releaser_send, releaser_store]
      exact hkeep rfl
  | wget d =>
      dsimp only
      rw [getWatcher, if_neg hses]
      split_ifs with hdel
      · rw [releaser_release, releaser_runGet]
        exact hdrop (by rw [Userdata.followUp, if_pos hdel])
      · rw [zooAwget, releaser_send, releaser_store]
        exact hkeep (by rw [Userdata.followUp, if_neg hdel]; rfl)
  | getChildren d =>
      dsimp only
      rw [childrenWatcher, if_neg hses]
      split_ifs with hdel
      · rw [releaser_release]
        exact hdrop (by rw [Userdata.followUp, if_pos hdel])
      · rw [zooAwgetChildren2, releaser_send]
        exact hkeep (by rw [Userdata.followUp, if_neg hdel]; rfl)
  | operate cb => exact absurd hfor id
  | removeChain cb subs => exact absurd hfor id

/-- A notification takes out the entries of the objects its watchers do not ask for again. -/
lemma mem_releaser_onEvent_foldl (ctxs : List Ptr) (hnd : ctxs.Nodup)
    (hlt : ∀ x ∈ ctxs, x < c.next) (h : ∀ x ∈ ctxs, ∃ tb ∈ eve.tables,
      c.Holds x (·.ForWatch tb q)) {y : Ptr} : y ∈ (ctxs.foldl (onEvent eve q) c).releaser ↔
      y ∈ c.releaser ∧ (y ∈ ctxs → ((c.heap y).bind (·.followUp eve q y)).isSome) := by
  induction ctxs generalizing c with
  | nil => simp
  | cons x ctxs ih =>
      obtain ⟨hx, hnd'⟩ := List.nodup_cons.mp hnd
      obtain ⟨tb, htb, hholds⟩ := h x List.mem_cons_self
      have heff := effect_onEvent htb (hlt x List.mem_cons_self) hholds
      -- the watcher of `x` leaves the objects of the others as they are
      have hold : ∀ y ∈ ctxs, (c.onEvent eve q x).heap y = c.heap y := fun y hy =>
        heff.heap_eq y (fun hyx => hx (List.mem_singleton.mp hyx ▸ hy))
          (hlt y (List.mem_cons_of_mem _ hy))
      have hrest := ih (c := c.onEvent eve q x) hnd'
        (fun y hy => lt_of_lt_of_le (hlt y (List.mem_cons_of_mem _ hy)) heff.next_le)
        (fun y hy => by
          obtain ⟨tb', htb', d', hd', hfor⟩ := h y (List.mem_cons_of_mem _ hy)
          exact ⟨tb', htb', d', (hold y hy).trans hd', hfor⟩)
      rw [List.foldl_cons, hrest, mem_releaser_onEvent htb hholds, and_assoc, List.mem_cons]
      refine and_congr_right fun _ => ?_
      constructor
      · rintro ⟨h₁, h₂⟩ (rfl | hy)
        · exact h₁ rfl
        · exact hold y hy ▸ h₂ hy
      · exact fun h => ⟨fun hy => h (Or.inl hy), fun hy => (hold y hy).symm ▸ h (Or.inr hy)⟩

/-- The request a watcher sends is for its own object. -/
lemma ctx_of_followUp {d : Userdata} (h : d.followUp eve q x = some r) :
    r.ctx = x ∧ r.watch = true := by
  cases d with
  | existsData d => rw [← Option.some.inj h]; exact ⟨rfl, rfl⟩
  | wget d | getChildren d =>
      rw [Userdata.followUp] at h
      split_ifs at h
      rw [← Option.some.inj h]
      exact ⟨rfl, rfl⟩
  | operate cb => cases h
  | removeChain cb subs => cases h

lemma mem_followUps {ctxs : List Ptr} : r ∈ c.followUps eve q ctxs ↔
    r.ctx ∈ ctxs ∧ r.watch = true ∧ (c.heap r.ctx).bind (·.followUp eve q r.ctx) = some r := by
  rw [followUps, List.mem_filterMap]
  constructor
  · rintro ⟨x, hx, hr⟩
    obtain ⟨d, hd, hf⟩ := Option.bind_eq_some_iff.mp hr
    obtain ⟨rfl, hw⟩ := ctx_of_followUp hf
    exact ⟨hx, hw, hr⟩
  · rintro ⟨hx, -, hr⟩
    exact ⟨r.ctx, hx, hr⟩

end Client

end ConfigMonitor
