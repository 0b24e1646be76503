/-
# What is left in `releaser_`

An entry of `releaser_` goes away with the notification that its node is deleted.  An object
whose request has been refused waits for a notification that never comes: a read or a listing
of a node that is gone arms no watch, and a path that is not valid is not even sent.  These are
the only steps that leave an entry behind, and it is never taken out again.
-/
import ConfigMonitor.Monitor.Entries

namespace ConfigMonitor

open Run

namespace Leak

/-- The steps of a session in which nothing is removed and no connection is lost. -/
def Allowed : Action → Prop
  | .asyncRemoveWatches .. | .loss .. => False
  | _ => True

instance : DecidablePred Allowed
  | .asyncRemoveWatches .. | .loss .. => instDecidableFalse
  | .create .. | .set .. | .delete _ | .watchPath .. | .watchSubPath .. | .serve
  | .deliver => instDecidableTrue

/-- The step leaves an entry behind: a watch on a path that is not valid, a read or a listing
that has a watcher and finds no node, or a listing with a child whose path is not valid. -/
def Leaks (w : World) : Action → Prop
  | .watchPath p _ | .watchSubPath p _ => isValidPath p false = false
  | .serve => ∃ r ∈ w.client.sent.head?, r.watch = true ∧ r.op ≠ .existsOp ∧
      w.tree.get r.path = none
  | .deliver => ∃ rep, w.inbox.head? = some (.reply rep) ∧ w.client.LosesChild rep
  | _ => False

variable {w w' : World} {x : Ptr}

/-- The session holds the object of every entry. -/
def Accounted (w : World) : Prop := ∀ x ∈ w.client.releaser, w.Held x

/-- Whatever has a watcher is entered, and nothing else. -/
structure Filed (w : World) : Prop where
  entered : w.client.Entered
  sent : ∀ r ∈ w.client.sent, r.watch = true ↔ r.ctx ∈ w.client.releaser
  armed : ∀ a ∈ w.armed, a.ctx ∈ w.client.releaser
  event : ∀ eve q ctxs, Msg.event eve q ctxs ∈ w.inbox → ctxs ⊆ w.client.releaser

/-- What a step is considered with. -/
structure Inv (w : World) : Prop where
  wf : w.Wf
  served : w.Served
  watching : w.client.Watching
  filed : Filed w

lemma inv_start (t : Tree) : Inv (World.start t) := by
  refine ⟨World.wf_start t, World.served_start t Client.init, fun x d hd => ?_, ?_⟩
  · simp [World.start, Client.init] at hd
  · constructor <;> simp [World.start, Client.init, Client.Entered]

/-! ## Changes by others -/

lemma Filed.fire (h : Filed w) (eve : ZkEvent) (q : Path) : Filed (w.fire eve q) := by
  rcases World.fire_cases w eve q with ⟨heq, -⟩ | ⟨-, heq⟩
  · rwa [heq]
  · rw [heq]
    refine ⟨h.entered, h.sent, fun a ha => h.armed a (List.mem_of_mem_filter ha),
      fun eve' q' ctxs hm => ?_⟩
    rcases List.mem_append.mp hm with hm | hm
    · exact h.event eve' q' ctxs hm
    · obtain ⟨-, -, rfl⟩ := Msg.event.inj (List.mem_singleton.mp hm)
      intro x hx
      obtain ⟨a, ha, -, rfl⟩ := mem_collectWatchers.mp hx
      exact h.armed a ha

/-- A watch that is fired is held as a notification. -/
lemma accounted_external {a : Action} (ha : a.External) (hs : w.step a = some w') :
    Accounted w' ↔ Accounted w := by
  have hsame : w'.client = w.client ∧ ∀ x, w'.Held x ↔ w.Held x := by
    refine World.external_invariant (P := fun w' => w'.client = w.client ∧
      ∀ x, w'.Held x ↔ w.Held x) (fun t => ⟨rfl, fun x => Iff.rfl⟩) ?_ ha hs
    intro w₁ eve q ⟨hclient, hheld⟩
    exact ⟨(World.client_fire w₁ eve q).trans hclient,
      fun x => ⟨fun hx => (hheld x).mp (World.held_of_fire hx),
        fun hx => ((hheld x).mpr hx).fire eve q⟩⟩
  simp only [Accounted, hsame]

/-! ## Handlers that work on new objects -/

section Handlers

variable {lost : Prop} {c' : Client} {ms : List Msg}

lemma Filed.of_adds (h : Filed w) (hwf : w.Wf) (hadd : Client.Adds lost w.client c')
    (hms : ms ⊆ w.inbox) : Filed { w with inbox := ms, client := c' } := by
  obtain ⟨rs, hs, hrs, -⟩ := hadd.sent
  refine ⟨hadd.entered h.entered, fun r hr => ?_, fun a ha => hadd.subset (h.armed a ha),
    fun eve q ctxs hm x hx => hadd.subset (h.event eve q ctxs (hms hm) hx)⟩
  rcases List.mem_append.mp (hs ▸ hr) with hr | hr
  · refine (h.sent r hr).trans ⟨fun hx => hadd.subset hx, fun hx => ?_⟩
    rcases hadd.old_or_new _ hx with hx | ⟨hge, -⟩
    · exact hx
    · exact absurd (hwf.lt_next (World.tokens_ne_nil_of_sent hr)) (not_lt.mpr hge)
  · exact (hrs r hr).2

/-- An object that such a handler makes is accounted for unless it is lost. -/
lemma accounted_of_adds (h : Inv w) (hadd : Client.Adds lost w.client c') (hms : ms ⊆ w.inbox)
    (hev : ∀ eve q ctxs, Msg.event eve q ctxs ∈ w.inbox → Msg.event eve q ctxs ∈ ms) :
    Accounted { w with inbox := ms, client := c' } ↔ Accounted w ∧ ¬ lost := by
  obtain ⟨rs, hs, hrs, hlost⟩ := hadd.sent
  -- what the session holds afterwards are older objects and those that were asked for
  have hback : ∀ x, World.Held { w with inbox := ms, client := c' } x →
      w.Held x ∨ ∃ r ∈ rs, r.ctx = x := by
    rintro x (ha | ⟨r, hr, hrx⟩ | ⟨eve, q, ctxs, hm, hx⟩)
    · exact Or.inl (Or.inl ha)
    · rcases List.mem_append.mp (hs ▸ hr) with hr | hr
      · exact Or.inl (Or.inr (Or.inl ⟨r, hr, hrx⟩))
      · exact Or.inr ⟨r, hr, hrx⟩
    · exact Or.inl (Or.inr (Or.inr ⟨eve, q, ctxs, hms hm, hx⟩))
  have hforth : ∀ x, w.Held x → World.Held { w with inbox := ms, client := c' } x := by
    rintro x (ha | ⟨r, hr, hrx⟩ | ⟨eve, q, ctxs, hm, hx⟩)
    · exact Or.inl ha
    · exact Or.inr (Or.inl ⟨r, hs ▸ List.mem_append_left _ hr, hrx⟩)
    · exact Or.inr (Or.inr ⟨eve, q, ctxs, hev eve q ctxs hm, hx⟩)
  constructor
  · intro hacc
    refine ⟨fun x hx => ?_, fun hl => ?_⟩
    · rcases hback x (hacc x (hadd.subset hx)) with hheld | ⟨r, hr, rfl⟩
      · exact hheld
      · exact absurd (h.filed.entered _ hx) (not_lt.mpr (hrs r hr).1.1)
    · obtain ⟨x, hx, ⟨hge, -⟩, hno⟩ := hlost.mp hl
      rcases hback x (hacc x hx) with hheld | ⟨r, hr, hrx⟩
      · exact absurd (h.wf.lt_next hheld.tokens_ne_nil) (not_lt.mpr hge)
      · exact hno r hr hrx
  · rintro ⟨hacc, hnl⟩ x hx
    rcases hadd.old_or_new x hx with hx' | hnew
    · exact hforth x (hacc x hx')
    · by_contra hno
      refine hnl (hlost.mpr ⟨x, hx, hnew, fun r hr hrx => hno ?_⟩)
      exact Or.inr (Or.inl ⟨r, hs ▸ List.mem_append_right _ hr, hrx⟩)

end Handlers

/-! ## Notifications -/

section Notice

variable {eve : ZkEvent} {q : Path} {ctxs : List Ptr} {ms : List Msg}

/-- The entries after a notification: those of its watchers that asked again, and the others. -/
lemma mem_releaser_event (h : Inv w) (hin : w.inbox = .event eve q ctxs :: ms) :
    x ∈ (w.client.process (.event eve q ctxs)).releaser ↔ x ∈ w.client.releaser ∧
      (x ∈ ctxs → ∃ r ∈ w.client.followUps eve q ctxs, r.ctx = x) := by
  have hm : Msg.event eve q ctxs ∈ w.inbox := hin ▸ List.mem_cons_self
  rw [Client.process, Client.mem_releaser_onEvent_foldl ctxs (h.wf.ctxs_nodup hin)
    (fun y hy => h.wf.lt_next (World.tokens_ne_nil_of_event hm hy)) (h.wf.event eve q ctxs hm)]
  refine and_congr_right fun _ => imp_congr_right fun hx => ?_
  rw [Option.isSome_iff_exists]
  constructor
  · rintro ⟨r, hr⟩
    obtain ⟨d, -, hf⟩ := Option.bind_eq_some_iff.mp hr
    obtain ⟨rfl, hw⟩ := Client.ctx_of_followUp hf
    exact ⟨r, Client.mem_followUps.mpr ⟨hx, hw, hr⟩, rfl⟩
  · rintro ⟨r, hr, rfl⟩
    exact ⟨r, (Client.mem_followUps.mp hr).2.2⟩

lemma sent_event (h : Inv w) (hin : w.inbox = .event eve q ctxs :: ms) :
    (w.client.process (.event eve q ctxs)).sent =
      w.client.sent ++ w.client.followUps eve q ctxs := by
  have hm : Msg.event eve q ctxs ∈ w.inbox := hin ▸ List.mem_cons_self
  exact (Client.onEvent_foldl_spec ctxs (h.wf.ctxs_nodup hin)
    (fun y hy => h.wf.lt_next (World.tokens_ne_nil_of_event hm hy)) (h.wf.event eve q ctxs hm)
    (h.served.valid_event eve q ctxs hm)).1

lemma Inv.filed_event (h : Inv w) (hin : w.inbox = .event eve q ctxs :: ms) :
    Filed { w with inbox := ms, client := w.client.process (.event eve q ctxs) } := by
  have hm : Msg.event eve q ctxs ∈ w.inbox := hin ▸ List.mem_cons_self
  obtain ⟨hmsg, harmed, hsent⟩ : (∀ x ∈ ctxs, ∀ m ∈ ms, m.tokens x = []) ∧
      (∀ x ∈ ctxs, ∀ a ∈ w.armed, a.ctx ≠ x) ∧ ∀ x ∈ ctxs, ∀ r ∈ w.client.sent, r.ctx ≠ x :=
    ⟨fun x hx => (h.wf.unreferenced hin hx).1, fun x hx => (h.wf.unreferenced hin hx).2.1,
      fun x hx => (h.wf.unreferenced hin hx).2.2⟩
  obtain ⟨X, heff, -⟩ := h.wf.effect_process hin
  refine ⟨fun x hx => ?_, fun r hr => ?_, fun a ha => ?_, fun eve' q' ctxs' hm' x hx => ?_⟩
  · exact lt_of_lt_of_le (h.filed.entered x ((mem_releaser_event h hin).mp hx).1) heff.next_le
  · dsimp only at hr ⊢
    rw [mem_releaser_event h hin]
    rw [sent_event h hin] at hr
    rcases List.mem_append.mp hr with hr | hr
    · exact (h.filed.sent r hr).trans
        (and_iff_left fun hx => absurd rfl (hsent _ hx r hr)).symm
    · obtain ⟨hx, hw, -⟩ := Client.mem_followUps.mp hr
      exact ⟨fun _ => ⟨h.filed.event eve q ctxs hm hx, fun _ => ⟨r, hr, rfl⟩⟩, fun _ => hw⟩
  · exact (mem_releaser_event h hin).mpr
      ⟨h.filed.armed a ha, fun hx => absurd rfl (harmed _ hx a ha)⟩
  · refine (mem_releaser_event h hin).mpr
      ⟨h.filed.event eve' q' ctxs' (hin ▸ List.mem_cons_of_mem _ hm') hx, fun hx' => ?_⟩
    have hnil := hmsg x hx' _ hm'
    rw [Msg.tokens, List.replicate_eq_nil_iff, List.count_eq_zero] at hnil
    exact absurd hx hnil

lemma Inv.accounted_event (h : Inv w) (hin : w.inbox = .event eve q ctxs :: ms) :
    Accounted { w with inbox := ms, client := w.client.process (.event eve q ctxs) } ↔
      Accounted w := by
  have hm : Msg.event eve q ctxs ∈ w.inbox := hin ▸ List.mem_cons_self
  constructor
  · intro hacc x hx
    by_cases hxc : x ∈ ctxs
    · exact Or.inr (Or.inr ⟨eve, q, ctxs, hm, hxc⟩)
    · rcases hacc x ((mem_releaser_event h hin).mpr ⟨hx, fun hx' => absurd hx' hxc⟩) with
        ha | ⟨r, hr, hrx⟩ | ⟨eve', q', ctxs', hm', hx'⟩
      · exact Or.inl ha
      · dsimp only at hr
        rw [sent_event h hin] at hr
        rcases List.mem_append.mp hr with hr | hr
        · exact Or.inr (Or.inl ⟨r, hr, hrx⟩)
        · exact absurd (hrx ▸ (Client.mem_followUps.mp hr).1) hxc
      · exact Or.inr (Or.inr ⟨eve', q', ctxs', hin ▸ List.mem_cons_of_mem _ hm', hx'⟩)
  · intro hacc x hx
    obtain ⟨hold, hask⟩ := (mem_releaser_event h hin).mp hx
    have hsent := sent_event h hin
    by_cases hxc : x ∈ ctxs
    · obtain ⟨r, hr, hrx⟩ := hask hxc
      exact Or.inr (Or.inl ⟨r, hsent ▸ List.mem_append_right _ hr, hrx⟩)
    · rcases hacc x hold with ha | ⟨r, hr, hrx⟩ | ⟨eve', q', ctxs', hm', hx'⟩
      · exact Or.inl ha
      · exact Or.inr (Or.inl ⟨r, hsent ▸ List.mem_append_left _ hr, hrx⟩)
      · rw [hin] at hm'
        rcases List.mem_cons.mp hm' with heq | hm'
        · obtain ⟨-, -, rfl⟩ := Msg.event.inj heq
          exact absurd hx' hxc
        · exact Or.inr (Or.inr ⟨eve', q', ctxs', hm', hx'⟩)

end Notice

/-! ## The server -/

lemma Inv.filed_serve (h : Inv w) (hs : w.serve = some w') : Filed w' := by
  obtain ⟨r, rs, hsent, rfl⟩ := World.serve_cases hs
  have hr : r ∈ w.client.sent := hsent ▸ List.mem_cons_self
  refine ⟨h.filed.entered, fun r' hr' => h.filed.sent r' (hsent ▸ List.mem_cons_of_mem _ hr'),
    fun a ha => ?_, fun eve q ctxs hm => h.filed.event eve q ctxs (by simpa using hm)⟩
  rcases mem_of_mem_activate ha with ha | ⟨tb, htb, rfl⟩
  · exact h.filed.armed a ha
  · rw [answer_req]
    rw [Reply.table?, answer_req] at htb
    split_ifs at htb with hw
    exact (h.filed.sent r hr).mp hw

/-- The watches that the server arms for a request with a watcher. -/
lemma table?_answer_eq_none {r : Request} (hw : r.watch = true)
    (hop : ∀ type, r.op ≠ .removeWatchesOp type) :
    (answer w.tree w.armed r).table? = none ↔ r.op ≠ .existsOp ∧ w.tree.get r.path = none := by
  rw [Reply.table?, answer_req, if_pos hw]
  cases hr : r.op with
  | existsOp =>
      rw [answer_existsOp hr]
      cases w.tree.get r.path <;> simp [resultChecker]
  | getDataOp =>
      rw [answer_getDataOp hr]
      cases w.tree.get r.path <;> simp [resultChecker]
  | getChildrenOp =>
      rw [answer_getChildrenOp hr]
      cases w.tree.get r.path <;> simp [resultChecker]
  | removeWatchesOp type => exact absurd hr (hop type)

lemma Inv.accounted_serve (h : Inv w) (hs : w.serve = some w') :
    Accounted w' ↔ Accounted w ∧ ¬ Leaks w .serve := by
  obtain ⟨r, rs, hsent, rfl⟩ := World.serve_cases hs
  have hr : r ∈ w.client.sent := hsent ▸ List.mem_cons_self
  have hop := World.no_removal h.wf h.watching r hr
  have hleaks : Leaks w .serve ↔
      r.watch = true ∧ r.op ≠ .existsOp ∧ w.tree.get r.path = none := by
    simp [Leaks, hsent]
  rw [hleaks]
  constructor
  · intro hacc
    refine ⟨fun x hx => World.held_of_serve hsent (hacc x hx), ?_⟩
    rintro ⟨hw, hlost⟩
    -- the object of the request is nowhere but in an answer that arms nothing
    have hnone := (table?_answer_eq_none hw hop).mpr hlost
    obtain ⟨hmsg, harmed, hsent'⟩ := World.tokens_eq_nil_iff.mp (h.wf.alone_of_sent hsent)
    rcases hacc r.ctx ((h.filed.sent r hr).mp hw) with
      ⟨a, ha, hax⟩ | ⟨r', hr', hrx⟩ | ⟨eve, q, ctxs, hm, hx⟩
    · exact harmed a ((activate_sublist hnone w.armed).subset ha) hax
    · exact hsent' r' hr' hrx
    · have hnil := hmsg (.event eve q ctxs) (by simpa using hm)
      rw [Msg.tokens, List.replicate_eq_nil_iff, List.count_eq_zero] at hnil
      exact hnil hx
  · rintro ⟨hacc, hno⟩ x hx
    rcases hacc x hx with ⟨a, ha, hax⟩ | ⟨r', hr', hrx⟩ | ⟨eve, q, ctxs, hm, hx⟩
    · exact Or.inl ⟨a, subset_activate w.tree w.armed hop ha, hax⟩
    · rcases List.mem_cons.mp (hsent ▸ hr') with rfl | hr'
      · have hw : r'.watch = true := (h.filed.sent r' hr).mpr (hrx ▸ hx)
        obtain ⟨tb, htb⟩ := Option.ne_none_iff_exists'.mp
          (mt (table?_answer_eq_none (w := w) hw hop).mp fun hlost => hno ⟨hw, hlost⟩)
        exact Or.inl ⟨_, mem_activate htb w.armed, by rw [answer_req]; exact hrx⟩
      · exact Or.inr (Or.inl ⟨r', hr', hrx⟩)
    · exact Or.inr (Or.inr ⟨eve, q, ctxs, List.mem_append_left _ hm, hx⟩)

/-! ## Every run -/

lemma Inv.deliver (h : Inv w) (hs : w.deliver = some w') :
    Filed w' ∧ (Accounted w' ↔ Accounted w ∧ ¬ Leaks w .deliver) := by
  obtain ⟨m, ms, hin, rfl⟩ := World.deliver_cases hs
  cases m with
  | reply rep =>
      have hm : Msg.reply rep ∈ w.inbox := hin ▸ List.mem_cons_self
      have hadd := Client.adds_onReply h.filed.entered h.watching (h.wf.reply rep hm)
        (h.served.valid_reply rep hm)
      have hms : ms ⊆ w.inbox := fun m hm => hin ▸ List.mem_cons_of_mem _ hm
      have hleaks : Leaks w .deliver ↔ w.client.LosesChild rep := by
        simp [Leaks, hin]
      rw [hleaks]
      refine ⟨h.filed.of_adds h.wf hadd hms, accounted_of_adds h hadd hms fun eve q ctxs hm => ?_⟩
      rw [hin] at hm
      simpa using hm
  | event eve q ctxs =>
      refine ⟨h.filed_event hin, (h.accounted_event hin).trans (and_iff_left ?_).symm⟩
      simp [Leaks, hin]

/-- What one step does to the account. -/
lemma Inv.step (h : Inv w) {a : Action} (ha : Allowed a) (hs : w.step a = some w') :
    Inv w' ∧ (Accounted w' ↔ Accounted w ∧ ¬ Leaks w a) := by
  have hwf := h.wf.step hs
  have hwatching : w'.client.Watching :=
    World.watching_step (by cases a <;> simp_all [Action.Watching, Allowed]) h.watching hs
  have hext : a.External → Inv w' ∧ (Accounted w' ↔ Accounted w) := fun hext =>
    ⟨⟨hwf, h.served.external hext hs, hwatching, World.external_invariant
      (fun t => ⟨h.filed.entered, h.filed.sent, h.filed.armed, h.filed.event⟩)
      (fun w eve q hw => hw.fire eve q) hext hs⟩, accounted_external hext hs⟩
  have hcall : ∀ {lost : Prop} {c' : Client}, w' = { w with client := c' } →
      Client.Adds lost w.client c' → Inv w' ∧ (Accounted w' ↔ Accounted w ∧ ¬ lost) := by
    rintro lost c' rfl hadd
    refine ⟨⟨hwf, ⟨h.served.present, h.served.absent, h.served.valid_armed, h.served.valid_reply,
      h.served.valid_event, h.served.ctxs_ne⟩, hwatching, ?_⟩, ?_⟩
    · exact h.filed.of_adds h.wf hadd (List.Subset.refl _)
    · exact accounted_of_adds h hadd (List.Subset.refl _) fun _ _ _ hm => hm
  cases a with
  | create q v => exact (hext trivial).imp_right fun hacc => hacc.trans (by simp [Leaks])
  | set q v => exact (hext trivial).imp_right fun hacc => hacc.trans (by simp [Leaks])
  | delete q => exact (hext trivial).imp_right fun hacc => hacc.trans (by simp [Leaks])
  | watchPath p cb =>
      exact hcall (Option.some.inj hs).symm (Client.adds_watchPath h.filed.entered p cb)
  | watchSubPath p cb =>
      exact hcall (Option.some.inj hs).symm (Client.adds_watchSubPath h.filed.entered p cb)
  | serve => exact ⟨⟨hwf, h.served.serve h.wf hs, hwatching, h.filed_serve hs⟩, h.accounted_serve hs⟩
  | deliver =>
      obtain ⟨hfiled, hacc⟩ := h.deliver hs
      exact ⟨⟨hwf, h.served.deliver hs, hwatching, hfiled⟩, hacc⟩
  | asyncRemoveWatches p type cb => exact absurd ha id
  | loss n order => exact absurd ha id

end Leak

end ConfigMonitor
