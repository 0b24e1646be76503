/-
# `watch_path` subscriptions and lost connections

A connection that is lost completes every request in flight with an error, and an exists
request that fails is not repeated: `exists_completion` runs the callback, which starts a read
and leaves it at that.  A subscription survives a lost connection only when its exists watch is
armed at that moment or its notification is on the way.
-/
import ConfigMonitor.Monitor.NoRemoval

namespace ConfigMonitor

/-- The object at `x` is the exists object of a subscription `watch_path(p, cb)`. -/
def Client.Subscribes (c : Client) (cb : Cb) (p : Path) (x : Ptr) : Prop :=
  match c.heap x with
  | some (.existsData d) => d.cb = .watchPath cb p
  | _ => False

instance (c : Client) (cb : Cb) (p : Path) (x : Ptr) : Decidable (c.Subscribes cb p x) := by
  unfold Client.Subscribes
  split <;> infer_instance

lemma Client.subscribes_iff {c : Client} {cb : Cb} {p : Path} {x : Ptr} :
    c.Subscribes cb p x ↔
      ∃ eve, c.heap x = some (.existsData { cb := .watchPath cb p, eve := eve }) := by
  rw [Subscribes]
  split
  · rename_i d hd
    rw [hd]
    constructor
    · intro h; exact ⟨d.eve, by rw [← h]⟩
    · rintro ⟨eve, heq⟩
      rw [Option.some.inj heq |> Userdata.existsData.inj]
  · rename_i hno
    exact ⟨False.elim, fun ⟨eve, heq⟩ => hno _ heq⟩

namespace ConnectionLoss

/-- The steps of a session in which only `watch_path` is called. -/
def Allowed : Action → Prop
  | .watchSubPath .. | .asyncRemoveWatches .. => False
  | _ => True

instance : DecidablePred Allowed
  | .watchSubPath .. | .asyncRemoveWatches .. => instDecidableFalse
  | .create .. | .set .. | .delete _ | .watchPath .. | .serve | .deliver
  | .loss .. => instDecidableTrue

/-- In every quiescent state each recorded subscription has an armed exists watch. -/
def Survives : Prop :=
  ∀ (t : Tree) (w : World), Run.Reach World.step (fun _ a => Allowed a) (World.start t) w →
    w.Quiescent → ∀ p cb, w.client.watchRecord.lookup p = some cb →
      ∃ a ∈ w.armed, a.path = p ∧ a.table ≠ .child ∧ w.client.Subscribes cb p a.ctx

/-! ## A connection lost before the first answer -/

theorem not_survives : ¬ Survives := by
  intro h
  obtain ⟨w, hr, hw⟩ := Run.exists_reach_of_exec World.step (fun _ a => Allowed a)
    (World.start Tree.empty)
    [.watchPath ['/', 'p'] 0, .loss 0 [], .deliver, .serve, .deliver]
    (fun w => (w.client.sent, w.inbox, w.armed, w.client.watchRecord.lookup ['/', 'p']))
    ([], [], [], some 0) rfl
  obtain ⟨hsent, hin, harmed, hrec⟩ : w.client.sent = [] ∧ w.inbox = [] ∧ w.armed = [] ∧
      w.client.watchRecord.lookup ['/', 'p'] = some 0 := by
    simpa only [Prod.mk.injEq] using hw
  obtain ⟨a, ha, -⟩ := h Tree.empty w hr ⟨hsent, hin⟩ ['/', 'p'] 0 hrec
  rw [harmed] at ha
  simp at ha

/-! ## The exact condition on a step -/

/-- The objects whose exists watch is armed, or whose notification is on the way. -/
def holders (w : World) : List Ptr :=
  w.armed.map Watch.ctx ++ w.inbox.flatMap fun
    | .event _ _ ctxs => ctxs
    | .reply _ => []

/-- `watch_path` is called for valid paths only, and a connection is lost only when each
recorded subscription has an exists object that is held and not waiting for an answer. -/
def Spares (w : World) : Action → Prop
  | .watchPath p _ => isValidPath p false = true
  | .loss n _ => ∀ s ∈ w.client.watchRecord.entries, ∃ x ∈ holders w,
      x ∉ (w.failing n).map Request.ctx ∧ w.client.Subscribes s.2 s.1 x
  | _ => True

instance (w : World) : DecidablePred (Spares w)
  | .watchPath p _ => inferInstanceAs (Decidable (isValidPath p false = true))
  | .loss n _ => inferInstanceAs (Decidable (∀ s ∈ w.client.watchRecord.entries,
      ∃ x ∈ holders w, x ∉ (w.failing n).map Request.ctx ∧ w.client.Subscribes s.2 s.1 x))
  | .create .. | .set .. | .delete _ | .watchSubPath .. | .asyncRemoveWatches .. | .serve
  | .deliver => instDecidableTrue

variable {w w' : World}

/-- Every recorded subscription has an exists object that the session holds. -/
structure Inv (w : World) : Prop where
  wf : w.Wf
  watching : w.client.Watching
  registered : ∀ p cb, w.client.watchRecord.lookup p = some cb →
    ∃ x, w.Registers x (.watchPath cb p)

lemma inv_start (t : Tree) : Inv (World.start t) := by
  refine ⟨World.wf_start t, fun x d hd => ?_, fun p cb hrec => ?_⟩
  · simp [World.start, Client.init] at hd
  · simp [World.start, Client.init] at hrec

lemma held_of_mem_holders {x : Ptr} (hx : x ∈ holders w) : w.Held x := by
  rcases List.mem_append.mp hx with hx | hx
  · obtain ⟨a, ha, hax⟩ := List.mem_map.mp hx
    exact Or.inl ⟨a, ha, hax⟩
  · obtain ⟨m, hm, hxm⟩ := List.mem_flatMap.mp hx
    cases m with
    | reply rep => simp at hxm
    | event eve q ctxs => exact Or.inr (Or.inr ⟨eve, q, ctxs, hm, hxm⟩)

lemma Inv.watchPath (h : Inv w) {p : Path} {cb : Cb} (hv : isValidPath p false = true) :
    Inv { w with client := w.client.watchPath p cb } := by
  refine ⟨h.wf.of_call (Client.effect_watchPath _ p cb), h.watching.watchPath p cb,
    fun p' cb' hrec => ?_⟩
  have hrec' : (w.client.watchRecord.insert p cb).lookup p' = some cb' := by
    rw [← hrec]
    simp [Client.watchPath]
  by_cases hp : p' = p
  · subst hp
    rw [AList.lookup_insert] at hrec'
    obtain rfl := Option.some.inj hrec'
    exact ⟨_, World.registers_watchPathEvent w
      { w.client with watchRecord := w.client.watchRecord.insert p' cb } rfl hv⟩
  · rw [AList.lookup_insert_ne hp] at hrec'
    obtain ⟨x, hx⟩ := h.registered p' cb' hrec'
    obtain ⟨eve, hd⟩ := hx.heap
    refine ⟨x, hx.of_keeps (Client.keeps_watchPath w.client p cb) ⟨eve, ?_⟩
      fun eve q ctxs hm _ => Or.inl hm⟩
    rw [(Client.effect_watchPath w.client p cb).heap_eq x (by simp)
      (h.wf.lt_next hx.held.tokens_ne_nil), hd]

lemma Inv.step (h : Inv w) {a : Action} (ha : Allowed a) (hsp : Spares w a)
    (hs : w.step a = some w') : Inv w' := by
  have hwf := h.wf.step hs
  have hext : a.External → Inv w' := fun ha =>
    ⟨hwf, World.watching_step (by cases a <;> simp_all [Action.Watching, Action.External])
      h.watching hs, fun p cb hrec => by
      obtain ⟨x, hx⟩ := h.registered p cb ((World.changed_of_external ha hs).client ▸ hrec)
      exact ⟨x, hx.external ha hs⟩⟩
  cases a with
  | create q v => exact hext trivial
  | set q v => exact hext trivial
  | delete q => exact hext trivial
  | watchPath p cb => exact Option.some.inj hs ▸ h.watchPath hsp
  | watchSubPath p cb => exact absurd ha id
  | asyncRemoveWatches p type cb => exact absurd ha id
  | serve =>
      refine ⟨hwf, World.watching_step (a := .serve) trivial h.watching hs, fun p cb hrec => ?_⟩
      have hrec' : w.client.watchRecord.lookup p = some cb := by
        obtain ⟨r, rs, -, rfl⟩ := World.serve_cases hs
        exact hrec
      obtain ⟨x, hx⟩ := h.registered p cb hrec'
      exact ⟨x, hx.serve h.wf (World.no_removal h.wf h.watching) hs⟩
  | deliver =>
      refine ⟨hwf, World.watching_step (a := .deliver) trivial h.watching hs, fun p cb hrec => ?_⟩
      have hrec' : w.client.watchRecord.lookup p = some cb := by
        obtain ⟨m, ms, -, rfl⟩ := World.deliver_cases hs
        rwa [← h.watching.watchRecord_process m]
      obtain ⟨x, hx⟩ := h.registered p cb hrec'
      exact ⟨x, hx.deliver h.wf hs⟩
  | loss n order =>
      refine ⟨hwf, World.watching_step (a := .loss n order) trivial h.watching hs,
        fun p cb hrec => ?_⟩
      have hrec' : w.client.watchRecord.lookup p = some cb := by
        rwa [World.client_loss hs] at hrec
      -- the object that the loss spares is registered, so it is after the loss
      obtain ⟨x, hx, hfail, hsub⟩ := hsp ⟨p, cb⟩ (AList.mem_lookup_iff.mp hrec')
      obtain ⟨x', hx'⟩ := h.registered p cb hrec'
      have hreg : w.Registers x (.watchPath cb p) :=
        ⟨Client.subscribes_iff.mp hsub, hx'.valid, held_of_mem_holders hx⟩
      refine ⟨x, hreg.loss (fun r hr hrx => hfail ?_) hs⟩
      exact List.mem_map.mpr ⟨r, hr, hrx⟩

/-- In a run whose lost connections spare every recorded subscription, each one has an armed
exists watch in every quiescent state. -/
theorem survives_of_spares {t : Tree}
    (hr : Run.Reach World.step (fun w a => Allowed a ∧ Spares w a) (World.start t) w)
    (hq : w.Quiescent) {p : Path} {cb : Cb} (hrec : w.client.watchRecord.lookup p = some cb) :
    ∃ a ∈ w.armed, a.path = p ∧ a.table ≠ .child ∧ w.client.Subscribes cb p a.ctx := by
  have hinv : Inv w := hr.invariant (inv_start t) fun _ _ _ h hok hs => h.step hok.1 hok.2 hs
  obtain ⟨x, hx⟩ := hinv.registered p cb hrec
  rcases hx.held with ⟨a, ha, rfl⟩ | ⟨r, hr, -⟩ | ⟨_, _, _, hm, -⟩
  · obtain ⟨d, hd, hfor⟩ := hinv.wf.armed a ha
    obtain ⟨eve, hd'⟩ := hx.heap
    obtain rfl := Option.some.inj (hd.symm.trans hd')
    exact ⟨a, ha, hfor.2.symm, hfor.1, Client.subscribes_iff.mpr hx.heap⟩
  · rw [hq.1] at hr; simp at hr
  · rw [hq.2] at hm; simp at hm

/-- Two connections lost, one of them with a notification on its way. -/
theorem survives_of_spares_lostTwice : ∃ w,
    Run.Reach World.step (fun w a => Allowed a ∧ Spares w a) (World.start Tree.empty) w ∧
    w.Quiescent ∧ ∃ a ∈ w.armed, a.path = ['/', 'p'] ∧ a.table ≠ .child ∧
      w.client.Subscribes 0 ['/', 'p'] a.ctx := by
  obtain ⟨w, hr, hw⟩ := Run.exists_reach_of_exec World.step
    (fun w a => Allowed a ∧ Spares w a) (World.start Tree.empty)
    [.watchPath ['/', 'p'] 0, .serve, .deliver, .loss 0 [], .deliver,
      .create ['/', 'p'] none, .loss 0 [⟨.exist, ['/', 'p'], 0⟩], .deliver, .serve, .deliver,
      .serve, .deliver]
    (fun w => (w.client.sent, w.inbox, w.client.watchRecord.lookup ['/', 'p']))
    ([], [], some 0) rfl
  obtain ⟨hsent, hin, hrec⟩ : w.client.sent = [] ∧ w.inbox = [] ∧
      w.client.watchRecord.lookup ['/', 'p'] = some 0 := by
    simpa only [Prod.mk.injEq] using hw
  exact ⟨w, hr, ⟨hsent, hin⟩, survives_of_spares hr ⟨hsent, hin⟩ hrec⟩

end ConnectionLoss

end ConfigMonitor
