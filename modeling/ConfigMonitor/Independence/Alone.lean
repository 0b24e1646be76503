/-
# Subscriptions do not disturb each other

A session with any number of subscriptions, seen from some of them, is a session that has no
others: the same changes of the tree and the same calls of the view, in the same order, lead to
the same calls of its callbacks.  Each step of the session is one step of the session alone, or
none.  What may get in the way is named by `Interferes`: a second user of one entry of
`last_sub_path_`, a removal that crosses the border of the view, and a notification of another
subscription that is lost with the connection, for a path on which the view has a watch.
-/
import ConfigMonitor.Independence.Handlers
import ConfigMonitor.Lib.Simulation
import ConfigMonitor.Monitor.External

namespace ConfigMonitor

open Run

/-- A change of the tree by another client, or a call of the user. -/
def Action.Outside : Action → Bool
  | .create .. | .set .. | .delete _ | .watchPath .. | .watchSubPath ..
  | .asyncRemoveWatches .. => true
  | .serve | .deliver | .loss .. => false

/-- A change of the tree, or a call of a subscription of the view. -/
def Action.Concerns (V : View) : Action → Bool
  | .create .. | .set .. | .delete _ => true
  | .watchPath _ cb | .watchSubPath _ cb | .asyncRemoveWatches _ _ cb => V.mine cb
  | .serve | .deliver | .loss .. => false

/-- Does the object at `x` belong to the view? -/
def Client.isMine (V : View) (c : Client) (x : Ptr) : Bool :=
  (c.heap x).any fun d => V.mine d.cb

namespace World

variable {V : View} {nm nm' : Ptr → Option Ptr} {w w' w₁ : World}

/-- The watches that the request takes away when the server handles it. -/
def taken (w : World) (r : Request) : List Watch :=
  match r.op with
  | .removeWatchesOp type => w.armed.filter fun a => a.table ∈ type.tables ∧ a.path = r.path
  | _ => []

/-- A removal of another subscription takes a watch of the view away, or a removal of the view
finds nothing but watches of others. -/
def Crosses (V : View) (w : World) (r : Request) : Prop :=
  if w.client.isMine V r.ctx = true then
    w.taken r ≠ [] ∧ ∀ a ∈ w.taken r, w.client.isMine V a.ctx = false
  else ∃ a ∈ w.taken r, w.client.isMine V a.ctx = true

/-- A watch of another subscription is set again on a path on which the view has a watch. -/
def Mixes (V : View) (w : World) (order : List Watch) : Prop :=
  ∃ a ∈ order, w.client.isMine V a.ctx = false ∧
    ∃ b ∈ w.armed ++ order, b.path = a.path ∧ w.client.isMine V b.ctx = true

/-- The step lets another subscription get in the way of the view. -/
def Interferes (V : View) (w : World) : Action → Prop
  | .watchSubPath p cb => V.mine cb ≠ V.side p
  | .asyncRemoveWatches p type cb =>
      V.mine cb = false ∧ type = .watchSubPath ∧ V.side p = true
  | .serve => ∃ r ∈ w.client.sent.head?, Crosses V w r
  | .loss _ order => Mixes V w order
  | _ => False

instance (V : View) (w : World) (r : Request) : Decidable (Crosses V w r) := by
  unfold Crosses; infer_instance

instance (V : View) (w : World) (order : List Watch) : Decidable (Mixes V w order) := by
  unfold Mixes; infer_instance

instance (V : View) (w : World) (a : Action) : Decidable (Interferes V w a) := by
  unfold Interferes
  split <;> infer_instance

/-- `w₁` is what the view sees of `w`. -/
structure Seen (V : View) (nm : Ptr → Option Ptr) (w w₁ : World) : Prop where
  tree : w₁.tree = w.tree
  armed : w₁.armed = w.armed.filterMap (Watch.seen nm)
  inbox : w₁.inbox = w.inbox.filterMap (Msg.seen nm)
  client : Client.Seen V nm w.client w₁.client

/-- What is named belongs to the view. -/
lemma Seen.isMine (h : Seen V nm w w₁) {x : Ptr} {P : Userdata → Prop}
    (hx : w.client.Holds x P) : w.client.isMine V x = (nm x).isSome := by
  obtain ⟨d, hd, -⟩ := hx
  rw [Client.isMine, hd, Option.any_some, (h.client.obj x d hd).2]

/-! ## Names that do not matter -/

/-- A new name is not the name of anything the session refers to. -/
lemma Wf.filterMap_congr (hwf : w.Wf) (h : ∀ x < w.client.next, nm' x = nm x) :
    w.armed.filterMap (Watch.seen nm') = w.armed.filterMap (Watch.seen nm) ∧
      w.inbox.filterMap (Msg.seen nm') = w.inbox.filterMap (Msg.seen nm) := by
  constructor
  · refine List.filterMap_congr fun a ha => ?_
    rw [Watch.seen, Watch.seen, h _ (hwf.lt_next (tokens_ne_nil_of_armed ha))]
  · refine List.filterMap_congr fun m hm => ?_
    cases m with
    | reply rep =>
        rw [Msg.seen, Msg.seen, Request.seen, Request.seen,
          h _ (hwf.lt_next (tokens_ne_nil_of_reply hm))]
    | event eve q ctxs =>
        have hctxs : ctxs.filterMap nm' = ctxs.filterMap nm :=
          List.filterMap_congr fun x hx => h x (hwf.lt_next (tokens_ne_nil_of_event hm hx))
        rw [Msg.seen, Msg.seen, hctxs]

/-- The user makes a call. -/
lemma Seen.of_client (h : Seen V nm w w₁) (hwf : w.Wf) {c' c₁' : Client}
    (hc : Client.SeenAfter V nm w.client c' c₁') :
    ∃ nm', Seen V nm' { w with client := c' } { w₁ with client := c₁' } := by
  obtain ⟨nm', hold, hseen⟩ := hc
  obtain ⟨harmed, hinbox⟩ := hwf.filterMap_congr hold
  exact ⟨nm', h.tree, h.armed.trans harmed.symm, h.inbox.trans hinbox.symm, hseen⟩

/-! ## Changes of the tree -/

/-- Which watches are seen does not depend on what fires them. -/
lemma filter_filterMap_seen {p : Watch → Bool}
    (hp : ∀ a y, p { a with ctx := y } = p a) (armed : List Watch) :
    (armed.filterMap (Watch.seen nm)).filter p =
      (armed.filter p).filterMap (Watch.seen nm) := by
  rw [List.filter_filterMap, List.filterMap_filter]
  refine List.filterMap_congr fun a _ => ?_
  cases hx : nm a.ctx with
  | none => simp [Watch.seen, hx]
  | some y =>
      by_cases ha : p a = true <;> simp [Watch.seen, hx, Option.filter, hp, ha]

/-- The watchers of an event that are seen. -/
lemma collectWatchers_filterMap (eve : ZkEvent) (q : Path) (armed : List Watch) :
    collectWatchers eve q (armed.filterMap (Watch.seen nm)) =
      (collectWatchers eve q armed).filterMap nm := by
  rw [collectWatchers, collectWatchers, List.filterMap_flatMap]
  refine List.flatMap_congr fun tb _ => ?_
  rw [filter_filterMap_seen fun a y => rfl, List.map_filterMap, List.filterMap_map]
  refine List.filterMap_congr fun a _ => ?_
  rw [Watch.seen, Function.comp_apply]
  cases nm a.ctx <;> rfl

lemma armed_fire (w : World) (eve : ZkEvent) (q : Path) :
    (w.fire eve q).armed = w.armed.filter fun a => ¬ a.FiredBy eve q := by
  rcases fire_cases w eve q with ⟨heq, hnone⟩ | ⟨-, heq⟩
  · rw [heq]
    exact (List.filter_eq_self.mpr fun a ha => decide_eq_true (hnone a ha)).symm
  · rw [heq]

/-- The notification, unless it has no watchers. -/
def noticeOf (eve : ZkEvent) (q : Path) (ctxs : List Ptr) : Option Msg :=
  match ctxs with
  | [] => none
  | x :: xs => some (.event eve q (x :: xs))

lemma seen_event (eve : ZkEvent) (q : Path) (ctxs : List Ptr) :
    (Msg.event eve q ctxs).seen nm = noticeOf eve q (ctxs.filterMap nm) := rfl

lemma inbox_fire_eq (w : World) (eve : ZkEvent) (q : Path) : (w.fire eve q).inbox =
    w.inbox ++ (noticeOf eve q (collectWatchers eve q w.armed)).toList := by
  rw [World.fire]
  cases collectWatchers eve q w.armed with
  | nil => exact (List.append_nil _).symm
  | cons x xs => rfl

/-- A notification without watchers is not seen either. -/
lemma bind_noticeOf (eve : ZkEvent) (q : Path) (ctxs : List Ptr) :
    (noticeOf eve q ctxs).bind (Msg.seen nm) = noticeOf eve q (ctxs.filterMap nm) := by
  cases ctxs with
  | nil => rfl
  | cons x xs => rfl

lemma filterMap_noticeOf (eve : ZkEvent) (q : Path) (ctxs : List Ptr) :
    (noticeOf eve q ctxs).toList.filterMap (Msg.seen nm) =
      (noticeOf eve q (ctxs.filterMap nm)).toList := by
  rw [← bind_noticeOf]
  cases noticeOf eve q ctxs with
  | none => rfl
  | some m =>
      rw [Option.toList_some, Option.bind_some, List.filterMap_cons]
      cases m.seen nm <;> rfl

/-- An event fires the watches of the view in both. -/
lemma Seen.fire (h : Seen V nm w w₁) (eve : ZkEvent) (q : Path) :
    Seen V nm (w.fire eve q) (w₁.fire eve q) := by
  refine ⟨?_, ?_, ?_, ?_⟩
  · rw [tree_fire, tree_fire, h.tree]
  · rw [armed_fire, armed_fire, h.armed, filter_filterMap_seen fun a y => rfl]
  · rw [inbox_fire_eq, inbox_fire_eq, List.filterMap_append, h.inbox, h.armed,
      collectWatchers_filterMap, filterMap_noticeOf]
  · rw [client_fire, client_fire]
    exact h.client

lemma Seen.setTree (h : Seen V nm w w₁) (t : Tree) :
    Seen V nm { w with tree := t } { w₁ with tree := t } :=
  { h with tree := rfl }

/-- A change of the tree is the same change for both. -/
lemma Seen.external (h : Seen V nm w w₁) {a : Action} (ha : a.External)
    (hs : w.step a = some w') : ∃ w₁', w₁.step a = some w₁' ∧ Seen V nm w' w₁' := by
  cases a with
  | create q v =>
      obtain ⟨t, ht, rfl⟩ := Option.map_eq_some_iff.mp hs
      refine ⟨_, ?_, ((h.setTree t).fire .created q).fire .child (parentPath q)⟩
      rw [World.step, World.create, h.tree, ht, Option.map_some]
  | set q v =>
      obtain ⟨t, ht, rfl⟩ := Option.map_eq_some_iff.mp hs
      refine ⟨_, ?_, (h.setTree t).fire .changed q⟩
      rw [World.step, World.set, h.tree, ht, Option.map_some]
  | delete q =>
      obtain ⟨t, ht, rfl⟩ := Option.map_eq_some_iff.mp hs
      refine ⟨_, ?_, ((h.setTree t).fire .deleted q).fire .child (parentPath q)⟩
      rw [World.step, World.delete, h.tree, ht, Option.map_some]
  | _ => exact absurd ha id

/-! ## The server -/

/-- Which watch is taken does not depend on who it belongs to. -/
lemma mem_taken {r : Request} {a : Watch} : a ∈ w.taken r ↔
    a ∈ w.armed ∧ ∃ type, r.op = .removeWatchesOp type ∧ a.table ∈ type.tables ∧ a.path = r.path := by
  rw [taken]
  cases r.op with
  | removeWatchesOp type => simp
  | existsOp | getDataOp | getChildrenOp => simp

/-- The answer to a request of the view is the same for both. -/
lemma Seen.answer_eq (h : Seen V nm w w₁) (hwf : w.Wf) {r : Request} (hr : r ∈ w.client.sent)
    (hno : ¬ Crosses V w r) {y : Ptr} (hx : nm r.ctx = some y) :
    answer w₁.tree w₁.armed { r with ctx := y } =
      { answer w.tree w.armed r with req := { r with ctx := y } } := by
  have hmine := h.isMine (hwf.sent r hr).2
  rw [hx, Option.isSome_some] at hmine
  rw [Crosses, if_pos hmine] at hno
  have htaken : ∀ type, r.op = .removeWatchesOp type →
      w₁.armed.any (fun a => decide (a.table ∈ type.tables ∧ a.path = r.path)) =
        w.armed.any fun a => decide (a.table ∈ type.tables ∧ a.path = r.path) := by
    intro type hop
    rw [Bool.eq_iff_iff, h.armed]
    simp only [List.any_eq_true, decide_eq_true_eq, List.mem_filterMap]
    constructor
    · rintro ⟨_, ⟨a, ha, hseen⟩, hfor⟩
      obtain ⟨z, -, rfl⟩ := Option.map_eq_some_iff.mp hseen
      exact ⟨a, ha, hfor⟩
    · rintro ⟨a, ha, hfor⟩
      -- one of the watches that are taken belongs to the view
      have hne : w.taken r ≠ [] := List.ne_nil_of_mem (mem_taken.mpr ⟨ha, type, hop, hfor⟩)
      obtain ⟨b, hb, hbmine⟩ : ∃ b ∈ w.taken r, w.client.isMine V b.ctx = true := by
        simpa [hne] using hno
      obtain ⟨hbarmed, type', hop', hbfor⟩ := mem_taken.mp hb
      obtain rfl : type = type' := Op.removeWatchesOp.inj (hop.symm.trans hop')
      rw [h.isMine (hwf.armed b hbarmed), Option.isSome_iff_exists] at hbmine
      obtain ⟨z, hz⟩ := hbmine
      exact ⟨{ b with ctx := z }, ⟨b, hbarmed, by rw [Watch.seen, hz, Option.map_some]⟩, hbfor⟩
  rcases r with ⟨op, path, watch, ctx⟩
  rw [h.tree]
  cases op with
  | existsOp => rfl
  | getDataOp =>
      simp only [answer]
      cases w.tree.get path <;> rfl
  | getChildrenOp =>
      simp only [answer]
      split_ifs <;> rfl
  | removeWatchesOp type =>
      have hany := htaken type rfl
      simp only [answer] at hany ⊢
      rw [hany]
      split_ifs <;> rfl

/-- A request of the view is answered for both. -/
lemma Seen.serve_mine (h : Seen V nm w w₁) (hwf : w.Wf) {r : Request} {rs : List Request}
    (hsent : w.client.sent = r :: rs) (hno : ¬ Crosses V w r) {y : Ptr} (hx : nm r.ctx = some y) :
    ∃ w₁', World.step w₁ .serve = some w₁' ∧ Seen V nm { w with
      armed := activate w.armed (answer w.tree w.armed r)
      inbox := w.inbox ++ [.reply (answer w.tree w.armed r)]
      client := { w.client with sent := rs } } w₁' := by
  have hsent₁ := h.client.sent
  rw [hsent, List.filterMap_cons, Client.seen_of_some hx] at hsent₁
  have hstep : World.step w₁ .serve = some
      { w₁ with
        armed := activate w₁.armed (answer w₁.tree w₁.armed { r with ctx := y })
        inbox := w₁.inbox ++
          [.reply (answer w₁.tree w₁.armed { r with ctx := y })]
        client := { w₁.client with sent := rs.filterMap (Request.seen nm) } } := by
    change World.serve w₁ = _
    rw [World.serve, hsent₁]
  have hans := h.answer_eq hwf (hsent ▸ List.mem_cons_self) hno hx
  refine ⟨_, hstep, h.tree, ?_, ?_, { h.client with
    sent := rfl
    sent_lt := fun r' hr' => h.client.sent_lt r' (hsent ▸ List.mem_cons_of_mem _ hr') }⟩
  · dsimp only
    by_cases hop : ∃ type, r.op = .removeWatchesOp type
    · obtain ⟨type, hop⟩ := hop
      rw [activate_answer_removeWatchesOp _ _ hop,
        activate_answer_removeWatchesOp (r := { r with ctx := y }) _ _ hop, h.armed,
        filter_filterMap_seen fun a y => rfl]
    · have hop₁ : ∀ type, r.op ≠ .removeWatchesOp type := fun type hop' => hop ⟨type, hop'⟩
      rw [activate_answer (r := { r with ctx := y }) _ _ hop₁, activate_answer _ _ hop₁, hans,
        List.filterMap_append, h.armed]
      have htable : (Reply.table?
          { answer w.tree w.armed r with req := { r with ctx := y } }) =
          (answer w.tree w.armed r).table? := by
        rw [Reply.table?, Reply.table?, answer_req]
      rw [htable]
      cases (answer w.tree w.armed r).table? <;> simp [Watch.seen, hx]
  · dsimp only
    rw [hans, List.filterMap_append, h.inbox]
    simp [Msg.seen, Request.seen, hx]

/-- A request of another subscription takes no watch of the view away. -/
lemma Seen.serve_other (h : Seen V nm w w₁) (hwf : w.Wf) {r : Request} {rs : List Request}
    (hsent : w.client.sent = r :: rs) (hno : ¬ Crosses V w r) (hx : nm r.ctx = none) :
    Seen V nm { w with
      armed := activate w.armed (answer w.tree w.armed r)
      inbox := w.inbox ++ [.reply (answer w.tree w.armed r)]
      client := { w.client with sent := rs } } w₁ := by
  have hr : r ∈ w.client.sent := hsent ▸ List.mem_cons_self
  have hsent₁ := h.client.sent
  rw [hsent, List.filterMap_cons, Client.seen_of_none hx] at hsent₁
  refine ⟨h.tree, ?_, ?_, { h.client with
    sent := hsent₁
    sent_lt := fun r' hr' => h.client.sent_lt r' (hsent ▸ List.mem_cons_of_mem _ hr') }⟩
  · dsimp only
    by_cases hop : ∃ type, r.op = .removeWatchesOp type
    · obtain ⟨type, hop⟩ := hop
      have hother := h.isMine (hwf.sent r hr).2
      rw [hx, Option.isSome_none] at hother
      rw [Crosses, if_neg (by rw [hother]; exact Bool.false_ne_true)] at hno
      rw [activate_answer_removeWatchesOp _ _ hop, h.armed, List.filterMap_filter]
      refine List.filterMap_congr fun a ha => ?_
      split_ifs with hkeep
      · rfl
      · have hfor : a.table ∈ type.tables ∧ a.path = r.path := by simpa using hkeep
        have hnot : w.client.isMine V a.ctx ≠ true := fun hm =>
          hno ⟨a, mem_taken.mpr ⟨ha, type, hop, hfor⟩, hm⟩
        rw [h.isMine (hwf.armed a ha), ne_eq, Option.isSome_iff_ne_none, not_not] at hnot
        rw [Watch.seen, hnot]
        rfl
    · rw [h.armed, activate_answer _ _ fun type hop' => hop ⟨type, hop'⟩,
        List.filterMap_append]
      cases (answer w.tree w.armed r).table? <;> simp [Watch.seen, hx]
  · dsimp only
    rw [List.filterMap_append, h.inbox]
    simp [Msg.seen, Client.seen_of_none hx]

lemma Seen.serve (h : Seen V nm w w₁) (hwf : w.Wf)
    (hno : ∀ r ∈ w.client.sent.head?, ¬ Crosses V w r) (hs : w.serve = some w') :
    ∃ bs w₁', Runs World.step w₁ bs w₁' ∧ bs.filter Action.Outside = [] ∧ Seen V nm w' w₁' := by
  obtain ⟨r, rs, hsent, rfl⟩ := serve_cases hs
  have hr := hno r (by rw [hsent]; rfl)
  cases hx : nm r.ctx with
  | some y =>
      obtain ⟨w₁', hstep, hseen⟩ := h.serve_mine hwf hsent hr hx
      exact ⟨[.serve], w₁', Runs.single hstep, rfl, hseen⟩
  | none => exact ⟨[], w₁, .nil, rfl, h.serve_other hwf hsent hr hx⟩

/-! ## The client -/

lemma Seen.deliver (h : Seen V nm w w₁) (hwf : w.Wf) (hs : w.deliver = some w') :
    ∃ bs nm' w₁', Runs World.step w₁ bs w₁' ∧ bs.filter Action.Outside = [] ∧
      Seen V nm' w' w₁' := by
  obtain ⟨m, ms, hin, rfl⟩ := deliver_cases hs
  have hm : m ∈ w.inbox := hin ▸ List.mem_cons_self
  have hinbox := h.inbox
  rw [hin, List.filterMap_cons] at hinbox
  have hproc := h.client.process m (by
    cases m with
    | reply rep => exact hwf.lt_next (tokens_ne_nil_of_reply hm)
    | event eve q ctxs => exact fun x hx => hwf.lt_next (tokens_ne_nil_of_event hm hx))
  cases hseen : m.seen nm with
  | some m' =>
      rw [hseen] at hinbox hproc
      have hstep : World.step w₁ .deliver = some
          { w₁ with inbox := ms.filterMap (Msg.seen nm), client := w₁.client.process m' } := by
        change World.deliver w₁ = _
        rw [World.deliver, hinbox]
      have hpop : Seen V nm { w with inbox := ms }
          { w₁ with inbox := ms.filterMap (Msg.seen nm) } := { h with inbox := rfl }
      obtain ⟨nm', hnext⟩ := hpop.of_client (hwf.pop hin) hproc
      exact ⟨[.deliver], nm', _, Runs.single hstep, rfl, hnext⟩
  | none =>
      rw [hseen] at hinbox hproc
      have hpop : Seen V nm { w with inbox := ms } w₁ := { h with inbox := hinbox }
      obtain ⟨nm', hnext⟩ := hpop.of_client (hwf.pop hin) hproc
      exact ⟨[], nm', w₁, .nil, rfl, hnext⟩

/-! ## A lost connection -/

lemma answered_filterMap (ms : List Msg) :
    answered (ms.filterMap (Msg.seen nm)) = (answered ms).filterMap (Request.seen nm) := by
  rw [answered, answered, List.filterMap_filterMap, List.filterMap_filterMap]
  refine List.filterMap_congr fun m _ => ?_
  cases m with
  | reply rep =>
      rw [Msg.seen, Option.bind_some]
      cases rep.req.seen nm <;> rfl
  | event eve q ctxs =>
      rw [Msg.seen, Option.bind_none]
      cases ctxs.filterMap nm <;> rfl

/-- The objects of failed requests that are seen. -/
lemma ctxs_filterMap (rs : List Request) :
    (rs.filterMap (Request.seen nm)).map Request.ctx = (rs.map Request.ctx).filterMap nm := by
  rw [List.map_filterMap, List.filterMap_map]
  refine List.filterMap_congr fun r _ => ?_
  rw [Request.seen, Function.comp_apply]
  cases nm r.ctx <;> rfl

lemma failed_filterMap (rs : List Request) (rc : ZooError) :
    (rs.map fun r => Msg.reply { req := r, rc := rc }).filterMap (Msg.seen nm) =
      (rs.filterMap (Request.seen nm)).map fun r => Msg.reply { req := r, rc := rc } := by
  rw [List.map_filterMap, List.filterMap_map]
  refine List.filterMap_congr fun r _ => ?_
  rw [Function.comp_apply, Msg.seen]

section Gone

variable {gone : List Ptr} (hinj : ∀ x x' y, nm x = some y → nm x' = some y → x = x')
include hinj

lemma mem_filterMap_iff {x y : Ptr} (hx : nm x = some y) :
    y ∈ gone.filterMap nm ↔ x ∈ gone := by
  rw [List.mem_filterMap]
  constructor
  · rintro ⟨x', hx', hy⟩
    exact hinj x' x y hy hx ▸ hx'
  · exact fun hmem => ⟨x, hmem, hx⟩

lemma filter_gone_filterMap (ctxs : List Ptr) :
    (ctxs.filterMap nm).filter (· ∉ gone.filterMap nm) =
      (ctxs.filter (· ∉ gone)).filterMap nm := by
  rw [List.filter_filterMap, List.filterMap_filter]
  refine List.filterMap_congr fun x _ => ?_
  cases hx : nm x with
  | none => simp
  | some y =>
      have hiff : y ∈ gone.filterMap nm ↔ x ∈ gone := mem_filterMap_iff hinj hx
      by_cases hmem : x ∈ gone
      · simp [Option.filter, hiff.mpr hmem, hmem]
      · simp [Option.filter, hmem, mt hiff.mp hmem]

lemma armed_gone_filterMap (armed : List Watch) :
    ((armed.filterMap (Watch.seen nm)).filter fun a => a.ctx ∉ gone.filterMap nm) =
      (armed.filter fun a => a.ctx ∉ gone).filterMap (Watch.seen nm) := by
  rw [List.filter_filterMap, List.filterMap_filter]
  refine List.filterMap_congr fun a _ => ?_
  cases hx : nm a.ctx with
  | none => simp [Watch.seen, hx]
  | some y =>
      have hiff : y ∈ gone.filterMap nm ↔ a.ctx ∈ gone := mem_filterMap_iff hinj hx
      by_cases hmem : a.ctx ∈ gone
      · simp [Watch.seen, hx, Option.filter, hiff.mpr hmem, hmem]
      · simp [Watch.seen, hx, Option.filter, hmem, mt hiff.mp hmem]

end Gone

lemma restored_noticeOf (c : Client) (gone : List Ptr) (eve : ZkEvent) (q : Path) (ctxs : List Ptr) :
    restored c gone (noticeOf eve q ctxs).toList =
      (ctxs.filter (· ∉ gone)).map fun x => ⟨tableOf c eve x, q, x⟩ := by
  cases ctxs with
  | nil => rfl
  | cons x ctxs => exact List.append_nil _

/-- The watches that are restored of one lost notification. -/
lemma Seen.restored_event (h : Seen V nm w w₁) (gone : List Ptr) (eve : ZkEvent) (q : Path)
    (ctxs : List Ptr) :
    restored w₁.client (gone.filterMap nm) ((Msg.event eve q ctxs).seen nm).toList =
      (restored w.client gone [.event eve q ctxs]).filterMap (Watch.seen nm) := by
  rw [seen_event, restored_noticeOf, filter_gone_filterMap h.client.inj, restored,
    List.flatMap_singleton, List.map_filterMap, List.filterMap_map]
  refine List.filterMap_congr fun x _ => ?_
  rw [Function.comp_apply, Watch.seen]
  cases hx : nm x with
  | none => rfl
  | some y => rw [Option.map_some, Option.map_some, tableOf, tableOf, h.client.heap x y hx]

/-- The watches that are restored of the lost notifications that are seen. -/
lemma Seen.restored_eq (h : Seen V nm w w₁) (gone : List Ptr) (ms : List Msg) :
    restored w₁.client (gone.filterMap nm) (ms.filterMap (Msg.seen nm)) =
      (restored w.client gone ms).filterMap (Watch.seen nm) := by
  induction ms with
  | nil => rfl
  | cons m ms ih =>
      rw [restored_cons w.client, List.filterMap_append, ← ih, List.filterMap_cons]
      cases m with
      | reply rep =>
          rw [Msg.seen]
          cases rep.req.seen nm <;> rfl
      | event eve q ctxs =>
          rw [← h.restored_event]
          cases (Msg.event eve q ctxs).seen nm with
          | none => rfl
          | some m' => exact restored_cons _ _ _ _

/-- The requests fail for both, and the watches of the lost notifications are back. -/
lemma Seen.failed (h : Seen V nm w w₁) (kept lost : List Msg) (rc : ZooError) :
    Seen V nm (w.failed kept lost rc)
      (w₁.failed (kept.filterMap (Msg.seen nm)) (lost.filterMap (Msg.seen nm)) rc) := by
  have hinj := h.client.inj
  refine ⟨h.tree, ?_, ?_, { h.client with sent := rfl, sent_lt := by simp [World.failed] }⟩
  · rw [World.failed, World.failed]
    dsimp only
    rw [answered_filterMap, ctxs_filterMap, h.armed, armed_gone_filterMap hinj, h.restored_eq,
      List.filterMap_append]
  · rw [World.failed, World.failed]
    dsimp only
    rw [answered_filterMap, h.client.sent, ← List.filterMap_append, ← failed_filterMap,
      ← List.filterMap_append]

/-- An event at a path on which the view has no watch is not seen. -/
lemma Seen.fire_other (h : Seen V nm w w₁) (eve : ZkEvent) {q : Path}
    (hno : ∀ b ∈ w.armed, b.path = q → nm b.ctx = none) : Seen V nm (w.fire eve q) w₁ := by
  refine ⟨?_, ?_, ?_, ?_⟩
  · rw [tree_fire, h.tree]
  · rw [armed_fire, h.armed, List.filterMap_filter]
    refine List.filterMap_congr fun b hb => ?_
    split_ifs with hkeep
    · rfl
    · have hfired : b.FiredBy eve q := by simpa using hkeep
      rw [Watch.seen, hno b hb hfired.2]
      rfl
  · have hnil : (collectWatchers eve q w.armed).filterMap nm = [] := by
      refine List.filterMap_eq_nil_iff.mpr fun x hx => ?_
      obtain ⟨b, hb, hfired, rfl⟩ := mem_collectWatchers.mp hx
      exact hno b hb hfired.2
    rw [inbox_fire_eq, List.filterMap_append, filterMap_noticeOf, hnil, h.inbox]
    exact (List.append_nil _).symm
  · rw [client_fire]
    exact h.client

lemma mem_armed_setAgain {a b : Watch} (hb : b ∈ (w.setAgain a).armed) : b ∈ w.armed := by
  rw [World.setAgain] at hb
  split at hb
  · exact (mem_armed_fire.mp hb).1
  · exact hb

/-- A watch of the view is set again for both. -/
lemma Seen.setAgain (h : Seen V nm w w₁) (a : Watch) (y : Ptr) :
    Seen V nm (w.setAgain a) (w₁.setAgain { a with ctx := y }) := by
  have hagain : eventAgain w₁.tree { a with ctx := y } = eventAgain w.tree a := by
    rw [h.tree]
    rfl
  rw [World.setAgain, World.setAgain, hagain]
  split
  · exact h.fire _ _
  · exact h

/-- Another watch is set again, on a path on which the view has none. -/
lemma Seen.setAgain_other (h : Seen V nm w w₁) {a : Watch}
    (hno : ∀ b ∈ w.armed, b.path = a.path → nm b.ctx = none) : Seen V nm (w.setAgain a) w₁ := by
  rw [World.setAgain]
  split
  · exact h.fire_other _ hno
  · exact h

/-- The watches of the view are set again for both, in one order. -/
lemma Seen.setAgain_foldl (order : List Watch) (h : Seen V nm w w₁)
    (hno : ∀ a ∈ order, nm a.ctx = none → ∀ b ∈ w.armed, b.path = a.path → nm b.ctx = none) :
    Seen V nm (order.foldl World.setAgain w)
      ((order.filterMap (Watch.seen nm)).foldl World.setAgain w₁) := by
  induction order generalizing w w₁ with
  | nil => exact h
  | cons a order ih =>
      have hrest : ∀ a' ∈ order, nm a'.ctx = none → ∀ b ∈ (w.setAgain a).armed,
          b.path = a'.path → nm b.ctx = none := fun a' ha' hx b hb =>
        hno a' (List.mem_cons_of_mem _ ha') hx b (mem_armed_setAgain hb)
      rw [List.foldl_cons, List.filterMap_cons, Watch.seen]
      cases hx : nm a.ctx with
      | none => exact ih (h.setAgain_other (hno a List.mem_cons_self hx)) hrest
      | some y => exact ih (h.setAgain a y) hrest

/-- The connection is lost for both at once. -/
lemma Seen.loss (h : Seen V nm w w₁) (hwf : w.Wf) {n : ℕ} {order : List Watch}
    (hno : ¬ Mixes V w order) (hs : w.loss n order = some w') :
    ∃ n₁ order₁ w₁', w₁.loss n₁ order₁ = some w₁' ∧ Seen V nm w' w₁' := by
  obtain ⟨kept, lost, hin, -, hrem, horder, rfl⟩ := loss_cases hs
  have hin₁ : kept.filterMap (Msg.seen nm) ++ lost.filterMap (Msg.seen nm) = w₁.inbox := by
    rw [h.inbox, ← hin, List.filterMap_append]
  have hrem₁ : ∀ r ∈ answered (lost.filterMap (Msg.seen nm)) ++ w₁.client.sent, ∀ type,
      r.op ≠ .removeWatchesOp type := by
    intro r₁ hr₁ type
    rw [answered_filterMap, h.client.sent, ← List.filterMap_append] at hr₁
    obtain ⟨r, hr, hseen⟩ := List.mem_filterMap.mp hr₁
    obtain ⟨y, -, rfl⟩ := Option.map_eq_some_iff.mp hseen
    exact hrem r hr type
  have horder₁ : (order.filterMap (Watch.seen nm)).Perm (restored w₁.client
      ((answered (lost.filterMap (Msg.seen nm))).map Request.ctx)
        (lost.filterMap (Msg.seen nm))) := by
    rw [answered_filterMap, ctxs_filterMap, h.restored_eq]
    exact horder.filterMap _
  refine ⟨_, _, _, loss_of_append hin₁ hrem₁ horder₁,
    (h.failed kept lost .zconnectionloss).setAgain_foldl order fun a ha hx b hb hpath => ?_⟩
  have hwf' := hwf.failed hin fails_zconnectionloss
  have hback : ∀ {a : Watch}, a ∈ order → a ∈ (w.failed kept lost .zconnectionloss).armed :=
    fun ha => List.mem_append_right _ (horder.subset ha)
  have hmine : ∀ {a : Watch}, a ∈ (w.failed kept lost .zconnectionloss).armed →
      w.client.isMine V a.ctx = (nm a.ctx).isSome := fun ha => h.isMine (hwf'.armed _ ha)
  by_contra hb'
  refine hno ⟨a, ha, by rw [hmine (hback ha), hx]; rfl, b, ?_, hpath, ?_⟩
  · rcases List.mem_append.mp hb with hb | hb
    · exact List.mem_append_left _ (List.mem_of_mem_filter hb)
    · exact List.mem_append_right _ (horder.symm.subset hb)
  · rw [hmine hb]
    exact Option.isSome_iff_ne_none.mpr hb'

/-! ## Every run -/

lemma Seen.start (V : View) (t : Tree) : Seen V (fun _ => none) (start t) (start t) where
  tree := rfl
  armed := rfl
  inbox := rfl
  client :=
    { sent := rfl
      sent_lt := by simp [World.start, Client.init]
      heap := by simp
      lt := by simp
      inj := by simp
      obj := by simp [World.start, Client.init]
      releaser := by simp
      releaser_lt := by simp [World.start, Client.init]
      lastSubPath := fun _ _ => rfl
      calls := rfl }

/-- A call of the user is the same call, or none. -/
lemma Seen.of_call (h : Seen V nm w w₁) (hwf : w.Wf) {a : Action} {cb : Cb}
    {f : Client → Client} (hs₁ : World.step w₁ a = some { w₁ with client := f w₁.client })
    (ha : a.Outside = true) (hcb : a.Concerns V = V.mine cb)
    (hf : Client.SeenAfter V nm w.client (f w.client)
      (if V.mine cb = true then f w₁.client else w₁.client)) :
    ∃ bs nm' w₁', Runs World.step w₁ bs w₁' ∧
      bs.filter Action.Outside = [a].filter (Action.Concerns V) ∧
      Seen V nm' { w with client := f w.client } w₁' := by
  obtain ⟨nm', hseen⟩ := h.of_client hwf hf
  by_cases hmine : V.mine cb = true
  · rw [if_pos hmine] at hseen
    exact ⟨[a], nm', _, Runs.single hs₁, by simp [ha, hcb, hmine], hseen⟩
  · rw [if_neg hmine] at hseen
    exact ⟨[], nm', w₁, .nil, by simp [hcb, hmine], hseen⟩

/-- A step of the session is one step of the session alone, or none. -/
lemma Seen.step (h : Seen V nm w w₁) (hwf : w.Wf) {a : Action} (hno : ¬ Interferes V w a)
    (hs : w.step a = some w') :
    ∃ bs nm' w₁', Runs World.step w₁ bs w₁' ∧
      bs.filter Action.Outside = [a].filter (Action.Concerns V) ∧ Seen V nm' w' w₁' := by
  cases a with
  | create q v =>
      obtain ⟨w₁', hs₁, hseen⟩ := h.external (a := .create q v) trivial hs
      exact ⟨[.create q v], nm, w₁', Runs.single hs₁, rfl, hseen⟩
  | set q v =>
      obtain ⟨w₁', hs₁, hseen⟩ := h.external (a := .set q v) trivial hs
      exact ⟨[.set q v], nm, w₁', Runs.single hs₁, rfl, hseen⟩
  | delete q =>
      obtain ⟨w₁', hs₁, hseen⟩ := h.external (a := .delete q) trivial hs
      exact ⟨[.delete q], nm, w₁', Runs.single hs₁, rfl, hseen⟩
  | watchPath p cb =>
      obtain rfl := Option.some.inj hs
      exact h.of_call hwf (f := (·.watchPath p cb)) rfl rfl rfl
        (h.client.watchPath p cb)
  | watchSubPath p cb =>
      obtain rfl := Option.some.inj hs
      exact h.of_call hwf (f := (·.watchSubPath p cb)) rfl rfl rfl
        (h.client.watchSubPath p cb (not_not.mp hno))
  | asyncRemoveWatches p type cb =>
      obtain rfl := Option.some.inj hs
      refine h.of_call hwf (f := (·.asyncRemoveWatches p type cb)) rfl rfl rfl
        (h.client.asyncRemoveWatches p type cb fun hother htype => ?_)
      exact Bool.not_eq_true _ ▸ fun hside => hno ⟨hother, htype, hside⟩
  | serve =>
      obtain ⟨bs, w₁', hrun, hbs, hseen⟩ := h.serve hwf (fun r hr hc => hno ⟨r, hr, hc⟩) hs
      exact ⟨bs, nm, w₁', hrun, hbs, hseen⟩
  | deliver =>
      obtain ⟨bs, nm', w₁', hrun, hbs, hseen⟩ := h.deliver hwf hs
      exact ⟨bs, nm', w₁', hrun, hbs, hseen⟩
  | loss n order =>
      obtain ⟨n₁, order₁, w₁', hs₁, hseen⟩ := h.loss hwf hno hs
      exact ⟨[.loss n₁ order₁], nm, w₁', Runs.single hs₁, rfl, hseen⟩

lemma flatMap_filter_singleton {α : Type*} (p : α → Bool) (l : List α) :
    l.flatMap (fun a => [a].filter p) = l.filter p := by
  induction l with
  | nil => rfl
  | cons a l ih =>
      rw [List.flatMap_cons, ih]
      by_cases ha : p a = true <;> simp [ha]

/-- The session seen from the view is a simulation. -/
lemma simulates_seen (V : View) : Simulates World.step World.step
    (fun a => [a].filter (Action.Concerns V)) (fun a => [a].filter Action.Outside)
    (Interferes V) (fun w w₁ => w.Wf ∧ ∃ nm, Seen V nm w w₁) := by
  rintro w w₁ a w' ⟨hwf, nm, h⟩ hno hs
  obtain ⟨bs, nm', w₁', hrun, hbs, hseen⟩ := h.step hwf hno hs
  refine ⟨bs, w₁', hrun, ?_, hwf.step hs, nm', hseen⟩
  rw [flatMap_filter_singleton, hbs]

/-- What can be told of a session from the view. -/
structure Looks (V : View) (w w₁ : World) : Prop where
  tree : w₁.tree = w.tree
  calls : w₁.client.calls = w.client.calls.filter fun k => V.mine k.cb
  armed : (w₁.armed.map fun a => (a.table, a.path)) =
    (w.armed.filter fun a => w.client.isMine V a.ctx).map fun a => (a.table, a.path)
  quiescent : w.Quiescent → w₁.Quiescent

lemma Seen.looks (h : Seen V nm w w₁) (hwf : w.Wf) : Looks V w w₁ := by
  refine ⟨h.tree, h.client.calls, ?_, fun hq => ?_⟩
  · rw [h.armed, List.map_filterMap, ← List.filterMap_eq_map, List.filterMap_filter]
    refine List.filterMap_congr fun a ha => ?_
    obtain ⟨d, hd, -⟩ := hwf.armed a ha
    rw [Client.isMine, hd, Option.any_some, (h.client.obj _ d hd).2, Watch.seen]
    cases nm a.ctx <;> rfl
  · rw [Quiescent, h.client.sent, h.inbox, hq.1, hq.2]
    exact ⟨rfl, rfl⟩

/-- Without interference a run looks like a run in which the other subscriptions are not
made at all. -/
theorem alone {t : Tree} {acts : List Action} (h : Runs World.step (start t) acts w)
    (hno : ¬ Occurs World.step (start t) (Interferes V) acts) :
    ∃ acts₁ w₁, Runs World.step (start t) acts₁ w₁ ∧
      acts₁.filter Action.Outside = acts.filter (Action.Concerns V) ∧ Looks V w w₁ := by
  obtain ⟨acts₁, w₁, hrun, hacts, hwf, nm, hseen⟩ :=
    (simulates_seen V).runs ⟨wf_start t, _, Seen.start V t⟩ h hno
  rw [flatMap_filter_singleton, flatMap_filter_singleton] at hacts
  exact ⟨acts₁, w₁, hrun, hacts, hseen.looks hwf⟩

/-- The callback `0` watches `/p`. -/
def viewZero : View where
  mine cb := cb == 0
  side _ := false

/-- `/p` and the children of `/q` are watched; `/p` is created, the connection breaks before the
notification arrives, and both are let go again. -/
def mixed : List Action :=
  [.watchPath ['/', 'p'] 0, .watchSubPath ['/', 'q'] 1, .serve, .serve, .deliver, .deliver, .serve,
    .deliver, .create ['/', 'p'] none, .loss 0 [⟨.exist, ['/', 'p'], 0⟩], .deliver, .serve,
    .deliver, .serve, .deliver, .asyncRemoveWatches ['/', 'q'] .watchSubPath 2, .serve, .deliver,
    .asyncRemoveWatches ['/', 'p'] .watchPath 0, .serve, .deliver]

theorem alone_mixed : ∃ w, Runs World.step (start Tree.empty) mixed w ∧
    ∃ acts₁ w₁, Runs World.step (start Tree.empty) acts₁ w₁ ∧
      acts₁.filter Action.Outside = [.watchPath ['/', 'p'] 0, .create ['/', 'p'] none,
        .asyncRemoveWatches ['/', 'p'] .watchPath 0] ∧
      Looks viewZero w w₁ := by
  obtain ⟨w, hw⟩ := Option.isSome_iff_exists.mp (by decide :
    (exec World.step (fun w a => ¬ Interferes viewZero w a) (start Tree.empty) mixed).isSome)
  obtain ⟨hrun, hno⟩ := not_occurs_of_exec hw
  exact ⟨w, hrun, alone hrun hno⟩

end World

end ConfigMonitor
