/-
# The calls a quiet session is going to make

While the tree does not change and nothing is removed, each request in flight of a subscription
leads to certain calls of its callback: a read to one, an exists request or a listing to one for
each child that `last_sub_path_` does not have.  What has been called and what is still owed
together stay the same, so that at rest everything owed has been called, once.
-/
import ConfigMonitor.WatchSubPath.Session

namespace ConfigMonitor

namespace Resubscribe

open WatchSubPath

/-! ## What an object owes -/

/-- The values of the children of `p` that are not in `last_sub_path_[p]`. -/
def newPicture (t : Tree) (c : Client) (cb : Cb) (p : Path) : List Call :=
  if (t.get p).isSome then
    (fresh c p (t.children p)).filterMap fun s =>
      (t.get (subPath p s)).map (changedAt cb (subPath p s))
  else []

/-- The value of the node at `p`, if it is there. -/
def valueOf (t : Tree) (cb : Cb) (p : Path) : List Call :=
  ((t.get p).map (Call.watch cb p .changed)).toList

/-- The calls that a request for the object leads to. -/
def owes (t : Tree) (c : Client) : Userdata → List Call
  | .existsData { cb := .watchPath cb p, eve := _ } => valueOf t cb p
  | .existsData { cb := .watchSubPath cb pfx, eve := _ } => newPicture t c cb pfx
  | .wget { cb := .watchPath cb p, path := _, advanced := _, eve := _ } => valueOf t cb p
  | .wget { cb := .monitor cb _, path := path, advanced := _, eve := _ } =>
      ((t.get path).map (changedAt cb path)).toList
  | .getChildren { cb := .watchSubPath cb pfx, path := _, advanced := _ } =>
      newPicture t c cb pfx
  | .getChildren { cb := .removeWatches _ _, path := _, advanced := _ } => []
  | .operate _ | .removeChain _ _ => []

/-- The object belongs to a subscription, and no notification has reached it. -/
def Untouched : Userdata → Prop
  | .existsData d => d.eve = .dummy
  | .wget d => d.eve = .dummy
  | .getChildren { cb := .watchSubPath _ _, path := _, advanced := _ } => True
  | .getChildren { cb := .removeWatches _ _, path := _, advanced := _ } => False
  | .operate _ | .removeChain _ _ => False

/-- The path whose children a request for the object is going to list. -/
def lists : Userdata → Option Path
  | .existsData { cb := .watchSubPath _ pfx, eve := _ } => some pfx
  | .getChildren { cb := .watchSubPath _ pfx, path := _, advanced := _ } => some pfx
  | _ => none

/-- The calls that a request for the object at `x` leads to. -/
def owesAt (t : Tree) (c : Client) (x : Ptr) : List Call :=
  match c.heap x with
  | some d => owes t c d
  | none => []

/-- The path whose children a request for the object at `x` is going to list. -/
def listsAt (c : Client) (x : Ptr) : Option Path := (c.heap x).bind lists

/-- The callback of the exists object at `x`. -/
def existsAt (c : Client) (x : Ptr) : Option ExistsCallback :=
  match c.heap x with
  | some (.existsData d) => some d.cb
  | _ => none

variable {t : Tree} {c c' : Client} {cb : Cb} {p q : Path} {x : Ptr} {d : Userdata}

lemma owesAt_eq (h : c.heap x = some d) : owesAt t c x = owes t c d := by
  rw [owesAt, h]

lemma listsAt_eq (h : c.heap x = some d) : listsAt c x = lists d := by
  rw [listsAt, h, Option.bind_some]

/-- What is owed for another path does not depend on a listing. -/
lemma owes_congr (h : ∀ p, lists d = some p → c'.lastSubPath.lookup p = c.lastSubPath.lookup p) :
    owes t c' d = owes t c d := by
  have hpic : ∀ cb p, lists d = some p → newPicture t c' cb p = newPicture t c cb p := by
    intro cb p hp
    rw [newPicture, newPicture, fresh, fresh, h p hp]
  cases d with
  | existsData d =>
      rcases d with ⟨cb | ⟨cb, pfx⟩, eve⟩
      · rfl
      · exact hpic cb pfx rfl
  | wget d => rcases d with ⟨_ | _, path, adv, eve⟩ <;> rfl
  | getChildren d =>
      rcases d with ⟨⟨cb, pfx⟩ | _, path, adv⟩
      · exact hpic cb pfx rfl
      · rfl
  | operate cb => rfl
  | removeChain cb subs => rfl

/-! ## A completion pays what its object owes, or passes it on -/

/-- The client `c'` has been told of, or is going to ask for, what the object at `x` owed. -/
structure Pays (t : Tree) (c : Client) (x : Ptr) (c' : Client) : Prop where
  calls : ∃ rs ks, c'.sent = c.sent ++ rs ∧ c'.calls = c.calls ++ ks ∧
    ks ++ rs.flatMap (fun r => owesAt t c' r.ctx) = owesAt t c x ∧
    (∀ r ∈ rs, c'.Holds r.ctx Untouched ∧ existsAt c' r.ctx = none) ∧
    (rs.filterMap fun r => listsAt c' r.ctx).Sublist (listsAt c x).toList
  last : ∀ p, listsAt c x ≠ some p → c'.lastSubPath.lookup p = c.lastSubPath.lookup p

/-- A new object and its request. -/
lemma pays_alloc_send (h : owesAt t c x = owes t c d) (hd : Untouched d)
    (hex : ∀ e, d ≠ .existsData e)
    (hl : lists d = none ∨ lists d = listsAt c x) {r : Request} (hctx : r.ctx = c.next)
    (hpath : isValidPath r.path false = false → owesAt t c x = []) :
    Pays t c x ((c.alloc d).send r) := by
  have hheap : ((c.alloc d).send r).heap r.ctx = some d := by
    rw [Client.heap_send, Client.heap_alloc, hctx, Function.update_self]
  have hlast : ((c.alloc d).send r).lastSubPath = c.lastSubPath := by
    rw [Client.lastSubPath_send, Client.lastSubPath_alloc]
  refine ⟨?_, fun p _ => by rw [hlast]⟩
  by_cases hv : isValidPath r.path false = true
  · refine ⟨[r], [], Client.sent_send_of_valid _ hv, ?_, ?_, ?_, ?_⟩
    · rw [Client.calls_send, Client.calls_alloc, List.append_nil]
    · rw [List.nil_append, List.flatMap_singleton, owesAt_eq hheap, h]
      exact owes_congr fun p _ => by rw [hlast]
    · intro r' hr'
      rw [List.mem_singleton.mp hr']
      refine ⟨⟨d, hheap, hd⟩, ?_⟩
      rw [existsAt, hheap]
      cases d with
      | existsData e => exact absurd rfl (hex e)
      | _ => rfl
    · rw [List.filterMap_cons, listsAt_eq hheap, List.filterMap_nil]
      rcases hl with hl | hl
      · rw [hl]
        exact List.nil_sublist _
      · rw [hl]
        cases listsAt c x <;> exact List.Sublist.refl _
  · refine ⟨[], [], ?_, ?_, ?_, by simp, List.nil_sublist _⟩
    · rw [Client.send, if_neg hv, Client.sent_alloc, List.append_nil]
    · rw [Client.calls_send, Client.calls_alloc, List.append_nil]
    · rw [hpath (by simpa using hv)]
      rfl

lemma Pays.emplace (h : Pays t c x c') (y : Ptr) : Pays t c x (c'.emplace y) :=
  ⟨h.calls, h.last⟩

/-- The object owes nothing, and nothing is done. -/
lemma pays_refl (h : owesAt t c x = []) : Pays t c x c :=
  ⟨⟨[], [], by simp, by simp, by simpa using h.symm, by simp, List.nil_sublist _⟩, fun _ _ => rfl⟩

/-- The object owes one call, which is made. -/
lemma pays_call {k : Call} (h : owesAt t c x = [k]) : Pays t c x (c.call k) :=
  ⟨⟨[], [k], (List.append_nil _).symm, rfl, by simpa using h.symm, by simp, List.nil_sublist _⟩,
    fun _ _ => rfl⟩

/-- An object with no request in flight is destroyed. -/
lemma Pays.free (h : Pays t c x c') {y : Ptr} (hsent : c'.sent = c.sent) :
    Pays t c x (c'.free y) := by
  obtain ⟨rs, ks, hrs, hks, hpay, -, -⟩ := h.calls
  obtain rfl : rs = [] := by
    rw [hsent] at hrs
    exact List.append_right_eq_self.mp hrs.symm
  exact ⟨⟨[], ks, by rw [Client.sent_free, hsent, List.append_nil],
    by rw [Client.calls_free, hks], hpay, by simp, List.nil_sublist _⟩, h.last⟩

/-! ## The completions -/

/-- The answer is the one of the tree. -/
def Answers (t : Tree) (rep : Reply) : Prop := rep = answer t [] rep.req

lemma value_eq_nil {α : Type} {f : Data → α} (h : isValidPath q false = false) :
    ((t.get q).map f).toList = [] := by
  cases hq : t.get q with
  | none => rfl
  | some v =>
      rw [Tree.isValidPath_of_get (t := t) (by rw [hq]; rfl)] at h
      simp at h

lemma newPicture_eq_nil (h : isValidPath p false = false) : newPicture t c cb p = [] := by
  rw [newPicture, if_neg]
  intro hsome
  rw [Tree.isValidPath_of_get hsome] at h
  simp at h

/-- The completion of an exists request starts a read or a listing. -/
lemma pays_runExists {d : ExistsUserdata} {rep : Reply} (hd : c.heap x = some (.existsData d))
    (hdummy : d.eve = .dummy) (hfor : Userdata.For rep.req (.existsData d))
    (hans : Answers t rep) : Pays t c x (c.runExists d.cb rep.rc d.eve) := by
  rcases d with ⟨⟨cb, p⟩ | ⟨cb, p⟩, eve⟩
  · obtain rfl : eve = .dummy := hdummy
    rw [Client.runExists, if_neg (by simp), if_pos (Or.inl rfl), Client.asyncGetPathValue,
      if_neg (by simp), Client.zooAwget]
    refine pays_alloc_send (d := .wget { cb := .watchPath cb p, path := p, advanced := false })
      ((owesAt_eq hd).trans rfl) rfl (by simp) (Or.inl rfl) rfl fun hv => ?_
    rw [owesAt_eq hd]
    exact value_eq_nil hv
  · obtain rfl : eve = .dummy := hdummy
    have hpath : p = rep.req.path := hfor.2.1
    have hrc : rep.rc = if (t.get p).isSome then .zok else .znonode := by
      rw [hans, answer_existsOp hfor.1, ← hpath]
    rw [Client.runExists, hrc]
    by_cases hsome : (t.get p).isSome
    · rw [if_pos hsome, if_neg (by simp), if_neg (by simp), Client.asyncGetSubPath, if_pos rfl,
        Client.zooAwgetChildren2]
      refine (pays_alloc_send
        (d := .getChildren { cb := .watchSubPath cb p, path := p, advanced := true })
        ((owesAt_eq hd).trans rfl) trivial (by simp) (Or.inr (listsAt_eq hd).symm) rfl
        fun hv => ?_).emplace _
      rw [owesAt_eq hd]
      exact newPicture_eq_nil hv
    · rw [if_neg hsome, if_pos (by simp)]
      refine pays_refl ?_
      rw [owesAt_eq hd, owes, newPicture, if_neg hsome]

/-- The completion of a read makes the call. -/
lemma pays_runGet {d : WgetUserdata} {rep : Reply} (hd : c.heap x = some (.wget d))
    (hwf : (Userdata.wget d).Wf) (hdummy : d.eve = .dummy)
    (hfor : Userdata.For rep.req (.wget d)) (hans : Answers t rep) :
    Pays t c x (c.runGet d.cb rep.rc d.eve d.path rep.val) := by
  have hpath : d.path = rep.req.path := hfor.2.1
  rw [hans, answer_getDataOp hfor.1, ← hpath, hdummy]
  rcases d with ⟨⟨cb, p⟩ | ⟨cb, p⟩, path, adv, eve⟩
  · obtain rfl : path = p := hwf.1
    cases hget : t.get path with
    | none =>
        exact pays_refl (by rw [owesAt_eq hd, owes, valueOf, hget]; rfl)
    | some v =>
        exact pays_call (by rw [owesAt_eq hd, owes, valueOf, hget]; rfl)
  · cases hget : t.get path with
    | none =>
        exact pays_refl (by rw [owesAt_eq hd, owes, hget]; rfl)
    | some v =>
        exact pays_call (by rw [owesAt_eq hd, owes, hget]; rfl)

/-- The requests for the children of a listing, one for each. -/
lemma monitor_foldl_requests (cb : Cb) (p : Path) (subs : List Str) (c : Client) :
    ∃ rs, (subs.foldl (fun c s => c.monitor cb p (subPath p s)) c).sent = c.sent ++ rs ∧
      List.Forall₂ (fun s r =>
        (subs.foldl (fun c s => c.monitor cb p (subPath p s)) c).heap r.ctx =
          some (childObj cb p s .dummy))
        (subs.filter fun s => isValidPath (subPath p s) false) rs := by
  induction subs generalizing c with
  | nil => exact ⟨[], by simp, .nil⟩
  | cons s subs ih =>
      obtain ⟨rs, hsent, hrs⟩ := ih (c.monitor cb p (subPath p s))
      -- the object of the first child is not touched by the reads of the others
      have hheap : (subs.foldl (fun c s => c.monitor cb p (subPath p s))
          (c.monitor cb p (subPath p s))).heap c.next = some (childObj cb p s .dummy) := by
        rw [(Client.effect_monitor_foldl cb p subs _).heap_eq c.next (by simp), heap_monitor,
          Function.update_self]
        rw [next_monitor]
        exact Nat.lt_succ_self _
      rw [List.foldl_cons, List.filter_cons]
      by_cases hv : isValidPath (subPath p s) false = true
      · refine ⟨{ op := .getDataOp, path := subPath p s, watch := true, ctx := c.next } :: rs,
          ?_, ?_⟩
        · rw [hsent, sent_monitor, if_pos hv, List.append_assoc]
          rfl
        · rw [if_pos hv]
          exact .cons hheap hrs
      · refine ⟨rs, ?_, ?_⟩
        · rw [hsent, sent_monitor, if_neg hv, List.append_nil]
        · rw [if_neg hv]
          exact hrs

/-- The reads of children owe what there is; a child whose path is not valid is not there. -/
lemma flatMap_owesAt {c : Client} {subs : List Str} {rs : List Request}
    (h : List.Forall₂ (fun s r => c.heap r.ctx = some (childObj cb p s .dummy))
      (subs.filter fun s => isValidPath (subPath p s) false) rs) :
    rs.flatMap (fun r => owesAt t c r.ctx) =
      subs.filterMap fun s => (t.get (subPath p s)).map (changedAt cb (subPath p s)) := by
  induction subs generalizing rs with
  | nil =>
      cases h
      rfl
  | cons s subs ih =>
      rw [List.filter_cons] at h
      rw [List.filterMap_cons]
      by_cases hv : isValidPath (subPath p s) false = true
      · rw [if_pos hv] at h
        cases h with
        | cons hs hrest =>
            rw [List.flatMap_cons, ih hrest, owesAt_eq hs]
            cases hget : t.get (subPath p s) <;> simp [owes, childObj, hget]
      · rw [if_neg hv] at h
        have hnone : t.get (subPath p s) = none := by
          rw [← Option.not_isSome_iff_eq_none]
          exact fun hsome => hv (Tree.isValidPath_of_get hsome)
        rw [ih h, hnone]
        rfl

/-- A listing starts the reads of the children it owes. -/
lemma pays_runListing {cb : Cb} (hd : owesAt t c x = newPicture t c cb p)
    (hl : listsAt c x = some p) (hsome : (t.get p).isSome) :
    Pays t c x (c.runListing cb p (t.children p)) := by
  obtain ⟨rs, hsent, hrs⟩ := monitor_foldl_requests cb p (fresh c p (t.children p)) c
  have hlast := Client.lastSubPath_runListing c cb p (t.children p)
  have hheap : ∀ y, (c.runListing cb p (t.children p)).heap y =
      ((fresh c p (t.children p)).foldl (fun c s => c.monitor cb p (subPath p s)) c).heap y :=
    fun y => rfl
  have hchild : ∀ r ∈ rs, ∃ s, (c.runListing cb p (t.children p)).heap r.ctx =
      some (childObj cb p s .dummy) := by
    intro r hr
    obtain ⟨i, hi, rfl⟩ := List.mem_iff_getElem.mp hr
    exact ⟨_, hrs.get (hrs.length_eq ▸ hi) hi⟩
  have hpic : rs.flatMap (fun r => owesAt t (c.runListing cb p (t.children p)) r.ctx) =
      (fresh c p (t.children p)).filterMap fun s =>
        (t.get (subPath p s)).map (changedAt cb (subPath p s)) :=
    flatMap_owesAt hrs
  refine ⟨⟨rs, [], hsent, ?_, ?_, ?_, ?_⟩, fun p' hp' => ?_⟩
  · rw [Client.calls_runListing, List.append_nil]
  · rw [hd, newPicture, if_pos hsome, hpic, List.nil_append]
  · intro r hr
    obtain ⟨s, hs⟩ := hchild r hr
    exact ⟨⟨_, hs, rfl⟩, by rw [existsAt, hs]; rfl⟩
  · rw [List.filterMap_eq_nil_iff.mpr fun r hr => ?_]
    · exact List.nil_sublist _
    · obtain ⟨s, hs⟩ := hchild r hr
      rw [listsAt_eq hs]
      rfl
  · rw [hlast, AList.lookup_insert_ne]
    rintro rfl
    exact hp' hl

/-- The completion of an untouched object pays what the object owes. -/
lemma pays_onReply {rep : Reply} (hwf : c.HeapWf)
    (hfor : c.Holds rep.req.ctx (·.For rep.req)) (hun : c.Holds rep.req.ctx Untouched)
    (hans : Answers t rep) : Pays t c rep.req.ctx (c.onReply rep) := by
  obtain ⟨d, hd, hfor⟩ := hfor
  obtain ⟨d', hd', hun⟩ := hun
  obtain rfl := Option.some.inj (hd.symm.trans hd')
  have hdwf := hwf _ _ hd
  rw [Client.onReply, hd]
  cases d with
  | existsData d => exact pays_runExists hd hun hfor hans
  | wget d =>
      have hrun := pays_runGet hd hdwf hun hfor hans
      have hsent : (c.runGet d.cb rep.rc d.eve d.path rep.val).sent = c.sent := by
        cases d.cb <;> rw [Client.runGet] <;> split_ifs <;> rfl
      dsimp only
      rw [Client.getCompletion]
      split_ifs
      · exact hrun
      · exact hrun.free hsent
  | getChildren d =>
      rcases d with ⟨⟨cb, p⟩ | _, path, adv⟩
      · -- a listing: the path is there, and a new picture is owed, or it is not
        obtain ⟨rfl, rfl⟩ : path = p ∧ adv = true := hdwf
        have hpath : path = rep.req.path := hfor.2.1
        have hrep : answer t [] rep.req = _ := answer_getChildrenOp hfor.1
        dsimp only
        rw [Client.childrenCompletion, if_pos rfl, Client.runChildren]
        by_cases hsome : (t.get path).isSome
        · rw [← hpath, if_pos hsome] at hrep
          rw [hans, hrep, if_neg (by simp)]
          refine pays_runListing ?_ ?_ hsome
          · exact (owesAt_eq hd).trans rfl
          · exact (listsAt_eq hd).trans rfl
        · rw [← hpath, if_neg hsome] at hrep
          rw [hans, hrep, if_pos (by simp)]
          refine pays_refl ?_
          rw [owesAt_eq hd, owes, newPicture, if_neg hsome]
      · exact absurd hun id
  | operate cb => exact absurd hun id
  | removeChain cb subs => exact absurd hun id

/-! ## Quiet sessions -/

/-- The requests that are not completed yet. -/
def pending (w : World) : List Request := World.answered w.inbox ++ w.client.sent

/-- The calls that are still to be made. -/
def owed (t : Tree) (w : World) : List Call :=
  (pending w).flatMap fun r => owesAt t w.client r.ctx

/-- The paths whose children are still to be listed. -/
def listing (w : World) : List Path :=
  (pending w).filterMap fun r => listsAt w.client r.ctx

/-- The callbacks of the exists objects that are armed or about to be. -/
def registered (w : World) : List ExistsCallback :=
  (w.armed.map Watch.ctx ++ w.client.sent.map Request.ctx).filterMap (existsAt w.client)

/-- A session in which the tree does not change and nothing is removed. -/
structure Quiet (t : Tree) (w : World) : Prop where
  wf : w.Wf
  tree : w.tree = t
  inbox : ∀ m ∈ w.inbox, ∃ rep, m = .reply rep ∧ Answers t rep
  untouched : ∀ r ∈ pending w, w.client.Holds r.ctx Untouched
  once : (listing w).Nodup

variable {w w' : World}

/-- An untouched object is never removed, so its request arms a watch or nothing. -/
lemma Quiet.not_removal (h : Quiet t w) {r : Request} (hr : r ∈ w.client.sent)
    (type : WatcherType) : r.op ≠ .removeWatchesOp type := by
  obtain ⟨d, hd, hfor⟩ := (h.wf.sent r hr).2
  obtain ⟨d', hd', hun⟩ := h.untouched r (List.mem_append_right _ hr)
  obtain rfl := Option.some.inj (hd.symm.trans hd')
  intro hop
  cases d with
  | existsData d => exact absurd (hop.symm.trans hfor.1) (by simp)
  | wget d => exact absurd (hop.symm.trans hfor.1) (by simp)
  | getChildren d => exact absurd (hop.symm.trans hfor.1) (by simp)
  | operate cb => exact hun
  | removeChain cb subs => exact hun

lemma answer_eq_nil {r : Request} (hr : ∀ type, r.op ≠ .removeWatchesOp type) (t : Tree)
    (armed : List Watch) : answer t armed r = answer t [] r := by
  rw [answer, answer]
  cases hop : r.op with
  | removeWatchesOp type => exact absurd hop (hr type)
  | _ => rfl

/-- The effect of a step of a quiet session: `ks` is what has been called. -/
structure Advances (t : Tree) (w w' : World) (ks : List Call) : Prop where
  quiet : Quiet t w'
  calls : w'.client.calls = w.client.calls ++ ks
  owed : (ks ++ owed t w').Perm (owed t w)
  away : ∀ p, p ∉ listing w → p ∉ listing w' ∧
    w'.client.lastSubPath.lookup p = w.client.lastSubPath.lookup p
  registered : registered w' = registered w

/-- The server answers from the tree: what is owed stays owed. -/
lemma Quiet.serve (h : Quiet t w) (hs : w.serve = some w') : Advances t w w' [] := by
  have hwf := h.wf.serve hs
  obtain ⟨r, rs, hsent, rfl⟩ := World.serve_cases hs
  have hr : r ∈ w.client.sent := hsent ▸ List.mem_cons_self
  have hrem := h.not_removal hr
  have hpending : ∀ armed, pending { w with
      armed := armed
      inbox := w.inbox ++ [.reply (answer w.tree w.armed r)]
      client := { w.client with sent := rs } } = pending w := by
    intro armed
    simp [pending, World.answered, hsent]
  refine ⟨⟨hwf, h.tree, fun m hm => ?_, ?_, ?_⟩, (List.append_nil _).symm, ?_, ?_, ?_⟩
  · rcases List.mem_append.mp hm with hm | hm
    · exact h.inbox m hm
    · refine ⟨_, List.mem_singleton.mp hm, ?_⟩
      rw [Answers, answer_req, ← h.tree]
      exact answer_eq_nil hrem _ _
  · rw [hpending]
    exact h.untouched
  · rw [listing, hpending]
    exact h.once
  · rw [owed, hpending]
    exact List.Perm.refl _
  · intro p hp
    refine ⟨?_, rfl⟩
    rw [listing, hpending]
    exact hp
  · change ((activate w.armed (answer w.tree w.armed r)).map Watch.ctx ++
      rs.map Request.ctx).filterMap (existsAt w.client) = registered w
    rw [registered, hsent, activate_answer _ _ hrem]
    cases htb : (answer w.tree w.armed r).table? with
    | some tb =>
        rw [Option.map_some, Option.toList_some, List.map_append, List.append_assoc]
        rfl
    | none =>
        -- the object is none of an exists request, whose watch is always armed
        have hnone : existsAt w.client r.ctx = none := by
          obtain ⟨d, hd, hfor⟩ := (hwf.reply _ (List.mem_append_right _ List.mem_cons_self))
          rw [answer_req] at hd hfor
          rw [existsAt, hd]
          cases d with
          | existsData d =>
              rw [table?_answer_existsOp _ _ hfor.1 hfor.2.2] at htb
              simp at htb
          | _ => rfl
        rw [Option.map_none, Option.toList_none, List.append_nil, List.map_cons,
          List.filterMap_append, List.filterMap_append, List.filterMap_cons_none hnone]

/-- The client handles an answer: its object pays what it owed, and nothing changes for the
requests behind it. -/
lemma Quiet.deliver (h : Quiet t w) (hs : w.deliver = some w') : ∃ ks, Advances t w w' ks := by
  have hwf := h.wf.deliver hs
  obtain ⟨m, ms, hin, rfl⟩ := World.deliver_cases hs
  obtain ⟨rep, rfl, hans⟩ := h.inbox m (hin ▸ List.mem_cons_self)
  have hm : Msg.reply rep ∈ w.inbox := hin ▸ List.mem_cons_self
  have hpend : pending w = rep.req :: (World.answered ms ++ w.client.sent) := by
    rw [pending, hin]
    rfl
  have hun : w.client.Holds rep.req.ctx Untouched :=
    h.untouched rep.req (by rw [hpend]; exact List.mem_cons_self)
  obtain ⟨⟨rs, ks, hsent, hcalls, hpay, hrs, hlists⟩, hlast⟩ :=
    pays_onReply h.wf.heap (h.wf.reply rep hm) hun hans
  set c' := w.client.onReply rep with hc'
  -- an object that is still referred to is as it was
  have hheap : ∀ y, ({ w with inbox := ms } : World).tokens y ≠ [] →
      c'.heap y = w.client.heap y := fun y hy => h.wf.heap_process hin hy
  have hkeep : ∀ r ∈ World.answered ms ++ w.client.sent,
      c'.heap r.ctx = w.client.heap r.ctx := by
    intro r hr
    refine hheap r.ctx ?_
    rcases List.mem_append.mp hr with hr | hr
    · obtain ⟨rep', hm', rfl⟩ := World.mem_answered.mp hr
      exact World.tokens_ne_nil_of_reply (w := { w with inbox := ms }) hm'
    · exact World.tokens_ne_nil_of_sent (w := { w with inbox := ms }) hr
  have hpend' : pending { w with inbox := ms, client := c' } =
      (World.answered ms ++ w.client.sent) ++ rs := by
    rw [pending, hsent, List.append_assoc]
  -- of the paths to be listed, only the one of the object may disappear
  have hlisting : listing w = (listsAt w.client rep.req.ctx).toList ++
      (World.answered ms ++ w.client.sent).filterMap fun r => listsAt w.client r.ctx := by
    rw [listing, hpend, List.filterMap_cons]
    cases listsAt w.client rep.req.ctx <;> rfl
  have honce := h.once
  rw [hlisting] at honce
  have hrest : (World.answered ms ++ w.client.sent).filterMap (fun r => listsAt c' r.ctx) =
      (World.answered ms ++ w.client.sent).filterMap fun r => listsAt w.client r.ctx :=
    List.filterMap_congr fun r hr => by rw [listsAt, listsAt, hkeep r hr]
  have hlisting' : listing { w with inbox := ms, client := c' } =
      ((World.answered ms ++ w.client.sent).filterMap fun r => listsAt w.client r.ctx) ++
        rs.filterMap fun r => listsAt c' r.ctx := by
    rw [listing, hpend', List.filterMap_append, hrest]
  -- what the other requests owe does not depend on the answer
  have howes : ∀ r ∈ World.answered ms ++ w.client.sent,
      owesAt t c' r.ctx = owesAt t w.client r.ctx := by
    intro r hr
    rw [owesAt, owesAt, hkeep r hr]
    cases hd : w.client.heap r.ctx with
    | none => rfl
    | some d =>
        refine owes_congr fun p hp => hlast p fun hx => ?_
        have hmem : p ∈ (World.answered ms ++ w.client.sent).filterMap
            fun r => listsAt w.client r.ctx :=
          List.mem_filterMap.mpr ⟨r, hr, by rw [listsAt_eq hd, hp]⟩
        rw [hx, Option.toList_some, List.singleton_append, List.nodup_cons] at honce
        exact honce.1 hmem
  refine ⟨ks, ⟨hwf, h.tree, fun m hm => h.inbox m (hin ▸ List.mem_cons_of_mem _ hm), ?_, ?_⟩,
    hcalls, ?_, ?_, ?_⟩
  · rw [Client.process, ← hc', hpend']
    intro r hr
    rcases List.mem_append.mp hr with hr | hr
    · obtain ⟨d, hd, hP⟩ := h.untouched r (hpend ▸ List.mem_cons_of_mem _ hr)
      exact ⟨d, (hkeep r hr).trans hd, hP⟩
    · exact (hrs r hr).1
  · rw [Client.process, ← hc', hlisting']
    exact (List.perm_append_comm.nodup_iff).mp (honce.sublist (hlists.append_right _))
  · have howed : owed t w = owesAt t w.client rep.req.ctx ++
        (World.answered ms ++ w.client.sent).flatMap fun r => owesAt t w.client r.ctx := by
      rw [owed, hpend, List.flatMap_cons]
    have howed' : owed t { w with inbox := ms, client := c' } =
        ((World.answered ms ++ w.client.sent).flatMap fun r => owesAt t w.client r.ctx) ++
          rs.flatMap fun r => owesAt t c' r.ctx := by
      rw [owed, hpend', List.flatMap_append, List.flatMap_congr howes]
    rw [Client.process, ← hc', howed', howed, ← hpay, List.append_assoc]
    exact List.perm_append_comm.append_left ks
  · rw [Client.process, ← hc', hlisting', hlisting]
    intro p hp
    rw [List.mem_append, not_or] at hp
    refine ⟨?_, hlast p fun hx => hp.1 (by rw [hx]; simp)⟩
    rw [List.mem_append, not_or]
    exact ⟨hp.2, fun hmem => hp.1 (hlists.subset hmem)⟩
  · have hold : ∀ y ∈ w.armed.map Watch.ctx ++ w.client.sent.map Request.ctx,
        existsAt c' y = existsAt w.client y := by
      intro y hy
      rw [existsAt, existsAt, hheap y ?_]
      rcases List.mem_append.mp hy with hy | hy
      · obtain ⟨a, ha, rfl⟩ := List.mem_map.mp hy
        exact World.tokens_ne_nil_of_armed (w := { w with inbox := ms }) ha
      · obtain ⟨r, hr, rfl⟩ := List.mem_map.mp hy
        exact World.tokens_ne_nil_of_sent (w := { w with inbox := ms }) hr
    have hnew : (rs.map Request.ctx).filterMap (existsAt c') = [] := by
      rw [List.filterMap_eq_nil_iff]
      intro y hy
      obtain ⟨r, hr, rfl⟩ := List.mem_map.mp hy
      exact (hrs r hr).2
    rw [Client.process, ← hc', registered, registered, hsent, List.map_append,
      ← List.append_assoc, List.filterMap_append, hnew, List.append_nil]
    exact List.filterMap_congr hold

/-- The steps of the session alone do not disturb it. -/
lemma Quiet.step (h : Quiet t w) {a : Action} (ha : a = .serve ∨ a = .deliver)
    (hs : w.step a = some w') : ∃ ks, Advances t w w' ks := by
  rcases ha with rfl | rfl
  · exact ⟨[], h.serve hs⟩
  · exact h.deliver hs

/-- At rest nothing is owed. -/
lemma owed_of_quiescent (h : w.Quiescent) : owed t w = [] := by
  rw [owed, pending, h.1, h.2]
  rfl

/-! ## A new registration -/

/-- The effect of a registration for `cb` on a quiet session. -/
structure Registers (t : Tree) (w : World) (cb : ExistsCallback) (w' : World) : Prop where
  quiet : Quiet t w'
  calls : w'.client.calls = w.client.calls
  owed : owed t w' = owed t w ++ owes t w.client (.existsData { cb := cb })
  away : ∀ p, p ∉ listing w → lists (.existsData { cb := cb }) ≠ some p → p ∉ listing w'
  last : w'.client.lastSubPath = w.client.lastSubPath
  registered : registered w' =
    registered w ++ if isValidPath cb.path false then [cb] else []

/-- A path that is not valid owes nothing. -/
lemma owes_existsData_eq_nil {cb : ExistsCallback} (hv : isValidPath cb.path false = false) :
    owes t c (.existsData { cb := cb }) = [] := by
  rcases cb with ⟨cb, p⟩ | ⟨cb, p⟩
  · exact value_eq_nil hv
  · exact newPicture_eq_nil hv

/-- A registration adds its exists request to what is in flight, if the path is valid. -/
lemma Quiet.register (h : Quiet t w) (cb : ExistsCallback) (watchRecord watchSubRecord : UMap Cb)
    (hnew : ∀ p, lists (.existsData { cb := cb }) = some p → p ∉ listing w) :
    Registers t w cb { w with
      client := Client.watchPathEvent
        { w.client with watchRecord := watchRecord, watchSubRecord := watchSubRecord }
        cb.path cb } := by
  set c : Client :=
    { w.client with watchRecord := watchRecord, watchSubRecord := watchSubRecord } with hc
  set w' : World := { w with client := c.watchPathEvent cb.path cb } with hw'
  have hwf : w'.Wf := h.wf.of_call (((Client.effect_of_eq rfl rfl rfl :
    Client.Effect [] w.client c)).trans_nil (Client.effect_watchPathEvent c cb.path rfl))
  set r : Request := { op := .existsOp, path := cb.path, watch := true, ctx := w.client.next }
  have hheap : w'.client.heap =
      Function.update w.client.heap w.client.next (some (.existsData { cb := cb })) := by
    exact Client.heap_watchPathEvent c cb.path cb
  have hsent : w'.client.sent =
      w.client.sent ++ if isValidPath cb.path false then [r] else [] := by
    exact Client.sent_watchPathEvent c cb.path cb
  have hlast : w'.client.lastSubPath = w.client.lastSubPath := by
    exact Client.lastSubPath_watchPathEvent c cb.path cb
  have hcalls : w'.client.calls = w.client.calls := by
    exact Client.calls_watchPathEvent c cb.path cb
  have hpend : pending w' = pending w ++ if isValidPath cb.path false then [r] else [] := by
    rw [pending, hsent, ← List.append_assoc]
    rfl
  have hobj : w'.client.heap r.ctx = some (.existsData { cb := cb }) := by
    rw [hheap, Function.update_self]
  -- the address of the new object is not referred to yet
  have hold : ∀ y, w.tokens y ≠ [] → w'.client.heap y = w.client.heap y := by
    intro y hy
    rw [hheap, Function.update_of_ne (Nat.ne_of_lt (h.wf.lt_next hy))]
  have hpold : ∀ r' ∈ pending w, w'.client.heap r'.ctx = w.client.heap r'.ctx := by
    intro r' hr'
    refine hold r'.ctx ?_
    rcases List.mem_append.mp hr' with hr' | hr'
    · obtain ⟨rep, hm, rfl⟩ := World.mem_answered.mp hr'
      exact World.tokens_ne_nil_of_reply hm
    · exact World.tokens_ne_nil_of_sent hr'
  -- the new request is the last in flight, so what it lists comes last
  have hlisting : listing w' = listing w ++
      if isValidPath cb.path false then (lists (.existsData { cb := cb })).toList else [] := by
    rw [listing, hpend, List.filterMap_append, listing]
    congr 1
    · exact List.filterMap_congr fun r' hr' => by rw [listsAt, listsAt, hpold r' hr']
    · split_ifs
      · rw [List.filterMap_cons, listsAt_eq hobj]
        cases lists (.existsData { cb := cb }) <;> rfl
      · rfl
  refine ⟨⟨hwf, h.tree, h.inbox, fun r' hr' => ?_, ?_⟩, hcalls, ?_, fun p hp hne => ?_, hlast, ?_⟩
  · -- the old requests keep their objects, and no event is stored in the new one's
    rw [hpend] at hr'
    rcases List.mem_append.mp hr' with hr' | hr'
    · obtain ⟨d, hd, hP⟩ := h.untouched r' hr'
      exact ⟨d, (hpold r' hr').trans hd, hP⟩
    · split_ifs at hr'
      · rw [List.mem_singleton.mp hr']
        exact ⟨_, hobj, rfl⟩
      · simp at hr'
  · -- what the new request lists was not being listed before
    rw [hlisting]
    split_ifs
    · cases hl : lists (.existsData { cb := cb }) with
      | none => simpa using h.once
      | some p =>
          rw [Option.toList_some, List.nodup_append]
          refine ⟨h.once, List.nodup_singleton p, fun a ha b hb hab => ?_⟩
          rw [List.mem_singleton.mp hb] at hab
          exact hnew p hl (hab ▸ ha)
    · simpa using h.once
  · -- the old requests owe the same, since their objects are not written
    rw [owed, hpend, List.flatMap_append, owed]
    congr 1
    · refine List.flatMap_congr fun r' hr' => ?_
      rw [owesAt, owesAt, hpold r' hr']
      cases hd : w.client.heap r'.ctx with
      | none => rfl
      | some d => exact owes_congr fun p _ => by rw [hlast]
    · split_ifs with hv
      · rw [List.flatMap_singleton, owesAt_eq hobj]
        exact owes_congr fun p _ => by rw [hlast]
      · exact (owes_existsData_eq_nil (by simpa using hv)).symm
  · rw [hlisting, List.mem_append, not_or]
    refine ⟨hp, fun hmem => ?_⟩
    split_ifs at hmem
    · exact hne (by simpa using hmem)
    · simp at hmem
  · rw [registered, hsent, List.map_append, ← List.append_assoc, List.filterMap_append,
      registered]
    congr 1
    · refine List.filterMap_congr fun y hy => ?_
      rw [existsAt, existsAt, hold y ?_]
      rcases List.mem_append.mp hy with hy | hy
      · obtain ⟨a, ha, rfl⟩ := List.mem_map.mp hy
        exact World.tokens_ne_nil_of_armed ha
      · obtain ⟨r', hr', rfl⟩ := List.mem_map.mp hy
        exact World.tokens_ne_nil_of_sent hr'
    · split_ifs
      · rw [List.map_singleton, List.filterMap_cons, existsAt, hobj]
        rfl
      · rfl

/-- A monitor at rest is quiet. -/
lemma quiet_of_quiescent (hwf : w.Wf) (hw : w.Quiescent) : Quiet w.tree w := by
  have hpend : pending w = [] := by
    rw [pending, hw.1, hw.2]
    rfl
  refine ⟨hwf, rfl, fun m hm => ?_, fun r hr => ?_, ?_⟩
  · rw [hw.2] at hm
    simp at hm
  · rw [hpend] at hr
    simp at hr
  · rw [listing, hpend]
    exact List.nodup_nil

end Resubscribe

end ConfigMonitor
