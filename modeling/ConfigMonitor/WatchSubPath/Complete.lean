/-
# Children that are missed

A child is read when it is named by a listing and is not in the set of known children.  While
the children watch of `p` is armed, the last listing is the one of the tree (`latest`), and
every child it names is read or watched once the listing has arrived (`covered`); a watched
child has been told with its present value (`valued`).  The children watch itself is lost with
`p`, and goes back to an exists answer (`listed`).
-/
import ConfigMonitor.WatchSubPath.Session
import ConfigMonitor.WatchSubPath.Scan

namespace ConfigMonitor

open Queue

namespace WatchSubPath

/-- In every quiescent state in which `p` exists, `cb` was told last of each child of `p` the
value that the child has. -/
def Complete : Prop :=
  ∀ (t : Tree) (p : Path) (cb : Cb) (w : World), p ≠ root →
    Run.Reach World.step (fun _ a => a.Plain) (World.watchingSub t p cb) w → w.Quiescent →
      (w.tree.get p).isSome → ∀ s ∈ w.tree.children p, ∀ v,
        w.tree.get (subPath p s) = some v →
          lastAbout (subPath p s) w.client.calls = some (changedAt cb (subPath p s) v)

/-! ## A child deleted and created again before the next listing -/

theorem not_complete : ¬ Complete := by
  intro h
  obtain ⟨w, hr, hw⟩ := Run.exists_reach_of_exec World.step (fun _ a => a.Plain)
    (World.watchingSub treePC ['/', 'p'] 0)
    [.serve, .deliver, .serve, .deliver, .serve, .deliver,
      .delete ['/', 'p', '/', 'c'], .create ['/', 'p', '/', 'c'] (some ['b']),
      .deliver, .deliver, .serve, .deliver]
    (fun w => (w.client.sent, w.inbox, w.tree.get ['/', 'p'],
      w.tree.children ['/', 'p'], w.tree.get ['/', 'p', '/', 'c'], w.client.calls))
    ([], [], some none, [['c']], some (some ['b']),
      [changedAt 0 ['/', 'p', '/', 'c'] (some ['a']), delAt 0 ['/', 'p', '/', 'c']]) rfl
  obtain ⟨hsent, hin, hp, hchildren, hget, hcalls⟩ : w.client.sent = [] ∧ w.inbox = [] ∧
      w.tree.get ['/', 'p'] = some none ∧ w.tree.children ['/', 'p'] = [['c']] ∧
      w.tree.get ['/', 'p', '/', 'c'] = some (some ['b']) ∧
      w.client.calls =
        [changedAt 0 ['/', 'p', '/', 'c'] (some ['a']), delAt 0 ['/', 'p', '/', 'c']] := by
    simpa only [Prod.mk.injEq] using hw
  have hlast := h treePC ['/', 'p'] 0 w (by decide) hr ⟨hsent, hin⟩ (by rw [hp]; rfl) ['c']
    (by rw [hchildren]; simp) (some ['b']) hget
  rw [hcalls] at hlast
  exact absurd hlast (by decide)

/-! ## The exact condition on a step -/

/-- A watch on `q` is armed in the table. -/
def Armed (w : World) (tb : Table) (q : Path) : Prop := ∃ a ∈ w.armed, a.table = tb ∧ a.path = q

/-- The node at `q` is watched, or its read is in flight or on its way. -/
def Reading (w : World) (q : Path) : Prop :=
  Armed w .node q ∨ (∃ r ∈ w.client.sent, r.op = .getDataOp ∧ r.path = q) ∨
    ∃ m ∈ w.inbox, Rereads q m

/-- The message is a notification after which the children of `p` are listed again. -/
def Relists (p : Path) : Msg → Prop
  | .event eve q _ => eve = .child ∧ q = p
  | .reply _ => False

/-- The children of `p` are watched, or a listing is in flight or on its way. -/
def Listing (w : World) (p : Path) : Prop :=
  Armed w .child p ∨ (∃ r ∈ w.client.sent, r.op = .getChildrenOp ∧ r.path = p) ∨
    ∃ m ∈ w.inbox, Relists p m

/-- The message is an exists answer that makes the client list the children. -/
def StartsListing (c : Client) : Msg → Prop
  | .reply rep => rep.req.op = .existsOp ∧ rep.rc = .zok ∧
      (storedEve c 0 = .dummy ∨ storedEve c 0 = .created)
  | .event .. => False

/-- The message is an exists answer. -/
def IsExists : Msg → Prop
  | .reply rep => rep.req.op = .existsOp
  | .event .. => False

instance (w : World) (tb : Table) (q : Path) : Decidable (Armed w tb q) := by
  unfold Armed; infer_instance

instance (w : World) (q : Path) : Decidable (Reading w q) := by unfold Reading; infer_instance

instance (p : Path) : DecidablePred (Relists p)
  | .event eve q _ => inferInstanceAs (Decidable (eve = .child ∧ q = p))
  | .reply _ => instDecidableFalse

instance (w : World) (p : Path) : Decidable (Listing w p) := by unfold Listing; infer_instance

instance (c : Client) : DecidablePred (StartsListing c)
  | .reply rep => inferInstanceAs (Decidable (rep.req.op = .existsOp ∧ rep.rc = .zok ∧
      (storedEve c 0 = .dummy ∨ storedEve c 0 = .created)))
  | .event .. => instDecidableFalse

instance : DecidablePred IsExists
  | .reply rep => inferInstanceAs (Decidable (rep.req.op = .existsOp))
  | .event .. => instDecidableFalse

/-- When the last listing on its way arrives, and the children have not changed since, the
children it names that are in the set already are watched or read. -/
def KnownRead (p : Path) (w : World) (a : Action) : Prop :=
  a = .deliver → ∀ m ∈ w.inbox.head?, ∀ subPaths ∈ listing? m, Armed w .child p →
    (∀ m' ∈ w.inbox.tail, listing? m' = none) → ∀ s ∈ subPaths, knows w.client p s = true →
      Reading { w with inbox := w.inbox.tail } (subPath p s)

/-- When an exists answer arrives that does not make the client list the children, and the node
is still there, the children are watched or listed anyway. -/
def Relisted (p : Path) (w : World) (a : Action) : Prop :=
  a = .deliver → ∀ m ∈ w.inbox.head?, IsExists m → ¬ StartsListing w.client m →
    Armed w .node p → Listing w p

instance (p : Path) (w : World) (a : Action) : Decidable (KnownRead p w a) :=
  inferInstanceAs (Decidable (a = .deliver → ∀ m ∈ w.inbox.head?, ∀ subPaths ∈ listing? m,
    Armed w .child p → (∀ m' ∈ w.inbox.tail, listing? m' = none) → ∀ s ∈ subPaths,
      knows w.client p s = true → Reading { w with inbox := w.inbox.tail } (subPath p s)))

instance (p : Path) (w : World) (a : Action) : Decidable (Relisted p w a) := by
  unfold Relisted; infer_instance

/-! ## The invariant -/

/-- The children of `p` that exist are watched or going to be read. -/
structure CompleteInv (cb : Cb) (p : Path) (w : World) : Prop where
  base : Base cb p w
  registers : isValidPath p false = true → w.Registers 0 (.watchSubPath cb p)
  valued : ∀ s, Armed w .node (subPath p s) → ∀ v, w.tree.get (subPath p s) = some v →
    lastTold cb (subPath p s) w = some (changedAt cb (subPath p s) v)
  covered : Armed w .child p → (∃ m ∈ w.inbox, (listing? m).isSome) ∨
    ∀ s ∈ w.tree.children p, Reading w (subPath p s)
  latest : Armed w .child p → ∀ subPaths, lastSome listing? none w.inbox = some subPaths →
    ∀ s, s ∈ subPaths ↔ s ∈ w.tree.children p
  listed : Armed w .node p → (∃ m ∈ w.inbox, IsExists m) ∨ Listing w p

variable {cb : Cb} {p q : Path} {w w' : World} {s : Str} {tb : Table}

/-! ## Changes of the tree -/

section Fire

variable {eve : ZkEvent} {q' : Path}

lemma armed_fire : Armed (w.fire eve q') tb q ↔
    Armed w tb q ∧ ¬ (tb ∈ eve.tables ∧ q = q') := by
  constructor
  · rintro ⟨a, ha, rfl, rfl⟩
    obtain ⟨ha, hf⟩ := World.mem_armed_fire.mp ha
    exact ⟨⟨a, ha, rfl, rfl⟩, hf⟩
  · rintro ⟨⟨a, ha, rfl, rfl⟩, hf⟩
    exact ⟨a, World.mem_armed_fire.mpr ⟨ha, hf⟩, rfl, rfl⟩

lemma mem_inbox_fire {m : Msg} (hm : m ∈ w.inbox) : m ∈ (w.fire eve q').inbox := by
  obtain ⟨evs, hevs, -⟩ := World.inbox_fire w eve q'
  exact hevs ▸ List.mem_append_left _ hm

/-- A watch that is consumed leaves its notification. -/
lemma exists_event_of_armed (h : Armed w tb q) (htb : tb ∈ eve.tables) :
    ∃ ctxs, Msg.event eve q ctxs ∈ (w.fire eve q).inbox := by
  obtain ⟨a, ha, rfl, rfl⟩ := h
  rcases World.fire_cases w eve a.path with ⟨-, hnone⟩ | ⟨-, heq⟩
  · exact absurd ⟨htb, rfl⟩ (hnone a ha)
  · rw [heq]
    exact ⟨_, List.mem_append_right _ (List.mem_singleton.mpr rfl)⟩

lemma Reading.fire (h : Reading w q) (hdel : ¬ (eve = .deleted ∧ q' = q)) :
    Reading (w.fire eve q') q := by
  rcases h with ha | hr | ⟨m, hm, hr⟩
  · by_cases hf : Table.node ∈ eve.tables ∧ q = q'
    · obtain ⟨htb, rfl⟩ := hf
      obtain ⟨ctxs, hm⟩ := exists_event_of_armed ha htb
      exact Or.inr (Or.inr ⟨_, hm, rfl, fun hd => hdel ⟨hd, rfl⟩⟩)
    · exact Or.inl (armed_fire.mpr ⟨ha, hf⟩)
  · exact Or.inr (Or.inl (by rw [World.client_fire]; exact hr))
  · exact Or.inr (Or.inr ⟨m, mem_inbox_fire hm, hr⟩)

/-- The children watch of `p` is consumed by a change of the children, and by a deletion of
`p`, which takes the node watch with it. -/
lemma Listing.fire (h : Listing w p) (harmed : Armed (w.fire eve q') .node p) :
    Listing (w.fire eve q') p := by
  rcases h with ha | hr | ⟨m, hm, hr⟩
  · by_cases hf : Table.child ∈ eve.tables ∧ p = q'
    · obtain ⟨htb, rfl⟩ := hf
      obtain ⟨ctxs, hm⟩ := exists_event_of_armed ha htb
      refine Or.inr (Or.inr ⟨_, hm, ?_, rfl⟩)
      cases eve with
      | child => rfl
      | deleted => exact absurd ⟨by simp [ZkEvent.tables], rfl⟩ (armed_fire.mp harmed).2
      | _ => simp [ZkEvent.tables] at htb
    · exact Or.inl (armed_fire.mpr ⟨ha, hf⟩)
  · exact Or.inr (Or.inl (by rw [World.client_fire]; exact hr))
  · exact Or.inr (Or.inr ⟨m, mem_inbox_fire hm, hr⟩)

/-- What a watched child is told last is not changed by an event. -/
lemma lastTold_fire (harmed : Armed (w.fire eve q') .node q) :
    lastTold cb q (w.fire eve q') = lastTold cb q w := by
  rcases World.fire_cases w eve q' with ⟨heq, -⟩ | ⟨-, heq⟩
  · rw [heq]
  · have hno := (armed_fire.mp harmed).2
    rw [heq, lastTold, lastTold]
    dsimp only
    rw [lastSome_append_singleton, tells, if_neg, Option.none_or]
    rintro ⟨rfl, rfl⟩
    exact hno ⟨by simp [ZkEvent.tables], rfl⟩

end Fire

lemma Armed.mono (h : Armed w' tb q) (hsub : w'.armed ⊆ w.armed) : Armed w tb q := by
  obtain ⟨a, ha, htb, hq⟩ := h
  exact ⟨a, hsub ha, htb, hq⟩

lemma Base.ne_nil (h : Base cb p w) (ha : Armed w tb p) : p ≠ [] := by
  obtain ⟨a, ha, -, rfl⟩ := ha
  have hv := h.served.valid_armed a ha
  intro hnil
  rw [hnil] at hv
  exact absurd hv (by decide)

lemma CompleteInv.of_changed (h : CompleteInv cb p w) (hbase : Base cb p w')
    (hreg : isValidPath p false = true → w'.Registers 0 (.watchSubPath cb p))
    (hch : World.Changed w w')
    (htold : ∀ s, Armed w' .node (subPath p s) →
      lastTold cb (subPath p s) w' = lastTold cb (subPath p s) w)
    (hchildren : Armed w' .child p → ∀ s, s ∈ w'.tree.children p ↔ s ∈ w.tree.children p)
    (hreading : Armed w' .child p → ∀ s ∈ w.tree.children p,
      Reading w (subPath p s) → Reading w' (subPath p s))
    (hlisted : Armed w' .node p → Listing w p → Listing w' p) : CompleteInv cb p w' := by
  obtain ⟨evs, hevs, hno⟩ := hch.inbox
  refine ⟨hbase, hreg, fun s ha v hget => ?_, fun ha => ?_, fun ha subPaths hlast s => ?_,
    fun ha => ?_⟩
  · obtain ⟨a, ha', htb, hq⟩ := ha
    have hsame := hch.get a ha' (by rw [htb]; simp)
    rw [hq] at hsame
    rw [htold s ⟨a, ha', htb, hq⟩]
    exact h.valued s ⟨a, hch.armed ha', htb, hq⟩ v (hsame ▸ hget)
  · rcases h.covered (ha.mono hch.armed) with ⟨m, hm, hlist⟩ | hall
    · exact Or.inl ⟨m, hevs ▸ List.mem_append_left _ hm, hlist⟩
    · refine Or.inr fun s hs => ?_
      have hs' := (hchildren ha s).mp hs
      exact hreading ha s hs' (hall s hs')
  · rw [hevs, lastSome_append, lastSome_of_forall_none] at hlast
    · rw [hchildren ha s]
      exact h.latest (ha.mono hch.armed) subPaths hlast s
    · intro m hm
      cases m with
      | reply rep => exact absurd hm (hno rep)
      | event eve q ctxs => rfl
  · rcases h.listed (ha.mono hch.armed) with ⟨m, hm, hex⟩ | hlist
    · exact Or.inl ⟨m, hevs ▸ List.mem_append_left _ hm, hex⟩
    · exact Or.inr (hlisted ha hlist)

/-- While the children watch of `p` stays armed, the children of `p` are not created and not
deleted. -/
lemma ne_of_armed_child {e : ZkEvent} (hp : p ≠ [])
    (ha : Armed ((w.fire e q).fire .child (parentPath q)) .child p) {s : Str} (hs : '/' ∉ s) :
    subPath p s ≠ q := by
  rintro rfl
  refine (armed_fire.mp ha).2 ⟨by simp [ZkEvent.tables], ?_⟩
  rw [parentPath_subPath hp hs]

lemma mem_children_congr {t t' : Tree} (hp : p ≠ []) (hroot : p ≠ root)
    (h : '/' ∉ s → ((t'.get (subPath p s)).isSome ↔ (t.get (subPath p s)).isSome)) :
    s ∈ t'.children p ↔ s ∈ t.children p := by
  rw [Tree.mem_children_iff hp hroot, Tree.mem_children_iff hp hroot]
  exact and_congr_right h

lemma CompleteInv.external (h : CompleteInv cb p w) (hroot : p ≠ root) {a : Action}
    (ha : a.External) (hs : w.step a = some w') : CompleteInv cb p w' := by
  have hbase := h.base.step (Or.inl ha) hs
  have hreg := fun hv => (h.registers hv).external ha hs
  have hch := World.changed_of_external ha hs
  have hslash : ∀ s, p ≠ [] → s ∈ w.tree.children p → '/' ∉ s :=
    fun s hp hs => ((Tree.mem_children_iff hp hroot).mp hs).1
  -- while the child watch is armed no child comes or goes, as its event would consume it
  cases a with
  | create q v =>
      obtain ⟨t, ht, rfl⟩ := Option.map_eq_some_iff.mp hs
      refine h.of_changed hbase hreg hch (fun s harm => ?_) (fun harm s => ?_)
        (fun harm s hs hr => ?_) fun harm hl => ?_
      · exact (lastTold_fire harm).trans (lastTold_fire (armed_fire.mp harm).1)
      · refine mem_children_congr (hbase.ne_nil harm) hroot fun hno => ?_
        rw [World.tree_fire, World.tree_fire, Tree.get_create ht,
          if_neg (ne_of_armed_child (hbase.ne_nil harm) harm hno)]
      · have hr' : Reading ({ w with tree := t } : World) (subPath p s) := hr
        exact (hr'.fire (by simp)).fire (by simp)
      · have hl' : Listing ({ w with tree := t } : World) p := hl
        exact (hl'.fire (armed_fire.mp harm).1).fire harm
  | set q v =>
      obtain ⟨t, ht, rfl⟩ := Option.map_eq_some_iff.mp hs
      refine h.of_changed hbase hreg hch (fun s harm => ?_) (fun harm s => ?_)
        (fun harm s hs hr => ?_) fun harm hl => ?_
      · exact lastTold_fire harm
      · refine mem_children_congr (hbase.ne_nil harm) hroot fun _ => ?_
        rw [World.tree_fire, Tree.get_set ht]
        split_ifs with hq
        · exact ⟨fun _ => hq ▸ Tree.get_of_set ht, fun _ => rfl⟩
        · exact Iff.rfl
      · have hr' : Reading ({ w with tree := t } : World) (subPath p s) := hr
        exact hr'.fire (by simp)
      · have hl' : Listing ({ w with tree := t } : World) p := hl
        exact hl'.fire harm
  | delete q =>
      obtain ⟨t, ht, rfl⟩ := Option.map_eq_some_iff.mp hs
      refine h.of_changed hbase hreg hch (fun s harm => ?_) (fun harm s => ?_)
        (fun harm s hs hr => ?_) fun harm hl => ?_
      · exact (lastTold_fire harm).trans (lastTold_fire (armed_fire.mp harm).1)
      · refine mem_children_congr (hbase.ne_nil harm) hroot fun hno => ?_
        rw [World.tree_fire, World.tree_fire, Tree.get_delete ht,
          if_neg (ne_of_armed_child (hbase.ne_nil harm) harm hno)]
      · have hne := ne_of_armed_child (hbase.ne_nil harm) harm
          (hslash s (hbase.ne_nil harm) hs)
        have hr' : Reading ({ w with tree := t } : World) (subPath p s) := hr
        exact (hr'.fire fun hc => hne hc.2.symm).fire (by simp)
      · have hl' : Listing ({ w with tree := t } : World) p := hl
        exact (hl'.fire (armed_fire.mp harm).1).fire harm
  | _ => exact absurd ha id

/-! ## The server -/

section Serve

variable {r : Request} {rs : List Request}

/-- The watches after an answer: those before, and the one of the request if it is armed. -/
lemma armed_activate {t : Tree} {armed : List Watch} (hr : ∀ type, r.op ≠ .removeWatchesOp type)
    (a : Watch) : a ∈ activate armed (answer t armed r) ↔
      a ∈ armed ∨ (answer t armed r).table? = some a.table ∧ a.path = r.path ∧ a.ctx = r.ctx := by
  rw [activate_answer t armed hr, List.mem_append, Option.mem_toList, Option.map_eq_some_iff]
  refine or_congr_right ⟨?_, ?_⟩
  · rintro ⟨tb, htb, rfl⟩
    exact ⟨htb, rfl, rfl⟩
  · rintro ⟨htb, hq, hx⟩
    exact ⟨a.table, htb, by rw [← hq, ← hx]⟩

/-- What the answer to a request leaves as it was. -/
structure Answered (w w' : World) (r : Request) : Prop where
  tree : w'.tree = w.tree
  armed : ∀ tb q, Armed w' tb q ↔
    Armed w tb q ∨ (answer w.tree w.armed r).table? = some tb ∧ r.path = q
  sent : ∀ r' ∈ w.client.sent, r' = r ∨ r' ∈ w'.client.sent
  inbox : w'.inbox = w.inbox ++ [.reply (answer w.tree w.armed r)]
  calls : w'.client.calls = w.client.calls

lemma Answered.reading (h : Answered w w' r) (hr : Reading w q)
    (hne : ¬ (r.op = .getDataOp ∧ r.path = q)) : Reading w' q := by
  rcases hr with ha | ⟨r', hr', hop, hq⟩ | ⟨m, hm, hre⟩
  · exact Or.inl ((h.armed _ _).mpr (Or.inl ha))
  · rcases h.sent r' hr' with rfl | hr'
    · exact absurd ⟨hop, hq⟩ hne
    · exact Or.inr (Or.inl ⟨r', hr', hop, hq⟩)
  · exact Or.inr (Or.inr ⟨m, h.inbox ▸ List.mem_append_left _ hm, hre⟩)

lemma Answered.listing (h : Answered w w' r) (hl : Listing w p) (hne : r.op ≠ .getChildrenOp) :
    Listing w' p := by
  rcases hl with ha | ⟨r', hr', hop, hq⟩ | ⟨m, hm, hre⟩
  · exact Or.inl ((h.armed _ _).mpr (Or.inl ha))
  · rcases h.sent r' hr' with rfl | hr'
    · exact absurd hop hne
    · exact Or.inr (Or.inl ⟨r', hr', hop, hq⟩)
  · exact Or.inr (Or.inr ⟨m, h.inbox ▸ List.mem_append_left _ hm, hre⟩)

lemma Answered.lastTold (h : Answered w w' r) (q : Path) : lastTold cb q w' =
    (tells cb q (.reply (answer w.tree w.armed r))).or (lastTold cb q w) := by
  rw [WatchSubPath.lastTold, h.inbox, lastSome_append_singleton, h.calls]
  rfl

lemma Answered.lastListing (h : Answered w w' r) : lastSome listing? none w'.inbox =
    (listing? (.reply (answer w.tree w.armed r))).or (lastSome listing? none w.inbox) := by
  rw [h.inbox, lastSome_append_singleton]

/-- A request that is no listing leaves the children watches and the listings alone. -/
lemma Answered.listing?_eq (hop : r.op ≠ .getChildrenOp) :
    listing? (.reply (answer w.tree w.armed r)) = none := by
  rw [listing?, answer_req, if_neg fun hc => hop hc.1]

lemma Answered.armed_child (h : Answered w w' r) (hop : r.op ≠ .getChildrenOp)
    (ha : Armed w' .child q) : Armed w .child q := by
  rcases (h.armed _ _).mp ha with ha | ⟨htb, -⟩
  · exact ha
  · rw [Reply.table?, answer_req] at htb
    split_ifs at htb
    cases hr : r.op with
    | getChildrenOp => exact absurd hr hop
    | existsOp | getDataOp | removeWatchesOp type =>
        rw [hr] at htb
        cases hrc : (answer w.tree w.armed r).rc <;> simp [hrc, resultChecker] at htb

lemma CompleteInv.answered (h : CompleteInv cb p w) (hs : w.serve = some w') : ∃ r rs,
    w.client.sent = r :: rs ∧ Answered w w' r ∧ w.client.Holds r.ctx (·.For r) := by
  obtain ⟨r, rs, hsent, rfl⟩ := World.serve_cases hs
  have hfor := (h.base.wf.sent r (hsent ▸ List.mem_cons_self)).2
  have hrem : ∀ type, r.op ≠ .removeWatchesOp type := by
    rcases h.base.solo.request hfor with hreq | ⟨_, -, hreq⟩ | ⟨-, hreq⟩ <;> rw [hreq] <;> simp
  refine ⟨r, rs, hsent, ⟨rfl, fun tb q => ?_, fun r' hr' => ?_, rfl, rfl⟩, hfor⟩
  · constructor
    · rintro ⟨a, ha, rfl, rfl⟩
      rcases (armed_activate hrem a).mp ha with ha | ⟨htb, hq, -⟩
      · exact Or.inl ⟨a, ha, rfl, rfl⟩
      · exact Or.inr ⟨htb, hq.symm⟩
    · rintro (⟨a, ha, htb, hq⟩ | ⟨htb, hq⟩)
      · exact ⟨a, (armed_activate hrem a).mpr (Or.inl ha), htb, hq⟩
      · exact ⟨⟨tb, q, r.ctx⟩, (armed_activate hrem _).mpr (Or.inr ⟨htb, hq.symm, rfl⟩), rfl, rfl⟩
  · rw [hsent] at hr'
    exact List.mem_cons.mp hr'

lemma Base.get_of_armed (h : Base cb p w) (ha : Armed w tb q) (htb : tb ≠ .exist) :
    (w.tree.get q).isSome := by
  obtain ⟨a, ha, rfl, rfl⟩ := ha
  exact h.served.present a ha htb

/-- A watch on a child was armed before, or by this answer, which tells its value. -/
lemma CompleteInv.valued_answered (h : CompleteInv cb p w) (hans : Answered w w' r)
    (hfor : w.client.Holds r.ctx (·.For r)) (ha : Armed w' .node (subPath p s)) {v : Data}
    (hget : w'.tree.get (subPath p s) = some v) :
    lastTold cb (subPath p s) w' = some (changedAt cb (subPath p s) v) := by
  rw [hans.lastTold, tells, answer_req]
  rw [hans.tree] at hget
  by_cases hread : r.op = .getDataOp ∧ r.path = subPath p s
  · rw [answer_getDataOp hread.1, hread.2, hget, if_pos ⟨hread.1, rfl, rfl⟩]
    rfl
  · rw [if_neg fun hc => hread ⟨hc.1, hc.2.1⟩, Option.none_or]
    rcases (hans.armed _ _).mp ha with ha | ⟨-, hq⟩
    · exact h.valued s ha v hget
    · -- a request for the path of a child is a read
      exfalso
      rcases h.base.solo.request hfor with hreq | ⟨s', -, hreq⟩ | ⟨-, hreq⟩
      · rw [hreq] at hq; exact subPath_ne_self p s hq.symm
      · exact hread ⟨by rw [hreq], hq⟩
      · rw [hreq] at hq; exact subPath_ne_self p s hq.symm

/-- While the children watch is armed, a listing that is answered is the present one. -/
lemma Answered.listing?_of_armed (hans : Answered w w' r) (hbase : Base cb p w')
    (hop : r.op = .getChildrenOp) (hq : r.path = p) (ha : Armed w' .child p) :
    listing? (.reply (answer w.tree w.armed r)) = some (w.tree.children p) := by
  have hp := hbase.get_of_armed ha (by simp)
  rw [hans.tree] at hp
  rw [listing?, answer_req, answer_getChildrenOp hop, hq, if_pos hp, if_pos ⟨hop, rfl⟩]

lemma CompleteInv.covered_answered (h : CompleteInv cb p w) (hroot : p ≠ root)
    (hans : Answered w w' r) (hbase : Base cb p w') (hfor : w.client.Holds r.ctx (·.For r))
    (ha : Armed w' .child p) : (∃ m ∈ w'.inbox, (listing? m).isSome) ∨
      ∀ s ∈ w'.tree.children p, Reading w' (subPath p s) := by
  by_cases hop : r.op = .getChildrenOp
  · have hq := (h.base.solo.request_list hfor hop).1
    refine Or.inl ⟨.reply (answer w.tree w.armed r), ?_, ?_⟩
    · rw [hans.inbox]
      exact List.mem_append_right _ (List.mem_singleton.mpr rfl)
    · rw [hans.listing?_of_armed hbase hop hq ha]
      rfl
  rcases h.covered (hans.armed_child hop ha) with ⟨m, hm, hlist⟩ | hall
  · exact Or.inl ⟨m, hans.inbox ▸ List.mem_append_left _ hm, hlist⟩
  refine Or.inr fun s hs => ?_
  rw [hans.tree] at hs
  by_cases hread : r.op = .getDataOp ∧ r.path = subPath p s
  · -- the child is there, so the answer to its read arms its watch
    have hget := ((Tree.mem_children_iff (hbase.ne_nil ha) hroot).mp hs).2
    obtain ⟨v, hv⟩ := Option.isSome_iff_exists.mp hget
    have hw : r.watch = true := by
      rcases h.base.solo.request hfor with hreq | ⟨_, -, hreq⟩ | ⟨-, hreq⟩ <;> rw [hreq]
    refine Or.inl ((hans.armed _ _).mpr (Or.inr ⟨?_, hread.2⟩))
    rw [Reply.table?, answer_req, if_pos hw, answer_getDataOp hread.1, hread.2, hv, hread.1]
    rfl
  · exact hans.reading (hall s hs) hread

lemma CompleteInv.latest_answered (h : CompleteInv cb p w) (hans : Answered w w' r)
    (hbase : Base cb p w') (hfor : w.client.Holds r.ctx (·.For r)) (ha : Armed w' .child p)
    {subPaths : List Str} (hlast : lastSome listing? none w'.inbox = some subPaths) (s : Str) :
    s ∈ subPaths ↔ s ∈ w'.tree.children p := by
  rw [hans.lastListing] at hlast
  rw [hans.tree]
  by_cases hop : r.op = .getChildrenOp
  · rw [hans.listing?_of_armed hbase hop (h.base.solo.request_list hfor hop).1 ha] at hlast
    rw [← Option.some.inj hlast]
  · rw [Answered.listing?_eq hop, Option.none_or] at hlast
    exact h.latest (hans.armed_child hop ha) subPaths hlast s

lemma CompleteInv.listed_answered (h : CompleteInv cb p w) (hans : Answered w w' r)
    (hbase : Base cb p w') (hfor : w.client.Holds r.ctx (·.For r)) (ha : Armed w' .node p) :
    (∃ m ∈ w'.inbox, IsExists m) ∨ Listing w' p := by
  rcases h.base.solo.request hfor with hreq | ⟨s, -, hreq⟩ | ⟨-, hreq⟩
  · refine Or.inl ⟨.reply (answer w.tree w.armed r), ?_, ?_⟩
    · rw [hans.inbox]
      exact List.mem_append_right _ (List.mem_singleton.mpr rfl)
    · rw [IsExists, answer_req, hreq]
  · -- a read of a child leaves the watches on `p` alone
    have ha' : Armed w .node p := by
      refine ((hans.armed _ _).mp ha).resolve_right fun hc => ?_
      rw [hreq] at hc
      exact subPath_ne_self p s hc.2
    rcases h.listed ha' with ⟨m, hm, hex⟩ | hl
    · exact Or.inl ⟨m, hans.inbox ▸ List.mem_append_left _ hm, hex⟩
    · exact Or.inr (hans.listing hl (by rw [hreq]; simp))
  · -- `p` is there, so the answer to a listing arms the children watch
    have hop : r.op = .getChildrenOp := by rw [hreq]
    have hp := hbase.get_of_armed ha (by simp)
    rw [hans.tree] at hp
    obtain ⟨hq, hw⟩ := h.base.solo.request_list hfor hop
    refine Or.inr (Or.inl ((hans.armed _ _).mpr (Or.inr ⟨?_, hq⟩)))
    rw [Reply.table?, answer_req, if_pos hw, answer_getChildrenOp hop, hq, if_pos hp, hop]
    rfl

lemma CompleteInv.serve (h : CompleteInv cb p w) (hroot : p ≠ root) (hs : w.serve = some w') :
    CompleteInv cb p w' := by
  have hbase := h.base.step (Or.inr (Or.inl rfl)) hs
  obtain ⟨r, rs, hsent, hans, hfor⟩ := h.answered hs
  have hrem : ∀ r ∈ w.client.sent, ∀ type, r.op ≠ .removeWatchesOp type := by
    intro r hr
    rcases h.base.solo.request (h.base.wf.sent r hr).2 with hreq | ⟨_, -, hreq⟩ | ⟨-, hreq⟩ <;>
      rw [hreq] <;> simp
  exact ⟨hbase, fun hv => (h.registers hv).serve h.base.wf hrem hs,
    fun s ha v hget => h.valued_answered hans hfor ha hget,
    fun ha => h.covered_answered hroot hans hbase hfor ha,
    fun ha subPaths hlast s => h.latest_answered hans hbase hfor ha hlast s,
    fun ha => h.listed_answered hans hbase hfor ha⟩

end Serve

/-! ## The client -/

section Deliver

variable {m : Msg} {ms : List Msg}

lemma Base.reading_deliver (h : Base cb p w) (hin : w.inbox = m :: ms)
    (hr : Reading w (subPath p s)) :
    Reading { w with inbox := ms, client := w.client.process m } (subPath p s) := by
  rcases hr with ha | ⟨r, hr, hop, hq⟩ | ⟨m', hm', hre⟩
  · exact Or.inl ha
  · exact Or.inr (Or.inl ⟨r, h.wf.sent_subset_process hin hr, hop, hq⟩)
  · rw [hin] at hm'
    rcases List.mem_cons.mp hm' with rfl | hm'
    · -- the child is read again
      cases m' with
      | reply rep => exact absurd hre id
      | event eve q ctxs =>
          obtain ⟨rfl, hdel⟩ := hre
          have hm : Msg.event eve (subPath p s) ctxs ∈ w.inbox := hin ▸ List.mem_cons_self
          obtain ⟨x, hx⟩ := List.exists_mem_of_ne_nil _ (h.served.ctxs_ne _ _ _ hm)
          refine Or.inr (Or.inl
            ⟨{ op := .getDataOp, path := subPath p s, watch := true, ctx := x },
              h.mem_sent_of_followUp hin hx (h.event_child hm hx).1 ?_, rfl, rfl⟩)
          rw [childObj, Userdata.followUp, if_neg hdel]
    · exact Or.inr (Or.inr ⟨m', hm', hre⟩)

lemma Base.listing_deliver (h : Base cb p w) (hin : w.inbox = m :: ms) (hl : Listing w p) :
    Listing { w with inbox := ms, client := w.client.process m } p := by
  rcases hl with ha | ⟨r, hr, hop, hq⟩ | ⟨m', hm', hre⟩
  · exact Or.inl ha
  · exact Or.inr (Or.inl ⟨r, h.wf.sent_subset_process hin hr, hop, hq⟩)
  · rw [hin] at hm'
    rcases List.mem_cons.mp hm' with rfl | hm'
    · -- the children are listed again
      cases m' with
      | reply rep => exact absurd hre id
      | event eve q ctxs =>
          obtain ⟨rfl, rfl⟩ := hre
          have hm : Msg.event .child q ctxs ∈ w.inbox := hin ▸ List.mem_cons_self
          obtain ⟨x, hx⟩ := List.exists_mem_of_ne_nil _ (h.served.ctxs_ne _ _ _ hm)
          obtain ⟨tb, htb, hholds⟩ := h.wf.event _ _ _ hm x hx
          obtain rfl : tb = .child := by simpa [ZkEvent.tables] using htb
          rcases h.solo.watch hholds with ⟨-, hne, -⟩ | ⟨s, -, hne, -⟩ | ⟨hd, -, -⟩
          · exact absurd rfl hne
          · simp at hne
          · exact Or.inr (Or.inl
              ⟨{ op := .getChildrenOp, path := q, watch := true, ctx := x },
                h.mem_sent_of_followUp hin hx hd rfl, rfl, rfl⟩)
    · exact Or.inr (Or.inr ⟨m', hm', hre⟩)

/-- A listing that arrives reads the fresh children. -/
lemma Base.reading_fresh (h : Base cb p w) (hin : w.inbox = m :: ms) {subPaths : List Str}
    (hlist : listing? m = some subPaths) (hs : s ∈ fresh w.client p subPaths)
    (hv : isValidPath (subPath p s) false = true) :
    Reading { w with inbox := ms, client := w.client.process m } (subPath p s) := by
  cases m with
  | event eve q ctxs => simp [listing?] at hlist
  | reply rep =>
      rw [listing?] at hlist
      split_ifs at hlist with hc
      obtain rfl := Option.some.inj hlist
      have hd : w.client.heap rep.req.ctx = some (listObj cb p) := by
        rcases h.solo.request (h.wf.reply rep (hin ▸ List.mem_cons_self)) with
          hreq | ⟨s', -, hreq⟩ | ⟨hd, -⟩
        · rw [hreq] at hc; simp at hc
        · rw [hreq] at hc; simp at hc
        · exact hd
      obtain ⟨rs, hsent, hpath, hget, -⟩ :=
        runListing_spec cb p w.client rep.strings
      have hmem : subPath p s ∈ rs.map Request.path := by
        rw [hpath]
        exact List.mem_map_of_mem (List.mem_filter.mpr ⟨hs, hv⟩)
      obtain ⟨r, hr, hq⟩ := List.mem_map.mp hmem
      refine Or.inr (Or.inl ⟨r, ?_, (hget r hr).1, hq⟩)
      rw [Client.process, onReply_list hd, if_pos hc.2, hsent]
      exact List.mem_append_right _ hr

/-- An exists answer that starts a listing. -/
lemma Base.listing_of_starts (h : Base cb p w) (hin : w.inbox = m :: ms)
    (hstart : StartsListing w.client m) (hv : isValidPath p false = true) :
    Listing { w with inbox := ms, client := w.client.process m } p := by
  cases m with
  | event eve q ctxs => exact absurd hstart id
  | reply rep =>
      obtain ⟨hop, hrun⟩ := hstart
      have hctx : rep.req.ctx = 0 := by
        rcases h.solo.request (h.wf.reply rep (hin ▸ List.mem_cons_self)) with
          hreq | ⟨s', -, hreq⟩ | ⟨-, hreq⟩
        · exact congrArg Request.ctx hreq
        · rw [hreq] at hop; simp at hop
        · rw [hreq] at hop; simp at hop
      refine Or.inr (Or.inl
        ⟨{ op := .getChildrenOp, path := p, watch := true, ctx := w.client.next }, ?_, rfl, rfl⟩)
      rw [Client.process, h.solo.onReply_exists hctx, if_pos hrun, Client.asyncGetSubPath,
        if_pos rfl, Client.sent_emplace]
      exact Client.mem_sent_send hv

lemma CompleteInv.deliver (h : CompleteInv cb p w) (hroot : p ≠ root)
    (hknown : KnownRead p w .deliver) (hrelist : Relisted p w .deliver)
    (hs : w.deliver = some w') : CompleteInv cb p w' := by
  have hbase := h.base.step (Or.inr (Or.inr rfl)) hs
  have htold := fun s => h.base.lastTold_deliver hs s
  have hreg := fun hv => (h.registers hv).deliver h.base.wf hs
  obtain ⟨m, ms, hin, rfl⟩ := World.deliver_cases hs
  refine ⟨hbase, hreg, fun s ha v hget => (htold s).trans (h.valued s ha v hget), fun ha => ?_,
    fun ha subPaths hlast => ?_, fun ha => ?_⟩
  · by_cases hms : ∃ m' ∈ ms, (listing? m').isSome
    · exact Or.inl hms
    refine Or.inr fun s hchild => ?_
    have hnone : ∀ m' ∈ ms, listing? m' = none := by
      intro m' hm'
      rw [← Option.not_isSome_iff_eq_none]
      exact fun hc => hms ⟨m', hm', hc⟩
    cases hlist : listing? m with
    | none =>
        rcases h.covered ha with ⟨m', hm', hsome⟩ | hall
        · rw [hin] at hm'
          rcases List.mem_cons.mp hm' with rfl | hm'
          · rw [hlist] at hsome; simp at hsome
          · exact absurd ⟨m', hm', hsome⟩ hms
        · exact h.base.reading_deliver hin (hall s hchild)
    | some subPaths =>
        -- this is the listing of the tree as it is
        have hlast : lastSome listing? none w.inbox = some subPaths := by
          rw [hin, lastSome_cons, hlist, lastSome_of_forall_none hnone]
          rfl
        have hmem := (h.latest ha subPaths hlast s).mpr hchild
        have hget := ((Tree.mem_children_iff (hbase.ne_nil ha) hroot).mp hchild).2
        cases hk : knows w.client p s with
        | true =>
            have hread := hknown rfl m (by rw [hin]; rfl) subPaths hlist ha
              (by rw [hin]; exact hnone) s hmem hk
            rw [hin] at hread
            rcases hread with ha' | ⟨r, hr, hop, hq⟩ | hre
            · exact Or.inl ha'
            · exact Or.inr (Or.inl ⟨r, h.base.wf.sent_subset_process hin hr, hop, hq⟩)
            · exact Or.inr (Or.inr hre)
        | false =>
            exact h.base.reading_fresh hin hlist (mem_fresh.mpr ⟨hmem, hk⟩)
              (Tree.isValidPath_of_get hget)
  · refine h.latest ha subPaths ?_
    rw [hin, lastSome_cons]
    exact lastSome_of_eq_some hlast
  · rcases h.listed ha with ⟨m', hm', hex⟩ | hl
    · rw [hin] at hm'
      rcases List.mem_cons.mp hm' with rfl | hm'
      · refine Or.inr ?_
        by_cases hstart : StartsListing w.client m'
        · exact h.base.listing_of_starts hin hstart
            (Tree.isValidPath_of_get (hbase.get_of_armed ha (by simp)))
        · exact h.base.listing_deliver hin
            (hrelist rfl m' (by rw [hin]; rfl) hex hstart ha)
      · exact Or.inl ⟨m', hm', hex⟩
    · exact Or.inr (h.base.listing_deliver hin hl)

end Deliver

/-! ## Runs -/

lemma completeInv_watchingSub (t : Tree) (p : Path) (cb : Cb) :
    CompleteInv cb p (World.watchingSub t p cb) := by
  have hnone : ∀ tb q, ¬ Armed (World.watchingSub t p cb) tb q := by
    rintro tb q ⟨a, ha, -⟩
    simp [World.watchingSub, World.start] at ha
  exact ⟨base_watchingSub t p cb,
    fun hv => World.registers_watchPathEvent (World.start t) _ rfl hv,
    fun s ha => absurd ha (hnone _ _), fun ha => absurd ha (hnone _ _),
    fun ha => absurd ha (hnone _ _), fun ha => absurd ha (hnone _ _)⟩

lemma CompleteInv.step (h : CompleteInv cb p w) (hroot : p ≠ root) {a : Action} (ha : a.Plain)
    (hknown : KnownRead p w a) (hrelist : Relisted p w a) (hs : w.step a = some w') :
    CompleteInv cb p w' := by
  rcases ha with ha | rfl | rfl
  · exact h.external hroot ha hs
  · exact h.serve hroot hs
  · exact h.deliver hroot hknown hrelist hs

/-- A run in which every known child named by the last listing is still watched or read, and no
exists answer loses the children watch, misses no child. -/
theorem complete_of_knownRead_of_relisted {t : Tree} {p : Path} {cb : Cb} {w : World}
    (hroot : p ≠ root)
    (hr : Run.Reach World.step (fun w a => a.Plain ∧ KnownRead p w a ∧ Relisted p w a)
      (World.watchingSub t p cb) w)
    (hq : w.Quiescent) (hp : (w.tree.get p).isSome) {s : Str} (hs : s ∈ w.tree.children p)
    {v : Data} (hget : w.tree.get (subPath p s) = some v) :
    lastAbout (subPath p s) w.client.calls = some (changedAt cb (subPath p s) v) := by
  have hinv : CompleteInv cb p w := hr.invariant (completeInv_watchingSub t p cb)
    fun _ _ _ h hok hs => h.step hroot hok.1 hok.2.1 hok.2.2 hs
  -- the exists watch is armed, and for a node that is there
  have hnode : Armed w .node p := by
    rcases (hinv.registers (Tree.isValidPath_of_get hp)).held with ⟨a, ha, hx⟩ | ⟨r, hr, -⟩ |
      ⟨_, _, _, hm, -⟩
    · have hfor := hinv.base.wf.armed a ha
      rw [hx] at hfor
      rcases hinv.base.solo.watch hfor with ⟨-, htb, hqa⟩ | ⟨s, hd, -⟩ | ⟨hd, -⟩
      · refine ⟨a, ha, ?_, hqa⟩
        cases htb' : a.table with
        | node => rfl
        | child => exact absurd htb' htb
        | exist =>
            have habs := hinv.base.served.absent a ha htb'
            rw [hqa] at habs
            rw [habs] at hp
            simp at hp
      · rw [hinv.base.solo.heap_zero] at hd
        simp [pathObj, childObj] at hd
      · rw [hinv.base.solo.heap_zero] at hd
        simp [pathObj, listObj] at hd
    · rw [hq.1] at hr; simp at hr
    · rw [hq.2] at hm; simp at hm
  have hchild : Armed w .child p := by
    rcases hinv.listed hnode with ⟨m, hm, -⟩ | ha | ⟨r, hr, -⟩ | ⟨m, hm, -⟩
    · rw [hq.2] at hm; simp at hm
    · exact ha
    · rw [hq.1] at hr; simp at hr
    · rw [hq.2] at hm; simp at hm
  have harmed : Armed w .node (subPath p s) := by
    rcases hinv.covered hchild with ⟨m, hm, -⟩ | hall
    · rw [hq.2] at hm; simp at hm
    · rcases hall s hs with ha | ⟨r, hr, -⟩ | ⟨m, hm, -⟩
      · exact ha
      · rw [hq.1] at hr; simp at hr
      · rw [hq.2] at hm; simp at hm
  have hlast := hinv.valued s harmed v hget
  rwa [lastTold, hq.2, lastSome_nil] at hlast

/-- A second child is created, and the first one is changed. -/
theorem complete_of_knownRead_of_relisted_treePC : ∃ w,
    Run.Reach World.step
      (fun w a => a.Plain ∧ KnownRead ['/', 'p'] w a ∧ Relisted ['/', 'p'] w a)
      (World.watchingSub treePC ['/', 'p'] 0) w ∧
    lastAbout ['/', 'p', '/', 'c'] w.client.calls =
      some (changedAt 0 ['/', 'p', '/', 'c'] (some ['b'])) := by
  obtain ⟨w, hr, hw⟩ := Run.exists_reach_of_exec World.step
    (fun w a => a.Plain ∧ KnownRead ['/', 'p'] w a ∧ Relisted ['/', 'p'] w a)
    (World.watchingSub treePC ['/', 'p'] 0)
    [.serve, .deliver, .serve, .deliver, .serve, .deliver,
      .create ['/', 'p', '/', 'd'] none, .set ['/', 'p', '/', 'c'] (some ['b']),
      .deliver, .deliver, .serve, .serve, .deliver, .deliver, .serve, .deliver]
    (fun w => (w.client.sent, w.inbox, w.tree.get ['/', 'p'],
      decide (['c'] ∈ w.tree.children ['/', 'p']), w.tree.get ['/', 'p', '/', 'c']))
    ([], [], some none, true, some (some ['b'])) rfl
  obtain ⟨hsent, hin, hp, hchildren, hget⟩ : w.client.sent = [] ∧ w.inbox = [] ∧
      w.tree.get ['/', 'p'] = some none ∧ ['c'] ∈ w.tree.children ['/', 'p'] ∧
      w.tree.get ['/', 'p', '/', 'c'] = some (some ['b']) := by
    simpa only [Prod.mk.injEq, decide_eq_true_eq] using hw
  exact ⟨w, hr, complete_of_knownRead_of_relisted (by decide) hr ⟨hsent, hin⟩ (by rw [hp]; rfl)
    hchildren hget⟩

end WatchSubPath

end ConfigMonitor
