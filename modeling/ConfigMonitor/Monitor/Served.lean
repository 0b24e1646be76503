/-
# The armed watches fit the tree

The server arms a watch for what it has just answered, and a change fires every watch it
concerns: a node watch is for a node that is there, an exist watch for one that is not, a child
watch for a node that is there.  All paths that occur in the session are valid.
-/
import ConfigMonitor.Monitor.Events

namespace ConfigMonitor

namespace World

/-- The armed watches fit the tree, and the paths of the session are valid. -/
structure Served (w : World) : Prop where
  present : ∀ a ∈ w.armed, a.table ≠ .exist → (w.tree.get a.path).isSome
  absent : ∀ a ∈ w.armed, a.table = .exist → w.tree.get a.path = none
  valid_armed : ∀ a ∈ w.armed, isValidPath a.path false = true
  valid_reply : ∀ rep, Msg.reply rep ∈ w.inbox → isValidPath rep.req.path false = true
  valid_event : ∀ eve q ctxs, Msg.event eve q ctxs ∈ w.inbox → isValidPath q false = true
  ctxs_ne : ∀ eve q ctxs, Msg.event eve q ctxs ∈ w.inbox → ctxs ≠ []

variable {w w' : World}

lemma served_start (t : Tree) (c : Client) : Served { start t with client := c } := by
  refine ⟨?_, ?_, ?_, ?_, ?_, ?_⟩ <;> simp [start]

/-- An event for which the tree has just been changed. -/
lemma served_fire {t : Tree} {eve : ZkEvent} {q : Path}
    (harmed : ∀ a ∈ w.armed, isValidPath a.path false = true)
    (hreply : ∀ rep, Msg.reply rep ∈ w.inbox → isValidPath rep.req.path false = true)
    (hevent : ∀ eve q ctxs, Msg.event eve q ctxs ∈ w.inbox →
      isValidPath q false = true ∧ ctxs ≠ [])
    (hp : ∀ a ∈ w.armed, ¬ a.FiredBy eve q → a.table ≠ .exist → (t.get a.path).isSome)
    (ha : ∀ a ∈ w.armed, ¬ a.FiredBy eve q → a.table = .exist → t.get a.path = none) :
    (({ w with tree := t } : World).fire eve q).Served := by
  refine ⟨fun a hmem htb => ?_, fun a hmem htb => ?_, fun a hmem => ?_, fun rep hm => ?_,
    fun eve' q' ctxs hm => ?_, fun eve' q' ctxs hm => ?_⟩
  · rw [tree_fire]
    exact hp a (mem_armed_fire.mp hmem).1 (mem_armed_fire.mp hmem).2 htb
  · rw [tree_fire]
    exact ha a (mem_armed_fire.mp hmem).1 (mem_armed_fire.mp hmem).2 htb
  · exact harmed a (mem_armed_fire.mp hmem).1
  · obtain ⟨evs, hevs, hno⟩ := inbox_fire { w with tree := t } eve q
    rw [hevs] at hm
    exact (List.mem_append.mp hm).elim (hreply rep) fun hm => absurd hm (hno rep)
  all_goals
    rcases fire_cases { w with tree := t } eve q with ⟨heq, -⟩ | ⟨hne, heq⟩
    · rw [heq] at hm
      first
        | exact (hevent eve' q' ctxs hm).1
        | exact (hevent eve' q' ctxs hm).2
    · rw [heq] at hm
      rcases List.mem_append.mp hm with hm | hm
      · first
          | exact (hevent eve' q' ctxs hm).1
          | exact (hevent eve' q' ctxs hm).2
      · obtain ⟨rfl, rfl, rfl⟩ := Msg.event.inj (List.mem_singleton.mp hm)
        first
          | exact hne
          | obtain ⟨x, hx⟩ := List.exists_mem_of_ne_nil _ hne
            obtain ⟨a, ha', ⟨-, rfl⟩, -⟩ := mem_collectWatchers.mp hx
            exact harmed a ha'

lemma Served.fire (h : w.Served) (eve : ZkEvent) (q : Path) : (w.fire eve q).Served :=
  served_fire (t := w.tree) h.valid_armed h.valid_reply
    (fun eve q ctxs hm => ⟨h.valid_event eve q ctxs hm, h.ctxs_ne eve q ctxs hm⟩)
    (fun a ha _ htb => h.present a ha htb) (fun a ha _ htb => h.absent a ha htb)

lemma Served.external (h : w.Served) {a : Action} (ha : a.External) (hs : w.step a = some w') :
    w'.Served := by
  have hev := fun eve q ctxs hm => And.intro (h.valid_event eve q ctxs hm)
    (h.ctxs_ne eve q ctxs hm)
  -- a watch of another path sees the node as before, and one of this path has fired
  cases a with
  | create q v =>
      obtain ⟨t, ht, rfl⟩ := Option.map_eq_some_iff.mp hs
      refine (served_fire h.valid_armed h.valid_reply hev (fun b hb _ htb => ?_)
        fun b hb hf htb => ?_).fire _ _
      · rw [Tree.get_create ht]
        split_ifs
        · rfl
        · exact h.present b hb htb
      · have hne : b.path ≠ q := fun hq => hf ⟨by rw [htb]; simp [ZkEvent.tables], hq⟩
        rw [Tree.get_create ht, if_neg hne]
        exact h.absent b hb htb
  | set q v =>
      obtain ⟨t, ht, rfl⟩ := Option.map_eq_some_iff.mp hs
      refine served_fire h.valid_armed h.valid_reply hev (fun b hb _ htb => ?_)
        fun b hb hf htb => ?_
      · rw [Tree.get_set ht]
        split_ifs
        · rfl
        · exact h.present b hb htb
      · have hne : b.path ≠ q := fun hq => hf ⟨by rw [htb]; simp [ZkEvent.tables], hq⟩
        rw [Tree.get_set ht, if_neg hne]
        exact h.absent b hb htb
  | delete q =>
      obtain ⟨t, ht, rfl⟩ := Option.map_eq_some_iff.mp hs
      refine (served_fire h.valid_armed h.valid_reply hev (fun b hb hf htb => ?_)
        fun b hb _ htb => ?_).fire _ _
      · have hne : b.path ≠ q := fun hq => hf ⟨by
          cases hb' : b.table <;> simp_all [ZkEvent.tables], hq⟩
        rw [Tree.get_delete ht, if_neg hne]
        exact h.present b hb htb
      · rw [Tree.get_delete ht]
        split_ifs
        · rfl
        · exact h.absent b hb htb
  | _ => exact absurd ha id

lemma get_of_table? {t : Tree} {armed : List Watch} {r : Request} {tb : Table}
    (h : (answer t armed r).table? = some tb) :
    (tb ≠ .exist → (t.get r.path).isSome) ∧ (tb = .exist → t.get r.path = none) := by
  rw [Reply.table?, answer_req] at h
  split_ifs at h with hw
  cases hop : r.op with
  | existsOp =>
      rw [answer_existsOp hop, hop] at h
      cases hget : t.get r.path with
      | some v => simp [hget, resultChecker] at h; simp [← h]
      | none => simp [hget, resultChecker] at h; simp [← h]
  | getDataOp =>
      rw [answer_getDataOp hop, hop] at h
      cases hget : t.get r.path with
      | some v => simp [hget, resultChecker] at h; simp [← h]
      | none => simp [hget, resultChecker] at h
  | getChildrenOp =>
      rw [answer_getChildrenOp hop, hop] at h
      cases hget : t.get r.path with
      | some v => simp [hget, resultChecker] at h; simp [← h]
      | none => simp [hget, resultChecker] at h
  | removeWatchesOp type =>
      rw [hop] at h
      simp [resultChecker] at h

lemma Served.serve (h : w.Served) (hwf : w.Wf) (hs : w.serve = some w') : w'.Served := by
  obtain ⟨r, rs, hsent, rfl⟩ := serve_cases hs
  have hv := (hwf.sent r (hsent ▸ List.mem_cons_self)).1
  have hact : ∀ a ∈ activate w.armed (answer w.tree w.armed r), a ∈ w.armed ∨
      ∃ tb, (answer w.tree w.armed r).table? = some tb ∧ a = ⟨tb, r.path, r.ctx⟩ := by
    intro a ha
    have hcase := mem_of_mem_activate ha
    rwa [answer_req] at hcase
  refine ⟨fun a ha htb => ?_, fun a ha htb => ?_, fun a ha => ?_, fun rep hm => ?_,
    fun eve q ctxs hm => h.valid_event eve q ctxs (by simpa using hm),
    fun eve q ctxs hm => h.ctxs_ne eve q ctxs (by simpa using hm)⟩
  · rcases hact a ha with ha | ⟨tb, htb', rfl⟩
    · exact h.present a ha htb
    · exact (get_of_table? htb').1 htb
  · rcases hact a ha with ha | ⟨tb, htb', rfl⟩
    · exact h.absent a ha htb
    · exact (get_of_table? htb').2 htb
  · rcases hact a ha with ha | ⟨tb, -, rfl⟩
    · exact h.valid_armed a ha
    · exact hv
  · rcases List.mem_append.mp hm with hm | hm
    · exact h.valid_reply rep hm
    · obtain rfl := Msg.reply.inj (List.mem_singleton.mp hm)
      rw [answer_req]
      exact hv

lemma Served.deliver (h : w.Served) (hs : w.deliver = some w') : w'.Served := by
  obtain ⟨m, ms, hin, rfl⟩ := deliver_cases hs
  have hmem : ∀ m', m' ∈ ms → m' ∈ w.inbox := fun m' hm' => hin ▸ List.mem_cons_of_mem _ hm'
  exact ⟨h.present, h.absent, h.valid_armed, fun rep hm => h.valid_reply rep (hmem _ hm),
    fun eve q ctxs hm => h.valid_event eve q ctxs (hmem _ hm),
    fun eve q ctxs hm => h.ctxs_ne eve q ctxs (hmem _ hm)⟩

lemma Served.step (h : w.Served) (hwf : w.Wf) {a : Action} (ha : a.Plain)
    (hs : w.step a = some w') : w'.Served := by
  rcases ha with ha | rfl | rfl
  · exact h.external ha hs
  · exact h.serve hwf hs
  · exact h.deliver hs

end World

end ConfigMonitor
