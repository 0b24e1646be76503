/-
# What other clients do to the session

The steps `create`, `set` and `delete` change the tree and fire watches; they leave the client
alone, and a watch that is still armed afterwards is for something that has not changed.
-/
import ConfigMonitor.Monitor.Held

namespace ConfigMonitor

/-- A change of the tree by another client. -/
def Action.External : Action → Prop
  | .create .. | .set .. | .delete _ => True
  | _ => False

instance : DecidablePred Action.External
  | .create .. | .set .. | .delete _ => instDecidableTrue
  | .watchPath .. | .watchSubPath .. | .asyncRemoveWatches .. | .serve | .deliver
  | .loss .. => instDecidableFalse

/-- A step that is no call of the user and loses no connection. -/
def Action.Plain (a : Action) : Prop := a.External ∨ a = .serve ∨ a = .deliver

instance : DecidablePred Action.Plain := fun a =>
  inferInstanceAs (Decidable (a.External ∨ a = .serve ∨ a = .deliver))

/-- The steps of the session alone: no call of the user, no change of the tree. -/
def Action.Internal (a : Action) : Prop := a = .serve ∨ a = .deliver

instance : DecidablePred Action.Internal := fun a =>
  inferInstanceAs (Decidable (a = .serve ∨ a = .deliver))

namespace World

variable {w w' : World}

/-- The effect of a change of the tree on the rest of the state. -/
structure Changed (w w' : World) : Prop where
  client : w'.client = w.client
  inbox : ∃ evs, w'.inbox = w.inbox ++ evs ∧ ∀ rep, Msg.reply rep ∉ evs
  armed : w'.armed ⊆ w.armed
  get : ∀ a ∈ w'.armed, a.table ≠ .child → w'.tree.get a.path = w.tree.get a.path

lemma fire_cases (w : World) (eve : ZkEvent) (q : Path) :
    (w.fire eve q = w ∧ ∀ a ∈ w.armed, ¬ a.FiredBy eve q) ∨
      (collectWatchers eve q w.armed ≠ [] ∧ w.fire eve q = { w with
        armed := w.armed.filter fun a => ¬ a.FiredBy eve q
        inbox := w.inbox ++ [.event eve q (collectWatchers eve q w.armed)] }) := by
  rw [fire]
  cases hc : collectWatchers eve q w.armed with
  | nil =>
      refine Or.inl ⟨rfl, fun a ha hf => ?_⟩
      have := mem_collectWatchers.mpr ⟨a, ha, hf, rfl⟩
      rw [hc] at this
      simp at this
  | cons y ys => exact Or.inr ⟨by simp, rfl⟩

lemma mem_armed_fire {eve : ZkEvent} {q : Path} {a : Watch} :
    a ∈ (w.fire eve q).armed ↔ a ∈ w.armed ∧ ¬ a.FiredBy eve q := by
  rcases fire_cases w eve q with ⟨heq, hnone⟩ | ⟨-, heq⟩
  · rw [heq]
    exact ⟨fun ha => ⟨ha, hnone a ha⟩, fun ha => ha.1⟩
  · rw [heq]
    simp only [List.mem_filter, decide_eq_true_eq]

lemma inbox_fire (w : World) (eve : ZkEvent) (q : Path) :
    ∃ evs, (w.fire eve q).inbox = w.inbox ++ evs ∧ ∀ rep, Msg.reply rep ∉ evs := by
  rcases fire_cases w eve q with ⟨heq, -⟩ | ⟨-, heq⟩
  · exact ⟨[], by rw [heq, List.append_nil], by simp⟩
  · exact ⟨[.event eve q (collectWatchers eve q w.armed)], by rw [heq], by simp⟩

/-- The first event of a change, at the path that is changed. -/
lemma changed_fire {t : Tree} {eve : ZkEvent} {q : Path} (ht : ∀ b, b ≠ q → t.get b = w.tree.get b)
    (heve : ∀ tb, tb ≠ .child → tb ∈ eve.tables) : Changed w (({ w with tree := t }).fire eve q) := by
  refine ⟨client_fire _ _ _, inbox_fire _ _ _, fun a ha => (mem_armed_fire.mp ha).1,
    fun a ha htb => ?_⟩
  have hf := (mem_armed_fire.mp ha).2
  rw [tree_fire]
  exact ht a.path fun hq => hf ⟨heve _ htb, hq⟩

/-- The second event of a change, for the children watches of the parent. -/
lemma Changed.fire (h : Changed w w') (eve : ZkEvent) (q : Path) :
    Changed w (w'.fire eve q) := by
  obtain ⟨evs, hevs, hno⟩ := h.inbox
  obtain ⟨evs', hevs', hno'⟩ := inbox_fire w' eve q
  refine ⟨by rw [client_fire, h.client], ⟨evs ++ evs', ?_, fun rep hm => ?_⟩,
    fun a ha => h.armed (mem_armed_fire.mp ha).1, fun a ha htb => ?_⟩
  · rw [hevs', hevs, List.append_assoc]
  · exact (List.mem_append.mp hm).elim (hno rep) (hno' rep)
  · rw [tree_fire]
    exact h.get a (mem_armed_fire.mp ha).1 htb

lemma changed_of_external {a : Action} (ha : a.External) (hs : w.step a = some w') :
    Changed w w' := by
  cases a with
  | create q v =>
      obtain ⟨t, ht, rfl⟩ := Option.map_eq_some_iff.mp hs
      refine (changed_fire (fun b hb => ?_) ?_).fire _ _
      · rw [Tree.get_create ht, if_neg hb]
      · intro tb htb; cases tb <;> simp_all [ZkEvent.tables]
  | set q v =>
      obtain ⟨t, ht, rfl⟩ := Option.map_eq_some_iff.mp hs
      refine changed_fire (fun b hb => ?_) ?_
      · rw [Tree.get_set ht, if_neg hb]
      · intro tb htb; cases tb <;> simp_all [ZkEvent.tables]
  | delete q =>
      obtain ⟨t, ht, rfl⟩ := Option.map_eq_some_iff.mp hs
      refine (changed_fire (fun b hb => ?_) ?_).fire _ _
      · rw [Tree.get_delete ht, if_neg hb]
      · intro tb htb; cases tb <;> simp_all [ZkEvent.tables]
  | _ => exact absurd ha id

/-- The rule of a change: it keeps what a new tree and an event keep. -/
lemma external_invariant {P : World → Prop} (htree : ∀ t, P { w with tree := t })
    (hfire : ∀ w eve q, P w → P (w.fire eve q)) {a : Action} (ha : a.External)
    (hs : w.step a = some w') : P w' := by
  cases a with
  | create q v =>
      obtain ⟨t, -, rfl⟩ := Option.map_eq_some_iff.mp hs
      exact hfire _ _ _ (hfire _ _ _ (htree t))
  | set q v =>
      obtain ⟨t, -, rfl⟩ := Option.map_eq_some_iff.mp hs
      exact hfire _ _ _ (htree t)
  | delete q =>
      obtain ⟨t, -, rfl⟩ := Option.map_eq_some_iff.mp hs
      exact hfire _ _ _ (hfire _ _ _ (htree t))
  | _ => exact absurd ha id

lemma Registers.external {x : Ptr} {cb : ExistsCallback} (h : w.Registers x cb) {a : Action}
    (ha : a.External) (hs : w.step a = some w') : w'.Registers x cb :=
  external_invariant (P := fun w => w.Registers x cb) (fun _ => ⟨h.heap, h.valid, h.held⟩)
    (fun _ eve q hw => hw.fire eve q) ha hs

end World

end ConfigMonitor
