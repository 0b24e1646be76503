/-
# Entries that are taken out and written back

A table maps keys to values.  Some actions write or erase the entry of a key.  Others take all
entries out of the table at once, and write them back later, one key at a time, while the
table goes on being written.  An entry written back may replace a later write: whether this
has happened can be read off the actions (`Undone`), and this is exactly when the table does
not hold the last write (`Lawful.entry_eq_lastWrite_iff`).

The table, the entries taken out and the actions are those of an arbitrary transition system
that obeys the laws of `Lawful`.
-/
import ConfigMonitor.Lib.Run
import Mathlib.Logic.Function.Basic

namespace LastWriter

open Run

/-- What an action does to the table.  A `write` of `none` erases the entry. -/
inductive Kind (κ ν : Type*)
  | write (k : κ) (v : Option ν)
  | take
  | restore (k : κ)
  | other

variable {σ α κ ν : Type*} [DecidableEq κ]

/-- The entry that an action gives to `k`, if it writes or erases it. -/
def Kind.writes? (k : κ) : Kind κ ν → Option (Option ν)
  | .write k' v => if k' = k then some v else none
  | _ => none

/-- The entry of `k` after the last write or erasure of it. -/
def lastWrite (kind : α → Kind κ ν) (k : κ) (acts : List α) : Option ν :=
  acts.foldl (fun acc a => ((kind a).writes? k).getD acc) none

/-- The laws of a table with entries `entry` and entries taken out `held`. -/
structure Lawful (step : σ → α → Option σ) (kind : α → Kind κ ν) (entry held : σ → κ → Option ν) :
    Prop where
  write : ∀ {s a s' k v}, step s a = some s' → kind a = .write k v →
    entry s' = Function.update (entry s) k v ∧ held s' = held s
  take : ∀ {s a s'}, step s a = some s' → kind a = .take →
    (∀ k, held s k = none) ∧ (∀ k, entry s' k = none) ∧ held s' = entry s
  restore : ∀ {s a s' k}, step s a = some s' → kind a = .restore k →
    ∃ v, held s k = some v ∧ entry s' = Function.update (entry s) k (some v) ∧
      held s' = Function.update (held s) k none
  other : ∀ {s a s'}, step s a = some s' → kind a = .other →
    entry s' = entry s ∧ held s' = held s

/-- An entry of `k` other than the last write is written back, and `k` is not written again. -/
def Undone (step : σ → α → Option σ) (kind : α → Kind κ ν) (held : σ → κ → Option ν) (s₀ : σ)
    (k : κ) (acts : List α) : Prop :=
  ∃ before a after s v, acts = before ++ a :: after ∧ Runs step s₀ before s ∧
    kind a = .restore k ∧ held s k = some v ∧ lastWrite kind k before ≠ some v ∧
      ∀ b ∈ after, (kind b).writes? k = none

variable {step : σ → α → Option σ} {kind : α → Kind κ ν} {entry held : σ → κ → Option ν}
  {s₀ s s' : σ} {k : κ} {a : α} {acts : List α} {v : Option ν}

lemma lastWrite_snoc_of_some (h : (kind a).writes? k = some v) :
    lastWrite kind k (acts ++ [a]) = v := by
  simp [lastWrite, h]

lemma lastWrite_snoc_of_none (h : (kind a).writes? k = none) :
    lastWrite kind k (acts ++ [a]) = lastWrite kind k acts := by
  simp [lastWrite, h]

lemma not_undone_nil : ¬ Undone step kind held s₀ k [] := by
  rintro ⟨before, a, after, s, v, hl, -⟩
  simp at hl

/-- The last action is the one that writes back, or comes after it. -/
lemma undone_snoc : Undone step kind held s₀ k (acts ++ [a]) ↔
    (Undone step kind held s₀ k acts ∧ (kind a).writes? k = none) ∨
      kind a = .restore k ∧ ∃ s v, Runs step s₀ acts s ∧ held s k = some v ∧
        lastWrite kind k acts ≠ some v := by
  have hsnoc : ∀ after, (∀ b ∈ after ++ [a], (kind b).writes? k = none) ↔
      (∀ b ∈ after, (kind b).writes? k = none) ∧ (kind a).writes? k = none := by
    intro after
    rw [List.forall_mem_append, List.forall_mem_singleton]
  simp only [Undone, exists_and_left, exists_split_snoc, hsnoc]
  constructor
  · rintro (⟨before, b, after, hl, s, hrun, hkind, v, hheld, hne, hafter, ha⟩ |
      ⟨s, hrun, hkind, v, hheld, hne, -⟩)
    · exact Or.inl ⟨⟨before, b, after, hl, s, hrun, hkind, v, hheld, hne, hafter⟩, ha⟩
    · exact Or.inr ⟨hkind, s, hrun, v, hheld, hne⟩
  · rintro (⟨⟨before, b, after, hl, s, hrun, hkind, v, hheld, hne, hafter⟩, ha⟩ |
      ⟨hkind, s, hrun, v, hheld, hne⟩)
    · exact Or.inl ⟨before, b, after, hl, s, hrun, hkind, v, hheld, hne, hafter, ha⟩
    · exact Or.inr ⟨s, hrun, hkind, v, hheld, hne, by simp⟩

/-- After any run: an entry that is not taken out is the last write unless that was undone; an
entry that is taken out after it was undone is still a wrong one. -/
def Sound (step : σ → α → Option σ) (kind : α → Kind κ ν) (entry held : σ → κ → Option ν)
    (s₀ : σ) (k : κ) (acts : List α) (s : σ) : Prop :=
  (held s k = none →
    (entry s k = lastWrite kind k acts ↔ ¬ Undone step kind held s₀ k acts)) ∧
  ∀ v, held s k = some v → Undone step kind held s₀ k acts → lastWrite kind k acts ≠ some v

/-- An action that leaves the entry of `k` alone. -/
lemma Sound.snoc_of_eq (h : Sound step kind entry held s₀ k acts s)
    (hw : (kind a).writes? k = none) (hr : kind a ≠ .restore k) (hentry : entry s' k = entry s k)
    (hheld : held s' k = held s k) : Sound step kind entry held s₀ k (acts ++ [a]) s' := by
  have hiff : Undone step kind held s₀ k (acts ++ [a]) ↔ Undone step kind held s₀ k acts := by
    rw [undone_snoc]
    exact ⟨fun hu => (hu.resolve_right fun hc => hr hc.1).1, fun hu => Or.inl ⟨hu, hw⟩⟩
  rw [Sound, hentry, hheld, lastWrite_snoc_of_none hw, hiff]
  exact h

lemma Sound.snoc_take (h : Sound step kind entry held s₀ k acts s) (ha : kind a = .take)
    (hnone : held s k = none) (hentry : entry s' k = none) (hheld : held s' k = entry s k) :
    Sound step kind entry held s₀ k (acts ++ [a]) s' := by
  have hw : (kind a).writes? k = none := by rw [ha]; rfl
  have hiff : Undone step kind held s₀ k (acts ++ [a]) ↔ Undone step kind held s₀ k acts := by
    rw [undone_snoc, ha]
    exact ⟨fun hu => (hu.resolve_right fun hc => by simp at hc).1, fun hu => Or.inl ⟨hu, rfl⟩⟩
  rw [Sound, hentry, hheld, lastWrite_snoc_of_none hw, hiff]
  refine ⟨fun he => ?_, fun v hv hu heq => ?_⟩
  · rw [← he]
    exact h.1 hnone
  · exact (h.1 hnone).mp (hv.trans heq.symm) hu

lemma Sound.snoc_restore (h : Sound step kind entry held s₀ k acts s)
    (hrun : Runs step s₀ acts s) (ha : kind a = .restore k) {v : ν} (hv : held s k = some v)
    (hentry : entry s' k = some v) (hheld : held s' k = none) :
    Sound step kind entry held s₀ k (acts ++ [a]) s' := by
  have hw : (kind a).writes? k = none := by rw [ha]; rfl
  have hiff : Undone step kind held s₀ k (acts ++ [a]) ↔
      Undone step kind held s₀ k acts ∨ lastWrite kind k acts ≠ some v := by
    rw [undone_snoc]
    refine or_congr ⟨fun hu => hu.1, fun hu => ⟨hu, hw⟩⟩ ⟨?_, fun hne => ⟨ha, s, v, hrun, hv, hne⟩⟩
    rintro ⟨-, t, u, hrun', hu, hne⟩
    rw [hrun'.unique hrun, hv] at hu
    rwa [Option.some.inj hu]
  rw [Sound, hentry, hheld, lastWrite_snoc_of_none hw, hiff]
  refine ⟨fun _ => ⟨fun heq hu => ?_, fun hno => ?_⟩, fun u hu => by simp at hu⟩
  · rcases hu with hu | hne
    · exact h.2 v hv hu heq.symm
    · exact hne heq.symm
  · exact (not_not.mp fun hne => hno (Or.inr hne)).symm

lemma Sound.snoc_write (h : (kind a).writes? k = some v) (hentry : entry s' k = v) :
    Sound step kind entry held s₀ k (acts ++ [a]) s' := by
  have hno : ¬ Undone step kind held s₀ k (acts ++ [a]) := by
    rw [undone_snoc]
    rintro (⟨-, hw⟩ | ⟨hr, -⟩)
    · rw [h] at hw; simp at hw
    · rw [hr] at h; simp [Kind.writes?] at h
  exact ⟨fun _ => ⟨fun _ => hno, fun _ => hentry.trans (lastWrite_snoc_of_some h).symm⟩,
    fun _ _ hu => absurd hu hno⟩

/-- Every run of a lawful system is sound for every key. -/
lemma Lawful.sound (h : Lawful step kind entry held) (hentry : ∀ k, entry s₀ k = none)
    (hheld : ∀ k, held s₀ k = none) (hrun : Runs step s₀ acts s) (k : κ) :
    Sound step kind entry held s₀ k acts s := by
  induction hrun with
  | nil =>
      refine ⟨fun _ => ?_, fun v hv => ?_⟩
      · exact ⟨fun _ => not_undone_nil, fun _ => hentry k⟩
      · rw [hheld k] at hv; simp at hv
  | @snoc acts s s' a hrun hs ih =>
      cases hkind : kind a with
      | write k' v =>
          obtain ⟨he, hh⟩ := h.write hs hkind
          by_cases hk : k' = k
          · subst hk
            exact .snoc_write (by rw [hkind, Kind.writes?, if_pos rfl])
              (by rw [he, Function.update_self])
          · refine ih.snoc_of_eq ?_ (by rw [hkind]; simp) ?_ (by rw [hh])
            · rw [hkind, Kind.writes?, if_neg hk]
            · rw [he, Function.update_of_ne (Ne.symm hk)]
      | take =>
          obtain ⟨hnone, he, hh⟩ := h.take hs hkind
          exact ih.snoc_take hkind (hnone k) (he k) (by rw [hh])
      | restore k' =>
          obtain ⟨v, hv, he, hh⟩ := h.restore hs hkind
          by_cases hk : k' = k
          · subst hk
            exact ih.snoc_restore hrun hkind hv (by rw [he, Function.update_self])
              (by rw [hh, Function.update_self])
          · refine ih.snoc_of_eq (by rw [hkind]; rfl) (by rw [hkind]; simpa using hk) ?_ ?_
            · rw [he, Function.update_of_ne (Ne.symm hk)]
            · rw [hh, Function.update_of_ne (Ne.symm hk)]
      | other =>
          obtain ⟨he, hh⟩ := h.other hs hkind
          exact ih.snoc_of_eq (by rw [hkind]; rfl) (by rw [hkind]; simp) (by rw [he]) (by rw [hh])

/-- When the entry of `k` is not taken out, it is the last write if and only if no entry was
written back over that. -/
lemma Lawful.entry_eq_lastWrite_iff (h : Lawful step kind entry held)
    (hentry : ∀ k, entry s₀ k = none) (hheld : ∀ k, held s₀ k = none)
    (hrun : Runs step s₀ acts s) (hk : held s k = none) :
    entry s k = lastWrite kind k acts ↔ ¬ Undone step kind held s₀ k acts :=
  (h.sound hentry hheld hrun k).1 hk

end LastWriter
