/-
# The watchers of a handle as registrations

The three tables of a handle answer like one list of registrations without duplicates: an event
is delivered to the watchers registered for it, and takes them out.
-/
import ConfigMonitor.Lib.Answers
import ConfigMonitor.ZooKeeper.Watchers

namespace ConfigMonitor

open Hashtable ZkHashtable

/-- A watcher in one of the tables. -/
structure Registration (κ ω : Type*) where
  table : Table
  path : κ
  watcher : ω
deriving DecidableEq

/-- A call of `zk_hashtable.c`; `room` says whether there is memory for a longer table;
without it neither `malloc` nor `realloc` gives one. -/
inductive TableCall (κ ω : Type*)
  | activateWatcher (room : Bool) (tb : Table) (path : κ) (watcher : ω)
  | collectWatchers (type : ZkEvent) (path : κ)
  | removeWatchers (path : κ) (type : WatcherType) (watcher : Option ω)
  | pathHasWatcher (path : κ) (type : WatcherType) (watcher : Option ω)
  | collectKeys (tb : Table)

/-- What it returns. -/
inductive TableAnswer (κ ω : Type*)
  | done
  | watchers (list : List ω)
  | found (b : Bool)
  | keys (list : List κ)

section answers

variable {κ ω : Type*} [DecidableEq κ] [DecidableEq ω]

/-- `watcher` is the one of the handle. -/
def Active.answer (hashfn : κ → UInt32) (limit : ℕ → ℕ) (watcher : ω) (zh : Active κ ω) :
    TableCall κ ω → TableAnswer κ ω × Active κ ω
  | .activateWatcher room tb path wo => (.done, zh.activateWatcher hashfn limit room tb path wo)
  | .collectWatchers type path =>
      let collected := zh.collectWatchers hashfn watcher type path
      (.watchers collected.1, collected.2)
  | .removeWatchers path type wo => (.done, zh.removeWatchers hashfn path type wo)
  | .pathHasWatcher path type wo => (.found (zh.pathHasWatcher hashfn path type wo), zh)
  | .collectKeys tb => (.keys (collectKeys (zh tb)), zh)

end answers

namespace Registrations

variable {κ ω : Type*} [DecidableEq κ] [DecidableEq ω] {regs : List (Registration κ ω)}

/-- The watchers of a path in a table, oldest first. -/
def watchersAt (regs : List (Registration κ ω)) (tb : Table) (path : κ) : List ω :=
  (regs.filter fun r => r.table = tb ∧ r.path = path).map Registration.watcher

/-- What a call may return, and what is registered then. -/
inductive Allowed (watcher : ω) (regs : List (Registration κ ω)) :
    TableCall κ ω → TableAnswer κ ω → List (Registration κ ω) → Prop
  | activate {room : Bool} {tb : Table} {path : κ} {wo : ω} :
      Allowed watcher regs (.activateWatcher room tb path wo) .done
        (if ⟨tb, path, wo⟩ ∈ regs then regs else regs ++ [⟨tb, path, wo⟩])
  | event {type : ZkEvent} {path : κ} (ne : type ≠ .session) :
      Allowed watcher regs (.collectWatchers type path)
        (.watchers (type.tables.flatMap fun tb => watchersAt regs tb path).dedup)
        (regs.filter fun r => ¬ (r.table ∈ type.tables ∧ r.path = path))
  | session {path : κ} {list : List ω} (nodup : list.Nodup) (last : list.getLast? = some watcher)
      (mem : ∀ w, w ∈ list ↔ w = watcher ∨ ∃ r ∈ regs, r.watcher = w) :
      Allowed watcher regs (.collectWatchers .session path) (.watchers list) regs
  | remove {path : κ} {type : WatcherType} {wo : Option ω} :
      Allowed watcher regs (.removeWatchers path type wo) .done
        (regs.filter fun r =>
          ¬ (r.table ∈ type.tables ∧ r.path = path ∧ ∀ w ∈ wo, r.watcher = w))
  | has {path : κ} {type : WatcherType} {wo : Option ω} {b : Bool}
      (iff : b = true ↔ ∀ w ∈ wo, ∃ r ∈ regs,
        r.table ∈ type.tables ∧ r.path = path ∧ r.watcher = w) :
      Allowed watcher regs (.pathHasWatcher path type wo) (.found b) regs
  | keys {tb : Table} {list : List κ} (nodup : list.Nodup)
      (mem : ∀ k, k ∈ list ↔ ∃ r ∈ regs, r.table = tb ∧ r.path = k) :
      Allowed watcher regs (.collectKeys tb) (.keys list) regs

/-- The tables have the registrations. -/
def Holds (hashfn : κ → UInt32) (zh : Active κ ω) (regs : List (Registration κ ω)) : Prop :=
  regs.Nodup ∧ ∀ tb, Keeps hashfn (zh tb) (watchersAt regs tb)

variable {hashfn : κ → UInt32} {limit : ℕ → ℕ} {zh : Active κ ω} {tb tb' : Table} {path k : κ}
  {wo : ω}

omit [DecidableEq ω] in
lemma mem_watchersAt : wo ∈ watchersAt regs tb path ↔ ⟨tb, path, wo⟩ ∈ regs := by
  rw [watchersAt, List.mem_map]
  constructor
  · rintro ⟨r, hr, rfl⟩
    obtain ⟨hmem, hat⟩ := List.mem_filter.mp hr
    obtain ⟨rfl, rfl⟩ := of_decide_eq_true hat
    exact hmem
  · intro hr
    exact ⟨_, List.mem_filter.mpr ⟨hr, by simp⟩, rfl⟩

omit [DecidableEq ω] in
lemma nodup_watchersAt (hnd : regs.Nodup) (tb : Table) (path : κ) :
    (watchersAt regs tb path).Nodup := by
  refine List.Nodup.map_on (fun r hr r' hr' heq => ?_) (hnd.filter _)
  obtain ⟨-, hat⟩ := List.mem_filter.mp hr
  obtain ⟨-, hat'⟩ := List.mem_filter.mp hr'
  obtain ⟨htb, hpath⟩ := of_decide_eq_true hat
  obtain ⟨htb', hpath'⟩ := of_decide_eq_true hat'
  obtain ⟨t, p, w⟩ := r
  obtain ⟨t', p', w'⟩ := r'
  simp_all

omit [DecidableEq ω] in
lemma watchersAt_append (r : Registration κ ω) : watchersAt (regs ++ [r]) tb path =
    watchersAt regs tb path ++ if r.table = tb ∧ r.path = path then [r.watcher] else [] := by
  rw [watchersAt, List.filter_append, List.map_append, watchersAt]
  congr 1
  split_ifs with h <;> simp [h]

omit [DecidableEq ω] in
lemma watchersAt_filter {tbs : List Table} {Q : ω → Prop} [DecidablePred Q] :
    watchersAt (regs.filter fun r => ¬ (r.table ∈ tbs ∧ r.path = path ∧ Q r.watcher)) tb k =
      if tb ∈ tbs ∧ k = path then (watchersAt regs tb k).filter fun w => ¬ Q w
      else watchersAt regs tb k := by
  rw [watchersAt, watchersAt, List.filter_filter]
  split_ifs with hat
  · rw [List.filter_map, List.filter_filter]
    congr 1
    refine List.filter_congr fun r _ => ?_
    obtain ⟨htb, rfl⟩ := hat
    simp only [Function.comp_apply, decide_not]
    by_cases hr : r.table = tb ∧ r.path = k
    · simp [hr.1, hr.2, htb]
    · simp [hr]
  · congr 1
    refine List.filter_congr fun r _ => ?_
    by_cases hr : r.table = tb ∧ r.path = k
    · obtain ⟨rfl, rfl⟩ := hr
      simp only [and_self, decide_true, Bool.true_and, decide_eq_true_eq]
      exact fun h => hat ⟨h.1, h.2.1⟩
    · simp [hr]

/-- What is entered in the tables. -/
lemma watchersAt_entered (regs : List (Registration κ ω)) (tb : Table) (path : κ) (wo : ω) :
    watchersAt (if ⟨tb, path, wo⟩ ∈ regs then regs else regs ++ [⟨tb, path, wo⟩]) =
      Function.update (watchersAt regs) tb (Function.update (watchersAt regs tb) path
        (if wo ∈ watchersAt regs tb path then watchersAt regs tb path
        else watchersAt regs tb path ++ [wo])) := by
  by_cases hin : ⟨tb, path, wo⟩ ∈ regs
  · rw [if_pos hin, if_pos (mem_watchersAt.mpr hin), Function.update_eq_self,
      Function.update_eq_self]
  · rw [if_neg hin, if_neg fun h => hin (mem_watchersAt.mp h)]
    ext1 tb'
    ext1 k
    rw [watchersAt_append]
    by_cases htb : tb' = tb
    · subst htb
      rw [Function.update_self, Function.update_apply]
      by_cases hk : k = path
      · simp [hk]
      · simp [hk, Ne.symm hk]
    · rw [Function.update_of_ne htb, if_neg fun h => htb h.1.symm, List.append_nil]

omit [DecidableEq ω] in
/-- What is taken out of the tables. -/
lemma watchersAt_removed (regs : List (Registration κ ω)) (tbs : List Table) (tb : Table) (path : κ)
    (Q : ω → Prop) [DecidablePred Q] :
    watchersAt (regs.filter fun r => ¬ (r.table ∈ tbs ∧ r.path = path ∧ Q r.watcher)) tb =
      if tb ∈ tbs then Function.update (watchersAt regs tb) path
        ((watchersAt regs tb path).filter fun w => ¬ Q w) else watchersAt regs tb := by
  ext1 k
  rw [watchersAt_filter]
  by_cases htb : tb ∈ tbs
  · rw [if_pos htb, Function.update_apply]
    by_cases hk : k = path
    · rw [if_pos ⟨htb, hk⟩, if_pos hk, hk]
    · rw [if_neg fun h => hk h.2, if_neg hk]
  · rw [if_neg fun h => htb h.1, if_neg htb]

/-! ## The calls -/

omit [DecidableEq ω] in
/-- One table changes. -/
lemma keeps_update {f : Table → κ → List ω} {ht : ZkHashtable κ ω} {l : List ω}
    (hk : ∀ tb, Keeps hashfn (zh tb) (f tb))
    (hht : Keeps hashfn ht (Function.update (f tb) path l)) (tb' : Table) :
    Keeps hashfn (Function.update zh tb ht tb')
      (Function.update f tb (Function.update (f tb) path l) tb') := by
  rw [Function.update_apply, Function.update_apply]
  split_ifs with h
  · exact hht
  · exact hk tb'

/-- The tables are looked in one after the other. -/
lemma keeps_collected (path : κ) {tbs : List Table} {f : Table → κ → List ω} {l : List ω}
    (hnd : tbs.Nodup) (hk : ∀ tb, Keeps hashfn (zh tb) (f tb)) :
    let r := tbs.foldl (fun (r : List ω × Active κ ω) tb =>
      let moved := addForEvent hashfn (r.2 tb) path r.1
      (moved.1, Function.update r.2 tb moved.2)) (l, zh)
    r.1 = tbs.foldl (fun l tb => f tb path ∪ l) l ∧
      ∀ tb, Keeps hashfn (r.2 tb) (if tb ∈ tbs then Function.update (f tb) path [] else f tb) := by
  induction tbs generalizing zh f l with
  | nil => exact ⟨rfl, fun tb => by simpa using hk tb⟩
  | cons tb tbs ih =>
      obtain ⟨hnot, hnd'⟩ := List.nodup_cons.mp hnd
      obtain ⟨hlist, hht⟩ := keeps_addForEvent (hk tb) path l
      obtain ⟨hlist', hk'⟩ := ih (l := f tb path ∪ l) hnd' (keeps_update hk hht)
      dsimp only at hlist' hk' ⊢
      rw [List.foldl_cons, List.foldl_cons, hlist]
      refine ⟨?_, fun tb' => ?_⟩
      · rw [hlist']
        refine List.foldl_ext _ _ _ fun l tb' htb' => ?_
        rw [Function.update_of_ne (by rintro rfl; exact hnot htb')]
      · have h := hk' tb'
        by_cases htb : tb' = tb
        · subst htb
          simpa [hnot] using h
        · simpa [htb] using h

lemma keeps_removed {tbs : List Table} {f : Table → κ → List ω} {watcher : Option ω}
    (hnd : tbs.Nodup) (hk : ∀ tb, Keeps hashfn (zh tb) (f tb)) (hf : ∀ tb, (f tb path).Nodup)
    (tb : Table) :
    Keeps hashfn (tbs.foldl (fun zh tb =>
        Function.update zh tb (removeWatcher hashfn (zh tb) path watcher)) zh tb)
      (if tb ∈ tbs then Function.update (f tb) path ((f tb path).filter
        fun w => ¬ ∀ wo ∈ watcher, w = wo) else f tb) := by
  induction tbs generalizing zh f with
  | nil => simpa using hk tb
  | cons tb' tbs ih =>
      obtain ⟨hnot, hnd'⟩ := List.nodup_cons.mp hnd
      have hht := keeps_removeWatcher (hk tb') path watcher (hf tb')
      have h := ih hnd' (keeps_update hk hht) fun tb => ?_
      · rw [List.foldl_cons]
        by_cases htb : tb = tb'
        · subst htb
          simpa [hnot] using h
        · simpa [htb] using h
      · rw [Function.update_apply]
        split_ifs
        · rw [Function.update_self]
          exact (hf tb').filter _
        · exact hf tb

/-- The tables of an event, in the order in which they are looked in. -/
lemma collected_eq (type : ZkEvent) : Active.collected type = type.tables.reverse := by
  cases type <;> rfl

lemma nodup_tables (type : ZkEvent) : type.tables.Nodup := by
  cases type <;> decide

lemma foldr_union_eq_dedup (f : Table → List ω) (tbs : List Table) :
    tbs.foldr (fun tb l => f tb ∪ l) [] = (tbs.flatMap f).dedup := by
  induction tbs with
  | nil => rfl
  | cons tb tbs ih => rw [List.foldr_cons, ih, List.flatMap_cons, List.dedup_append]

/-- An event is delivered to the watchers of its tables, and they are taken out. -/
lemma collectWatchers_spec (hh : Holds hashfn zh regs) (watcher : ω) {type : ZkEvent}
    (hne : type ≠ .session) (path : κ) :
    (zh.collectWatchers hashfn watcher type path).1 =
        (type.tables.flatMap fun tb => watchersAt regs tb path).dedup ∧
      Holds hashfn (zh.collectWatchers hashfn watcher type path).2
        (regs.filter fun r => ¬ (r.table ∈ type.tables ∧ r.path = path)) := by
  obtain ⟨hnd, hk⟩ := hh
  obtain ⟨hlist, hk'⟩ := keeps_collected path (l := [])
    (List.nodup_reverse.mpr (nodup_tables type)) hk
  dsimp only at hlist hk'
  rw [Active.collectWatchers, if_neg hne, collected_eq]
  refine ⟨?_, hnd.filter _, fun tb => ?_⟩
  · rw [hlist, List.foldl_reverse]
    exact foldr_union_eq_dedup (fun tb => watchersAt regs tb path) type.tables
  · have h := watchersAt_removed regs type.tables tb path fun _ => True
    simp only [and_true, not_true, decide_false, List.filter_false] at h
    rw [h]
    simpa using hk' tb

/-- A session event is delivered to all watchers, to the one of the handle last. -/
lemma collectWatchers_session (hh : Holds hashfn zh regs) (watcher : ω) (path : κ) :
    (zh.collectWatchers hashfn watcher .session path).2 = zh ∧
      (zh.collectWatchers hashfn watcher .session path).1.Nodup ∧
      (zh.collectWatchers hashfn watcher .session path).1.getLast? = some watcher ∧
      ∀ w, w ∈ (zh.collectWatchers hashfn watcher .session path).1 ↔
        w = watcher ∨ ∃ r ∈ regs, r.watcher = w := by
  obtain ⟨-, hk⟩ := hh
  have hself : (addToList [] watcher).Nodup := List.nodup_singleton watcher
  obtain ⟨hnd₁, hsuf₁, hmem₁⟩ := copyTable_spec (hk .node) hself
  obtain ⟨hnd₂, hsuf₂, hmem₂⟩ := copyTable_spec (hk .exist) hnd₁
  obtain ⟨hnd₃, hsuf₃, hmem₃⟩ := copyTable_spec (hk .child) hnd₂
  rw [Active.collectWatchers, if_pos rfl]
  refine ⟨rfl, hnd₃, ?_, fun w => ?_⟩
  · obtain ⟨front, hfront⟩ := hsuf₁.trans (hsuf₂.trans hsuf₃)
    rw [← hfront]
    exact List.getLast?_concat
  · have hstart : w ∈ addToList [] watcher ↔ w = watcher := List.mem_singleton
    rw [hmem₃, hmem₂, hmem₁, hstart]
    simp only [mem_watchersAt]
    constructor
    · rintro (((rfl | ⟨k, hw⟩) | ⟨k, hw⟩) | ⟨k, hw⟩)
      · exact Or.inl rfl
      · exact Or.inr ⟨_, hw, rfl⟩
      · exact Or.inr ⟨_, hw, rfl⟩
      · exact Or.inr ⟨_, hw, rfl⟩
    · rintro (rfl | ⟨⟨tb, k, w⟩, hw, rfl⟩)
      · exact Or.inl (Or.inl (Or.inl rfl))
      · cases tb with
        | node => exact Or.inl (Or.inl (Or.inr ⟨k, hw⟩))
        | exist => exact Or.inl (Or.inr ⟨k, hw⟩)
        | child => exact Or.inr ⟨k, hw⟩

/-- A watcher is entered, once. -/
lemma activateWatcher_spec (hh : Holds hashfn zh regs) (room : Bool) (tb : Table) (path : κ)
    (wo : ω) : Holds hashfn (zh.activateWatcher hashfn limit room tb path wo)
      (if ⟨tb, path, wo⟩ ∈ regs then regs else regs ++ [⟨tb, path, wo⟩]) := by
  refine ⟨?_, fun tb' => ?_⟩
  · split_ifs with hin
    · exact hh.1
    · exact List.concat_eq_append ▸ hh.1.concat hin
  · rw [watchersAt_entered]
    exact keeps_update hh.2 (keeps_insert (hh.2 tb) room path wo) tb'

lemma removeWatchers_spec (hh : Holds hashfn zh regs) (path : κ) (type : WatcherType)
    (wo : Option ω) : Holds hashfn (zh.removeWatchers hashfn path type wo) (regs.filter fun r =>
      ¬ (r.table ∈ type.tables ∧ r.path = path ∧ ∀ w ∈ wo, r.watcher = w)) := by
  refine ⟨hh.1.filter _, fun tb => ?_⟩
  rw [watchersAt_removed regs type.tables tb path fun w => ∀ v ∈ wo, w = v]
  have htables : type.tables.Nodup := by cases type <;> decide
  exact keeps_removed htables hh.2 (fun tb => nodup_watchersAt hh.1 tb path) tb

/-- Without a watcher the answer is always yes. -/
lemma pathHasWatcher_iff (hh : Holds hashfn zh regs) (path : κ) (type : WatcherType)
    (wo : Option ω) : zh.pathHasWatcher hashfn path type wo = true ↔
      ∀ w ∈ wo, ∃ r ∈ regs, r.table ∈ type.tables ∧ r.path = path ∧ r.watcher = w := by
  rw [Active.pathHasWatcher, List.any_eq_true]
  simp only [contains_iff (hh.2 _), mem_watchersAt]
  cases wo with
  | none =>
      have hne : ∃ tb, tb ∈ type.tables := by cases type <;> exact ⟨_, List.mem_cons_self⟩
      simpa using hne
  | some w =>
      constructor
      · rintro ⟨tb, htb, hin⟩ w hw
        exact ⟨_, hin w hw, htb, rfl, rfl⟩
      · intro h
        obtain ⟨⟨tb, p, v⟩, hin, htb, rfl, rfl⟩ := h w rfl
        refine ⟨tb, htb, fun v' hv' => ?_⟩
        obtain rfl := Option.mem_some_iff.mp hv'
        exact hin

omit [DecidableEq ω] in
lemma collectKeys_iff (hh : Holds hashfn zh regs) (tb : Table) : (collectKeys (zh tb)).Nodup ∧
    ∀ k, k ∈ collectKeys (zh tb) ↔ ∃ r ∈ regs, r.table = tb ∧ r.path = k := by
  obtain ⟨hnodup, hmem⟩ := collectKeys_spec (hh.2 tb)
  refine ⟨hnodup, fun k => ?_⟩
  rw [hmem]
  constructor
  · intro hne
    obtain ⟨w, hw⟩ := List.exists_mem_of_ne_nil _ hne
    exact ⟨_, mem_watchersAt.mp hw, rfl, rfl⟩
  · rintro ⟨⟨t, p, w⟩, hw, rfl, rfl⟩
    exact List.ne_nil_of_mem (mem_watchersAt.mpr hw)

lemma refines (hashfn : κ → UInt32) (limit : ℕ → ℕ) (watcher : ω) :
    Answers.Refines (Active.answer hashfn limit watcher) (Allowed watcher) (Holds hashfn) := by
  intro zh regs call hh
  cases call with
  | activateWatcher room tb path wo => exact ⟨_, .activate, activateWatcher_spec hh room tb path wo⟩
  | collectWatchers type path =>
      by_cases hsession : type = .session
      · subst hsession
        obtain ⟨hsame, hnd, hlast, hmem⟩ := collectWatchers_session hh watcher path
        refine ⟨regs, .session hnd hlast hmem, ?_⟩
        rwa [Active.answer, hsame]
      · obtain ⟨hlist, hh'⟩ := collectWatchers_spec hh watcher hsession path
        refine ⟨_, ?_, hh'⟩
        rw [Active.answer, hlist]
        exact .event hsession
  | removeWatchers path type wo => exact ⟨_, .remove, removeWatchers_spec hh path type wo⟩
  | pathHasWatcher path type wo => exact ⟨_, .has (pathHasWatcher_iff hh path type wo), hh⟩
  | collectKeys tb =>
      obtain ⟨hnodup, hmem⟩ := collectKeys_iff hh tb
      exact ⟨_, .keys hnodup hmem, hh⟩

omit [DecidableEq ω] in
lemma holds_create {ht : ZkHashtable κ ω} (hc : ZkHashtable.create limit = some ht) :
    Holds hashfn (fun _ => ht) [] :=
  ⟨List.nodup_nil, fun _ => ⟨∅, abstracts_create hc, fun _ => rfl⟩⟩

/-- From new tables on, whatever the hash function and the load limits are and whenever memory is
short, every sequence of calls is answered as one list of registrations answers it. -/
theorem tables_answer (hashfn : κ → UInt32) (limit : ℕ → ℕ) (watcher : ω)
    (calls : List (TableCall κ ω)) :
    ∃ ht : ZkHashtable κ ω, ZkHashtable.create limit = some ht ∧
      ∃ regs, Answers.Allows (Allowed watcher) []
        (Answers.run (Active.answer hashfn limit watcher) (fun _ => ht) calls).1 regs := by
  refine ⟨_, rfl, ?_⟩
  obtain ⟨regs, hallows, -⟩ := (refines hashfn limit watcher).run (holds_create rfl) calls
  exact ⟨regs, hallows⟩

end Registrations

end ConfigMonitor
