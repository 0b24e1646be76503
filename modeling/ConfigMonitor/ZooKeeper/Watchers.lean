/-
# The watchers of a handle

`zk_hashtable.c` keeps the watchers of a handle in three tables from paths to lists of watcher
objects.  An answer enters a watcher, an event takes those of its path out and delivers them, a
removal takes them out silently.  What the tables do is said of one list of registrations,
oldest first.
-/
import ConfigMonitor.ZooKeeper.Hashtable
import ConfigMonitor.ZooKeeper.Session
import Mathlib.Data.List.Dedup

namespace ConfigMonitor

open Hashtable

/-- A character as a `char` is added to an `unsigned int`. -/
def charValue (c : Char) : UInt32 :=
  if c.toNat < 128 then c.toNat.toUInt32 else c.toNat.toUInt32 - 256

/-- `string_hash_djb2`. -/
def stringHashDjb2 (str : Str) : UInt32 :=
  (str.takeWhile (· ≠ '\x00')).foldl (fun hash c => (hash <<< 5) + hash + charValue c) 5381

/-- `zk_hashtable`: a list of watcher objects for each path, the newest first. -/
abbrev ZkHashtable (κ ω : Type*) := Hashtable κ (List ω)

namespace ZkHashtable

variable {κ ω : Type*} [DecidableEq κ] [DecidableEq ω] (hashfn : κ → UInt32) (limit : ℕ → ℕ)

/-- `create_zk_hashtable`. -/
def create : Option (ZkHashtable κ ω) := Hashtable.create limit 32

/-- `add_to_list`, which looks for the watcher with `search_watcher` first. -/
def addToList (wl : List ω) (wo : ω) : List ω := if wo ∈ wl then wl else wo :: wl

/-- `copy_watchers`. -/
def copyWatchers (source target : List ω) : List ω := source.foldl addToList target

/-- `insert_watcher_object`. -/
def insertWatcherObject (ht : ZkHashtable κ ω) (room : Bool) (path : κ) (wo : ω) :
    ZkHashtable κ ω :=
  match ht.search hashfn path with
  | none => ht.insert hashfn limit room path [wo]
  | some wl => ht.write hashfn path (addToList wl wo)

/-- `copy_table`. -/
def copyTable (source : ZkHashtable κ ω) (target : List ω) : List ω :=
  source.fold (fun target e => copyWatchers e.v target) target

/-- `collect_keys`. -/
def collectKeys (ht : ZkHashtable κ ω) : List κ := ht.fold (fun keys e => keys ++ [e.k]) []

/-- `add_for_event`. -/
def addForEvent (ht : ZkHashtable κ ω) (path : κ) (list : List ω) : List ω × ZkHashtable κ ω :=
  match ht.remove hashfn path with
  | (none, ht) => (list, ht)
  | (some wl, ht) => (copyWatchers wl list, ht)

/-- `containsWatcher`; no watcher matches all. -/
def containsWatcher (ht : ZkHashtable κ ω) (path : κ) : Option ω → Bool
  | none => true
  | some watcher =>
      match ht.search hashfn path with
      | none => false
      | some wl => decide (watcher ∈ wl)

/-- `removeWatcherFromList`: the loop looks behind the head, and the head is looked at last. -/
def removeWatcherFromList (wl : List ω) (watcher : ω) : List ω :=
  match wl with
  | [] => []
  | head :: tail => if head = watcher then tail.erase watcher else head :: tail.erase watcher

/-- `removeWatcher`; no watcher removes all. -/
def removeWatcher (ht : ZkHashtable κ ω) (path : κ) (watcher : Option ω) : ZkHashtable κ ω :=
  match ht.search hashfn path with
  | none => ht
  | some wl =>
      match watcher with
      | none => (ht.remove hashfn path).2
      | some watcher =>
          let wl := removeWatcherFromList wl watcher
          let ht := ht.write hashfn path wl
          if wl.isEmpty then (ht.remove hashfn path).2 else ht

/-! ## One table -/

/-- The list that stands for the watchers, oldest first; there is no empty list in a table. -/
def stored (l : List ω) : Option (List ω) := if l = [] then none else some l.reverse

/-- The table has the watchers `f k` for each path `k`. -/
def Keeps (ht : ZkHashtable κ ω) (f : κ → List ω) : Prop :=
  ∃ m, Abstracts hashfn ht m ∧ ∀ k, m.lookup k = stored (f k)

variable {hashfn limit} {ht : ZkHashtable κ ω} {f : κ → List ω} {path k : κ} {wo : ω}
  {l target : List ω}

omit [DecidableEq ω] in
lemma stored_eq_none : stored l = none ↔ l = [] := by
  rw [stored]
  split_ifs with h <;> simp [h]

omit [DecidableEq ω] in
lemma stored_eq_some {wl : List ω} : stored l = some wl ↔ l ≠ [] ∧ wl = l.reverse := by
  rw [stored]
  split_ifs with h
  · simp [h]
  · simp [h, eq_comm]

omit [DecidableEq ω] in
lemma mem_iff_ne_nil {m : AList fun _ : κ => List ω} (hm : ∀ k, m.lookup k = stored (f k)) :
    path ∈ m ↔ f path ≠ [] := by
  rw [← AList.lookup_isSome, hm, stored]
  split_ifs with h <;> simp [h]

omit [DecidableEq ω] in
lemma Keeps.search (hk : Keeps hashfn ht f) (path : κ) :
    ht.search hashfn path = stored (f path) := by
  obtain ⟨m, ha, hm⟩ := hk
  rw [search_eq ha, hm]

lemma addToList_eq (wl : List ω) (wo : ω) : addToList wl wo = wl.insert wo := by
  rw [addToList]
  split_ifs with h
  · rw [List.insert_of_mem h]
  · rw [List.insert_of_not_mem h]

/-- A list is copied from its newest watcher on, and ends up in front. -/
lemma copyWatchers_reverse (l target : List ω) : copyWatchers l.reverse target = l ∪ target := by
  rw [copyWatchers, List.foldl_reverse]
  induction l with
  | nil => rfl
  | cons a l ih => rw [List.foldr_cons, ih, List.cons_union, addToList_eq]

omit [DecidableEq ω] in
/-- The entry for one path changes. -/
lemma keeps_of_lookup {ht' : ZkHashtable κ ω} {m m' : AList fun _ : κ => List ω}
    (ha : Abstracts hashfn ht' m') (hm : ∀ k, m.lookup k = stored (f k))
    (hself : m'.lookup path = stored l) (hne : ∀ k ≠ path, m'.lookup k = m.lookup k) :
    Keeps hashfn ht' (Function.update f path l) := by
  refine ⟨m', ha, fun k => ?_⟩
  rw [Function.update_apply]
  split_ifs with hkp
  · rw [hkp, hself]
  · rw [hne k hkp, hm]

/-- A watcher that is there already is not entered again. -/
lemma keeps_insert (hk : Keeps hashfn ht f) (room : Bool) (path : κ) (wo : ω) :
    Keeps hashfn (insertWatcherObject hashfn limit ht room path wo)
      (Function.update f path (if wo ∈ f path then f path else f path ++ [wo])) := by
  have hsearch := hk.search path
  obtain ⟨m, ha, hm⟩ := hk
  rw [insertWatcherObject, hsearch]
  by_cases hnil : f path = []
  · have hno : path ∉ m := fun hin => (mem_iff_ne_nil hm).mp hin hnil
    rw [stored_eq_none.mpr hnil]
    refine keeps_of_lookup (abstracts_insert ha hno room [wo]) hm ?_
      fun k hne => AList.lookup_insert_ne hne
    rw [AList.lookup_insert, hnil]
    rfl
  · have hmem : path ∈ m := (mem_iff_ne_nil hm).mpr hnil
    rw [stored, if_neg hnil]
    refine keeps_of_lookup (abstracts_write ha hmem _) hm ?_
      fun k hne => AList.lookup_insert_ne hne
    simp only [AList.lookup_insert, addToList, List.mem_reverse]
    split_ifs with hin
    · rw [stored, if_neg hnil]
    · rw [stored, if_neg (by simp), List.reverse_append]
      rfl

/-- The watchers of a path are taken out and put in front of those that are there. -/
lemma keeps_addForEvent (hk : Keeps hashfn ht f) (path : κ) (target : List ω) :
    (addForEvent hashfn ht path target).1 = f path ∪ target ∧
      Keeps hashfn (addForEvent hashfn ht path target).2 (Function.update f path []) := by
  obtain ⟨m, ha, hm⟩ := hk
  obtain ⟨hfound, ha'⟩ := remove_spec ha path
  have hkeeps : Keeps hashfn (ht.remove hashfn path).2 (Function.update f path []) :=
    keeps_of_lookup ha' hm (AList.lookup_erase path m) fun k hne => AList.lookup_erase_ne hne
  rw [hm] at hfound
  rw [addForEvent]
  by_cases hnil : f path = []
  · rw [stored_eq_none.mpr hnil] at hfound
    generalize ht.remove hashfn path = r at hfound hkeeps
    obtain ⟨wl?, ht'⟩ := r
    obtain rfl := hfound
    rw [hnil, List.nil_union]
    exact ⟨rfl, hkeeps⟩
  · rw [stored, if_neg hnil] at hfound
    generalize ht.remove hashfn path = r at hfound hkeeps
    obtain ⟨wl?, ht'⟩ := r
    obtain rfl := hfound
    exact ⟨copyWatchers_reverse (f path) target, hkeeps⟩

lemma removeWatcherFromList_eq (hnd : l.Nodup) (wo : ω) :
    removeWatcherFromList l wo = l.filter (· ≠ wo) := by
  cases l with
  | nil => rfl
  | cons head tail =>
      obtain ⟨hnot, hnd'⟩ := List.nodup_cons.mp hnd
      rw [removeWatcherFromList, hnd'.erase_eq_filter]
      split_ifs with hhead
      · simp [hhead, bne, beq_eq_decide]
      · simp [hhead, bne, beq_eq_decide]

/-- A watcher, or every watcher, of a path is taken out. -/
lemma keeps_removeWatcher (hk : Keeps hashfn ht f) (path : κ) (watcher : Option ω)
    (hnd : (f path).Nodup) : Keeps hashfn (removeWatcher hashfn ht path watcher)
      (Function.update f path ((f path).filter fun w => ¬ ∀ wo ∈ watcher, w = wo)) := by
  have hsearch := hk.search path
  obtain ⟨m, ha, hm⟩ := hk
  rw [removeWatcher, hsearch]
  by_cases hnil : f path = []
  · rw [stored_eq_none.mpr hnil, hnil]
    refine keeps_of_lookup ha hm ?_ fun k hne => rfl
    rw [hm, hnil]
    rfl
  · rw [stored, if_neg hnil]
    cases watcher with
    | none =>
        refine keeps_of_lookup (remove_spec ha path).2 hm ?_ fun k hne => AList.lookup_erase_ne hne
        simp [stored]
    | some wo =>
        have hmem : path ∈ m := (mem_iff_ne_nil hm).mpr hnil
        have hleft : removeWatcherFromList (f path).reverse wo =
            ((f path).filter fun w => ¬ ∀ v ∈ some wo, w = v).reverse := by
          rw [removeWatcherFromList_eq (List.nodup_reverse.mpr hnd), List.filter_reverse]
          simp
        have hwrite := abstracts_write ha hmem
          ((f path).filter fun w => ¬ ∀ v ∈ some wo, w = v).reverse
        dsimp only
        rw [hleft]
        split_ifs with hempty
        · -- the last watcher of the path has gone
          refine keeps_of_lookup (remove_spec hwrite path).2 hm ?_ fun k hne => ?_
          · rw [AList.lookup_erase, stored,
              if_pos (List.reverse_eq_nil_iff.mp (List.isEmpty_iff.mp hempty))]
          · rw [AList.lookup_erase_ne hne, AList.lookup_insert_ne hne]
        · refine keeps_of_lookup hwrite hm ?_ fun k hne => AList.lookup_insert_ne hne
          rw [AList.lookup_insert, stored, if_neg]
          exact fun h => hempty (List.isEmpty_iff.mpr (List.reverse_eq_nil_iff.mpr h))

lemma contains_iff (hk : Keeps hashfn ht f) (path : κ) (watcher : Option ω) :
    containsWatcher hashfn ht path watcher = true ↔ ∀ wo ∈ watcher, wo ∈ f path := by
  cases watcher with
  | none => simp [containsWatcher]
  | some wo =>
      rw [containsWatcher, hk.search path]
      by_cases hnil : f path = []
      · rw [stored_eq_none.mpr hnil]
        simp [hnil]
      · rw [stored, if_neg hnil]
        simp

omit [DecidableEq κ] [DecidableEq ω] in
lemma foldl_keys (l : List (Entry κ (List ω))) (acc : List κ) :
    l.foldl (fun keys e => keys ++ [e.k]) acc = acc ++ (l.map Entry.item).keys := by
  induction l generalizing acc with
  | nil => simp
  | cons e l ih =>
      rw [List.foldl_cons, ih, List.append_assoc]
      rfl

omit [DecidableEq ω] in
/-- The paths of a table, each once. -/
lemma collectKeys_spec (hk : Keeps hashfn ht f) :
    (collectKeys ht).Nodup ∧ ∀ k, k ∈ collectKeys ht ↔ f k ≠ [] := by
  obtain ⟨m, ha, hm⟩ := hk
  rw [collectKeys, fold_eq ha, foldl_keys, List.nil_append]
  refine ⟨(List.perm_nodupKeys ha.perm).mpr m.nodupKeys, fun k => ?_⟩
  have hperm : (ht.entries.map Entry.item).keys.Perm m.keys := ha.perm.map Sigma.fst
  rw [hperm.mem_iff, ← AList.mem_keys, mem_iff_ne_nil hm]

omit [DecidableEq κ] in
lemma foldl_copyWatchers {l : List (Entry κ (List ω))} (hv : ∀ e ∈ l, e.v = (f e.k).reverse)
    (hnd : target.Nodup) :
    let copied := l.foldl (fun target e => copyWatchers e.v target) target
    copied.Nodup ∧ target <:+ copied ∧ ∀ w, w ∈ copied ↔ w ∈ target ∨ ∃ e ∈ l, w ∈ f e.k := by
  induction l generalizing target with
  | nil => exact ⟨hnd, List.suffix_refl _, by simp⟩
  | cons e l ih =>
      have hcopy : copyWatchers e.v target = f e.k ∪ target := by
        rw [hv e List.mem_cons_self, copyWatchers_reverse]
      obtain ⟨hnd', hsuffix, hmem⟩ :=
        ih (fun b hb => hv b (List.mem_cons_of_mem e hb)) (hnd.union (f e.k))
      rw [List.foldl_cons, hcopy]
      refine ⟨hnd', (List.suffix_union_right _ _).trans hsuffix, fun w => ?_⟩
      rw [hmem, List.mem_union_iff]
      simp only [List.mem_cons, exists_eq_or_imp]
      tauto

/-- The watchers of a table are copied in front of the others. -/
lemma copyTable_spec (hk : Keeps hashfn ht f) (hnd : target.Nodup) :
    (copyTable ht target).Nodup ∧ target <:+ copyTable ht target ∧
      ∀ w, w ∈ copyTable ht target ↔ w ∈ target ∨ ∃ k, w ∈ f k := by
  obtain ⟨m, ha, hm⟩ := hk
  have hv : ∀ e ∈ ht.entries, e.v = (f e.k).reverse := by
    intro e he
    have hin : m.lookup e.k = some e.v :=
      AList.mem_lookup_iff.mpr (ha.perm.mem_iff.mp (List.mem_map_of_mem he))
    rw [hm] at hin
    exact (stored_eq_some.mp hin).2
  obtain ⟨hnd', hsuffix, hmem⟩ := foldl_copyWatchers hv hnd
  rw [copyTable, fold_eq ha]
  refine ⟨hnd', hsuffix, fun w => ?_⟩
  rw [hmem]
  refine or_congr_right ⟨?_, ?_⟩
  · rintro ⟨e, -, hw⟩
    exact ⟨e.k, hw⟩
  · rintro ⟨k, hw⟩
    have hin : m.lookup k = some (f k).reverse := by
      rw [hm, stored, if_neg (List.ne_nil_of_mem hw)]
    obtain ⟨e, he, heq⟩ := List.mem_map.mp (ha.perm.mem_iff.mpr (AList.mem_lookup_iff.mp hin))
    obtain ⟨rfl, -⟩ := Sigma.mk.inj heq
    exact ⟨e, he, hw⟩

end ZkHashtable

/-- `active_node_watchers`, `active_exist_watchers` and `active_child_watchers`. -/
abbrev Active (κ ω : Type*) := Table → ZkHashtable κ ω

namespace Active

open ZkHashtable

variable {κ ω : Type*} [DecidableEq κ] [DecidableEq ω] (hashfn : κ → UInt32) (limit : ℕ → ℕ)

/-- The tables `collectWatchers` looks in, one after the other. -/
def collected : ZkEvent → List Table
  | .created | .changed => [.node, .exist]
  | .child => [.child]
  | .deleted => [.node, .exist, .child]
  | .dummy | .session => []

/-- `collectWatchers`; the watcher of the handle is told session events too. -/
def collectWatchers (zh : Active κ ω) (watcher : ω) (type : ZkEvent) (path : κ) :
    List ω × Active κ ω :=
  if type = .session then
    (copyTable (zh .child) (copyTable (zh .exist) (copyTable (zh .node) (addToList [] watcher))),
      zh)
  else
    (collected type).foldl (fun r tb =>
      let moved := addForEvent hashfn (r.2 tb) path r.1
      (moved.1, Function.update r.2 tb moved.2)) ([], zh)

/-- `activateWatcher`, with the table that the checker of the registration has chosen. -/
def activateWatcher (zh : Active κ ω) (room : Bool) (tb : Table) (path : κ) (watcher : ω) :
    Active κ ω :=
  Function.update zh tb (insertWatcherObject hashfn limit (zh tb) room path watcher)

/-- `removeWatchers`. -/
def removeWatchers (zh : Active κ ω) (path : κ) (type : WatcherType) (watcher : Option ω) :
    Active κ ω :=
  type.tables.foldl
    (fun zh tb => Function.update zh tb (removeWatcher hashfn (zh tb) path watcher)) zh

/-- `pathHasWatcher`. -/
def pathHasWatcher (zh : Active κ ω) (path : κ) (type : WatcherType) (watcher : Option ω) : Bool :=
  type.tables.any fun tb => containsWatcher hashfn (zh tb) path watcher

end Active

end ConfigMonitor
