/-
# The tree of znodes

The server's state as far as the client can observe it: the nodes with their data, which may
be absent.  A tree carries its own well-formedness, so every operation has to keep it: paths
are valid and distinct, the root is there, and so is the parent of every node.
-/
import ConfigMonitor.Lib.Lookup
import ConfigMonitor.ZooKeeper.Path
import Mathlib.Data.List.Nodup

namespace ConfigMonitor

open Lookup

/-- The data of a znode: absent, or a byte string. -/
abbrev Data := Option Str

/-- A tree of znodes. -/
structure Tree where
  nodes : List (Path × Data)
  nodup : (nodes.map Prod.fst).Nodup
  root_mem : root ∈ nodes.map Prod.fst
  closed : ∀ q ∈ nodes.map Prod.fst, parentPath q ∈ nodes.map Prod.fst
  valid : ∀ q ∈ nodes.map Prod.fst, isValidPath q false = true

namespace Tree

/-- The paths of the nodes. -/
def paths (t : Tree) : List Path := t.nodes.map Prod.fst

/-- The data of the node at `q`, or `none` when there is no such node. -/
def get (t : Tree) (q : Path) : Option Data := t.nodes.lookup q

/-- The names of the children of `p`. -/
def children (t : Tree) (p : Path) : List Str :=
  t.nodes.filterMap fun n =>
    if n.1 ≠ root ∧ parentPath n.1 = p then some (baseName n.1) else none

/-- The tree that consists of the root alone. -/
def empty : Tree where
  nodes := [(root, none)]
  nodup := by decide
  root_mem := by decide
  closed := by decide
  valid := by decide

variable {t t' : Tree} {p q a : Path} {v : Data} {c : Str}

lemma get_isSome_iff : (t.get q).isSome ↔ q ∈ t.paths := lookup_isSome_iff

lemma get_eq_none_iff : t.get q = none ↔ q ∉ t.paths := by
  rw [← get_isSome_iff, Option.not_isSome_iff_eq_none]

lemma isValidPath_of_get (h : (t.get q).isSome) : isValidPath q false = true :=
  t.valid q (get_isSome_iff.mp h)

/-- `create` of the server: the path is valid and new, its parent exists. -/
def create (t : Tree) (q : Path) (v : Data) : Option Tree :=
  if h : isValidPath q false = true ∧ q ∉ t.nodes.map Prod.fst ∧
      parentPath q ∈ t.nodes.map Prod.fst then
    some {
      nodes := t.nodes ++ [(q, v)]
      nodup := by
        simpa [List.nodup_append] using ⟨t.nodup, fun a b hab hq => h.2.1 (by
          rw [← hq]; exact List.mem_map.mpr ⟨(a, b), hab, rfl⟩)⟩
      root_mem := by
        rw [List.map_append]; exact List.mem_append_left _ t.root_mem
      closed := by
        intro a ha
        rw [List.map_append] at ha ⊢
        rcases List.mem_append.mp ha with ha | ha
        · exact List.mem_append_left _ (t.closed a ha)
        · obtain rfl : a = q := by simpa using ha
          exact List.mem_append_left _ h.2.2
      valid := by
        intro a ha
        rw [List.map_append] at ha
        rcases List.mem_append.mp ha with ha | ha
        · exact t.valid a ha
        · obtain rfl : a = q := by simpa using ha
          exact h.1 }
  else none

/-- `setData` of the server: the node exists. -/
def set (t : Tree) (q : Path) (v : Data) : Option Tree :=
  if q ∈ t.nodes.map Prod.fst then
    some {
      nodes := t.nodes.map fun n => if n.1 = q then (q, v) else n
      nodup := by rw [map_fst_set]; exact t.nodup
      root_mem := by rw [map_fst_set]; exact t.root_mem
      closed := by rw [map_fst_set]; exact t.closed
      valid := by rw [map_fst_set]; exact t.valid }
  else none

/-- A node that is the parent of another one has a child. -/
lemma not_parent_of_children_nil (h : t.children p = []) (ha : a ∈ t.nodes.map Prod.fst)
    (hroot : a ≠ root) : parentPath a ≠ p := by
  intro hpar
  obtain ⟨n, hn, rfl⟩ := List.mem_map.mp ha
  have hmem : baseName n.1 ∈ t.children p := by
    rw [children, List.mem_filterMap]
    exact ⟨n, hn, by rw [if_pos ⟨hroot, hpar⟩]⟩
  rw [h] at hmem
  exact absurd hmem (by simp)

/-- `delete` of the server: the node exists, is not the root and has no children. -/
def delete (t : Tree) (q : Path) : Option Tree :=
  if h : q ∈ t.nodes.map Prod.fst ∧ q ≠ root ∧ t.children q = [] then
    have hsub : ∀ a, a ∈ (t.nodes.filter fun n => n.1 ≠ q).map Prod.fst ↔
        a ∈ t.nodes.map Prod.fst ∧ a ≠ q := by
      intro a
      simp only [List.mem_map, List.mem_filter, decide_eq_true_eq]
      constructor
      · rintro ⟨n, ⟨hn, hne⟩, rfl⟩
        exact ⟨⟨n, hn, rfl⟩, hne⟩
      · rintro ⟨⟨n, hn, rfl⟩, hne⟩
        exact ⟨n, ⟨hn, hne⟩, rfl⟩
    some {
      nodes := t.nodes.filter fun n => n.1 ≠ q
      nodup := t.nodup.sublist (List.Sublist.map _ List.filter_sublist)
      root_mem := (hsub _).mpr ⟨t.root_mem, h.2.1.symm⟩
      closed := by
        intro a ha
        obtain ⟨ha, hne⟩ := (hsub a).mp ha
        refine (hsub _).mpr ⟨t.closed a ha, ?_⟩
        by_cases hroot : a = root
        · rw [hroot]; exact h.2.1.symm
        · exact not_parent_of_children_nil h.2.2 ha hroot
      valid := fun a ha => t.valid a ((hsub a).mp ha).1 }
  else none

/-! ## What the operations do to a lookup -/

lemma get_create (h : t.create q v = some t') (a : Path) :
    t'.get a = if a = q then some v else t.get a := by
  rw [create] at h
  split_ifs at h with hc
  obtain rfl := Option.some.inj h
  rw [get, List.lookup_append, lookup_cons_ite, List.lookup_nil]
  by_cases ha : a = q
  · subst ha
    have hnone : t.nodes.lookup a = none := by
      rw [← Option.not_isSome_iff_eq_none, lookup_isSome_iff]
      exact hc.2.1
    simp [hnone]
  · simp [ha, get]

lemma get_set (h : t.set q v = some t') (a : Path) :
    t'.get a = if a = q then some v else t.get a := by
  rw [set] at h
  split_ifs at h with hc
  obtain rfl := Option.some.inj h
  rw [get, lookup_map_set]
  by_cases ha : a = q
  · subst ha
    obtain ⟨u, hu⟩ := Option.isSome_iff_exists.mp (lookup_isSome_iff.mpr hc)
    simp [hu]
  · simp [ha, get]

lemma get_delete (h : t.delete q = some t') (a : Path) :
    t'.get a = if a = q then none else t.get a := by
  rw [delete] at h
  split_ifs at h with hc
  obtain rfl := Option.some.inj h
  refine (lookup_filter (l := t.nodes) (P := fun b => b ≠ q)).trans ?_
  by_cases ha : a = q <;> simp [ha, get]

lemma get_of_create (h : t.create q v = some t') : t.get q = none := by
  rw [create] at h
  split_ifs at h with hc
  exact get_eq_none_iff.mpr hc.2.1

lemma get_of_set (h : t.set q v = some t') : (t.get q).isSome := by
  rw [set] at h
  split_ifs at h with hc
  exact get_isSome_iff.mpr hc

lemma get_of_delete (h : t.delete q = some t') : (t.get q).isSome := by
  rw [delete] at h
  split_ifs at h with hc
  exact get_isSome_iff.mpr hc.1

/-! ## Children -/

/-- No path joined from the root with a second `/` is the path of a node. -/
lemma get_subPath_root : t.get (subPath root c) = none := by
  rw [← Option.not_isSome_iff_eq_none]
  intro h
  have hv := isValidPath_of_get h
  rw [isValidPath_subPath_root] at hv
  simp at hv

/-- Below a node other than the root, a name is listed exactly when the path joined from it
is the path of a node. -/
lemma mem_children_iff (hp : p ≠ []) (hroot : p ≠ root) :
    c ∈ t.children p ↔ '/' ∉ c ∧ (t.get (subPath p c)).isSome := by
  rw [children, List.mem_filterMap, get_isSome_iff]
  constructor
  · rintro ⟨n, hn, hif⟩
    split_ifs at hif with hcond
    obtain rfl := Option.some.inj hif
    refine ⟨slash_not_mem_baseName n.1, ?_⟩
    have hmem : n.1 ∈ t.paths := List.mem_map.mpr ⟨n, hn, rfl⟩
    obtain ⟨r, hr⟩ := isValidPath_head (t.valid n.1 hmem)
    rw [← eq_subPath_of_parentPath (by rw [hr]; simp) hcond.2 hroot]
    exact hmem
  · rintro ⟨hc, hmem⟩
    obtain ⟨n, hn, hnq⟩ := List.mem_map.mp hmem
    refine ⟨n, hn, ?_⟩
    have hne : n.1 ≠ root := by
      rw [hnq]
      intro h
      have hpar := congrArg parentPath h
      rw [parentPath_subPath hp hc] at hpar
      exact hroot hpar
    rw [hnq] at hne ⊢
    rw [if_pos ⟨hne, parentPath_subPath hp hc⟩, baseName_subPath p hc]

/-- A path without a node has no children. -/
lemma children_eq_nil (h : t.get p = none) : t.children p = [] := by
  rw [children, List.filterMap_eq_nil_iff]
  intro n hn
  rw [if_neg]
  rintro ⟨-, rfl⟩
  exact get_eq_none_iff.mp h (t.closed n.1 (List.mem_map_of_mem hn))

/-- A listing of a node other than the root names no child twice. -/
lemma children_nodup (hroot : p ≠ root) : (t.children p).Nodup := by
  have hinj : ∀ n ∈ t.nodes, ∀ n' ∈ t.nodes, n.1 ≠ root ∧ parentPath n.1 = p →
      n'.1 ≠ root ∧ parentPath n'.1 = p → baseName n.1 = baseName n'.1 → n = n' := by
    intro n hn n' hn' hp hp' hbase
    have hslash : ∀ m ∈ t.nodes, '/' ∈ m.1 := by
      intro m hm
      obtain ⟨r, hr⟩ := isValidPath_head (t.valid m.1 (List.mem_map.mpr ⟨m, hm, rfl⟩))
      rw [hr]; simp
    have hfst : n.1 = n'.1 := by
      rw [eq_subPath_of_parentPath (hslash n hn) hp.2 hroot,
        eq_subPath_of_parentPath (hslash n' hn') hp'.2 hroot, hbase]
    exact List.inj_on_of_nodup_map t.nodup hn hn' hfst
  have hnodes : t.nodes.Nodup := List.Nodup.of_map _ t.nodup
  rw [children]
  generalize t.nodes = l at hinj hnodes
  induction l with
  | nil => simp
  | cons n l ih =>
      rw [List.filterMap_cons]
      have ih' := ih (fun m hm m' hm' => hinj m (List.mem_cons_of_mem _ hm) m'
        (List.mem_cons_of_mem _ hm')) (List.nodup_cons.mp hnodes).2
      split_ifs with hcond
      · refine List.nodup_cons.mpr ⟨?_, ih'⟩
        intro hmem
        obtain ⟨m, hm, hif⟩ := List.mem_filterMap.mp hmem
        split_ifs at hif with hcond'
        have hnm := hinj n List.mem_cons_self m (List.mem_cons_of_mem _ hm) hcond hcond'
          (Option.some.inj hif).symm
        exact (List.nodup_cons.mp hnodes).1 (hnm ▸ hm)
      · exact ih'

end Tree

end ConfigMonitor
