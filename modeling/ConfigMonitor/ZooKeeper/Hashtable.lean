/-
# The hash table of the client library

`hashtable.c` keeps chains of entries in a table whose length is a prime, and moves them to a
longer table when there are more than `loadlimit`.  The hash function, the load limits and
whether there is memory for a longer table are left open.  As long as no key is inserted twice
the table is a map.
-/
import ConfigMonitor.Lib.Chains
import Mathlib.Data.List.AList

namespace ConfigMonitor

open Chains

open scoped List

/-- `struct entry`. -/
structure Entry (κ β : Type*) where
  k : κ
  v : β
  h : UInt32

/-- What the entry says. -/
def Entry.item {κ β : Type*} (e : Entry κ β) : Σ _ : κ, β := ⟨e.k, e.v⟩

/-- `struct hashtable`. -/
structure Hashtable (κ β : Type*) where
  tablelength : ℕ
  table : ℕ → List (Entry κ β)
  entrycount : ℕ
  loadlimit : ℕ
  primeindex : ℕ

namespace Hashtable

/-- The lengths of the tables. -/
def primes : List ℕ :=
  [53, 97, 193, 389, 769, 1543, 3079, 6151, 12289, 24593, 49157, 98317, 196613, 393241, 786433,
    1572869, 3145739, 6291469, 12582917, 25165843, 50331653, 100663319, 201326611, 402653189,
    805306457, 1610612741]

/-- `hash`, from what the hash function has returned. -/
def hash (i : UInt32) : UInt32 :=
  let i := i + ~~~(i <<< 9)
  let i := i ^^^ ((i >>> 14) ||| (i <<< 18))
  let i := i + (i <<< 4)
  i ^^^ ((i >>> 10) ||| (i <<< 22))

/-- `indexFor`. -/
def indexFor (tablelength : ℕ) (hashvalue : UInt32) : ℕ := hashvalue.toNat % tablelength

variable {κ β : Type*} [DecidableEq κ] (hashfn : κ → UInt32) (limit : ℕ → ℕ)

/-- `create_hashtable`: the length is the first prime above `minsize`. -/
def create (minsize : ℕ) : Option (Hashtable κ β) :=
  if 1 <<< 30 < minsize then none
  else
    let pindex := primes.findIdx (minsize < ·)
    let size := primes.getD pindex 53
    some
      { tablelength := size, table := fun _ => [], entrycount := 0, loadlimit := limit size
        primeindex := pindex }

/-- `hashtable_expand`; without room nothing changes: `malloc` fails and `realloc` fails too.  A
`realloc` that succeeds after a `malloc` that failed is not modelled: the source then writes through
a slot that it has not set. -/
def expand (h : Hashtable κ β) (room : Bool) : Hashtable κ β :=
  if h.primeindex = primes.length - 1 ∨ room = false then h
  else
    let newsize := primes.getD (h.primeindex + 1) 53
    let newtable := (List.range h.tablelength).foldl
      (fun t i => (h.table i).foldl (place fun e => indexFor newsize e.h) t) fun _ => []
    { h with
      tablelength := newsize, table := newtable, loadlimit := limit newsize
      primeindex := h.primeindex + 1 }

/-- `hashtable_insert`, which does not look for the key. -/
def insert (h : Hashtable κ β) (room : Bool) (k : κ) (v : β) : Hashtable κ β :=
  let h := { h with entrycount := h.entrycount + 1 }
  let h := if h.loadlimit < h.entrycount then h.expand limit room else h
  { h with
    table := place (fun e => indexFor h.tablelength e.h) h.table ⟨k, v, hash (hashfn k)⟩ }

/-- The chain for a key. -/
def chain (h : Hashtable κ β) (k : κ) : ℕ := indexFor h.tablelength (hash (hashfn k))

/-- Is the entry one for the key? -/
def isFor (k : κ) (e : Entry κ β) : Bool := hash (hashfn k) == e.h && k == e.k

/-- `hashtable_search`. -/
def search (h : Hashtable κ β) (k : κ) : Option β :=
  ((h.table (h.chain hashfn k)).find? (isFor hashfn k)).map Entry.v

/-- `hashtable_remove`. -/
def remove (h : Hashtable κ β) (k : κ) : Option β × Hashtable κ β :=
  let i := h.chain hashfn k
  match (h.table i).find? (isFor hashfn k) with
  | none => (none, h)
  | some e =>
      (some e.v, { h with
        table := Function.update h.table i ((h.table i).eraseP (isFor hashfn k))
        entrycount := h.entrycount - 1 })

/-- What the value that `hashtable_search` finds points to is changed. -/
def write (h : Hashtable κ β) (k : κ) (v : β) : Hashtable κ β :=
  let i := h.chain hashfn k
  { h with
    table := Function.update h.table i ((h.table i).replaceF fun e =>
      if isFor hashfn k e then some { e with v := v } else none) }

/-- `struct hashtable_itr`: the entry it is at, `e`, and what follows it in its chain. -/
structure Itr (κ β : Type*) where
  index : ℕ
  rest : List (Entry κ β)

/-- The first entry of the chains from `j` on. -/
def scan (h : Hashtable κ β) (j : ℕ) : Itr κ β :=
  match (List.range' j (h.tablelength - j)).find? fun i => !(h.table i).isEmpty with
  | none => ⟨h.tablelength, []⟩
  | some i => ⟨i, h.table i⟩

/-- `hashtable_iterator`. -/
def iterator (h : Hashtable κ β) : Itr κ β :=
  if h.entrycount = 0 then ⟨h.tablelength, []⟩ else h.scan 0

/-- `hashtable_iterator_advance`. -/
def advance (h : Hashtable κ β) (it : Itr κ β) : Itr κ β :=
  match it.rest with
  | [] => it
  | [_] => h.scan (it.index + 1)
  | _ :: e :: rest => { it with rest := e :: rest }

/-- A loop over the table that asks after each entry whether there is another one. -/
def loop {σ : Type*} (h : Hashtable κ β) (f : σ → Entry κ β → σ) : ℕ → Itr κ β → σ → σ
  | 0, _, s => s
  | n + 1, it, s =>
      match it.rest with
      | [] => s
      | e :: _ => h.loop f n (h.advance it) (f s e)

/-- `hashtable_iterator` and the loop. -/
def fold {σ : Type*} (h : Hashtable κ β) (f : σ → Entry κ β → σ) (s : σ) : σ :=
  h.loop f h.entrycount h.iterator s

/-- All entries, chain by chain. -/
def entries (h : Hashtable κ β) : List (Entry κ β) := listed h.tablelength h.table

/-- The table stands for the map. -/
structure Abstracts (h : Hashtable κ β) (m : AList fun _ : κ => β) : Prop where
  prime : primes[h.primeindex]? = some h.tablelength
  placed : Placed (fun e => indexFor h.tablelength e.h) h.table
  hashed : ∀ e ∈ h.entries, e.h = hash (hashfn e.k)
  count : h.entrycount = h.entries.length
  perm : h.entries.map Entry.item ~ m.entries

section abstracts

variable {hashfn limit} {h : Hashtable κ β} {m : AList fun _ : κ => β} {k : κ} {v : β}

lemma isFor_iff {e : Entry κ β} : isFor hashfn k e = true ↔ hash (hashfn k) = e.h ∧ k = e.k := by
  rw [isFor, Bool.and_eq_true, beq_iff_eq, beq_iff_eq]

lemma pos_of_prime {i n : ℕ} (h : primes[i]? = some n) : 0 < n := by
  have hall : ∀ p ∈ primes, 0 < p := by decide
  exact hall n (List.mem_of_getElem? h)

omit [DecidableEq κ] in
lemma Abstracts.chain_lt (ha : Abstracts hashfn h m) : h.chain hashfn k < h.tablelength :=
  Nat.mod_lt _ (pos_of_prime ha.prime)

/-- What the chain for a key says about the key. -/
lemma Abstracts.chain_cases (ha : Abstracts hashfn h m) (k : κ) :
    ((∀ e ∈ h.table (h.chain hashfn k), isFor hashfn k e = false) ∧ k ∉ m) ∨
    ∃ e l₁ l₂, h.table (h.chain hashfn k) = l₁ ++ e :: l₂ ∧
      (∀ b ∈ l₁, isFor hashfn k b = false) ∧ isFor hashfn k e = true ∧ e.k = k ∧
      m.entries ~ ⟨k, e.v⟩ :: (listed h.tablelength
        (Function.update h.table (h.chain hashfn k) (l₁ ++ l₂))).map Entry.item := by
  cases hfind : (h.table (h.chain hashfn k)).find? (isFor hashfn k) with
  | none =>
      have hno := List.find?_eq_none.mp hfind
      refine Or.inl ⟨fun e he => Bool.eq_false_iff.mpr (hno e he), fun hk => ?_⟩
      obtain ⟨v, hv⟩ := AList.lookup_isSome.mpr hk |> Option.isSome_iff_exists.mp
      have hmem := ha.perm.mem_iff.mpr (AList.mem_lookup_iff.mp hv)
      obtain ⟨e, he, heq⟩ := List.mem_map.mp hmem
      obtain ⟨rfl, -⟩ := Sigma.mk.inj heq
      -- an entry for the key is in the chain for it
      have hchain := (ha.placed.mem_iff (n := h.tablelength) ?_).mp he
      · rw [ha.hashed e he] at hchain
        exact hno e hchain (isFor_iff.mpr ⟨(ha.hashed e he).symm, rfl⟩)
      · rw [ha.hashed e he]
        exact ha.chain_lt
  | some e =>
      obtain ⟨hfor, l₁, l₂, htable, hl₁⟩ := List.find?_eq_some_iff_append.mp hfind
      obtain ⟨-, hk⟩ := isFor_iff.mp hfor
      refine Or.inr ⟨e, l₁, l₂, htable, by simpa using hl₁, hfor, hk.symm, ?_⟩
      have hperm := (perm_update_append ha.chain_lt htable).map Entry.item
      rw [List.map_cons] at hperm
      rw [show (⟨k, e.v⟩ : Σ _ : κ, β) = e.item by rw [hk]; rfl]
      exact ha.perm.symm.trans hperm

lemma search_eq (ha : Abstracts hashfn h m) : h.search hashfn k = m.lookup k := by
  rw [search]
  rcases ha.chain_cases k with ⟨hno, hk⟩ | ⟨e, l₁, l₂, htable, hl₁, hfor, hk, hperm⟩
  · rw [List.find?_eq_none.mpr (by simpa using hno), AList.lookup_eq_none.mpr hk]
    rfl
  · rw [List.find?_eq_some_iff_append.mpr ⟨hfor, l₁, l₂, htable, by simpa using hl₁⟩]
    have hmem : (⟨k, e.v⟩ : Σ _ : κ, β) ∈ m.entries := hperm.mem_iff.mpr List.mem_cons_self
    exact (AList.mem_lookup_iff.mpr hmem).symm

/-! ## Insertion -/

omit [DecidableEq κ] in
/-- The largest prime is above all that is asked for. -/
lemma abstracts_create {minsize : ℕ} (hc : create limit minsize = some h) :
    Abstracts hashfn h ∅ := by
  rw [create] at hc
  split_ifs at hc with hsize
  obtain rfl := Option.some.inj hc
  have hlt : primes.findIdx (minsize < ·) < primes.length := by
    refine List.findIdx_lt_length_of_exists ⟨1610612741, by decide, ?_⟩
    rw [decide_eq_true_eq]
    omega
  refine ⟨?_, placed_empty, fun e he => ?_, ?_, ?_⟩
  · rw [List.getD_eq_getElem?_getD, List.getElem?_eq_getElem hlt]
    rfl
  · rw [entries, listed_empty] at he
    simp at he
  · rw [entries, listed_empty]
    rfl
  · rw [entries, listed_empty]
    exact List.Perm.refl _

omit [DecidableEq κ] in
/-- A longer table has the entries of the one before. -/
lemma expand_cases (hp : primes[h.primeindex]? = some h.tablelength)
    (hplaced : Placed (fun e => indexFor h.tablelength e.h) h.table) (room : Bool) :
    (h.expand limit room).entrycount = h.entrycount ∧
      primes[(h.expand limit room).primeindex]? = some (h.expand limit room).tablelength ∧
      Placed (fun e => indexFor (h.expand limit room).tablelength e.h)
        (h.expand limit room).table ∧
      (h.expand limit room).entries ~ h.entries := by
  rw [expand]
  split_ifs with hno
  · exact ⟨rfl, hp, hplaced, List.Perm.refl _⟩
  · have hlt := (List.getElem?_eq_some_iff.mp hp).1
    have hlong : h.primeindex + 1 < primes.length := by
      have := (not_or.mp hno).1
      omega
    have hnext : primes[h.primeindex + 1]? = some (primes.getD (h.primeindex + 1) 53) := by
      rw [List.getD_eq_getElem?_getD, List.getElem?_eq_getElem hlong]
      rfl
    refine ⟨rfl, hnext, ?_, ?_⟩
    · dsimp only
      rw [← List.foldl_flatMap]
      exact placed_empty.foldl_place _
    · rw [entries]
      dsimp only
      rw [← List.foldl_flatMap]
      refine (listed_foldl_place fun e _ => Nat.mod_lt _ (pos_of_prime hnext)).trans ?_
      rw [listed_empty, List.append_nil]
      exact List.Perm.refl _

/-- A key that is not there is inserted. -/
lemma abstracts_insert (ha : Abstracts hashfn h m) (hk : k ∉ m) (room : Bool) (v : β) :
    Abstracts hashfn (h.insert hashfn limit room k v) (m.insert k v) := by
  have hgrown : ∃ h₂ : Hashtable κ β, h.insert hashfn limit room k v = { h₂ with
        table := place (fun e => indexFor h₂.tablelength e.h) h₂.table ⟨k, v, hash (hashfn k)⟩ } ∧
      h₂.entrycount = h.entrycount + 1 ∧ primes[h₂.primeindex]? = some h₂.tablelength ∧
      Placed (fun e => indexFor h₂.tablelength e.h) h₂.table ∧ h₂.entries ~ h.entries := by
    refine ⟨_, rfl, ?_⟩
    dsimp only
    split_ifs
    · exact expand_cases (h := { h with entrycount := h.entrycount + 1 }) ha.prime ha.placed room
    · exact ⟨rfl, ha.prime, ha.placed, List.Perm.refl _⟩
  obtain ⟨h₂, heq, hcount, hprime, hplaced, hperm⟩ := hgrown
  have hall : listed h₂.tablelength (place (fun e => indexFor h₂.tablelength e.h) h₂.table
      ⟨k, v, hash (hashfn k)⟩) ~ ⟨k, v, hash (hashfn k)⟩ :: h.entries := by
    refine (listed_place ?_).trans (hperm.cons _)
    exact Nat.mod_lt _ (pos_of_prime hprime)
  rw [heq]
  refine ⟨hprime, hplaced.place _, fun e he => ?_, ?_, ?_⟩
  · rcases List.mem_cons.mp (hall.mem_iff.mp he) with rfl | he
    · rfl
    · exact ha.hashed e he
  · rw [hcount, ha.count]
    exact hall.length_eq.symm
  · rw [AList.entries_insert_of_notMem hk]
    exact (hall.map Entry.item).trans (ha.perm.cons _)

/-! ## Removal -/

/-- What is left when the entry for a key is taken out of its chain. -/
lemma Abstracts.without {e : Entry κ β} {l₁ l₂ : List (Entry κ β)} (ha : Abstracts hashfn h m)
    (htable : h.table (h.chain hashfn k) = l₁ ++ e :: l₂)
    (hperm : m.entries ~ ⟨k, e.v⟩ :: (listed h.tablelength
      (Function.update h.table (h.chain hashfn k) (l₁ ++ l₂))).map Entry.item) :
    h.entries ~ e :: listed h.tablelength
        (Function.update h.table (h.chain hashfn k) (l₁ ++ l₂)) ∧
      m.entries.kerase k ~ (listed h.tablelength
        (Function.update h.table (h.chain hashfn k) (l₁ ++ l₂))).map Entry.item := by
  refine ⟨perm_update_append ha.chain_lt htable, ?_⟩
  have herase := List.Perm.kerase (a := k) m.nodupKeys hperm
  have hself : k = (⟨k, e.v⟩ : Σ _ : κ, β).1 := rfl
  rwa [List.kerase_cons_eq hself] at herase

lemma remove_spec (ha : Abstracts hashfn h m) (k : κ) :
    (h.remove hashfn k).1 = m.lookup k ∧ Abstracts hashfn (h.remove hashfn k).2 (m.erase k) := by
  rw [remove]
  rcases ha.chain_cases k with ⟨hno, hk⟩ | ⟨e, l₁, l₂, htable, hl₁, hfor, hk, hperm⟩
  · rw [List.find?_eq_none.mpr (by simpa using hno)]
    refine ⟨(AList.lookup_eq_none.mpr hk).symm, ha.prime, ha.placed, ha.hashed, ha.count, ?_⟩
    have hsame : (m.erase k).entries = m.entries := List.kerase_of_notMem_keys hk
    rw [hsame]
    exact ha.perm
  · obtain ⟨hold, hnew⟩ := ha.without htable hperm
    have hmem : (⟨k, e.v⟩ : Σ _ : κ, β) ∈ m.entries := hperm.mem_iff.mpr List.mem_cons_self
    rw [List.find?_eq_some_iff_append.mpr ⟨hfor, l₁, l₂, htable, by simpa using hl₁⟩, htable,
      List.eraseP_append_right _ (by simpa using hl₁), List.eraseP_cons_of_pos hfor]
    refine ⟨(AList.mem_lookup_iff.mpr hmem).symm, ha.prime, ?_, fun b hb => ?_, ?_, hnew.symm⟩
    · refine ha.placed.update fun b hb => ha.placed _ b ?_
      rw [htable]
      exact List.mem_append.mpr ((List.mem_append.mp hb).imp_right (List.mem_cons_of_mem e))
    · exact ha.hashed b (hold.mem_iff.mpr (List.mem_cons_of_mem e hb))
    · have hlen := hold.length_eq
      rw [← ha.count, List.length_cons] at hlen
      dsimp only [entries]
      omega

/-- The value for a key is changed in place. -/
lemma abstracts_write (ha : Abstracts hashfn h m) (hk : k ∈ m) (v : β) :
    Abstracts hashfn (h.write hashfn k v) (m.insert k v) := by
  rw [write]
  rcases ha.chain_cases k with ⟨-, hno⟩ | ⟨e, l₁, l₂, htable, hl₁, hfor, rfl, hperm⟩
  · exact absurd hk hno
  · obtain ⟨hold, hnew⟩ := ha.without htable hperm
    have hreplace : (h.table (h.chain hashfn e.k)).replaceF (fun b =>
        if isFor hashfn e.k b then some { b with v := v } else none) =
        l₁ ++ { e with v := v } :: l₂ := by
      rw [htable]
      refine replaceF_append_cons (fun b hb => ?_) (if_pos hfor)
      rw [hl₁ b hb]
      rfl
    have hperm' : listed h.tablelength (Function.update h.table (h.chain hashfn e.k)
        (l₁ ++ { e with v := v } :: l₂)) ~ _ := perm_update_replace ha.chain_lt
    rw [hreplace]
    refine ⟨ha.prime, ha.placed.update fun b hb => ?_, fun b hb => ?_, ?_, ?_⟩
    · have hin : ∀ b ∈ l₁ ++ e :: l₂, indexFor h.tablelength b.h = h.chain hashfn e.k :=
        fun b hb => ha.placed _ b (htable ▸ hb)
      rcases List.mem_append.mp hb with hb | hb
      · exact hin b (List.mem_append_left _ hb)
      · rcases List.mem_cons.mp hb with rfl | hb
        · exact hin e (List.mem_append_right _ List.mem_cons_self)
        · exact hin b (List.mem_append_right _ (List.mem_cons_of_mem e hb))
    · rcases List.mem_cons.mp (hperm'.mem_iff.mp hb) with rfl | hb
      · exact ha.hashed e (hold.mem_iff.mpr List.mem_cons_self)
      · exact ha.hashed b (hold.mem_iff.mpr (List.mem_cons_of_mem e hb))
    · rw [ha.count, hold.length_eq]
      exact hperm'.length_eq.symm
    · rw [AList.entries_insert]
      exact (hperm'.map Entry.item).trans (hnew.symm.cons _)

/-! ## Iteration -/

/-- What the iterator has not left behind. -/
def ahead (h : Hashtable κ β) (it : Itr κ β) : List (Entry κ β) :=
  it.rest ++ (List.range' (it.index + 1) (h.tablelength - (it.index + 1))).flatMap h.table

omit [DecidableEq κ] in
lemma scan_eq {j : ℕ} (hj : j < h.tablelength) : h.scan j =
    if (h.table j).isEmpty = true then h.scan (j + 1) else ⟨j, h.table j⟩ := by
  rw [scan, scan, show h.tablelength - j = h.tablelength - (j + 1) + 1 by omega,
    List.range'_succ, List.find?_cons]
  cases hc : (h.table j).isEmpty <;> rfl

omit [DecidableEq κ] in
lemma ahead_scan {j : ℕ} (hj : j ≤ h.tablelength) : h.ahead (h.scan j) =
    (List.range' j (h.tablelength - j)).flatMap h.table := by
  induction hn : h.tablelength - j generalizing j with
  | zero => simp [scan, hn, ahead]
  | succ n ih =>
      rw [scan_eq (by omega), List.range'_succ, List.flatMap_cons]
      split_ifs with hc
      · rw [ih (by omega) (by omega), List.isEmpty_iff.mp hc, List.nil_append]
      · rw [ahead, show h.tablelength - (j + 1) = n by omega]

/-- The iterator is at an entry, or at the end. -/
def Itr.At (h : Hashtable κ β) (it : Itr κ β) : Prop :=
  it.index < h.tablelength ∧ it.rest ≠ [] ∨ it.index = h.tablelength ∧ it.rest = []

omit [DecidableEq κ] in
lemma at_scan {j : ℕ} (hj : j ≤ h.tablelength) : Itr.At h (h.scan j) := by
  induction hn : h.tablelength - j generalizing j with
  | zero => exact Or.inr (by simp [scan, hn])
  | succ n ih =>
      rw [scan_eq (by omega)]
      split_ifs with hc
      · exact ih (by omega) (by omega)
      · exact Or.inl ⟨by dsimp only; omega, fun hnil => hc (List.isEmpty_iff.mpr hnil)⟩

omit [DecidableEq κ] in
lemma ahead_advance {it : Itr κ β} {e : Entry κ β} {rest : List (Entry κ β)}
    (hit : it.rest = e :: rest) (hlt : it.index < h.tablelength) :
    h.ahead it = e :: h.ahead (h.advance it) := by
  cases rest with
  | nil =>
      rw [advance, hit, ahead_scan (by omega), ahead, hit]
      rfl
  | cons e' rest =>
      rw [advance, hit, ahead, ahead, hit]
      rfl

omit [DecidableEq κ] in
lemma at_advance {it : Itr κ β} (hat : Itr.At h it) : Itr.At h (h.advance it) := by
  rw [advance]
  rcases hat with ⟨hlt, hne⟩ | ⟨hend, hnil⟩
  · split
    · contradiction
    · exact at_scan (by omega)
    · exact Or.inl ⟨hlt, by simp⟩
  · rw [hnil]
    exact Or.inr ⟨hend, hnil⟩

omit [DecidableEq κ] in
lemma loop_eq {σ : Type*} {f : σ → Entry κ β → σ} {n : ℕ} {it : Itr κ β} {s : σ}
    (hat : Itr.At h it) (hn : (h.ahead it).length ≤ n) :
    h.loop f n it s = (h.ahead it).foldl f s := by
  induction n generalizing it s with
  | zero =>
      rw [List.length_eq_zero_iff.mp (Nat.le_zero.mp hn)]
      rfl
  | succ n ih =>
      rw [loop]
      rcases hat with ⟨hlt, hne⟩ | ⟨hend, hnil⟩
      · obtain ⟨e, rest, hit⟩ := List.exists_cons_of_ne_nil hne
        rw [ahead_advance hit hlt] at hn ⊢
        rw [hit, List.foldl_cons]
        refine ih (at_advance (Or.inl ⟨hlt, hne⟩)) ?_
        exact Nat.le_of_succ_le_succ hn
      · rw [hnil, ahead, hnil, hend]
        simp

omit [DecidableEq κ] in
/-- The loop meets every entry once. -/
lemma fold_eq (ha : Abstracts hashfn h m) {σ : Type*} (f : σ → Entry κ β → σ) (s : σ) :
    h.fold f s = h.entries.foldl f s := by
  have hall : h.ahead (h.scan 0) = h.entries := by
    rw [ahead_scan (Nat.zero_le _), entries, listed, List.range_eq_range']
    rfl
  rw [fold, iterator]
  split_ifs with hzero
  · have hnil : h.entries = [] := List.length_eq_zero_iff.mp (by rw [← ha.count, hzero])
    rw [hzero, hnil]
    rfl
  · rw [loop_eq (at_scan (Nat.zero_le _)), hall]
    rw [hall, ha.count]

end abstracts

end Hashtable

end ConfigMonitor
