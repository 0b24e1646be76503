/-
# The server and its answers

A server keeps with each node the mode in which it was created, and the number that goes into the
name of its next sequential child.  What else can make it refuse a write (access control lists,
quotas, a lost connection) is a parameter.  Reads are answered from the tree.
-/
import ConfigMonitor.Cppzk.SplitPath
import Mathlib.Algebra.Group.Nat.Defs

namespace ConfigMonitor

open Operations

/-- The ephemeral modes. -/
def Operations.CreateMode.isEphemeral : CreateMode → Bool
  | .ephemeral | .ephemeralSequential => true
  | _ => false

/-- A server: the nodes, their modes and their numbers. -/
structure Server where
  tree : Tree
  mode : Path → CreateMode
  cversion : Path → Int32

/-- An error that is not "node exists". -/
abbrev Refusal := { rc : ZooError // rc ≠ .zok ∧ rc ≠ .znodeexists }

/-- What a server refuses beyond what the tree makes impossible. -/
abbrev Policy := Server → ZooCall → Option Refusal

/-- `%010d` of a number. -/
def sequenceSuffix (n : Int32) : Str :=
  if n.toInt < 0 then '-' :: (Nat.toDigits 10 n.toInt.natAbs).leftpad 9 '0'
  else (Nat.toDigits 10 n.toInt.natAbs).leftpad 10 '0'

lemma znonode_refuses : ZooError.znonode ≠ .zok ∧ ZooError.znonode ≠ .znodeexists := by decide

lemma zbadarguments_refuses :
    ZooError.zbadarguments ≠ .zok ∧ ZooError.zbadarguments ≠ .znodeexists := by decide

lemma znochildrenforephemerals_refuses : ZooError.znochildrenforephemerals ≠ .zok ∧
    ZooError.znochildrenforephemerals ≠ .znodeexists := by decide

/-! ## Values on the wire -/

/-- `struct buffer`: a null pointer or the bytes at it, and the length. -/
structure Buffer where
  buff : Data
  len : ℤ

namespace Buffer

/-- `value_ptr` and `value_len` of a value that may be absent. -/
def ofData (value : Data) : Buffer where
  buff := value
  len :=
    match value with
    | none => -1
    | some v => Int.bmod v.length (2 ^ 32)

/-- What the server reads, if the length makes sense: `oa_serialize_buffer` sends no bytes with the
length `-1`. -/
def sent (b : Buffer) : Option Data :=
  if b.len = -1 then some none
  else if b.len < 0 then none
  else b.buff.bind fun v => if b.len ≤ v.length then some (some (v.take b.len.toNat)) else none

/-- `ia_deserialize_buffer`. -/
def received : Data → Buffer
  | none => { buff := none, len := -1 }
  | some v => { buff := some v, len := v.length }

/-- `val ? std::string(val, len) : std::optional<std::string>{}`. -/
def value (b : Buffer) : Data := b.buff.map fun v => v.take b.len.toNat

variable {v : Str} {d : Data}

/-- A value whose length is an `int` is read as it is; so is an absent one. -/
lemma sent_ofData (h : ∀ v, d = some v → v.length < 2 ^ 31) : (ofData d).sent = some d := by
  cases d with
  | none => rfl
  | some v =>
      have hv := h v rfl
      have hmod : Int.bmod (v.length : ℤ) (2 ^ 32) = v.length := by
        rw [Int.bmod_eq_of_le] <;> omega
      simp only [sent, ofData, hmod]
      rw [if_neg (by omega), if_neg (by omega)]
      simp

lemma value_received (d : Data) : (received d).value = d := by
  cases d <;> simp [received, value]

end Buffer

/-! ## Requests -/

namespace Server

variable (policy : Policy) (s : Server)

/-- The name of a new node: in the sequential modes the number of its parent is appended. -/
def actualName (path : Path) (mode : CreateMode) : Path :=
  if mode.isSequence then path ++ sequenceSuffix (s.cversion (parentPath path)) else path

/-- The error, other than "node exists", with which a request to create a node is answered. -/
def refusal (path : Path) (value : Data) (mode : CreateMode) (ttl : ℤ) : Option Refusal :=
  match policy s (.acreate2Ttl path value mode ttl) with
  | some rc => some rc
  | none =>
      if parentPath path ∉ s.tree.paths then some ⟨.znonode, znonode_refuses⟩
      else if s.actualName path mode ∈ s.tree.paths then none
      else if isValidPath (s.actualName path mode) false = false then
        some ⟨.zbadarguments, zbadarguments_refuses⟩
      else if (s.mode (parentPath path)).isEphemeral then
        some ⟨.znochildrenforephemerals, znochildrenforephemerals_refuses⟩
      else none

/-- The server with a new node, which is counted at its parent. -/
def put (name : Path) (value : Data) (mode : CreateMode) : Server where
  tree := (s.tree.create name value).getD s.tree
  mode q := if q = name then mode else s.mode q
  cversion q :=
    if q = name then 0
    else if q = parentPath name then s.cversion q + 1
    else s.cversion q

/-- `create` of the server. -/
def create (path : Path) (value : Data) (mode : CreateMode) (ttl : ℤ) : Server × Answer :=
  match s.refusal policy path value mode ttl with
  | some rc => (s, { rc := rc })
  | none =>
      if s.actualName path mode ∈ s.tree.paths then (s, { rc := .znodeexists })
      else (s.put (s.actualName path mode) value mode,
        { rc := .zok, str := some (s.actualName path mode) })

/-- `setData` of the server. -/
def set (path : Path) (value : Str) : Server × Answer :=
  match policy s (.aset path value) with
  | some rc => (s, { rc := rc })
  | none =>
      match s.tree.set path (some value) with
      | some tree => ({ s with tree := tree }, { rc := .zok })
      | none => (s, { rc := .znonode })

/-- `delete` of the server. -/
def delete (path : Path) : Server × Answer :=
  match policy s (.adelete path) with
  | some rc => (s, { rc := rc })
  | none =>
      match s.tree.delete path with
      | some tree => ({ s with tree := tree }, { rc := .zok })
      | none => (s, { rc := if path ∈ s.tree.paths then .znotempty else .znonode })

/-- `getData` of the server, with the value that the completion makes of the answer. -/
def getData (path : Path) : Answer :=
  match s.tree.get path with
  | some d => { rc := .zok, val := (Buffer.received d).value }
  | none => { rc := .znonode }

/-- The server handles a request. -/
def serve : ZooCall → Option (Server × Answer)
  | .acreate2Ttl path value mode ttl => some (s.create policy path value mode ttl)
  | .aset path value => some (s.set policy path value)
  | .aget path => some (s, s.getData path)
  | _ => none

variable {policy s} {path : Path} {value : Data} {mode : CreateMode} {ttl : ℤ} {rc : Refusal}

lemma create_of_refusal (h : s.refusal policy path value mode ttl = some rc) :
    s.create policy path value mode ttl = (s, { rc := rc }) := by
  rw [create, h]

lemma create_of_mem (h : s.refusal policy path value mode ttl = none)
    (hmem : s.actualName path mode ∈ s.tree.paths) :
    s.create policy path value mode ttl = (s, { rc := .znodeexists }) := by
  rw [create, h]
  exact if_pos hmem

lemma create_of_not_mem (h : s.refusal policy path value mode ttl = none)
    (hmem : s.actualName path mode ∉ s.tree.paths) :
    s.create policy path value mode ttl = (s.put (s.actualName path mode) value mode,
      { rc := .zok, str := some (s.actualName path mode) }) := by
  rw [create, h]
  exact if_neg hmem

end Server

/-! ## The names of sequential nodes -/

/-- Every character of a suffix is a digit or the sign. -/
lemma mem_sequenceSuffix {n : Int32} {c : Char} (h : c ∈ sequenceSuffix n) :
    c.isDigit = true ∨ c = '-' := by
  have hdigit : ∀ {k : ℕ}, c ∈ (Nat.toDigits 10 n.toInt.natAbs).leftpad k '0' →
      c.isDigit = true := by
    intro k hc
    rcases List.mem_append.mp hc with hc | hc
    · rw [List.eq_of_mem_replicate hc]
      rfl
    · exact Nat.isDigit_of_mem_toDigits (by omega) le_rfl hc
  rw [sequenceSuffix] at h
  split_ifs at h
  · rcases List.mem_cons.mp h with rfl | h
    · exact Or.inr rfl
    · exact Or.inl (hdigit h)
  · exact Or.inl (hdigit h)

/-- A suffix has ten characters, or eleven with the sign. -/
lemma length_sequenceSuffix (n : Int32) :
    10 ≤ (sequenceSuffix n).length ∧ (sequenceSuffix n).length ≤ 11 := by
  have hlt : n.toInt.natAbs < 10 ^ 10 := by
    have hlow := n.le_toInt
    have hhigh := n.toInt_lt
    omega
  have hdigits := (Nat.length_toDigits_le_iff (by omega) (by omega)).mpr hlt
  rw [sequenceSuffix]
  split_ifs
  · rw [List.length_cons, List.length_leftpad]
    omega
  · rw [List.length_leftpad]
    omega

/-- A digit or a sign is checked for nothing. -/
lemma validFrom_cons_of_digit {p₂ p₁ c : Char} {b : Str} (h : c.isDigit = true ∨ c = '-') :
    validFrom false p₂ p₁ (c :: b) = validFrom false p₁ c b := by
  have hplain : c ≠ '\x00' ∧ c ≠ '/' ∧ c ≠ '.' ∧ ¬ c.toNat < 0x1f := by
    rcases h with h | rfl
    · have hrange : 48 ≤ c.toNat := by
        simp only [Char.isDigit, Bool.and_eq_true, decide_eq_true_eq] at h
        exact UInt32.le_iff_toNat_le.mp h.1
      refine ⟨?_, ?_, ?_, by omega⟩ <;> rintro rfl <;> simp [Char.isDigit] at h
    · decide
  rw [validFrom]
  simp [hplain]

lemma validFrom_of_digits {p₂ p₁ : Char} {b : Str} (h : ∀ c ∈ b, c.isDigit = true ∨ c = '-') :
    validFrom false p₂ p₁ b = true := by
  induction b generalizing p₂ p₁ with
  | nil => rfl
  | cons c b ih =>
      obtain ⟨hc, hb⟩ := List.forall_mem_cons.mp h
      rw [validFrom_cons_of_digit hc]
      exact ih hb

/-- What is allowed at the end of a path in the sequential modes is allowed before a suffix. -/
lemma validFrom_append {p₂ p₁ : Char} {a b : Str} (h : validFrom true p₂ p₁ a = true) (hb : b ≠ [])
    (hdigit : ∀ c ∈ b, c.isDigit = true ∨ c = '-') : validFrom false p₂ p₁ (a ++ b) = true := by
  induction a generalizing p₂ p₁ with
  | nil => exact validFrom_of_digits hdigit
  | cons c a ih =>
      have hends : ((a ++ b).isEmpty && !false || (a ++ b).head? == some '/') =
          (a.isEmpty && !true || a.head? == some '/') := by
        cases a with
        | nil =>
            obtain ⟨d, b, rfl⟩ := List.exists_cons_of_ne_nil hb
            have hd : d ≠ '/' := by
              rintro rfl
              simpa using hdigit '/' List.mem_cons_self
            simpa using hd
        | cons d a => rfl
      rw [validFrom] at h
      rw [List.cons_append, validFrom, hends]
      split_ifs at h ⊢ <;> exact ih h

lemma isValidPath_append_suffix {path : Path} (h : isValidPath path true = true) (n : Int32) :
    isValidPath (path ++ sequenceSuffix n) false = true := by
  obtain ⟨r, rfl⟩ := isValidPath_head h
  have hdigit := fun c => mem_sequenceSuffix (n := n) (c := c)
  have hne : sequenceSuffix n ≠ [] := by
    rw [← List.length_pos_iff]
    have hlen := (length_sequenceSuffix n).1
    omega
  have hr : validFrom false '/' '/' (r ++ sequenceSuffix n) = true := by
    by_cases hnil : r = []
    · subst hnil
      exact validFrom_of_digits hdigit
    · refine validFrom_append ?_ hne hdigit
      rw [isValidPath] at h
      split_ifs at h <;> simp_all
  have hlast : (sequenceSuffix n).getLast? ≠ some '/' := by
    intro hslash
    simpa using hdigit '/' (List.mem_of_getLast? hslash)
  rw [List.cons_append, isValidPath, List.getLast?_append_of_ne_nil _ hne]
  simp [hr, hlast]

namespace Server

variable {policy : Policy} {s : Server} {path : Path} {value : Data} {mode : CreateMode} {ttl : ℤ}

/-- The name of a new node is a valid path. -/
lemma isValidPath_actualName (h : isValidPath path mode.isSequence = true) :
    isValidPath (s.actualName path mode) false = true := by
  rw [actualName]
  split_ifs with hseq
  · rw [hseq] at h
    exact isValidPath_append_suffix h _
  · rwa [Bool.eq_false_iff.mpr hseq] at h

/-- A suffix does not change the parent. -/
lemma parentPath_actualName (h : isValidPath path mode.isSequence = true) :
    parentPath (s.actualName path mode) = parentPath path := by
  obtain ⟨r, hr⟩ := isValidPath_head h
  obtain ⟨p, name, rfl, hname, -⟩ := exists_cut (q := path) (by rw [hr]; simp)
  rw [actualName]
  split_ifs
  · have hsuffix : '/' ∉ name ++ sequenceSuffix (s.cversion (parentPath (p ++ '/' :: name))) := by
      intro hslash
      rcases List.mem_append.mp hslash with hslash | hslash
      · exact hname hslash
      · simpa using mem_sequenceSuffix hslash
    rw [List.append_assoc, List.cons_append, parentPath_cut hsuffix, parentPath_cut hname]
  · rfl

/-- A new node that is not refused is there afterwards, and the others are as they were. -/
lemma get_put (h : isValidPath path mode.isSequence = true)
    (hrefusal : s.refusal policy path value mode ttl = none)
    (hnew : s.actualName path mode ∉ s.tree.paths) (v : Data) (q : Path) :
    (s.put (s.actualName path mode) v mode).tree.get q =
      if q = s.actualName path mode then some v else s.tree.get q := by
  have hpar : parentPath (s.actualName path mode) ∈ s.tree.paths := by
    rw [parentPath_actualName h]
    by_contra hpar
    rw [refusal] at hrefusal
    cases hpolicy : policy s (.acreate2Ttl path value mode ttl) <;> simp [hpolicy, hpar] at hrefusal
  have hcreate : ∃ tree, s.tree.create (s.actualName path mode) v = some tree := by
    rw [Tree.create, dif_pos ⟨isValidPath_actualName h, hnew, hpar⟩]
    exact ⟨_, rfl⟩
  obtain ⟨tree, htree⟩ := hcreate
  rw [put, htree]
  exact Tree.get_create htree q

end Server

end ConfigMonitor
