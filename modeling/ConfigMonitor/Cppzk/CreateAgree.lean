/-
# The creation of a path

`create_path` creates the ancestors and the path in a loop and reads the name from a buffer,
`async_create_path` does so in a chain of completions.  With nobody else there both do what the
specification says, whatever the server refuses.  The path is handed to the library as a C string:
the `string_view` is taken to be followed by a NUL and to have none inside.
-/
import ConfigMonitor.Cppzk.Chain
import ConfigMonitor.Cppzk.SplitPath
import ConfigMonitor.ZooKeeper.Server

namespace ConfigMonitor

open Ancestry

namespace CreateAgree

open Operations Chain

/-! ## `create_path` -/

/-- What `process_sync_completion` leaves in a buffer of zeros: the name as far as it fits, with a
zero behind. -/
def nameBuffer (len : ℕ) (a : Answer) : Str :=
  match a.str with
  | some name => name.take (len - 1) ++ List.replicate (len - min name.length (len - 1)) '\x00'
  | none => List.replicate len '\x00'

/-- `zoo_create2_ttl`: the server that is left, the code, and the buffer for the name. -/
def zooCreate2Ttl (policy : Policy) (s : Server) (path : Path) (value : Data) (mode : CreateMode)
    (ttl : ℤ) (len : ℕ) : Server × ZooError × Str :=
  if usableHandle.accepts (.acreate2Ttl path value mode ttl) then
    let r := s.create policy path value mode ttl
    (r.1, r.2.rc, nameBuffer len r.2)
  else (s, .zbadarguments, List.replicate len '\x00')

/-- The loop of `create_path` and what follows it. -/
def createLoop (policy : Policy) (path : Path) (value : Data) (mode : CreateMode) (ttl : ℤ) :
    List Path → Server → Server × ZooError × Str
  | [], s =>
      let r := zooCreate2Ttl policy s path value mode ttl (path.length + 16)
      (r.1, r.2.1, cString r.2.2)
  | ancestor :: rest, s =>
      let r := zooCreate2Ttl policy s ancestor none .persistent (-1) 0
      if r.2.1 ≠ .zok ∧ r.2.1 ≠ .znodeexists then (r.1, r.2.1, [])
      else createLoop policy path value mode ttl rest r.1

/-- `create_path`, or nothing if it throws. -/
def createPath (policy : Policy) (s : Server) (path : Path) (value : Data) (mode : CreateMode)
    (ttl : ℤ) : Option (Server × ZooError × Str) :=
  if mode.isTtl ∧ ttl < 0 then none
  else (splitPath path).map fun spPath =>
    createLoop policy path value mode ttl spPath.dropLast s

/-! ## `async_create_path` -/

/-- `async_create_path` ends with a call of its callback and leaves the server as `s'`. -/
def AsyncCreates (policy : Policy) (s : Server) (path : Path) (value : Data) (mode : CreateMode)
    (ttl : ℤ) (s' : Server) (rc : ZooError) (newPath : Str) : Prop :=
  ∃ first ∈ asyncCreatePath path value mode ttl,
    Ends (Server.serve policy) s (.request first.1 first.2) (.created rc newPath) s'

/-! ## The specification -/

/-- From the first node of the list to the last one, those that are missing are created as
persistent nodes without data and the others are left alone, up to the first that is refused. -/
inductive Ensured (policy : Policy) : Server → List Path → Server → Option Refusal → Prop
  | nil (s : Server) : Ensured policy s [] s none
  | missing {s s' : Server} {q : Path} {l : List Path} {rc : Option Refusal}
      (accepted : s.refusal policy q none .persistent (-1) = none) (new : q ∉ s.tree.paths)
      (rest : Ensured policy (s.put q none .persistent) l s' rc) : Ensured policy s (q :: l) s' rc
  | there {s s' : Server} {q : Path} {l : List Path} {rc : Option Refusal}
      (accepted : s.refusal policy q none .persistent (-1) = none) (old : q ∈ s.tree.paths)
      (rest : Ensured policy s l s' rc) : Ensured policy s (q :: l) s' rc
  | refused {s : Server} {q : Path} {l : List Path} {rc : Refusal}
      (refusal : s.refusal policy q none .persistent (-1) = some rc) :
      Ensured policy s (q :: l) s (some rc)

/-- What the creation of a path does to the server, and what is reported: the error at which it
stops, with an empty path; or the actual name of the target, which has been created; or that it
is there already, with an empty path. -/
inductive Specified (policy : Policy) (s : Server) (path : Path) (value : Data)
    (mode : CreateMode) (ttl : ℤ) : Server → ZooError → Str → Prop
  | ancestorRefused {l : List Path} {s' : Server} {rc : Refusal} (ancestors : Ancestors path l)
      (stopped : Ensured policy s l s' (some rc)) :
      Specified policy s path value mode ttl s' rc []
  | targetRefused {l : List Path} {s' : Server} {rc : Refusal} (ancestors : Ancestors path l)
      (ensured : Ensured policy s l s' none)
      (refusal : s'.refusal policy path value mode ttl = some rc) :
      Specified policy s path value mode ttl s' rc []
  | targetThere {l : List Path} {s' : Server} (ancestors : Ancestors path l)
      (ensured : Ensured policy s l s' none)
      (accepted : s'.refusal policy path value mode ttl = none)
      (old : s'.actualName path mode ∈ s'.tree.paths) :
      Specified policy s path value mode ttl s' .znodeexists []
  | targetCreated {l : List Path} {s' : Server} (ancestors : Ancestors path l)
      (ensured : Ensured policy s l s' none)
      (accepted : s'.refusal policy path value mode ttl = none)
      (new : s'.actualName path mode ∉ s'.tree.paths) :
      Specified policy s path value mode ttl (s'.put (s'.actualName path mode) value mode) .zok
        (s'.actualName path mode)

variable {policy : Policy} {s s' : Server} {path q : Path} {value : Data} {mode : CreateMode}
  {ttl : ℤ} {rc : Option Refusal} {l : List Path}

/-! ## The name buffer -/

lemma nul_not_mem_of_validFrom {p₂ p₁ : Char} {a : Str} (h : validFrom false p₂ p₁ a = true) :
    '\x00' ∉ a := by
  induction a generalizing p₂ p₁ with
  | nil => simp
  | cons c a ih =>
      rw [validFrom] at h
      have hc : c ≠ '\x00' := by
        rintro rfl
        simp at h
      refine List.not_mem_cons_of_ne_of_not_mem hc.symm ?_
      split_ifs at h <;> exact ih h

/-- A valid path is a C string. -/
lemma nul_not_mem_of_isValidPath (h : isValidPath q false = true) : '\x00' ∉ q := by
  obtain ⟨a, rfl⟩ := isValidPath_head h
  refine List.not_mem_cons_of_ne_of_not_mem (by decide) ?_
  by_cases ha : a = []
  · simp [ha]
  · exact nul_not_mem_of_validFrom (validFrom_of_isValidPath h ha)

/-- A name that is shorter than the buffer is read from it as it is. -/
lemma cString_nameBuffer {len : ℕ} {a : Answer} {name : Str} (hstr : a.str = some name)
    (hlen : name.length < len) (hnul : '\x00' ∉ name) : cString (nameBuffer len a) = name := by
  have htake : name.take (len - 1) = name := List.take_of_length_le (by omega)
  have hpad : len - min name.length (len - 1) = len - name.length - 1 + 1 := by omega
  have hall : ∀ c ∈ name, decide (c ≠ '\x00') = true := by
    intro c hc
    simpa using fun h : c = '\x00' => hnul (h ▸ hc)
  rw [nameBuffer, hstr]
  dsimp only
  rw [htake, hpad, List.replicate_succ, cString, List.takeWhile_append_of_pos hall]
  simp

lemma cString_zeros (len : ℕ) : cString (List.replicate len '\x00') = [] := by
  cases len <;> simp [cString, List.replicate_succ]

lemma length_actualName (s : Server) (path : Path) (mode : CreateMode) :
    (s.actualName path mode).length < path.length + 16 := by
  rw [Server.actualName]
  split_ifs
  · rw [List.length_append]
    have hlen := (length_sequenceSuffix (s.cversion (parentPath path))).2
    omega
  · omega

/-! ## The ancestors -/

lemma accepts_ancestor (hq : isValidPath q false = true) :
    usableHandle.accepts (.acreate2Ttl q none .persistent (-1)) = true := by
  simp [Handle.accepts, usableHandle, CreateMode.isTtl, CreateMode.isSequence, hq]

/-- Whatever the server does, the nodes are ensured up to one that is refused. -/
lemma exists_ensured (policy : Policy) (l : List Path) (s : Server) :
    ∃ s' rc, Ensured policy s l s' rc := by
  induction l generalizing s with
  | nil => exact ⟨s, none, .nil s⟩
  | cons q l ih =>
      cases hrefusal : s.refusal policy q none .persistent (-1) with
      | some rc => exact ⟨s, some rc, .refused hrefusal⟩
      | none =>
          by_cases hmem : q ∈ s.tree.paths
          · obtain ⟨s', rc, hrest⟩ := ih s
            exact ⟨s', rc, .there hrefusal hmem hrest⟩
          · obtain ⟨s', rc, hrest⟩ := ih (s.put q none .persistent)
            exact ⟨s', rc, .missing hrefusal hmem hrest⟩

lemma create_ancestor_of_not_mem (h : s.refusal policy q none .persistent (-1) = none)
    (hmem : q ∉ s.tree.paths) : s.create policy q none .persistent (-1) =
      (s.put q none .persistent, { rc := .zok, str := some q }) :=
  Server.create_of_not_mem h hmem

lemma create_ancestor_of_mem (h : s.refusal policy q none .persistent (-1) = none)
    (hmem : q ∈ s.tree.paths) :
    s.create policy q none .persistent (-1) = (s, { rc := .znodeexists }) :=
  Server.create_of_mem h hmem

/-- The loop ensures the ancestors, and ends with an error or goes on to the path. -/
lemma createLoop_of_ensured (h : Ensured policy s l s' rc)
    (hvalid : ∀ q ∈ l, isValidPath q false = true) :
    createLoop policy path value mode ttl l s =
      rc.elim (createLoop policy path value mode ttl [] s') fun rc => (s', rc.1, []) := by
  induction h with
  | nil s => rfl
  | @missing s s' q l rc accepted new rest ih =>
      obtain ⟨hq, hl⟩ := List.forall_mem_cons.mp hvalid
      rw [← ih hl, createLoop, zooCreate2Ttl, if_pos (accepts_ancestor hq),
        create_ancestor_of_not_mem accepted new]
      exact if_neg (by simp)
  | @there s s' q l rc accepted old rest ih =>
      obtain ⟨hq, hl⟩ := List.forall_mem_cons.mp hvalid
      rw [← ih hl, createLoop, zooCreate2Ttl, if_pos (accepts_ancestor hq),
        create_ancestor_of_mem accepted old]
      exact if_neg (by simp)
  | @refused s q l rc refusal =>
      obtain ⟨hq, -⟩ := List.forall_mem_cons.mp hvalid
      rw [Option.elim_some, createLoop, zooCreate2Ttl, if_pos (accepts_ancestor hq),
        Server.create_of_refusal refusal]
      exact if_pos rc.2

lemma serve_create (policy : Policy) (s : Server) :
    s.serve policy (.acreate2Ttl path value mode ttl) =
      some (s.create policy path value mode ttl) := rfl

/-- The request of the chain that is next, with the nodes left to be ensured. -/
def chainNext (path : Path) (value : Data) (mode : CreateMode) (ttl : ℤ) : List Path → Next
  | [] => .request (.acreate2Ttl path value mode ttl) (.createChain [path] value mode ttl)
  | q :: l => .request (.acreate2Ttl q none .persistent (-1))
      (.createChain (q :: (l ++ [path])) value mode ttl)

/-- The chain goes on after an ancestor that has been created or is there. -/
lemma createCompletion_of_accepted {a : Answer} (h : a.rc = .zok ∨ a.rc = .znodeexists) :
    createCompletion (q :: (l ++ [path])) value mode ttl a = chainNext path value mode ttl l := by
  have hno : ¬ (a.rc ≠ .zok ∧ a.rc ≠ .znodeexists) := fun hne => h.elim hne.1 hne.2
  rw [createCompletion, if_neg hno]
  cases l with
  | nil => rfl
  | cons p l => cases l <;> rfl

/-- The chain ensures the ancestors, and ends with an error or goes on to the path. -/
lemma ends_chain_iff {result : Result} {s₁ : Server} (h : Ensured policy s l s' rc)
    (hvalid : ∀ q ∈ l, isValidPath q false = true) :
    Ends (Server.serve policy) s (chainNext path value mode ttl l) result s₁ ↔
      rc.elim (Ends (Server.serve policy) s' (chainNext path value mode ttl []) result s₁)
        fun rc => result = .created rc.1 [] ∧ s₁ = s' := by
  induction h with
  | nil s => exact Iff.rfl
  | @missing s s' q l rc accepted new rest ih =>
      obtain ⟨hq, hl⟩ := List.forall_mem_cons.mp hvalid
      rw [← ih hl, chainNext, ends_request_iff (accepts_ancestor hq)
        (congrArg some (create_ancestor_of_not_mem accepted new)), Pending.complete,
        createCompletion_of_accepted (Or.inl rfl)]
  | @there s s' q l rc accepted old rest ih =>
      obtain ⟨hq, hl⟩ := List.forall_mem_cons.mp hvalid
      rw [← ih hl, chainNext, ends_request_iff (accepts_ancestor hq)
        (congrArg some (create_ancestor_of_mem accepted old)), Pending.complete,
        createCompletion_of_accepted (Or.inr rfl)]
  | @refused s q l rc refusal =>
      obtain ⟨hq, -⟩ := List.forall_mem_cons.mp hvalid
      rw [Option.elim_some, chainNext, ends_request_iff (accepts_ancestor hq)
        (congrArg some (Server.create_of_refusal refusal)), Pending.complete, createCompletion,
        if_pos rc.2, ends_done_iff, Option.getD_none]

/-! ## The path -/

/-- The answer for the path is the one that is specified, and its name fits into the buffer. -/
lemma specified_of_create (hanc : Ancestors path l) (h : Ensured policy s l s' none)
    (hvalid : isValidPath path mode.isSequence = true) (value : Data) (ttl : ℤ) :
    Specified policy s path value mode ttl (s'.create policy path value mode ttl).1
        (s'.create policy path value mode ttl).2.rc
        ((s'.create policy path value mode ttl).2.str.getD []) ∧
      cString (nameBuffer (path.length + 16) (s'.create policy path value mode ttl).2) =
        (s'.create policy path value mode ttl).2.str.getD [] := by
  cases hrefusal : s'.refusal policy path value mode ttl with
  | some rc =>
      rw [Server.create_of_refusal hrefusal]
      exact ⟨.targetRefused hanc h hrefusal, cString_zeros _⟩
  | none =>
      by_cases hmem : s'.actualName path mode ∈ s'.tree.paths
      · rw [Server.create_of_mem hrefusal hmem]
        exact ⟨.targetThere hanc h hrefusal hmem, cString_zeros _⟩
      · rw [Server.create_of_not_mem hrefusal hmem]
        refine ⟨.targetCreated hanc h hrefusal hmem, ?_⟩
        exact cString_nameBuffer rfl (length_actualName _ _ _)
          (nul_not_mem_of_isValidPath (Server.isValidPath_actualName hvalid))

lemma createLoop_nil (h : usableHandle.accepts (.acreate2Ttl path value mode ttl) = true) :
    createLoop policy path value mode ttl [] s = ((s.create policy path value mode ttl).1,
      (s.create policy path value mode ttl).2.rc,
      cString (nameBuffer (path.length + 16) (s.create policy path value mode ttl).2)) := by
  rw [createLoop, zooCreate2Ttl, if_pos h]

/-- The completion for the path itself reports whatever the answer is. -/
lemma createCompletion_last (a : Answer) :
    createCompletion [path] value mode ttl a = .done (.created a.rc (a.str.getD [])) := by
  rw [createCompletion]
  split_ifs <;> rfl

lemma ends_last_iff (h : usableHandle.accepts (.acreate2Ttl path value mode ttl) = true)
    {result : Result} {s₁ : Server} :
    Ends (Server.serve policy) s (chainNext path value mode ttl []) result s₁ ↔
      result = .created (s.create policy path value mode ttl).2.rc
        ((s.create policy path value mode ttl).2.str.getD []) ∧
      s₁ = (s.create policy path value mode ttl).1 := by
  rw [chainNext, ends_request_iff h (serve_create policy s), Pending.complete,
    createCompletion_last, ends_done_iff]

/-- The first request of `async_create_path` is the first one of the chain; for a path of one
level the completion is another one that does the same. -/
lemma asyncCreates_iff (hsplit : splitPath path = some (l ++ [path]))
    (hmode : ¬ (mode.isTtl ∧ ttl < 0)) {s₁ : Server} {err : ZooError} {newPath : Str} :
    AsyncCreates policy s path value mode ttl s₁ err newPath ↔
      Ends (Server.serve policy) s (chainNext path value mode ttl l) (.created err newPath) s₁ := by
  have hfirst : ∀ first, asyncCreatePath path value mode ttl = some first →
      (AsyncCreates policy s path value mode ttl s₁ err newPath ↔
        Ends (Server.serve policy) s (.request first.1 first.2) (.created err newPath) s₁) := by
    intro first hfirst
    rw [AsyncCreates, hfirst]
    simp
  cases l with
  | nil =>
      rw [hfirst (.acreate2Ttl path value mode ttl, .create)
        (by rw [asyncCreatePath, if_neg hmode, hsplit]; rfl)]
      by_cases hacc : usableHandle.accepts (.acreate2Ttl path value mode ttl) = true
      · rw [ends_last_iff hacc, ends_request_iff hacc (serve_create policy s), Pending.complete,
          ends_done_iff]
      · exact iff_of_false (fun h => hacc (accepts_of_ends h)) fun h => hacc (accepts_of_ends h)
  | cons q l =>
      refine hfirst (.acreate2Ttl q none .persistent (-1),
        .createChain (q :: (l ++ [path])) value mode ttl) ?_
      rw [asyncCreatePath, if_neg hmode, hsplit]
      cases l <;> rfl

/-! ## The nodes that are there -/

/-- A node keeps its data and its mode. -/
def Keeps (s s' : Server) : Prop :=
  ∀ q v, s.tree.get q = some v → s'.tree.get q = some v ∧ s'.mode q = s.mode q

/-- A new node changes no other. -/
lemma keeps_put (hvalid : isValidPath path mode.isSequence = true)
    (hrefusal : s.refusal policy path value mode ttl = none)
    (hnew : s.actualName path mode ∉ s.tree.paths) (v : Data) :
    Keeps s (s.put (s.actualName path mode) v mode) := by
  intro q w hq
  have hne : q ≠ s.actualName path mode := by
    rintro rfl
    exact hnew (Tree.get_isSome_iff.mp (Option.isSome_of_eq_some hq))
  rw [Server.get_put hvalid hrefusal hnew, if_neg hne]
  exact ⟨hq, if_neg hne⟩

lemma Keeps.trans {s₁ : Server} (h : Keeps s s₁) (h' : Keeps s₁ s') : Keeps s s' := by
  intro q v hq
  obtain ⟨hget, hmode⟩ := h q v hq
  obtain ⟨hget', hmode'⟩ := h' q v hget
  exact ⟨hget', hmode'.trans hmode⟩

lemma Ensured.keeps (h : Ensured policy s l s' rc) (hvalid : ∀ q ∈ l, isValidPath q false = true) :
    Keeps s s' := by
  induction h with
  | nil s => exact fun q v hq => ⟨hq, rfl⟩
  | missing accepted new rest ih =>
      obtain ⟨hq, hl⟩ := List.forall_mem_cons.mp hvalid
      exact (keeps_put hq accepted new none).trans (ih hl)
  | there accepted old rest ih => exact ih (List.forall_mem_cons.mp hvalid).2
  | refused refusal => exact fun q v hq => ⟨hq, rfl⟩

lemma Specified.keeps {err : ZooError} {newPath : Str}
    (h : Specified policy s path value mode ttl s' err newPath)
    (hvalid : isValidPath path mode.isSequence = true) : Keeps s s' := by
  cases h with
  | ancestorRefused hanc hstopped => exact hstopped.keeps (hanc.valid hvalid)
  | targetRefused hanc hensured => exact hensured.keeps (hanc.valid hvalid)
  | targetThere hanc hensured => exact hensured.keeps (hanc.valid hvalid)
  | targetCreated hanc hensured accepted new =>
      exact (hensured.keeps (hanc.valid hvalid)).trans (keeps_put hvalid accepted new value)

/-- A node that has been created has the value. -/
lemma Specified.get_of_zok {newPath : Str}
    (h : Specified policy s path value mode ttl s' .zok newPath)
    (hvalid : isValidPath path mode.isSequence = true) : s'.tree.get newPath = some value := by
  generalize hrc : ZooError.zok = err at h
  cases h with
  | @ancestorRefused l s₁ rc => exact absurd hrc.symm rc.2.1
  | @targetRefused l s₁ rc => exact absurd hrc.symm rc.2.1
  | targetThere => simp at hrc
  | targetCreated hanc hensured accepted new =>
      rw [Server.get_put hvalid accepted new, if_pos rfl]

/-- A node that is not sequential has the name it was to have. -/
lemma Specified.newPath_eq {newPath : Str}
    (h : Specified policy s path value mode ttl s' .zok newPath) (hmode : mode.isSequence = false) :
    newPath = path := by
  generalize hrc : ZooError.zok = err at h
  cases h with
  | @ancestorRefused l s₁ rc => exact absurd hrc.symm rc.2.1
  | @targetRefused l s₁ rc => exact absurd hrc.symm rc.2.1
  | targetThere => simp at hrc
  | targetCreated => rw [Server.actualName, hmode, if_neg (by simp)]

/-- What `create_path` reports as OK is what is specified. -/
lemma specified_of_createPath {newPath : Str} (hvalid : isValidPath path mode.isSequence = true)
    (h : createPath policy s path value mode ttl = some (s', .zok, newPath)) :
    Specified policy s path value mode ttl s' .zok newPath := by
  rw [createPath] at h
  split_ifs at h
  obtain ⟨l, hsplit, hanc⟩ := splitPath_of_isValidPath hvalid
  obtain ⟨s₁, rc, hensured⟩ := exists_ensured policy l s
  rw [hsplit, Option.map_some, List.dropLast_concat,
    createLoop_of_ensured hensured (hanc.valid hvalid)] at h
  cases rc with
  | some rc => exact absurd (congrArg (fun r => r.2.1) (Option.some.inj h)) rc.2.1
  | none =>
      rw [Option.elim_none] at h
      by_cases hacc : usableHandle.accepts (.acreate2Ttl path value mode ttl) = true
      · obtain ⟨hspec, hname⟩ := specified_of_create hanc hensured hvalid value ttl
        rw [createLoop_nil hacc, hname] at h
        simp only [Option.some.injEq, Prod.mk.injEq] at h
        obtain ⟨hserver, hrc, hpath⟩ := h
        rwa [hserver, hrc, hpath] at hspec
      · rw [createLoop, zooCreate2Ttl, if_neg hacc] at h
        simp at h

/-- What `async_create_path` reports as OK is what is specified. -/
lemma specified_of_asyncCreates {newPath : Str} (hvalid : isValidPath path mode.isSequence = true)
    (h : AsyncCreates policy s path value mode ttl s' .zok newPath) :
    Specified policy s path value mode ttl s' .zok newPath := by
  have hmode : ¬ (mode.isTtl ∧ ttl < 0) := by
    intro hthrows
    rw [AsyncCreates, asyncCreatePath, if_pos hthrows] at h
    simp at h
  obtain ⟨l, hsplit, hanc⟩ := splitPath_of_isValidPath hvalid
  obtain ⟨s₁, rc, hensured⟩ := exists_ensured policy l s
  rw [asyncCreates_iff hsplit hmode, ends_chain_iff hensured (hanc.valid hvalid)] at h
  cases rc with
  | some rc => exact absurd (Result.created.inj h.1).1.symm rc.2.1
  | none =>
      rw [Option.elim_none] at h
      obtain ⟨hresult, hserver⟩ := (ends_last_iff (accepts_of_ends h)).mp h
      obtain ⟨hrc, hpath⟩ := Result.created.inj hresult
      rw [hserver, hrc, hpath]
      exact (specified_of_create hanc hensured hvalid value ttl).1

/-! ## Agreement -/

/-- For every path, value, mode and time to live that the library accepts, and every server,
`create_path` and `async_create_path` leave the same server and report the same, which is what the
specification says; no node that was there has other data or another mode. -/
theorem create_specified (policy : Policy) (s : Server) (path : Path) (value : Data)
    (mode : CreateMode) (ttl : ℤ)
    (h : usableHandle.accepts (.acreate2Ttl path value mode ttl) = true) :
    ∃ s' rc newPath, createPath policy s path value mode ttl = some (s', rc, newPath) ∧
      AsyncCreates policy s path value mode ttl s' rc newPath ∧
      Specified policy s path value mode ttl s' rc newPath ∧ Keeps s s' := by
  have hvalid : isValidPath path mode.isSequence = true := by
    simp only [Handle.accepts, Bool.and_eq_true] at h
    exact h.1.2
  have hmode : ¬ (mode.isTtl ∧ ttl < 0) := by
    rintro ⟨hisTtl, hneg⟩
    simp only [Handle.accepts, hisTtl, if_true, Bool.and_eq_true, decide_eq_true_eq] at h
    omega
  obtain ⟨l, hsplit, hanc⟩ := splitPath_of_isValidPath hvalid
  have hl := hanc.valid hvalid
  obtain ⟨s', rc, hensured⟩ := exists_ensured policy l s
  rw [createPath, if_neg hmode, hsplit, Option.map_some, List.dropLast_concat,
    createLoop_of_ensured hensured hl]
  simp only [asyncCreates_iff hsplit hmode, ends_chain_iff hensured hl]
  cases rc with
  | some rc =>
      have hspec : Specified policy s path value mode ttl s' rc [] :=
        .ancestorRefused hanc hensured
      exact ⟨s', rc, [], rfl, ⟨rfl, rfl⟩, hspec, hspec.keeps hvalid⟩
  | none =>
      obtain ⟨hspec, hname⟩ := specified_of_create hanc hensured hvalid value ttl
      refine ⟨_, _, _, ?_, (ends_last_iff h).mpr ⟨rfl, rfl⟩, hspec, hspec.keeps hvalid⟩
      rw [Option.elim_none, createLoop_nil h, hname]

/-- A server that refuses nothing and has the root alone. -/
def emptyServer : Server where
  tree := .empty
  mode _ := .persistent
  cversion _ := 0

/-- A sequential node below a missing parent. -/
theorem create_specified_sequential :
    ∃ s' newPath, createPath (fun _ _ => none) emptyServer ['/', 'a', '/', 'b'] none
        .persistentSequential (-1) = some (s', .zok, newPath) ∧
      newPath = "/a/b0000000000".toList ∧
      AsyncCreates (fun _ _ => none) emptyServer ['/', 'a', '/', 'b'] none
        .persistentSequential (-1) s' .zok newPath := by
  obtain ⟨s', rc, newPath, hcreate, hasync, -⟩ := create_specified (fun _ _ => none) emptyServer
    ['/', 'a', '/', 'b'] none .persistentSequential (-1) (by decide)
  have hresult : (createPath (fun _ _ => none) emptyServer ['/', 'a', '/', 'b'] none
      .persistentSequential (-1)).map Prod.snd = some (.zok, "/a/b0000000000".toList) := by
    decide
  rw [hcreate] at hresult
  obtain ⟨rfl, rfl⟩ := Prod.mk.inj (Option.some.inj hresult)
  exact ⟨s', _, hcreate, rfl, hasync⟩

end CreateAgree

end ConfigMonitor
