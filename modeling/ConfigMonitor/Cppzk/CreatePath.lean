/-
# Concurrent creates

`create_path` creates the ancestors of its path and then the path in a loop of synchronous
requests, `async_create_path` in a chain of completions.  Both take a node that is there already
for created, except that the last answer is what they report.  Any number of calls run at the
same time, and the server handles their requests in any order.
-/
import ConfigMonitor.Cppzk.SplitPath

namespace ConfigMonitor

open Ancestry Run

namespace CreatePath

open Operations

/-! ## The calls -/

/-- What waits for the answer to a request: `create_path` in its loop, with what is left of it, or
after it, or the completion of an asynchronous request. -/
inductive Waiting
  | loop (rest : List Path)
  | last
  | completion (pending : Pending)

/-- How far a call is. -/
inductive Progress
  | sent (request : ZooCall) (waiting : Waiting)
  | answered (answer : Answer) (waiting : Waiting)
  | returned (result : Result)
  | refused

/-- A call of `create_path` or `async_create_path`. -/
structure Call where
  path : Path
  value : Data
  progress : Progress

/-- `zoo_create2_ttl` on a usable handle: the call waits, or it gets an error at once. -/
def zooCreate2Ttl (request : ZooCall) (waiting : Waiting) : Progress :=
  if usableHandle.accepts request then .sent request waiting
  else .returned (.created .zbadarguments [])

/-- `zoo_acreate2_ttl` on a usable handle: what it returns is not looked at. -/
def zooAcreate2Ttl (request : ZooCall) (pending : Pending) : Progress :=
  if usableHandle.accepts request then .sent request (.completion pending) else .refused

/-- The loop of `create_path` and what follows it. -/
def createLoop (path : Path) (value : Data) (mode : CreateMode) (ttl : ℤ) : List Path → Progress
  | [] => zooCreate2Ttl (.acreate2Ttl path value mode ttl) .last
  | ancestor :: rest => zooCreate2Ttl (.acreate2Ttl ancestor none .persistent (-1)) (.loop rest)

/-- `create_path`, or nothing if it throws. -/
def createPath (path : Path) (value : Data) (mode : CreateMode) (ttl : ℤ) : Option Progress :=
  if mode.isTtl ∧ ttl < 0 then none
  else (splitPath path).map fun spPath => createLoop path value mode ttl spPath.dropLast

/-- `async_create_path`, or nothing if it throws. -/
def asyncCreatePath (path : Path) (value : Data) (mode : CreateMode) (ttl : ℤ) : Option Progress :=
  (Operations.asyncCreatePath path value mode ttl).map fun first =>
    zooAcreate2Ttl first.1 first.2

/-- A call gets its answer, in the plain persistent mode. -/
def Call.resume (c : Call) (a : Answer) : Waiting → Progress
  | .loop rest =>
      if a.rc ≠ .zok ∧ a.rc ≠ .znodeexists then .returned (.created a.rc [])
      else createLoop c.path c.value .persistent (-1) rest
  | .last => .returned (.created a.rc (a.str.getD []))
  | .completion pending =>
      match pending.complete a with
      | .done result => .returned result
      | .request call pending => zooAcreate2Ttl call pending

/-! ## The system -/

/-- The tree of the server and the calls. -/
structure State where
  tree : Tree
  calls : List Call

/-- Calls in the plain persistent mode, the server handling the request of a call, and the call
handling the answer. -/
inductive Action
  | createPath (path : Path) (value : Data)
  | asyncCreatePath (path : Path) (value : Data)
  | serve (i : ℕ)
  | complete (i : ℕ)

/-- The answer of the server to a create request. -/
def answer (t : Tree) (q : Path) (v : Data) : Tree × Answer :=
  match t.create q v with
  | some t' => (t', { rc := .zok, str := some q })
  | none => (t, { rc := if q ∈ t.paths then .znodeexists else .znonode })

namespace State

/-- Nobody has called. -/
def init (t : Tree) : State := { tree := t, calls := [] }

/-- A call is begun. -/
def start (s : State) (path : Path) (value : Data) (progress : Progress) : State :=
  { s with calls := s.calls ++ [{ path := path, value := value, progress := progress }] }

/-- The call `i` gets on. -/
def goto (s : State) (i : ℕ) (c : Call) (progress : Progress) : State :=
  { s with calls := s.calls.set i { c with progress := progress } }

/-- The server handles the request of the call `i`. -/
def serve (s : State) (i : ℕ) : Option State :=
  s.calls[i]?.bind fun c =>
    match c.progress with
    | .sent (.acreate2Ttl q v .persistent _) waiting =>
        let r := answer s.tree q v
        some { s.goto i c (.answered r.2 waiting) with tree := r.1 }
    | _ => none

/-- The call `i` handles its answer. -/
def complete (s : State) (i : ℕ) : Option State :=
  s.calls[i]?.bind fun c =>
    match c.progress with
    | .answered a waiting => some (s.goto i c (c.resume a waiting))
    | _ => none

/-- One step. -/
def step (s : State) : Action → Option State
  | .createPath path value =>
      (CreatePath.createPath path value .persistent (-1)).map fun p => s.start path value p
  | .asyncCreatePath path value =>
      (CreatePath.asyncCreatePath path value .persistent (-1)).map fun p => s.start path value p
  | .serve i => s.serve i
  | .complete i => s.complete i

end State

/-- The calls are made with valid paths. -/
def Action.Valid : Action → Prop
  | .createPath path _ | .asyncCreatePath path _ => isValidPath path false = true
  | .serve _ | .complete _ => True

instance : DecidablePred Action.Valid
  | .createPath path _ | .asyncCreatePath path _ =>
      inferInstanceAs (Decidable (isValidPath path false = true))
  | .serve _ | .complete _ => instDecidableTrue

/-! ## The invariant -/

/-- What a call for `path` has still to create after `q`. -/
inductive Waits (path : Path) (value : Data) (mode : CreateMode) (ttl : ℤ) :
    Waiting → Path → List Path → Prop
  | loop (q : Path) (rest : List Path) : Waits path value mode ttl (.loop rest) q (rest ++ [path])
  | last : Waits path value mode ttl .last path []
  | create : Waits path value mode ttl (.completion .create) path []
  | createChain (q : Path) (rest : List Path) :
      Waits path value mode ttl (.completion (.createChain (q :: rest) value mode ttl)) q rest

/-- The way down from `q` to the target: each node is the parent of the next. -/
structure Way (path q : Path) (rest : List Path) : Prop where
  ladder : Ladder parentPath (q :: rest)
  last : (q :: rest).getLast? = some path

/-- How far a call is agrees with the tree: the parent of the node that is requested is there,
and so is the node when it has been answered. -/
inductive Fits (t : Tree) (path : Path) (value : Data) : Progress → Prop
  | sent {q : Path} {v : Data} {rest : List Path} {waiting : Waiting} (way : Way path q rest)
      (waits : Waits path value .persistent (-1) waiting q rest) (parent : parentPath q ∈ t.paths)
      (val : rest = [] → v = value) :
      Fits t path value (.sent (.acreate2Ttl q v .persistent (-1)) waiting)
  | answered {q : Path} {rest : List Path} {waiting : Waiting} {a : Answer}
      (way : Way path q rest) (waits : Waits path value .persistent (-1) waiting q rest) (mem : q ∈ t.paths)
      (rc : a.rc = .zok ∨ a.rc = .znodeexists)
      (val : rest = [] → a.rc = .zok → t.get path = some value) :
      Fits t path value (.answered a waiting)
  | returned {rc : ZooError} {str : Str} (mem : path ∈ t.paths)
      (rc_eq : rc = .zok ∨ rc = .znodeexists) (val : rc = .zok → t.get path = some value) :
      Fits t path value (.returned (.created rc str))

/-- The last request of the call has created the node. -/
def Call.Made (c : Call) : Prop :=
  (∃ str, c.progress = .returned (.created .zok str)) ∨
    ∃ a waiting, c.progress = .answered a waiting ∧ a.rc = .zok ∧
      Waits c.path c.value .persistent (-1) waiting c.path []

/-- The invariant. -/
structure Inv (t₀ : Tree) (s : State) : Prop where
  fits : ∀ c ∈ s.calls, isValidPath c.path false = true ∧ Fits s.tree c.path c.value c.progress
  value : ∀ q v, t₀.get q = some v → s.tree.get q = some v
  above : ∀ q ∈ s.tree.paths, q ∈ t₀.paths ∨ ∃ c ∈ s.calls, Above parentPath c.path q
  once : ∀ (i j : ℕ) (ci cj : Call), s.calls[i]? = some ci → s.calls[j]? = some cj →
    ci.Made → cj.Made → ci.path = cj.path → i = j

variable {t t' : Tree} {path q : Path} {value v : Data} {rest : List Path} {s s' : State}

/-! ## Calls -/

lemma accepts_create (q : Path) (v : Data) :
    usableHandle.accepts (.acreate2Ttl q v .persistent (-1)) = isValidPath q false := by
  simp [Handle.accepts, usableHandle, CreateMode.isTtl, CreateMode.isSequence]

/-- The nodes on the way are ancestors of the target, and valid paths. -/
lemma Way.above (h : Way path q rest) {a : Path} (ha : a ∈ q :: rest) :
    Above parentPath path a := by
  obtain ⟨l, hl⟩ := List.getLast?_eq_some_iff.mp h.last
  have hladder := h.ladder
  rw [hl] at hladder ha
  exact hladder.above ha

lemma Way.valid (h : Way path q rest) (hv : isValidPath path false = true) :
    isValidPath q false = true := by
  have hclosed : Closed parentPath {q | isValidPath q false = true} :=
    fun _ h => isValidPath_parentPath h
  exact hclosed.above hv (h.above List.mem_cons_self)

/-- The call has sent a request, which fits the tree. -/
def Begun (t : Tree) (path : Path) (value : Data) (p : Progress) : Prop :=
  Fits t path value p ∧ ∃ request waiting, p = .sent request waiting

/-- A request for the first node of the way. -/
lemma Way.sent (h : Way path q rest) (hv : isValidPath path false = true) {waiting : Waiting}
    (hw : Waits path value .persistent (-1) waiting q rest) (hpar : parentPath q ∈ t.paths)
    (hval : rest = [] → v = value) (refusal : Progress) :
    Begun t path value
      (if usableHandle.accepts (.acreate2Ttl q v .persistent (-1)) then
        .sent (.acreate2Ttl q v .persistent (-1)) waiting else refusal) := by
  rw [accepts_create, if_pos (h.valid hv)]
  exact ⟨.sent h hw hpar hval, _, _, rfl⟩

/-- The loop goes on below a node that is there. -/
lemma createLoop_begun {l : List Path} (h : Ladder parentPath (q :: (l ++ [path])))
    (hv : isValidPath path false = true) (hq : q ∈ t.paths) :
    Begun t path value (createLoop path value .persistent (-1) l) := by
  cases l with
  | nil =>
      obtain ⟨hpar, hl⟩ := List.isChain_cons_cons.mp h
      exact (Way.mk hl rfl).sent hv .last (hpar ▸ hq) (fun _ => rfl) _
  | cons p l =>
      obtain ⟨hpar, hl⟩ := List.isChain_cons_cons.mp h
      refine Way.sent (Way.mk hl ?_) hv (.loop p l) (hpar ▸ hq) (fun h => by simp at h) _
      exact List.getLast?_concat (l := p :: l)

/-- The call goes on when the node it has requested is there, and reports the last answer. -/
lemma resume_cases {c : Call} {a : Answer} {waiting : Waiting} (h : Way c.path q rest)
    (hv : isValidPath c.path false = true) (hw : Waits c.path c.value .persistent (-1) waiting q rest)
    (hq : q ∈ t.paths) (hrc : a.rc = .zok ∨ a.rc = .znodeexists) :
    Begun t c.path c.value (c.resume a waiting) ∨
      rest = [] ∧ ∃ str, c.resume a waiting = .returned (.created a.rc str) := by
  have hno : ¬ (a.rc ≠ .zok ∧ a.rc ≠ .znodeexists) := fun hne => hrc.elim hne.1 hne.2
  cases hw with
  | loop q l =>
      rw [Call.resume, if_neg hno]
      exact Or.inl (createLoop_begun h.ladder hv hq)
  | last => exact Or.inr ⟨rfl, _, rfl⟩
  | create => exact Or.inr ⟨rfl, _, rfl⟩
  | createChain q rest =>
      rw [Call.resume, Pending.complete, createCompletion, if_neg hno, List.tail_cons]
      cases rest with
      | nil => exact Or.inr ⟨rfl, _, rfl⟩
      | cons p rest =>
          obtain ⟨hpar, hl⟩ := List.isChain_cons_cons.mp h.ladder
          have hway : Way c.path p rest := ⟨hl, by rw [← h.last, List.getLast?_cons_cons]⟩
          cases rest with
          | nil => exact Or.inl (hway.sent hv (.createChain p []) (hpar ▸ hq) (fun _ => rfl) _)
          | cons p' rest =>
              exact Or.inl (hway.sent hv (.createChain p (p' :: rest)) (hpar ▸ hq)
                (fun h => by simp at h) _)

/-- `create_path` requests the first node below the root. -/
lemma createPath_begun {p : Progress} (hv : isValidPath path false = true)
    (h : createPath path value .persistent (-1) = some p) : Begun t path value p := by
  obtain ⟨r, hr⟩ := isValidPath_head hv
  obtain ⟨l, hl, hladder⟩ := splitPath_eq (q := path) (by rw [hr]; rfl)
  rw [createPath, if_neg (by simp [CreateMode.isTtl]), hl, Option.map_some,
    List.dropLast_concat] at h
  obtain rfl := Option.some.inj h
  exact createLoop_begun hladder hv t.root_mem

lemma asyncCreatePath_begun {p : Progress} (hv : isValidPath path false = true)
    (h : asyncCreatePath path value .persistent (-1) = some p) : Begun t path value p := by
  obtain ⟨r, hr⟩ := isValidPath_head hv
  obtain ⟨l, hl, hladder⟩ := splitPath_eq (q := path) (by rw [hr]; rfl)
  rw [asyncCreatePath, Operations.asyncCreatePath, if_neg (by simp [CreateMode.isTtl]), hl] at h
  cases l with
  | nil =>
      obtain rfl := Option.some.inj h
      obtain ⟨hpar, hl⟩ := List.isChain_cons_cons.mp hladder
      exact (Way.mk hl rfl).sent hv .create (hpar ▸ t.root_mem) (fun _ => rfl) _
  | cons q l =>
      obtain ⟨hpar, hl⟩ := List.isChain_cons_cons.mp hladder
      have hway : Way path q (l ++ [path]) := ⟨hl, List.getLast?_concat (l := q :: l)⟩
      have hp : p = zooAcreate2Ttl (.acreate2Ttl q none .persistent (-1))
          (.createChain (q :: (l ++ [path])) value .persistent (-1)) := by
        cases l <;> exact (Option.some.inj h).symm
      rw [hp]
      exact hway.sent hv (.createChain q (l ++ [path])) (hpar ▸ t.root_mem)
        (fun h => by simp at h) _

/-! ## The server -/

/-- The server makes the node if it is not there: the parent is. -/
lemma answer_cases (hv : isValidPath q false = true) (hpar : parentPath q ∈ t.paths) :
    (∃ t', t.create q v = some t' ∧ answer t q v = (t', { rc := .zok, str := some q })) ∨
      q ∈ t.paths ∧ answer t q v = (t, { rc := .znodeexists }) := by
  rw [answer]
  by_cases hq : q ∈ t.paths
  · have hnone : t.create q v = none := by
      rw [Tree.create, dif_neg fun h => h.2.1 hq]
    rw [hnone]
    exact Or.inr ⟨hq, by simp [hq]⟩
  · have hsome : (t.create q v).isSome := by
      rw [Tree.create, dif_pos ⟨hv, hq, hpar⟩]
      rfl
    obtain ⟨t', ht'⟩ := Option.isSome_iff_exists.mp hsome
    rw [ht']
    exact Or.inl ⟨t', rfl, rfl⟩

lemma paths_create (h : t.create q v = some t') {a : Path} :
    a ∈ t'.paths ↔ a = q ∨ a ∈ t.paths := by
  rw [← Tree.get_isSome_iff, Tree.get_create h, ← Tree.get_isSome_iff]
  split_ifs with ha
  · simp [ha]
  · simp [ha]

lemma get_create_of_some (h : t.create q v = some t') {a : Path} {u : Data}
    (ha : t.get a = some u) : t'.get a = some u := by
  rw [Tree.get_create h, if_neg, ha]
  rintro rfl
  rw [Tree.get_of_create h] at ha
  simp at ha

/-- Nodes that are made do not make a call less far. -/
lemma Fits.mono {p : Progress} (h : Fits t path value p) (hp : ∀ a ∈ t.paths, a ∈ t'.paths)
    (hg : ∀ a u, t.get a = some u → t'.get a = some u) : Fits t' path value p := by
  cases h with
  | sent way waits parent val => exact .sent way waits (hp _ parent) val
  | answered way waits mem rc val =>
      exact .answered way waits (hp _ mem) rc fun hr ho => hg _ _ (val hr ho)
  | returned mem rc val => exact .returned (hp _ mem) rc fun ho => hg _ _ (val ho)

/-! ## The steps -/

lemma Waits.loop_eq {mode : CreateMode} {ttl : ℤ} {l : List Path}
    (h : Waits path value mode ttl (.loop l) q rest) :
    rest = l ++ [path] := by
  cases h
  rfl

lemma Waits.createChain_eq {mode mode' : CreateMode} {ttl ttl' : ℤ} {l : List Path} {u : Data}
    (h : Waits path value mode ttl (.completion (.createChain l u mode' ttl')) q rest) :
    l = q :: rest := by
  cases h
  rfl

/-- What waits for the last answer has requested the target. -/
lemma Waits.eq_of_nil {mode : CreateMode} {ttl : ℤ} {waiting : Waiting}
    (h : Waits path value mode ttl waiting q rest) (h' : Waits path value mode ttl waiting path []) :
    q = path ∧ rest = [] := by
  cases h with
  | loop q l => simpa using h'.loop_eq
  | last => exact ⟨rfl, rfl⟩
  | create => exact ⟨rfl, rfl⟩
  | createChain q rest => exact List.cons.inj h'.createChain_eq

lemma Begun.not_made {c : Call} (h : Begun t c.path c.value c.progress) : ¬ c.Made := by
  obtain ⟨-, request, waiting, hp⟩ := h
  rintro (⟨str, heq⟩ | ⟨a, w, heq, -⟩) <;>
    · rw [hp] at heq
      simp at heq

/-- A node that a call has made is there. -/
lemma Call.Made.mem {c : Call} (h : c.Made) (hf : Fits t c.path c.value c.progress) :
    c.path ∈ t.paths := by
  rcases h with ⟨str, heq⟩ | ⟨a, waiting, heq, hrc, hw⟩
  · rw [heq] at hf
    cases hf with
    | returned mem => exact mem
  · rw [heq] at hf
    cases hf with
    | answered way waits mem => exact (waits.eq_of_nil hw).1 ▸ mem

/-- A call is begun. -/
lemma Inv.start {t₀ : Tree} (h : Inv t₀ s) {p : Progress} (hv : isValidPath path false = true)
    (hp : Begun s.tree path value p) : Inv t₀ (s.start path value p) := by
  refine ⟨fun c hc => ?_, h.value, fun q hq => ?_, fun i j ci cj hi hj hmi hmj heq => ?_⟩
  · rcases List.mem_append.mp hc with hc | hc
    · exact h.fits c hc
    · obtain rfl := List.mem_singleton.mp hc
      exact ⟨hv, hp.1⟩
  · exact (h.above q hq).imp_right fun ⟨c, hc, ha⟩ => ⟨c, List.mem_append_left _ hc, ha⟩
  · -- the new call has made nothing
    have hold : ∀ (i : ℕ) (c : Call), (s.start path value p).calls[i]? = some c → c.Made →
        s.calls[i]? = some c := by
      intro i c hi hm
      rw [State.start, List.getElem?_append] at hi
      split_ifs at hi with hlt
      · exact hi
      · obtain rfl := List.mem_singleton.mp (List.mem_of_getElem? hi)
        exact absurd hm (Begun.not_made hp)
    exact h.once i j ci cj (hold i ci hi hmi) (hold j cj hj hmj) hmi hmj heq

/-- A call gets on: its target stays, and it has made its node before, or nobody has. -/
lemma Inv.goto {t₀ t : Tree} (h : Inv t₀ s) {i : ℕ} {c : Call} {p : Progress}
    (hc : s.calls[i]? = some c) (hp : ∀ a ∈ s.tree.paths, a ∈ t.paths)
    (hg : ∀ a u, s.tree.get a = some u → t.get a = some u)
    (hnew : ∀ a ∈ t.paths, a ∈ s.tree.paths ∨ Above parentPath c.path a)
    (hf : Fits t c.path c.value p)
    (hm : Call.Made { c with progress := p } → c.Made ∨ c.path ∉ s.tree.paths) :
    Inv t₀ { s.goto i c p with tree := t } := by
  have hmem := List.mem_of_getElem? hc
  refine ⟨fun c' hc' => ?_, fun q v hq => hg q v (h.value q v hq), fun q hq => ?_,
    fun j k cj ck hj hk hmj hmk heq => ?_⟩
  · rcases List.mem_or_eq_of_mem_set hc' with hc' | rfl
    · exact ⟨(h.fits c' hc').1, (h.fits c' hc').2.mono hp hg⟩
    · exact ⟨(h.fits c hmem).1, hf⟩
  · -- the calls have the same targets
    have hsame : ∀ c' ∈ s.calls, ∃ c'' ∈ (s.goto i c p).calls, c''.path = c'.path := by
      intro c' hc'
      obtain ⟨j, hj⟩ := List.mem_iff_getElem?.mp hc'
      by_cases hij : i = j
      · subst hij
        obtain rfl := Option.some.inj (hc.symm.trans hj)
        refine ⟨{ c with progress := p }, List.mem_iff_getElem?.mpr ⟨i, ?_⟩, rfl⟩
        rw [State.goto, List.getElem?_set_self (List.getElem?_eq_some_iff.mp hc).1]
      · refine ⟨c', List.mem_iff_getElem?.mpr ⟨j, ?_⟩, rfl⟩
        rw [State.goto, List.getElem?_set_ne hij, hj]
    rcases hnew q hq with hq | ha
    · rcases h.above q hq with hq | ⟨c', hc', ha⟩
      · exact Or.inl hq
      · obtain ⟨c'', hc'', heq⟩ := hsame c' hc'
        exact Or.inr ⟨c'', hc'', heq ▸ ha⟩
    · obtain ⟨c'', hc'', heq⟩ := hsame c hmem
      exact Or.inr ⟨c'', hc'', heq ▸ ha⟩
  · -- a call that has made its node: the one that gets on, or another one
    have hcase : ∀ (j : ℕ) (cj : Call), (s.goto i c p).calls[j]? = some cj →
        j = i ∧ cj = { c with progress := p } ∨ j ≠ i ∧ s.calls[j]? = some cj := by
      intro j cj hj
      by_cases hij : i = j
      · subst hij
        rw [State.goto, List.getElem?_set_self (List.getElem?_eq_some_iff.mp hc).1] at hj
        exact Or.inl ⟨rfl, (Option.some.inj hj).symm⟩
      · rw [State.goto, List.getElem?_set_ne hij] at hj
        exact Or.inr ⟨Ne.symm hij, hj⟩
    -- a call made its node before, or the node is new and no other call has made it
    have hold : ∀ (k : ℕ) (ck : Call), s.calls[k]? = some ck → ck.Made → c.path = ck.path →
        Call.Made { c with progress := p } → i = k := by
      intro k ck hk hmk hpath hmi
      rcases hm hmi with hmi | hnot
      · exact h.once i k c ck hc hk hmi hmk hpath
      · have hin := hmk.mem (h.fits ck (List.mem_of_getElem? hk)).2
        exact absurd (hpath ▸ hin) hnot
    rcases hcase j cj hj with ⟨rfl, rfl⟩ | ⟨-, hj'⟩ <;>
      rcases hcase k ck hk with ⟨rfl, rfl⟩ | ⟨-, hk'⟩
    · rfl
    · exact hold k ck hk' hmk heq hmj
    · exact (hold j cj hj' hmj heq.symm hmk).symm
    · exact h.once j k cj ck hj' hk' hmj hmk heq

/-- The server handles a request: the node is there then. -/
lemma Inv.serve {t₀ : Tree} (h : Inv t₀ s) {i : ℕ} (hs : s.serve i = some s') : Inv t₀ s' := by
  obtain ⟨c, hc, hs⟩ := Option.bind_eq_some_iff.mp hs
  obtain ⟨hv, hf⟩ := h.fits c (List.mem_of_getElem? hc)
  cases hp : c.progress with
  | answered a waiting => rw [hp] at hs; simp at hs
  | returned result => rw [hp] at hs; simp at hs
  | refused => rw [hp] at hs; simp at hs
  | sent request waiting =>
      rw [hp] at hs hf
      cases hf with
      | @sent q v rest _ way waits parent val =>
          obtain rfl := Option.some.inj hs
          dsimp only
          have hway : Above parentPath c.path q := way.above List.mem_cons_self
          rcases answer_cases (v := v) (way.valid hv) parent with ⟨t', ht', hans⟩ | ⟨hmem, hans⟩
          · -- the node is made
            rw [hans]
            refine h.goto hc (fun a ha => (paths_create ht').mpr (Or.inr ha))
              (fun a u ha => get_create_of_some ht' ha) (fun a ha => ?_) ?_ fun hm => ?_
            · rcases (paths_create ht').mp ha with rfl | ha
              · exact Or.inr hway
              · exact Or.inl ha
            · refine .answered way waits ((paths_create ht').mpr (Or.inl rfl)) (Or.inl rfl) ?_
              intro hr _
              subst hr
              obtain rfl : q = c.path := by simpa using way.last
              rw [Tree.get_create ht', if_pos rfl, val rfl]
            · rcases hm with ⟨str, heq⟩ | ⟨a, w, heq, -, hw⟩
              · simp at heq
              · obtain ⟨-, rfl⟩ := Progress.answered.inj heq
                obtain ⟨rfl, -⟩ := waits.eq_of_nil hw
                exact Or.inr (Tree.get_eq_none_iff.mp (Tree.get_of_create ht'))
          · rw [hans]
            refine h.goto hc (fun a ha => ha) (fun a u ha => ha) (fun a ha => Or.inl ha)
              (.answered way waits hmem (Or.inr rfl) fun _ hrc => by simp at hrc) fun hm => ?_
            rcases hm with ⟨str, heq⟩ | ⟨a, w, heq, hrc, -⟩
            · simp at heq
            · obtain ⟨rfl, -⟩ := Progress.answered.inj heq
              simp at hrc

/-- The call goes on with the next node, or returns. -/
lemma Inv.complete {t₀ : Tree} (h : Inv t₀ s) {i : ℕ} (hs : s.complete i = some s') :
    Inv t₀ s' := by
  obtain ⟨c, hc, hs⟩ := Option.bind_eq_some_iff.mp hs
  obtain ⟨hv, hf⟩ := h.fits c (List.mem_of_getElem? hc)
  cases hp : c.progress with
  | sent request waiting => rw [hp] at hs; simp at hs
  | returned result => rw [hp] at hs; simp at hs
  | refused => rw [hp] at hs; simp at hs
  | answered a waiting =>
      rw [hp] at hs hf
      obtain rfl := Option.some.inj hs
      cases hf with
      | @answered q rest _ _ way waits mem rc val =>
          have hgoto := fun hf hm => h.goto (p := c.resume a waiting) hc
            (fun a (ha : a ∈ s.tree.paths) => ha) (fun a u ha => ha) (fun a ha => Or.inl ha) hf hm
          rcases resume_cases way hv waits mem rc with hbegun | ⟨rfl, str, hres⟩
          · exact hgoto hbegun.1 fun hm => absurd hm (Begun.not_made hbegun)
          · obtain rfl : q = c.path := by simpa using way.last
            refine hgoto (hres ▸ .returned mem rc (val rfl)) fun hm => Or.inl ?_
            refine Or.inr ⟨a, waiting, hp, ?_, waits⟩
            rcases hm with ⟨str', heq⟩ | ⟨a', w, heq, -⟩
            · obtain ⟨heq, -⟩ := Result.created.inj (Progress.returned.inj (hres.symm.trans heq))
              exact heq
            · rw [hres] at heq
              simp at heq

lemma Inv.step {t₀ : Tree} (h : Inv t₀ s) {a : Action} (ha : a.Valid) (hs : s.step a = some s') :
    Inv t₀ s' := by
  cases a with
  | createPath path value =>
      obtain ⟨p, hp, rfl⟩ := Option.map_eq_some_iff.mp hs
      exact h.start ha (createPath_begun ha hp)
  | asyncCreatePath path value =>
      obtain ⟨p, hp, rfl⟩ := Option.map_eq_some_iff.mp hs
      exact h.start ha (asyncCreatePath_begun ha hp)
  | serve i => exact h.serve hs
  | complete i => exact h.complete hs

lemma inv_init (t₀ : Tree) : Inv t₀ (State.init t₀) :=
  ⟨by simp [State.init], fun _ _ h => h, fun _ h => Or.inl h, by simp [State.init]⟩

/-! ## When all calls are done -/

/-- No call has anything left to wait for. -/
def State.Done (s : State) : Prop := ∀ i, s.serve i = none ∧ s.complete i = none

lemma done_of_returned (h : ∀ c ∈ s.calls, ∃ result, c.progress = .returned result) : s.Done := by
  intro i
  cases hc : s.calls[i]? with
  | none => simp [State.serve, State.complete, hc]
  | some c =>
      obtain ⟨result, hp⟩ := h c (List.mem_of_getElem? hc)
      simp [State.serve, State.complete, hc, hp]

/-- No call is lost: each has returned, and its target is there. -/
lemma Inv.returned {t₀ : Tree} (h : Inv t₀ s) (hd : s.Done) {c : Call} (hc : c ∈ s.calls) :
    c.path ∈ s.tree.paths ∧ ∃ rc str, c.progress = .returned (.created rc str) ∧
      (rc = .zok ∨ rc = .znodeexists) ∧ (rc = .zok → s.tree.get c.path = some c.value) := by
  obtain ⟨i, hi⟩ := List.mem_iff_getElem?.mp hc
  obtain ⟨hserve, hcomplete⟩ := hd i
  obtain ⟨-, hf⟩ := h.fits c hc
  generalize hp : c.progress = p at hf
  cases hf with
  | sent way waits parent val => simp [State.serve, hi, hp] at hserve
  | answered way waits mem rc val => simp [State.complete, hi, hp] at hcomplete
  | @returned rc str mem rc_eq val => exact ⟨mem, rc, str, rfl, rc_eq, val⟩

/-- When all calls are done, whatever the order of the requests at the server: the nodes are
those of the first tree and the targets with their ancestors, the nodes of the first tree have
their values, every call has reported `ZOK` or `ZNODEEXISTS`, a call that has reported `ZOK` finds
its value, and at most one call for each target has. -/
theorem creates_commute {t₀ : Tree} (hr : Reach State.step (fun _ a => a.Valid) (State.init t₀) s)
    (hd : s.Done) :
    (∀ q, q ∈ s.tree.paths ↔ q ∈ t₀.paths ∨ ∃ c ∈ s.calls, Above parentPath c.path q) ∧
    (∀ q v, t₀.get q = some v → s.tree.get q = some v) ∧
    (∀ c ∈ s.calls, ∃ rc str, c.progress = .returned (.created rc str) ∧
      (rc = .zok ∨ rc = .znodeexists) ∧ (rc = .zok → s.tree.get c.path = some c.value)) ∧
    ∀ (i j : ℕ) (ci cj : Call) (str str' : Str), s.calls[i]? = some ci → s.calls[j]? = some cj →
      ci.progress = .returned (.created .zok str) → cj.progress = .returned (.created .zok str') →
        ci.path = cj.path → i = j := by
  have h : Inv t₀ s := hr.invariant (inv_init t₀) fun _ _ _ h ha hs => h.step ha hs
  refine ⟨fun q => ⟨h.above q, ?_⟩, h.value, fun c hc => (h.returned hd hc).2,
    fun i j ci cj str str' hi hj hmi hmj heq =>
      h.once i j ci cj hi hj (Or.inl ⟨str, hmi⟩) (Or.inl ⟨str', hmj⟩) heq⟩
  have hclosed : Closed parentPath {q | q ∈ s.tree.paths} := s.tree.closed
  rintro (hq | ⟨c, hc, ha⟩)
  · obtain ⟨v, hv⟩ := Option.isSome_iff_exists.mp (Tree.get_isSome_iff.mpr hq)
    exact Tree.get_isSome_iff.mp (Option.isSome_iff_exists.mpr ⟨v, h.value q v hv⟩)
  · exact hclosed.above (h.returned hd hc).1 ha

/-- Two calls for `/p/c`, one of each kind: the second one is first. -/
theorem creates_commute_two : ∃ s : State,
    s.tree.get ['/', 'p', '/', 'c'] = some (some ['b']) ∧
      ∀ q, q ∈ s.tree.paths ↔
        q ∈ Tree.empty.paths ∨ ∃ c ∈ s.calls, Above parentPath c.path q := by
  obtain ⟨s, hr, hobs⟩ := exists_reach_of_exec State.step (fun _ a => a.Valid)
    (State.init Tree.empty)
    [.createPath ['/', 'p', '/', 'c'] (some ['a']),
      .asyncCreatePath ['/', 'p', '/', 'c'] (some ['b']), .serve 0, .serve 1, .complete 1,
      .serve 1, .complete 1, .complete 0, .serve 0, .complete 0]
    (fun s => (s.tree.get ['/', 'p', '/', 'c'], s.calls))
    (some (some ['b']),
      [⟨['/', 'p', '/', 'c'], some ['a'], .returned (.created .znodeexists [])⟩,
        ⟨['/', 'p', '/', 'c'], some ['b'], .returned (.created .zok ['/', 'p', '/', 'c'])⟩]) rfl
  obtain ⟨hget, hcalls⟩ := Prod.mk.inj hobs
  have hd : s.Done := by
    refine done_of_returned fun c hc => ?_
    rw [hcalls] at hc
    simp only [List.mem_cons, List.not_mem_nil, or_false] at hc
    rcases hc with rfl | rfl <;> exact ⟨_, rfl⟩
  exact ⟨s, hget, (creates_commute hr hd).1⟩

end CreatePath

end ConfigMonitor
