/-
# Who keeps a userdata object alive

The library has the bare addresses of the userdata objects of watches: in its requests in
flight, in its tables of watches, and in its queue of completions and watchers to run.  An
object is destroyed when the last of its owners is gone: the registering call, which holds it
until it has entered it in `releaser_`, or `releaser_`.  The watcher of a deleted node takes
it out of `releaser_`; the thread that detects an expired session clears `releaser_`
altogether before it closes the handle.

The calls that register watches, the threads of the library and the detecting thread are
interleaved at every step.  Session events are passed to the watchers too, but they return at
once without looking at their object, and are left out.
-/
import ConfigMonitor.ZooKeeper.Session
import ConfigMonitor.Lib.OneShot
import ConfigMonitor.Lib.Run

namespace ConfigMonitor

open OneShot

namespace Releaser

/-- The types of userdata that are entered in `releaser_`. -/
inductive Kind
  | existsUserdata
  | wgetUserdata
  | getChildrenUserdata
deriving DecidableEq, Repr

/-- The tables of the library a watch of an object can be in. -/
def Kind.tables : Kind → List Table
  | .existsUserdata => [.node, .exist]
  | .wgetUserdata => [.node]
  | .getChildrenUserdata => [.child]

/-- An item of the queue of the library: the completion of a request, which has armed a watch
or not, or a watcher. -/
inductive Item
  | completion (x : Ptr) (arms : Bool)
  | watcher (eve : ZkEvent) (x : Ptr)
deriving DecidableEq, Repr

/-- The object an item is run with. -/
def Item.ctx : Item → Ptr
  | .completion x _ => x
  | .watcher _ x => x

/-- How far the detecting thread is: looking at the state of the session, or between clearing
`releaser_` and `zookeeper_close`, or between that and the new session. -/
inductive Thread
  | detecting
  | cleared
  | closed
deriving DecidableEq, Repr

/-- The owners of the objects and the library.  `made` and `requested` are the registering
calls before and after their request. -/
structure State where
  next : Ptr
  kind : Ptr → Kind
  made : List Ptr
  requested : List Ptr
  releaser : List Ptr
  inFlight : List Ptr
  armed : List Ptr
  queue : List Item
  connected : Bool
  thread : Thread

/-- A connected client that has registered nothing. -/
def init : State where
  next := 0
  kind := fun _ => .existsUserdata
  made := []
  requested := []
  releaser := []
  inFlight := []
  armed := []
  queue := []
  connected := true
  thread := .detecting

/-- The steps of the registering calls (`make`, `request`, `emplace`), of the library and of the
detecting thread. -/
inductive Action
  | make (kind : Kind)
  | request (x : Ptr) (accepted : Bool)
  | emplace (x : Ptr)
  | answer (arms : Bool)
  | fire (eve : ZkEvent) (x : Ptr)
  | run (accepted : Bool)
  | expired
  | clearReleaser
  | close
  | reconnect
deriving DecidableEq, Repr

/-- `zoo_a*` with the object `x`; a handle that is closed accepts no request. -/
def send (s : State) (x : Ptr) (accepted : Bool) : State :=
  if accepted ∧ s.thread ≠ .closed then { s with inFlight := s.inFlight ++ [x] } else s

/-- The watcher of the object `x`: only the watchers of children and of values give their
object up, when the node is gone. -/
def runWatcher (s : State) (eve : ZkEvent) (x : Ptr) (accepted : Bool) : State :=
  if eve = .deleted ∧ s.kind x ≠ .existsUserdata then
    { s with releaser := s.releaser.filter (· ≠ x) }
  else send s x accepted

/-- One step. -/
def step (s : State) : Action → Option State
  | .make kind => some { s with
      next := s.next + 1
      kind := Function.update s.kind s.next kind
      made := s.made ++ [s.next] }
  | .request x accepted =>
      if x ∈ s.made then
        some (send { s with made := s.made.erase x, requested := s.requested ++ [x] } x accepted)
      else none
  | .emplace x =>
      if x ∈ s.requested then
        some { s with requested := s.requested.erase x, releaser := s.releaser ++ [x] }
      else none
  | .answer arms =>
      match s.inFlight with
      | [] => none
      | x :: xs => some { s with
          inFlight := xs
          armed := if arms then s.armed ++ [x] else s.armed
          queue := s.queue ++ [.completion x arms] }
  | .fire eve x =>
      if x ∈ s.armed ∧ ∃ tb ∈ (s.kind x).tables, tb ∈ eve.tables then
        some { s with armed := s.armed.erase x, queue := s.queue ++ [.watcher eve x] }
      else none
  | .run accepted =>
      match s.queue with
      | [] => none
      | .completion _ _ :: rest => some { s with queue := rest }
      | .watcher eve x :: rest => some (runWatcher { s with queue := rest } eve x accepted)
  | .expired => some { s with connected := false }
  | .clearReleaser =>
      if s.thread = .detecting ∧ s.connected = false then
        some { s with releaser := [], thread := .cleared }
      else none
  | .close =>
      if s.thread = .cleared then
        some { s with inFlight := [], armed := [], queue := [], thread := .closed }
      else none
  | .reconnect =>
      if s.thread = .closed then some { s with connected := true, thread := .detecting }
      else none

/-- The objects the library may still hand to a completion or a watcher. -/
def State.used (s : State) : List Ptr := s.inFlight ++ s.armed ++ s.queue.map Item.ctx

/-- Every object the library may still use has an owner. -/
def Alive (s : State) : Prop :=
  ∀ x ∈ s.used, x ∈ s.releaser ∨ x ∈ s.made ∨ x ∈ s.requested

instance (s : State) : Decidable (Alive s) := by unfold Alive; infer_instance

/-- In every reachable state every object the library may still use is alive. -/
def AllAlive : Prop := ∀ s, Run.Reach step (fun _ _ => True) init s → Alive s

/-! ## An expired session -/

theorem not_allAlive : ¬ AllAlive := by
  intro h
  obtain ⟨s, hr, hw⟩ := Run.exists_reach_of_exec step (fun _ _ => True)
    init
    [.make .existsUserdata, .request 0 true, .emplace 0, .answer true, .run true,
      .expired, .clearReleaser]
    (fun s => decide (Alive s)) false rfl
  exact of_decide_eq_false hw (h s hr)

/-! ## The exact condition on a step -/

/-- `releaser_` is not cleared while the library may use an object of a registration that has
been completed. -/
def Spares (s : State) (a : Action) : Prop :=
  a = .clearReleaser → ∀ x ∈ s.used, x ∈ s.made ∨ x ∈ s.requested

instance (s : State) (a : Action) : Decidable (Spares s a) := by unfold Spares; infer_instance

/-! ## The traces of an object -/

/-- The token of `x` in an item of the queue. -/
def Item.tokens (x : Ptr) : Item → List Token
  | .completion y arms => if y = x then [if arms then .reply else .refusal] else []
  | .watcher _ y => if y = x then [.notice] else []

/-- The tokens of `x` in the library. -/
def State.tokens (s : State) (x : Ptr) : List Token :=
  s.queue.flatMap (Item.tokens x) ++
    (List.replicate (s.armed.count x) .armed ++ List.replicate (s.inFlight.count x) .request)

variable {s s' : State} {x y : Ptr} {i : Item} {rest : List Item}

lemma Item.tokens_eq_nil : i.tokens x = [] ↔ i.ctx ≠ x := by
  cases i <;> simp [Item.tokens, Item.ctx]

lemma tokens_eq_nil_iff : s.tokens x = [] ↔ x ∉ s.used := by
  rw [State.tokens, List.append_eq_nil_iff, List.append_eq_nil_iff, List.replicate_eq_nil_iff,
    List.replicate_eq_nil_iff, List.count_eq_zero, List.count_eq_zero, List.flatMap_eq_nil_iff,
    State.used]
  simp only [Item.tokens_eq_nil, List.mem_append, List.mem_map, not_or, not_exists, not_and]
  exact ⟨fun h => ⟨⟨h.2.2, h.2.1⟩, h.1⟩, fun h => ⟨h.2, h.1.2, h.1.1⟩⟩

/-- The library holds each object at one place only, and none that has not been given to it. -/
structure Inv (s : State) : Prop where
  legal : ∀ x, Legal (s.tokens x)
  fresh : ∀ x, s.next ≤ x → s.tokens x = []
  made : ∀ x ∈ s.made, x < s.next ∧ s.tokens x = []
  made_nodup : s.made.Nodup
  alive : Alive s

lemma Alive.of_tokens (h : Alive s) (hx : s.tokens x ≠ []) :
    x ∈ s.releaser ∨ x ∈ s.made ∨ x ∈ s.requested :=
  h x (by rwa [Ne, tokens_eq_nil_iff, not_not] at hx)

/-- A step of the library: the owners stay, and no object is used that was not used before. -/
lemma Inv.of_tokens (h : Inv s) (hnext : s'.next = s.next) (hmade : s'.made = s.made)
    (hreq : s'.requested = s.requested) (hrel : s'.releaser = s.releaser)
    (htok : ∀ x, s'.tokens x = s.tokens x ∨ s.tokens x ≠ [] ∧ Legal (s'.tokens x)) : Inv s' := by
  have hnil : ∀ x, s.tokens x = [] → s'.tokens x = [] := by
    intro x hx
    rcases htok x with heq | ⟨hne, -⟩
    · exact heq.trans hx
    · exact absurd hx hne
  refine ⟨fun x => ?_, fun x hx => hnil x (h.fresh x (hnext ▸ hx)), fun x hx => ?_,
    hmade ▸ h.made_nodup, fun x hx => ?_⟩
  · rcases htok x with heq | ⟨-, hl⟩
    · exact heq ▸ h.legal x
    · exact hl
  · obtain ⟨hlt, htx⟩ := h.made x (hmade ▸ hx)
    exact ⟨hnext ▸ hlt, hnil x htx⟩
  · rw [hrel, hmade, hreq]
    exact h.alive.of_tokens fun hx' => tokens_eq_nil_iff.mp (hnil x hx') hx

/-! ## The steps -/

/-- A request is sent for an object that nothing in the library refers to. -/
lemma Inv.send (h : Inv s) (hx : s.tokens x = []) (hlt : x < s.next) (hmade : x ∉ s.made)
    (hown : x ∈ s.releaser ∨ x ∈ s.requested) (accepted : Bool) :
    Inv (Releaser.send s x accepted) := by
  rw [Releaser.send]
  split_ifs
  · -- the request is the only trace of its object
    have htok : ∀ y, ({ s with inFlight := s.inFlight ++ [x] } : State).tokens y =
        s.tokens y ++ List.replicate (List.count y [x]) .request := by
      intro y
      rw [State.tokens, State.tokens, List.count_append, List.replicate_add]
      simp only [List.append_assoc]
    have hne : ∀ y, y ≠ x →
        ({ s with inFlight := s.inFlight ++ [x] } : State).tokens y = s.tokens y := by
      intro y hy
      rw [htok, List.count_singleton, if_neg (by simpa using Ne.symm hy)]
      simp
    have hself : ({ s with inFlight := s.inFlight ++ [x] } : State).tokens x = [.request] := by
      rw [htok, hx]
      simp
    refine ⟨fun y => ?_, fun y hy => ?_, fun y hy => ?_, h.made_nodup, fun y hy => ?_⟩
    · by_cases hyx : y = x
      · rw [hyx, hself]
        exact legal_request
      · rw [hne y hyx]
        exact h.legal y
    · rw [hne y (by rintro rfl; exact absurd hlt (Nat.not_lt.mpr hy))]
      exact h.fresh y hy
    · rw [hne y (by rintro rfl; exact hmade hy)]
      exact h.made y hy
    · by_cases hyx : y = x
      · subst hyx
        exact hown.imp_right Or.inr
      · refine h.alive.of_tokens ?_
        rw [← hne y hyx, Ne, tokens_eq_nil_iff, not_not]
        exact hy
  · exact h

lemma Inv.make (h : Inv s) (kind : Kind) (hs : step s (.make kind) = some s') : Inv s' := by
  obtain rfl := Option.some.inj hs
  refine ⟨h.legal, fun x hx => h.fresh x (Nat.le_of_succ_le hx), fun x hx => ?_, ?_,
    fun x hx => ?_⟩
  · rcases List.mem_append.mp hx with hx | hx
    · exact ⟨Nat.lt_succ_of_lt (h.made x hx).1, (h.made x hx).2⟩
    · obtain rfl := List.mem_singleton.mp hx
      exact ⟨Nat.lt_succ_self _, h.fresh _ le_rfl⟩
  · rw [List.nodup_append]
    refine ⟨h.made_nodup, List.nodup_singleton _, fun x hx y hy => ?_⟩
    rw [List.mem_singleton.mp hy]
    exact Nat.ne_of_lt (h.made x hx).1
  · rcases h.alive x hx with hx | hx | hx
    · exact Or.inl hx
    · exact Or.inr (Or.inl (List.mem_append_left _ hx))
    · exact Or.inr (Or.inr hx)

lemma Inv.request (h : Inv s) {accepted : Bool} (hs : step s (.request x accepted) = some s') :
    Inv s' := by
  rw [step] at hs
  split_ifs at hs with hx
  obtain rfl := Option.some.inj hs
  obtain ⟨hlt, htok⟩ := h.made x hx
  have hmid : Inv { s with made := s.made.erase x, requested := s.requested ++ [x] } := by
    refine ⟨h.legal, h.fresh, fun y hy => h.made y (List.mem_of_mem_erase hy),
      h.made_nodup.erase x, fun y hy => ?_⟩
    by_cases hyx : y = x
    · exact Or.inr (Or.inr (List.mem_append_right _ (List.mem_singleton.mpr hyx)))
    · rcases h.alive y hy with hy | hy | hy
      · exact Or.inl hy
      · exact Or.inr (Or.inl ((List.mem_erase_of_ne hyx).mpr hy))
      · exact Or.inr (Or.inr (List.mem_append_left _ hy))
  exact hmid.send htok hlt h.made_nodup.not_mem_erase
    (Or.inr (List.mem_append_right _ (List.mem_singleton.mpr rfl))) accepted

lemma Inv.emplace (h : Inv s) (hs : step s (.emplace x) = some s') : Inv s' := by
  rw [step] at hs
  split_ifs at hs
  obtain rfl := Option.some.inj hs
  refine ⟨h.legal, h.fresh, h.made, h.made_nodup, fun y hy => ?_⟩
  by_cases hyx : y = x
  · exact Or.inl (List.mem_append_right _ (List.mem_singleton.mpr hyx))
  · rcases h.alive y hy with hy | hy | hy
    · exact Or.inl (List.mem_append_left _ hy)
    · exact Or.inr (Or.inl hy)
    · exact Or.inr (Or.inr ((List.mem_erase_of_ne hyx).mpr hy))

lemma Inv.answer (h : Inv s) {arms : Bool} (hs : step s (.answer arms) = some s') : Inv s' := by
  rw [step] at hs
  split at hs
  · simp at hs
  · rename_i x xs hsent
    obtain rfl := Option.some.inj hs
    refine h.of_tokens rfl rfl rfl rfl fun y => ?_
    by_cases hyx : y = x
    · -- the request was the only trace of its object
      subst hyx
      have hl := h.legal y
      have hword : s.tokens y = (s.queue.flatMap (Item.tokens y) ++
          List.replicate (s.armed.count y) .armed) ++
            .request :: List.replicate (xs.count y) .request := by
        rw [State.tokens, hsent, List.count_cons_self, List.replicate_succ, List.append_assoc]
      rw [hword] at hl
      obtain ⟨hbefore, hafter⟩ := hl.of_request
      obtain ⟨hq, ha⟩ := List.append_eq_nil_iff.mp hbefore
      refine Or.inr ⟨by rw [hword]; simp, ?_⟩
      rw [State.tokens]
      dsimp only
      rw [List.flatMap_append, hq, hafter]
      cases arms with
      | true =>
          rw [if_pos rfl, List.count_append, List.replicate_add, ha]
          simp [Item.tokens, Legal]
      | false =>
          rw [if_neg (by simp), ha]
          simp [Item.tokens, Legal]
    · -- another object: neither its watches nor its messages change
      left
      rw [State.tokens, State.tokens, hsent]
      dsimp only
      rw [List.flatMap_append, List.count_cons_of_ne (Ne.symm hyx)]
      cases arms with
      | true =>
          rw [if_pos rfl, List.count_append, List.count_singleton,
            if_neg (by simpa using Ne.symm hyx)]
          simp [Item.tokens, Ne.symm hyx]
      | false =>
          rw [if_neg (by simp)]
          simp [Item.tokens, Ne.symm hyx]

lemma Inv.fire (h : Inv s) {eve : ZkEvent} (hs : step s (.fire eve x) = some s') : Inv s' := by
  rw [step] at hs
  split_ifs at hs with hc
  obtain rfl := Option.some.inj hs
  refine h.of_tokens rfl rfl rfl rfl fun y => ?_
  by_cases hyx : y = x
  · subst hyx
    have hl := h.legal y
    obtain ⟨n, hn⟩ := Nat.exists_eq_add_of_le (List.one_le_count_iff.mpr hc.1)
    have hword : s.tokens y = s.queue.flatMap (Item.tokens y) ++
        (List.replicate (1 + n) .armed ++ List.replicate (s.inFlight.count y) .request) := by
      rw [State.tokens, hn]
    rw [hword] at hl
    refine Or.inr ⟨by rw [hword, Nat.add_comm, List.replicate_succ]; simp, ?_⟩
    have hfire := hl.fire_replicate
    rw [State.tokens]
    dsimp only
    rw [List.flatMap_append, List.count_erase_self, hn, Nat.add_sub_cancel_left,
      List.append_assoc]
    simpa [Item.tokens] using hfire
  · left
    rw [State.tokens, State.tokens]
    dsimp only
    rw [List.flatMap_append, List.count_erase_of_ne hyx]
    simp [Item.tokens, Ne.symm hyx]

/-- The head of the queue is taken. -/
lemma tokens_pop (hq : s.queue = i :: rest) (y : Ptr) :
    s.tokens y = i.tokens y ++ ({ s with queue := rest } : State).tokens y := by
  rw [State.tokens, State.tokens, hq, List.flatMap_cons, List.append_assoc]

lemma Inv.pop (h : Inv s) (hq : s.queue = i :: rest) : Inv { s with queue := rest } := by
  refine h.of_tokens rfl rfl rfl rfl fun y => ?_
  have hl := h.legal y
  rw [tokens_pop hq] at hl ⊢
  by_cases hi : i.tokens y = []
  · rw [hi]
    exact Or.inl rfl
  · exact Or.inr ⟨fun hnil => hi (List.append_eq_nil_iff.mp hnil).1, hl.of_append⟩

lemma Inv.run (h : Inv s) {accepted : Bool} (hs : step s (.run accepted) = some s') :
    Inv s' := by
  rw [step] at hs
  split at hs
  · simp at hs
  · rename_i y arms rest hq
    obtain rfl := Option.some.inj hs
    exact h.pop hq
  · rename_i eve x rest hq
    obtain rfl := Option.some.inj hs
    have hpop := h.pop hq
    have hword := tokens_pop hq x
    rw [Item.tokens, if_pos rfl] at hword
    -- nothing else in the library refers to the object
    have hnil : ({ s with queue := rest } : State).tokens x = [] := by
      have hl := h.legal x
      rw [hword] at hl
      exact hl.of_notice
    have hne : s.tokens x ≠ [] := by
      rw [hword]
      simp
    rw [runWatcher]
    split_ifs
    · refine ⟨hpop.legal, hpop.fresh, hpop.made, hpop.made_nodup, fun y hy => ?_⟩
      have hyx : y ≠ x := by
        rintro rfl
        exact tokens_eq_nil_iff.mp hnil hy
      rcases hpop.alive y hy with hy | hy
      · exact Or.inl (List.mem_filter.mpr ⟨hy, decide_eq_true hyx⟩)
      · exact Or.inr hy
    · have hmade : x ∉ s.made := fun hx => hne (h.made x hx).2
      refine hpop.send hnil ?_ hmade ?_ accepted
      · exact Nat.lt_of_not_le fun hle => hne (h.fresh x hle)
      · rcases h.alive.of_tokens hne with hx | hx | hx
        · exact Or.inl hx
        · exact absurd hx hmade
        · exact Or.inr hx

lemma Inv.step (h : Inv s) {a : Action} (hok : Spares s a) (hs : step s a = some s') :
    Inv s' := by
  cases a with
  | make kind => exact h.make kind hs
  | request x accepted => exact h.request hs
  | emplace x => exact h.emplace hs
  | answer arms => exact h.answer hs
  | fire eve x => exact h.fire hs
  | run accepted => exact h.run hs
  | expired =>
      obtain rfl := Option.some.inj hs
      exact h.of_tokens rfl rfl rfl rfl fun _ => Or.inl rfl
  | clearReleaser =>
      rw [Releaser.step] at hs
      split_ifs at hs
      obtain rfl := Option.some.inj hs
      exact ⟨h.legal, h.fresh, h.made, h.made_nodup, fun x hx => Or.inr (hok rfl x hx)⟩
  | close =>
      rw [Releaser.step] at hs
      split_ifs at hs
      obtain rfl := Option.some.inj hs
      refine h.of_tokens rfl rfl rfl rfl fun x => ?_
      have hnil : ({ s with
          inFlight := [], armed := [], queue := [], thread := .closed } : State).tokens x = [] :=
        rfl
      by_cases hx : s.tokens x = []
      · exact Or.inl (hnil.trans hx.symm)
      · exact Or.inr ⟨hx, by rw [hnil]; exact legal_nil⟩
  | reconnect =>
      rw [Releaser.step] at hs
      split_ifs at hs
      obtain rfl := Option.some.inj hs
      exact h.of_tokens rfl rfl rfl rfl fun _ => Or.inl rfl

lemma inv_init : Inv init := by
  refine ⟨fun x => ?_, fun x _ => rfl, by simp [init], List.nodup_nil, by simp [Alive, init,
    State.used]⟩
  exact legal_nil

/-- As long as `releaser_` is not cleared while the library may still use an object, every such
object is alive; and clearing it keeps them alive only in that case. -/
theorem alive_of_spares (hr : Run.Reach step Spares init s) :
    Alive s ∧ ∀ s', step s .clearReleaser = some s' → (Alive s' ↔ Spares s .clearReleaser) := by
  have hinv : Inv s := hr.invariant inv_init fun _ _ _ h hok hs => h.step hok hs
  refine ⟨hinv.alive, fun s' hs => ?_⟩
  rw [step] at hs
  split_ifs at hs
  obtain rfl := Option.some.inj hs
  constructor
  · intro h _ x hx
    exact (h x hx).resolve_left List.not_mem_nil
  · intro h x hx
    exact Or.inr (h rfl x hx)

/-- A value is read again, its node is deleted, and the session expires. -/
theorem alive_of_spares_deleted : ∃ s,
    Run.Reach step Spares init s ∧ s.thread = .cleared ∧ Alive s := by
  obtain ⟨s, hr, hw⟩ := Run.exists_reach_of_exec step Spares init
    [.make .wgetUserdata, .request 0 true, .emplace 0, .answer true, .run true,
      .fire .changed 0, .run true, .answer true, .run true, .fire .deleted 0, .run true,
      .expired, .clearReleaser]
    (fun s => s.thread) .cleared rfl
  exact ⟨s, hr, hw, (alive_of_spares hr).1⟩

end Releaser

end ConfigMonitor
