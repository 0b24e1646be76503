/-
# Values that are written and read back

Two creates, two writes and two reads, with what each makes of an absent value: a null pointer and
the length `-1`.  Between them other clients do what they like elsewhere.  The `string_view` of a
path is taken to be followed by a NUL and to have none inside; a value comes with its length and may
have any bytes.
-/
import ConfigMonitor.Cppzk.CreateAgree
import ConfigMonitor.Cppzk.GetPathValue

namespace ConfigMonitor

open Run

namespace ReadBack

open Operations Chain

/-! ## Writers -/

/-- `set_path_value`. -/
def setPathValue (policy : Policy) (s : Server) (path : Path) (value : Str) : Server × ZooError :=
  if usableHandle.accepts (.aset path value) then
    let r := s.set policy path value
    (r.1, r.2.rc)
  else (s, .zbadarguments)

/-- A call for the path has reported OK: `create_path` or `async_create_path` in the persistent or
the ephemeral mode, `set_path_value` or `async_set_path_value`; the request has carried what the
library sends of the value. -/
inductive Wrote (policy : Policy) (s : Server) (path : Path) : Data → Server → Prop
  | createPath {value d : Data} {mode : CreateMode} {ttl : ℤ} {s' : Server} {newPath : Str}
      (plain : mode = .persistent ∨ mode = .ephemeral) (sent : (Buffer.ofData value).sent = some d)
      (ok : CreateAgree.createPath policy s path d mode ttl = some (s', .zok, newPath)) :
      Wrote policy s path value s'
  | asyncCreatePath {value d : Data} {mode : CreateMode} {ttl : ℤ} {s' : Server} {newPath : Str}
      (plain : mode = .persistent ∨ mode = .ephemeral) (sent : (Buffer.ofData value).sent = some d)
      (ok : CreateAgree.AsyncCreates policy s path d mode ttl s' .zok newPath) :
      Wrote policy s path value s'
  | setPathValue {v d : Str} {s' : Server} (sent : (Buffer.ofData (some v)).sent = some (some d))
      (ok : ReadBack.setPathValue policy s path d = (s', .zok)) : Wrote policy s path (some v) s'
  | asyncSetPathValue {v d : Str} {s' : Server}
      (sent : (Buffer.ofData (some v)).sent = some (some d))
      (ok : Ends (Server.serve policy) s (.request (.aset path d) .operate) (.operated .zok) s') :
      Wrote policy s path (some v) s'

/-! ## Readers -/

/-- `get_path_value`, with the server at its first read and at the second one, if there is one. -/
def getPathValue (s₁ s₂ : Server) (path : Path) : GetPathValue.Outcome :=
  if usableHandle.accepts (.aget path) then
    GetPathValue.getPathValue (GetPathValue.answer (s₁.tree.get path) none)
      (GetPathValue.answer (s₂.tree.get path) none)
  else .returned .zbadarguments none

/-- `async_get_path_value` calls its callback with the code and the value. -/
def AsyncGets (policy : Policy) (s : Server) (path : Path) (rc : ZooError) (val : Data) : Prop :=
  Ends (Server.serve policy) s (.request (.aget path) .get) (.got rc val) s

/-! ## Other clients -/

/-- A request of another client. -/
inductive Other
  | create (path : Path) (value : Data) (mode : CreateMode) (ttl : ℤ)
  | set (path : Path) (value : Str)
  | delete (path : Path)

/-- The server handles a request of another client. -/
def others (policy : Policy) (s : Server) : Other → Option Server
  | .create path value mode ttl => some (s.create policy path value mode ttl).1
  | .set path value => some (s.set policy path value).1
  | .delete path => (s.tree.delete path).map fun tree => { s with tree := tree }

/-- The request is for another node than `p`. -/
def Spares (p : Path) (s : Server) : Other → Prop
  | .create path _ mode _ => s.actualName path mode ≠ p
  | .set path _ | .delete path => path ≠ p

/-- Others have done something elsewhere. -/
abbrev Elsewhere (policy : Policy) (p : Path) : Server → Server → Prop :=
  Reach (others policy) (Spares p)

variable {policy : Policy} {s s' s₁ s₂ : Server} {path p : Path} {value d : Data} {v : Str}
  {mode : CreateMode} {ttl : ℤ} {newPath : Str}

/-! ## What is there after a write -/

/-- A new node changes no other. -/
lemma get_create_ne (h : s.actualName path mode ≠ p) :
    (s.create policy path value mode ttl).1.tree.get p = s.tree.get p := by
  rw [Server.create]
  cases s.refusal policy path value mode ttl with
  | some rc => rfl
  | none =>
      dsimp only
      split_ifs with hmem
      · rfl
      · rw [Server.put]
        cases hcreate : s.tree.create (s.actualName path mode) value with
        | none => rfl
        | some tree =>
            rw [Option.getD_some, Tree.get_create hcreate, if_neg h.symm]

lemma get_set_ne (h : path ≠ p) : (s.set policy path v).1.tree.get p = s.tree.get p := by
  rw [Server.set]
  cases policy s (.aset path v) with
  | some rc => rfl
  | none =>
      cases hset : s.tree.set path (some v) with
      | none => rfl
      | some tree => exact (Tree.get_set hset p).trans (if_neg h.symm)

/-- A node that has been set has the value. -/
lemma get_set_of_zok (h : (s.set policy path v).2.rc = .zok) :
    (s.set policy path v).1.tree.get path = some (some v) := by
  rw [Server.set] at h ⊢
  cases hpolicy : policy s (.aset path v) with
  | some rc =>
      rw [hpolicy] at h
      exact absurd h rc.2.1
  | none =>
      rw [hpolicy] at h
      cases hset : s.tree.set path (some v) with
      | none => simp [hset] at h
      | some tree => exact (Tree.get_set hset path).trans (if_pos rfl)

/-- Others leave the node as it is. -/
lemma Elsewhere.get_eq (h : Elsewhere policy p s s') : s'.tree.get p = s.tree.get p := by
  refine h.invariant (I := fun t => t.tree.get p = s.tree.get p) rfl ?_
  intro t a u ht hspares hstep
  cases a with
  | create path value mode ttl =>
      obtain rfl := Option.some.inj hstep
      rw [get_create_ne hspares, ht]
  | set path v =>
      obtain rfl := Option.some.inj hstep
      rw [get_set_ne hspares, ht]
  | delete path =>
      obtain ⟨tree, htree, rfl⟩ := Option.map_eq_some_iff.mp hstep
      rw [Tree.get_delete htree, if_neg fun h => hspares h.symm, ht]

/-- A value has been written when OK is reported. -/
lemma Wrote.get (h : Wrote policy s path value s') (hvalid : isValidPath path false = true)
    (hfits : ∀ v, value = some v → v.length < 2 ^ 31) : s'.tree.get path = some value := by
  have hplain : ∀ mode : CreateMode, mode = .persistent ∨ mode = .ephemeral →
      mode.isSequence = false := by
    rintro mode (rfl | rfl) <;> rfl
  cases h with
  | @createPath _ d mode ttl _ newPath plain sent ok =>
      have hseq := hplain mode plain
      obtain rfl := Option.some.inj ((Buffer.sent_ofData hfits).symm.trans sent)
      have hspec := CreateAgree.specified_of_createPath (by rwa [hseq]) ok
      rw [← hspec.newPath_eq hseq]
      exact hspec.get_of_zok (by rwa [hseq])
  | @asyncCreatePath _ d mode ttl _ newPath plain sent ok =>
      have hseq := hplain mode plain
      obtain rfl := Option.some.inj ((Buffer.sent_ofData hfits).symm.trans sent)
      have hspec := CreateAgree.specified_of_asyncCreates (by rwa [hseq]) ok
      rw [← hspec.newPath_eq hseq]
      exact hspec.get_of_zok (by rwa [hseq])
  | @setPathValue v d _ sent ok =>
      have hd := Option.some.inj ((Buffer.sent_ofData hfits).symm.trans sent)
      obtain rfl := Option.some.inj hd
      rw [ReadBack.setPathValue] at ok
      split_ifs at ok
      · obtain ⟨rfl, hrc⟩ := Prod.mk.inj ok
        exact get_set_of_zok hrc
      · simp at ok
  | @asyncSetPathValue v d _ sent ok =>
      have hd := Option.some.inj ((Buffer.sent_ofData hfits).symm.trans sent)
      obtain rfl := Option.some.inj hd
      rw [ends_request_iff (r := s.set policy path v) (accepts_of_ends ok) rfl, Pending.complete,
        ends_done_iff] at ok
      obtain ⟨hresult, rfl⟩ := ok
      exact get_set_of_zok (Result.operated.inj hresult).symm

/-! ## What is read -/

lemma accepts_aget (hvalid : isValidPath path false = true) :
    usableHandle.accepts (.aget path) = true := by
  simp [Handle.accepts, usableHandle, hvalid]

/-- Two reads of the same value, of any length, give the value. -/
lemma getPathValue_of_get (hvalid : isValidPath path false = true)
    (h₁ : s₁.tree.get path = some value) (h₂ : s₂.tree.get path = some value) :
    getPathValue s₁ s₂ path = .returned .zok value := by
  rw [getPathValue, if_pos (accepts_aget hvalid), h₁, h₂, GetPathValue.answer]
  cases value with
  | none => exact GetPathValue.getPathValue_none
  | some v =>
      by_cases hv : v.length ≤ GetPathValue.size
      · exact GetPathValue.getPathValue_short hv
      · rw [GetPathValue.getPathValue_long (Nat.lt_of_not_le hv)]
        dsimp only
        rw [List.take_length]

lemma getPathValue_of_none (hvalid : isValidPath path false = true)
    (h : s₁.tree.get path = none) : getPathValue s₁ s₂ path = .returned .znonode none := by
  rw [getPathValue, if_pos (accepts_aget hvalid), h, GetPathValue.answer,
    GetPathValue.getPathValue_error]

/-- The completion is told what is at the node. -/
lemma asyncGets_iff (hvalid : isValidPath path false = true) {rc : ZooError} {val : Data} :
    AsyncGets policy s path rc val ↔
      rc = (s.getData path).rc ∧ val = (s.getData path).val := by
  rw [AsyncGets, ends_request_iff (r := (s, s.getData path)) (accepts_aget hvalid) rfl,
    Pending.complete, ends_done_iff]
  simp

/-- For every valid path: a value that has been written with OK, and not again since, is what both
readers report; and both report the same error and no value when there is no node. -/
theorem read_back (policy policy' : Policy) (path : Path)
    (hvalid : isValidPath path false = true) :
    (∀ value s s₁ s₂ s₃, (∀ v, value = some v → v.length < 2 ^ 31) →
      Wrote policy s path value s₁ → Elsewhere policy' path s₁ s₂ → Elsewhere policy' path s₂ s₃ →
      getPathValue s₂ s₃ path = .returned .zok value ∧ AsyncGets policy s₂ path .zok value) ∧
    ∀ s₂ s₃, s₂.tree.get path = none → Elsewhere policy' path s₂ s₃ →
      getPathValue s₂ s₃ path = .returned .znonode none ∧
        AsyncGets policy s₂ path .znonode none := by
  constructor
  · intro value s s₁ s₂ s₃ hfits hwrote h₂ h₃
    have hget₂ : s₂.tree.get path = some value := h₂.get_eq.trans (hwrote.get hvalid hfits)
    refine ⟨getPathValue_of_get hvalid hget₂ (h₃.get_eq.trans hget₂), ?_⟩
    rw [asyncGets_iff hvalid, Server.getData, hget₂]
    exact ⟨rfl, (Buffer.value_received value).symm⟩
  · intro s₂ s₃ hnone _
    refine ⟨getPathValue_of_none hvalid hnone, ?_⟩
    rw [asyncGets_iff hvalid, Server.getData, hnone]
    exact ⟨rfl, rfl⟩

/-- The empty value is not taken for an absent one. -/
theorem read_back_empty : ∃ s₁,
    getPathValue s₁ s₁ ['/', 'p'] = .returned .zok (some []) ∧
      AsyncGets (fun _ _ => none) s₁ ['/', 'p'] .zok (some []) := by
  have hcreate : (CreateAgree.createPath (fun _ _ => none) CreateAgree.emptyServer ['/', 'p']
      (some []) .ephemeral (-1)).map Prod.snd = some (.zok, ['/', 'p']) := by decide
  obtain ⟨⟨s₁, r⟩, hr, rfl⟩ := Option.map_eq_some_iff.mp hcreate
  exact ⟨s₁, (read_back (fun _ _ => none) (fun _ _ => none) ['/', 'p'] (by decide)).1 (some [])
    CreateAgree.emptyServer s₁ s₁ s₁ (by simp) (.createPath (Or.inr rfl) rfl hr) .refl .refl⟩

end ReadBack

end ConfigMonitor
