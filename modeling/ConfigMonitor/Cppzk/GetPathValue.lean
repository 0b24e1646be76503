/-
# `get_path_value`

The value is read into a buffer of `1024` bytes.  A longer value is read a second time, into a
buffer of the length that the first answer has told; what the node holds may have changed in
between.
-/
import ConfigMonitor.ZooKeeper.Session
import Mathlib.Tactic.Common

namespace ConfigMonitor

namespace GetPathValue

/-- An error code of a request that has failed. -/
abbrev Failure := { rc : ZooError // rc ≠ .zok }

/-- What `zoo_get` leaves behind: the code, the buffer, the length written to `*buffer_len`, and
`dataLength` of the stat. -/
structure Got where
  rc : ZooError
  buffer : Str
  len : ℤ
  dataLength : ℕ

/-- `zoo_get` with a buffer, answered from one snapshot of the node: it copies as much as fits,
and the length of absent data is `-1`. -/
def zooGet (answer : Except Failure Data) (buffer : Str) : Got :=
  match answer with
  | .error rc => { rc := rc, buffer := buffer, len := buffer.length, dataLength := 0 }
  | .ok none => { rc := .zok, buffer := buffer, len := -1, dataLength := 0 }
  | .ok (some v) =>
      { rc := .zok
        buffer := v.take buffer.length ++ buffer.drop (min v.length buffer.length)
        len := min v.length buffer.length
        dataLength := v.length }

/-- How a call ends: it returns a code and an optional value, or `std::string` throws
`std::length_error`. -/
inductive Outcome
  | returned (rc : ZooError) (val : Data)
  | lengthError
deriving DecidableEq, Repr

/-- `std::string{ ptr, (size_t)len }`, returned with `rc`; a negative length is beyond
`max_size()`. -/
def returnString (rc : ZooError) (ptr : Str) (len : ℤ) : Outcome :=
  if len < 0 then .lengthError else .returned rc (some (ptr.take len.toNat))

/-- The length of the buffer on the stack. -/
def size : ℕ := 1024

/-- `get_path_value`; `second` is the answer to the second read, if there is one. -/
def getPathValue (first second : Except Failure Data) : Outcome :=
  let got := zooGet first (List.replicate size '\x00')
  if got.rc ≠ .zok ∨ got.len = -1 then .returned got.rc none
  else
    let realLen := got.dataLength
    if realLen ≤ size then returnString got.rc got.buffer realLen
    else
      -- the buffer is not enough, the data is read again
      let got := zooGet second (List.replicate realLen '\x00')
      if got.rc ≠ .zok then .returned got.rc none
      else returnString got.rc got.buffer got.len

/-! ## Calls among the writes of other clients -/

/-- A call and what happens to the node meanwhile: the states of the node from the start to the
end of the call (`none` when it does not exist), at which of them the reads find it, and the
errors that the reads may end with instead. -/
structure Call where
  states : List (Option Data)
  first : ℕ
  second : ℕ
  first_le_second : first ≤ second
  second_lt : second < states.length
  firstFailure : Option Failure
  secondFailure : Option Failure

/-- The answer to a read. -/
def answer (state : Option Data) (failure : Option Failure) : Except Failure Data :=
  match failure, state with
  | some rc, _ => .error rc
  | none, none => .error ⟨.znonode, by decide⟩
  | none, some v => .ok v

namespace Call

variable (c : Call)

/-- What the first read finds. -/
def firstState : Option Data := c.states.get ⟨c.first, c.first_le_second.trans_lt c.second_lt⟩

/-- What the second read finds. -/
def secondState : Option Data := c.states.get ⟨c.second, c.second_lt⟩

/-- How the call ends. -/
def outcome : Outcome :=
  getPathValue (answer c.firstState c.firstFailure) (answer c.secondState c.secondFailure)

/-- A call that reports OK returns a value that the node has held during the call; and no call
ends with an exception. -/
def Sound : Prop :=
  match c.outcome with
  | .returned .zok val => some val ∈ c.states
  | .returned _ _ => True
  | .lengthError => False

/-- The first read finds a value that does not fit, and the second one an absent value, or a
longer value whose part that fits is not a value of the node. -/
def Misreads : Prop :=
  c.firstFailure = none ∧ c.secondFailure = none ∧
    ∃ v, c.firstState = some (some v) ∧ size < v.length ∧
      (c.secondState = some none ∨
        ∃ w, c.secondState = some (some w) ∧ v.length < w.length ∧
          some (some (w.take v.length)) ∉ c.states)

end Call

/-! ## What a call returns -/

variable {v w : Str} {rc : Failure} {second : Except Failure Data}

lemma zooGet_some (v : Str) (n : ℕ) : zooGet (.ok (some v)) (List.replicate n '\x00') =
    { rc := .zok
      buffer := v.take n ++ (List.replicate n '\x00').drop (min v.length n)
      len := min v.length n
      dataLength := v.length } := by
  rw [zooGet, List.length_replicate]

lemma getPathValue_error : getPathValue (.error rc) second = .returned rc none := by
  have hrc : rc.1 ≠ .zok := rc.2
  simp [getPathValue, zooGet, hrc]

lemma getPathValue_none : getPathValue (.ok none) second = .returned .zok none := by
  simp [getPathValue, zooGet]

/-- A value that fits is returned as it is. -/
lemma getPathValue_short (hv : v.length ≤ size) :
    getPathValue (.ok (some v)) second = .returned .zok (some v) := by
  rw [getPathValue, zooGet_some]
  dsimp only
  have hlen : ¬ (ZooError.zok ≠ .zok ∨ min (v.length : ℤ) size = -1) := by
    rintro (h | h)
    · exact h rfl
    · omega
  rw [if_neg hlen, if_pos hv, returnString, if_neg (by omega)]
  have htake : v.take size = v := List.take_of_length_le hv
  rw [htake, Int.toNat_natCast, List.take_left]

/-- A value that does not fit is not returned; what is returned is up to the second read. -/
lemma getPathValue_long (hv : size < v.length) :
    getPathValue (.ok (some v)) second =
      match second with
      | .error rc => .returned rc none
      | .ok none => .lengthError
      | .ok (some w) => .returned .zok (some (w.take v.length)) := by
  rw [getPathValue, zooGet_some]
  dsimp only
  have hlen : ¬ (ZooError.zok ≠ .zok ∨ min (v.length : ℤ) size = -1) := by
    rintro (h | h)
    · exact h rfl
    · omega
  rw [if_neg hlen, if_neg (by omega)]
  cases second with
  | error rc =>
      have hrc : rc.1 ≠ .zok := rc.2
      rw [zooGet]
      dsimp only
      rw [if_pos hrc]
  | ok val =>
      cases val with
      | none => simp [zooGet, returnString]
      | some w =>
          rw [zooGet_some]
          dsimp only
          rw [if_neg (by simp), returnString, if_neg (by omega)]
          congr 2
          rcases Nat.le_total w.length v.length with hle | hle
          · have hlen : (min (w.length : ℤ) v.length).toNat = w.length := by omega
            rw [hlen, List.take_of_length_le hle, min_eq_left hle, List.take_left]
          · have hlen : (min (w.length : ℤ) v.length).toNat = v.length := by omega
            rw [hlen, List.take_append_of_le_length (by simp [hle]), List.take_take, min_self]

namespace Call

variable (c : Call)

lemma firstState_mem : c.firstState ∈ c.states := List.get_mem ..

lemma secondState_mem : c.secondState ∈ c.states := List.get_mem ..

lemma sound_of_failure {rc : Failure} {val : Data} (h : c.outcome = .returned rc val) :
    c.Sound := by
  have hrc : rc.1 ≠ .zok := rc.2
  rw [Sound, h]
  split <;> simp_all

/-- A call whose first read finds no long value is sound: it ends with the first answer. -/
lemma sound_of_firstState
    (hfirst : ∀ v, c.firstFailure = none → c.firstState = some (some v) → v.length ≤ size) :
    c.Sound := by
  have hmem := c.firstState_mem
  cases hfail : c.firstFailure with
  | some rc => exact c.sound_of_failure (by rw [outcome, hfail, answer, getPathValue_error])
  | none =>
      cases hstate : c.firstState with
      | none =>
          exact c.sound_of_failure (by rw [outcome, hfail, hstate, answer, getPathValue_error])
      | some val =>
          rw [hstate] at hmem
          rw [Sound, outcome, hfail, hstate]
          cases val with
          | none => simpa [answer, getPathValue_none] using hmem
          | some v => simpa [answer, getPathValue_short (hfirst v hfail hstate)] using hmem

/-- What a call whose first read finds a long value ends with. -/
lemma outcome_long {v : Str} (hfail : c.firstFailure = none)
    (hstate : c.firstState = some (some v)) (hv : size < v.length) :
    c.outcome = match answer c.secondState c.secondFailure with
      | .error rc => .returned rc none
      | .ok none => .lengthError
      | .ok (some w) => .returned .zok (some (w.take v.length)) := by
  rw [outcome, hfail, hstate, answer, getPathValue_long hv]

/-- A call returns no value but those of the node, and no exception, if and only if its two reads
do not find a long value first and then an absent value or the beginning of a longer one. -/
theorem sound_iff : c.Sound ↔ ¬ c.Misreads := by
  by_cases hlong : ∃ v, c.firstFailure = none ∧ c.firstState = some (some v) ∧ size < v.length
  · obtain ⟨v, hfail, hstate, hv⟩ := hlong
    have hmem := c.secondState_mem
    -- the first read has found a value that does not fit: the second one decides
    have hmis : c.Misreads ↔ c.secondFailure = none ∧ (c.secondState = some none ∨
        ∃ w, c.secondState = some (some w) ∧ v.length < w.length ∧
          some (some (w.take v.length)) ∉ c.states) := by
      constructor
      · rintro ⟨-, hsecond, v', hv', -, h⟩
        obtain rfl : v = v' := by simpa [hstate] using hv'
        exact ⟨hsecond, h⟩
      · rintro ⟨hsecond, h⟩
        exact ⟨hfail, hsecond, v, hstate, hv, h⟩
    have hout := c.outcome_long hfail hstate hv
    rw [hmis]
    cases hsecond : c.secondFailure with
    | some rc =>
        rw [hsecond, answer] at hout
        exact iff_of_true (c.sound_of_failure hout) (by simp)
    | none =>
        rw [hsecond] at hout
        rw [Sound, hout]
        cases hval : c.secondState with
        | none => simp [answer]
        | some val =>
            rw [hval] at hmem
            cases val with
            | none => simp [answer]
            | some w =>
                simp only [answer]
                by_cases hle : w.length ≤ v.length
                · simp [List.take_of_length_le hle, hmem]
                · simp [Nat.lt_of_not_le hle]
  · -- the first read returns, and no second one is made
    have hmis : ¬ c.Misreads := by
      rintro ⟨hfail, -, v, hstate, hv, -⟩
      exact hlong ⟨v, hfail, hstate, hv⟩
    refine iff_of_true (c.sound_of_firstState fun v hfail hstate => ?_) hmis
    by_contra hv
    exact hlong ⟨v, hfail, hstate, Nat.lt_of_not_le hv⟩

end Call

/-- Every call is sound, whatever is written meanwhile. -/
def NeverInvents : Prop := ∀ c : Call, c.Sound

/-- `v` is read first, and `w` is written before the value is read again. -/
def overwritten (v w : Str) : Call where
  states := [some (some v), some (some w)]
  first := 0
  second := 1
  first_le_second := by simp
  second_lt := by simp
  firstFailure := none
  secondFailure := none

lemma not_sound_overwritten {v w : Str} (hv : size < v.length) (hw : v.length < w.length)
    (hne : w.take v.length ≠ v) : ¬ (overwritten v w).Sound := by
  intro hsound
  rw [Call.Sound, (overwritten v w).outcome_long rfl rfl hv] at hsound
  have hmem : some (some (w.take v.length)) ∈ (overwritten v w).states := hsound
  rw [overwritten, List.mem_cons, List.mem_singleton] at hmem
  rcases hmem with heq | heq <;> replace heq := Option.some.inj (Option.some.inj heq)
  · exact hne heq
  · have hlen := congrArg List.length heq
    rw [List.length_take] at hlen
    omega

theorem not_neverInvents : ¬ NeverInvents := by
  have hlen (n : ℕ) (x : Char) : (List.replicate n x).length = n := List.length_replicate
  rw [NeverInvents, not_forall]
  refine ⟨_, not_sound_overwritten (v := List.replicate 1025 'a') (w := List.replicate 1026 'b')
    ?_ ?_ ?_⟩
  · rw [hlen]
    simp [size]
  · rw [hlen, hlen]
    simp
  · rw [hlen, List.take_replicate]
    intro heq
    have hchar := (List.replicate_inj.mp heq).2
    exact absurd hchar (by decide)

end GetPathValue

end ConfigMonitor
