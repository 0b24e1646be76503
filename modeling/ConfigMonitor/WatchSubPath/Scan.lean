/-
# Reading the messages about one child

Whether a read of a child is started depends on the set of children known from the last
listing, whether it is repeated depends on the notifications of the child.  The two are brought
together by reading the messages on their way with a small automaton, one for each child: it
knows whether the child is in the set, and whether an object of the child is live (`Phase`).
-/
import ConfigMonitor.Monitor.Tokens

namespace ConfigMonitor

namespace WatchSubPath

/-! ## Messages about a child -/

/-- The listing that a message carries. -/
def listing? : Msg → Option (List Str)
  | .reply rep =>
      if rep.req.op = .getChildrenOp ∧ rep.rc = .zok then some rep.strings else none
  | .event .. => none

/-- Is `s` in the set once the messages have been handled? -/
def knownAfter (s : Str) : Bool → List Msg → Bool
  | known, [] => known
  | known, m :: ms =>
      match listing? m with
      | some subPaths => knownAfter s (decide (s ∈ subPaths)) ms
      | none => knownAfter s known ms

/-- Will the messages start a read of `s`? -/
def startsRead (s : Str) : Bool → List Msg → Bool
  | _, [] => false
  | known, m :: ms =>
      match listing? m with
      | some subPaths =>
          (!known && decide (s ∈ subPaths)) || startsRead s (decide (s ∈ subPaths)) ms
      | none => startsRead s known ms

/-- The message is a notification after which the node at `q` is read again. -/
def Rereads (q : Path) : Msg → Prop
  | .event eve q' _ => q' = q ∧ eve ≠ .deleted
  | .reply _ => False

instance (q : Path) : DecidablePred (Rereads q)
  | .event eve q' _ => inferInstanceAs (Decidable (q' = q ∧ eve ≠ .deleted))
  | .reply _ => instDecidableFalse

/-! ## The automaton -/

/-- What is live of a child: nothing, the object at `x`, or an object that a listing on its way
is going to make. -/
inductive Phase
  | idle
  | busy (x : Ptr)
  | starting
deriving DecidableEq

/-- One message. -/
def scan1 (q : Path) (s : Str) (known : Bool) (ph : Phase) : Msg → Option (Bool × Phase)
  | .reply rep =>
      if rep.req.op = .getChildrenOp then
        if rep.rc = .zok then
          if s ∈ rep.strings then
            if known then some (true, ph)
            else if ph = .idle then some (true, .starting) else none
          else some (false, ph)
        else some (known, ph)
      else if rep.req.op = .getDataOp ∧ rep.req.path = q then
        if ph = .busy rep.req.ctx then some (known, if rep.rc = .zok then ph else .idle)
        else none
      else some (known, ph)
  | .event eve q' ctxs =>
      if q' = q then
        if ctxs.map Phase.busy = [ph] then some (known, if eve = .deleted then .idle else ph)
        else none
      else some (known, ph)

/-- The messages of a queue, oldest first. -/
def scan (q : Path) (s : Str) : Bool → Phase → List Msg → Option (Bool × Phase)
  | known, ph, [] => some (known, ph)
  | known, ph, m :: ms => (scan1 q s known ph m).bind fun a => scan q s a.1 a.2 ms

variable {q : Path} {s : Str} {known known' : Bool} {ph ph' : Phase} {m : Msg} {ms : List Msg}
  {x : Ptr}

lemma scan_cons_eq_some {b : Bool × Phase} : scan q s known ph (m :: ms) = some b ↔
    ∃ a, scan1 q s known ph m = some a ∧ scan q s a.1 a.2 ms = some b := by
  rw [scan, Option.bind_eq_some_iff]

lemma scan_append_singleton (h : scan q s known ph ms = some (known', ph')) :
    scan q s known ph (ms ++ [m]) = scan1 q s known' ph' m := by
  induction ms generalizing known ph with
  | nil =>
      obtain ⟨rfl, rfl⟩ : known = known' ∧ ph = ph' := by simpa [scan] using h
      rw [List.nil_append, scan]
      cases scan1 q s known ph m <;> simp [scan]
  | cons m' ms ih =>
      obtain ⟨a, ha, hrest⟩ := scan_cons_eq_some.mp h
      rw [List.cons_append, scan, ha, Option.bind_some]
      exact ih hrest

/-- The message is an answer to a read of `q` by the object `x`, or a notification for it. -/
def AboutObj (q : Path) (x : Ptr) : Msg → Prop
  | .reply rep => rep.req.op = .getDataOp ∧ rep.req.path = q ∧ rep.req.ctx = x
  | .event _ q' ctxs => q' = q ∧ x ∈ ctxs

lemma AboutObj.tokens_ne_nil (h : AboutObj q x m) : m.tokens x ≠ [] := by
  cases m with
  | reply rep =>
      rw [Msg.tokens, if_pos h.2.2]
      simp
  | event eve q' ctxs =>
      rw [Msg.tokens, Ne, List.replicate_eq_nil_iff, List.count_eq_zero]
      exact fun hno => hno h.2

lemma map_busy_eq {ctxs : List Ptr} : ctxs.map Phase.busy = [ph] ↔
    ∃ x, ctxs = [x] ∧ ph = .busy x := by
  rw [List.map_eq_singleton_iff]
  constructor
  · rintro ⟨x, rfl, rfl⟩
    exact ⟨x, rfl, rfl⟩
  · rintro ⟨x, rfl, rfl⟩
    exact ⟨x, rfl, rfl⟩

/-- All messages about a child are for the object that is live at the start. -/
lemma scan1_aboutObj {b : Bool × Phase} (h : scan1 q s known ph m = some b)
    (hm : AboutObj q x m) : ph = .busy x := by
  cases m with
  | reply rep =>
      obtain ⟨hop, hpath, rfl⟩ := hm
      by_contra hph
      rw [scan1, if_neg (by rw [hop]; simp), if_pos ⟨hop, hpath⟩, if_neg hph] at h
      simp at h
  | event eve q' ctxs =>
      obtain ⟨rfl, hx⟩ := hm
      rw [scan1, if_pos rfl] at h
      split_ifs at h with hph
      all_goals
        obtain ⟨y, rfl, rfl⟩ := map_busy_eq.mp hph
        rw [List.mem_singleton.mp hx]

/-- The automaton gives up the live object only when a message about it arrives, and becomes
busy with no other. -/
lemma scan1_phase {b : Bool × Phase} (h : scan1 q s known ph m = some b) :
    (ph = .busy x → b.2 = .busy x ∨ AboutObj q x m) ∧ (b.2 = .busy x → ph = .busy x) := by
  cases m with
  | reply rep =>
      rw [scan1] at h
      split_ifs at h <;> obtain rfl := Option.some.inj h <;> simp_all [AboutObj]
  | event eve q' ctxs =>
      rw [scan1] at h
      split_ifs at h with hq hph hdel
      · obtain ⟨y, rfl, rfl⟩ := map_busy_eq.mp hph
        obtain rfl := Option.some.inj h
        refine ⟨fun hy => Or.inr ⟨hq, ?_⟩, by simp⟩
        rw [Phase.busy.inj hy]
        exact List.mem_singleton.mpr rfl
      · obtain rfl := Option.some.inj h
        exact ⟨Or.inl, id⟩
      · obtain rfl := Option.some.inj h
        exact ⟨Or.inl, id⟩

lemma scan_aboutObj {b : Bool × Phase} (h : scan q s known ph ms = some b) (hm : m ∈ ms)
    (hx : AboutObj q x m) : ph = .busy x := by
  induction ms generalizing known ph with
  | nil => simp at hm
  | cons m' ms ih =>
      obtain ⟨a, ha, hrest⟩ := scan_cons_eq_some.mp h
      rcases List.mem_cons.mp hm with rfl | hm
      · exact scan1_aboutObj ha hx
      · exact (scan1_phase ha).2 (ih hrest hm)

lemma scan_phase {b : Bool × Phase} (h : scan q s known ph ms = some b) :
    (ph = .busy x → b.2 = .busy x ∨ ∃ m ∈ ms, AboutObj q x m) ∧
      (b.2 = .busy x → ph = .busy x) := by
  induction ms generalizing known ph with
  | nil =>
      obtain rfl := Option.some.inj h
      exact ⟨Or.inl, id⟩
  | cons m ms ih =>
      obtain ⟨a, ha, hrest⟩ := scan_cons_eq_some.mp h
      obtain ⟨hgive, hbusy⟩ := ih hrest
      refine ⟨fun hph => ?_, fun hb => (scan1_phase ha).2 (hbusy hb)⟩
      rcases (scan1_phase ha).1 hph with ha' | hm
      · rcases hgive ha' with hb | ⟨m', hm', habout⟩
        · exact Or.inl hb
        · exact Or.inr ⟨m', List.mem_cons_of_mem _ hm', habout⟩
      · exact Or.inr ⟨m, List.mem_cons_self, hm⟩

/-- A read that is going to be started is not taken back, and the messages before it would let
the automaton pass in any phase that no message is about. -/
lemma scan_starting {b : Bool × Phase} (ph : Phase) (h : scan q s known .starting ms = some b)
    (hph : ph ≠ .idle) : b.2 = .starting ∧ scan q s known ph ms = some (b.1, ph) := by
  induction ms generalizing known with
  | nil =>
      obtain rfl := Option.some.inj h
      exact ⟨rfl, rfl⟩
  | cons m ms ih =>
      obtain ⟨a, ha, hrest⟩ := scan_cons_eq_some.mp h
      have hstep : a.2 = .starting ∧ scan1 q s known ph m = some (a.1, ph) := by
        cases m with
        | reply rep =>
            rw [scan1] at ha ⊢
            split_ifs at ha ⊢ <;> simp_all
            all_goals
              obtain rfl := ha
              simp
        | event eve q' ctxs =>
            rw [scan1] at ha ⊢
            by_cases hq : q' = q
            · rw [if_pos hq, if_neg fun hmap => by
                obtain ⟨y, -, hy⟩ := map_busy_eq.mp hmap
                simp at hy] at ha
              simp at ha
            · rw [if_neg hq] at ha ⊢
              obtain rfl := Option.some.inj ha
              exact ⟨rfl, rfl⟩
      obtain ⟨a1, a2⟩ := a
      obtain ⟨rfl, hs⟩ := hstep
      obtain ⟨hb, hscan⟩ := ih hrest
      refine ⟨hb, ?_⟩
      rw [scan, hs, Option.bind_some]
      exact hscan

/-- The automaton follows the set of known children. -/
lemma scan_known {b : Bool × Phase} (h : scan q s known ph ms = some b) :
    b.1 = knownAfter s known ms := by
  induction ms generalizing known ph with
  | nil =>
      obtain rfl := Option.some.inj h
      rfl
  | cons m ms ih =>
      obtain ⟨a, ha, hrest⟩ := scan_cons_eq_some.mp h
      rw [ih hrest, knownAfter]
      cases m with
      | reply rep =>
          rw [scan1] at ha
          rw [listing?]
          split_ifs at ha <;> obtain rfl := Option.some.inj ha <;> simp_all
      | event eve q' ctxs =>
          rw [scan1] at ha
          rw [listing?]
          split_ifs at ha <;> obtain rfl := Option.some.inj ha <;> rfl

/-- When a read is going to be started at the end, one of the messages starts it. -/
lemma startsRead_of_scan {b : Bool × Phase} (h : scan q s known ph ms = some b)
    (hph : ph ≠ .starting) (hb : b.2 = .starting) : startsRead s known ms = true := by
  induction ms generalizing known ph with
  | nil =>
      obtain rfl := Option.some.inj h
      exact absurd hb hph
  | cons m ms ih =>
      obtain ⟨a, ha, hrest⟩ := scan_cons_eq_some.mp h
      rw [startsRead]
      cases m with
      | reply rep =>
          rw [scan1] at ha
          rw [listing?]
          have hne : a.2 ≠ .starting → startsRead s a.1 ms = true := ih hrest
          split_ifs at ha <;> obtain rfl := Option.some.inj ha <;> simp_all
      | event eve q' ctxs =>
          rw [scan1] at ha
          rw [listing?]
          have hne : a.2 ≠ .starting → startsRead s a.1 ms = true := ih hrest
          split_ifs at ha <;> obtain rfl := Option.some.inj ha <;> simp_all

end WatchSubPath

end ConfigMonitor
