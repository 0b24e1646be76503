/-
# The traces of a userdata object in the session

The tokens of an object are its traces in the messages to the client, the armed watches and
the requests to the server, in this order.  In every reachable state they form a legal word:
the library holds each object at one place only.
-/
import ConfigMonitor.Monitor.World
import ConfigMonitor.Lib.OneShot

namespace ConfigMonitor

open OneShot

/-- The token of `x` in a request. -/
def Request.tokens (x : Ptr) (r : Request) : List Token :=
  if r.ctx = x then [.request] else []

/-- The tokens of `x` in a message. -/
def Msg.tokens (x : Ptr) : Msg → List Token
  | .reply rep =>
      if rep.req.ctx = x then [if rep.table?.isSome then .reply else .refusal] else []
  | .event _ _ ctxs => List.replicate (ctxs.count x) .notice

/-- The token of `x` in an armed watch. -/
def Watch.tokens (x : Ptr) (a : Watch) : List Token :=
  if a.ctx = x then [.armed] else []

namespace World

/-- The tokens of `x` in the session. -/
def tokens (w : World) (x : Ptr) : List Token :=
  w.inbox.flatMap (Msg.tokens x) ++
    (w.armed.flatMap (Watch.tokens x) ++ w.client.sent.flatMap (Request.tokens x))

end World

lemma flatMap_watch_tokens (x : Ptr) (l : List Watch) :
    l.flatMap (Watch.tokens x) = List.replicate (l.countP fun a => a.ctx = x) .armed := by
  induction l with
  | nil => rfl
  | cons a l ih =>
      rw [List.flatMap_cons, ih, List.countP_cons, Watch.tokens]
      by_cases h : a.ctx = x
      · simp [h, List.replicate_succ]
      · simp [h]

lemma flatMap_request_tokens (x : Ptr) (l : List Request) :
    l.flatMap (Request.tokens x) = List.replicate (l.countP fun r => r.ctx = x) .request := by
  induction l with
  | nil => rfl
  | cons a l ih =>
      rw [List.flatMap_cons, ih, List.countP_cons, Request.tokens]
      by_cases h : a.ctx = x
      · simp [h, List.replicate_succ]
      · simp [h]

lemma flatMap_request_tokens_eq_nil {x : Ptr} {l : List Request} :
    l.flatMap (Request.tokens x) = [] ↔ ∀ r ∈ l, r.ctx ≠ x := by
  rw [flatMap_request_tokens]
  simp [List.replicate_eq_nil_iff, List.countP_eq_zero]

/-- The requests of pairwise distinct objects leave at most one token of each. -/
lemma flatMap_request_tokens_of_nodup {x : Ptr} {l : List Request}
    (h : (l.map Request.ctx).Nodup) :
    l.flatMap (Request.tokens x) = [] ∨ l.flatMap (Request.tokens x) = [.request] := by
  have hcount : (l.map Request.ctx).count x = l.countP fun r => r.ctx = x := by
    rw [List.count, List.countP_map]
    rfl
  have hle := List.nodup_iff_count_le_one.mp h x
  rw [hcount] at hle
  rw [flatMap_request_tokens]
  rcases Nat.le_one_iff_eq_zero_or_eq_one.mp hle with h0 | h1
  · exact Or.inl (by rw [h0]; rfl)
  · exact Or.inr (by rw [h1]; rfl)

lemma count_filter_map_ctx (p : Watch → Bool) (armed : List Watch) (x : Ptr) :
    ((armed.filter p).map Watch.ctx).count x =
      armed.countP fun a => p a && decide (a.ctx = x) := by
  rw [List.count, List.countP_map, List.countP_filter]
  refine List.countP_congr fun a _ => ?_
  simp [and_comm]

/-- An event collects each watcher once for each of its watches that the event fires. -/
lemma count_collectWatchers (eve : ZkEvent) (q : Path) (armed : List Watch) (x : Ptr) :
    (collectWatchers eve q armed).count x =
      armed.countP fun a => decide (a.FiredBy eve q) && decide (a.ctx = x) := by
  cases eve <;>
    simp only [collectWatchers, ZkEvent.tables, List.flatMap_cons, List.flatMap_nil,
      List.count_append, List.count_nil, count_filter_map_ctx]
  all_goals
    induction armed with
    | nil => rfl
    | cons a armed ih =>
        simp only [List.countP_cons] at ih ⊢
        rcases a with ⟨tb, path, ctx⟩
        cases tb <;> by_cases hq : path = q <;> by_cases hx : ctx = x <;>
          simp [Watch.FiredBy, ZkEvent.tables, hq, hx] at ih ⊢ <;> omega

end ConfigMonitor
