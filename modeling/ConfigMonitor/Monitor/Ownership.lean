/-
# Every object the session refers to is there

`World.Wf` relates the objects of the client to the session: the traces of each object form a
legal word, and whatever refers to an object finds it there, of the type and for the path the
code casts it to.  Every step keeps it, lost connections and removals included, so no watcher
and no completion is ever handed a dangling pointer while the session lasts.
-/
import ConfigMonitor.Monitor.Effect
import ConfigMonitor.Monitor.Tokens

namespace ConfigMonitor

open OneShot

namespace World

/-- The session refers to objects that are there and of the right type, each at one place. -/
structure Wf (w : World) : Prop where
  heap : w.client.HeapWf
  legal : ∀ x, Legal (w.tokens x)
  fresh : ∀ x, w.client.next ≤ x → w.tokens x = []
  sent : ∀ r ∈ w.client.sent,
    isValidPath r.path false = true ∧ w.client.Holds r.ctx (·.For r)
  reply : ∀ rep, Msg.reply rep ∈ w.inbox → w.client.Holds rep.req.ctx (·.For rep.req)
  armed : ∀ a ∈ w.armed, w.client.Holds a.ctx (·.ForWatch a.table a.path)
  event : ∀ eve q ctxs, Msg.event eve q ctxs ∈ w.inbox → ∀ x ∈ ctxs,
    ∃ tb ∈ eve.tables, w.client.Holds x (·.ForWatch tb q)

variable {w w' : World} {x : Ptr}

/-! ## References leave a token -/

lemma tokens_eq_nil_iff : w.tokens x = [] ↔
    (∀ m ∈ w.inbox, m.tokens x = []) ∧ (∀ a ∈ w.armed, a.ctx ≠ x) ∧
      ∀ r ∈ w.client.sent, r.ctx ≠ x := by
  have hwatch : w.armed.flatMap (Watch.tokens x) = [] ↔ ∀ a ∈ w.armed, a.ctx ≠ x := by
    rw [flatMap_watch_tokens]
    simp [List.replicate_eq_nil_iff, List.countP_eq_zero]
  rw [tokens, List.append_eq_nil_iff, List.append_eq_nil_iff, hwatch,
    flatMap_request_tokens_eq_nil, List.flatMap_eq_nil_iff]

lemma tokens_ne_nil_of_sent {r : Request} (hr : r ∈ w.client.sent) : w.tokens r.ctx ≠ [] :=
  fun h => (tokens_eq_nil_iff.mp h).2.2 r hr rfl

lemma tokens_ne_nil_of_armed {a : Watch} (ha : a ∈ w.armed) : w.tokens a.ctx ≠ [] :=
  fun h => (tokens_eq_nil_iff.mp h).2.1 a ha rfl

lemma tokens_ne_nil_of_reply {rep : Reply} (hm : Msg.reply rep ∈ w.inbox) :
    w.tokens rep.req.ctx ≠ [] := by
  intro h
  have := (tokens_eq_nil_iff.mp h).1 _ hm
  simp [Msg.tokens] at this

lemma tokens_ne_nil_of_event {eve : ZkEvent} {q : Path} {ctxs : List Ptr}
    (hm : Msg.event eve q ctxs ∈ w.inbox) (hx : x ∈ ctxs) : w.tokens x ≠ [] := by
  intro h
  have := (tokens_eq_nil_iff.mp h).1 _ hm
  rw [Msg.tokens, List.replicate_eq_nil_iff, List.count_eq_zero] at this
  exact this hx

/-- An object the session refers to has been allocated. -/
lemma Wf.lt_next (h : w.Wf) (hx : w.tokens x ≠ []) : x < w.client.next :=
  lt_of_not_ge fun hle => hx (h.fresh x hle)

/-! ## A handler runs -/

/-- A handler that is given objects the session no longer refers to. -/
lemma Wf.of_effect (h : w.Wf) {c' : Client} {X : List Ptr} (he : Client.Effect X w.client c')
    (hlt : ∀ x ∈ X, x < w.client.next) (hX : ∀ x ∈ X, w.tokens x = []) :
    ({ w with client := c' } : World).Wf := by
  obtain ⟨rs, hs, hnd, hrs⟩ := he.sent
  -- an object that is referred to is an old one, and not among those given up
  have hkeep : ∀ y P, w.tokens y ≠ [] → w.client.Holds y P → c'.Holds y P := by
    rintro y P hy ⟨d, hd, hP⟩
    exact ⟨d, by rw [he.heap_eq y (fun hyX => hy (hX y hyX)) (h.lt_next hy), hd], hP⟩
  have htok : ∀ y, ({ w with client := c' } : World).tokens y =
      w.tokens y ++ rs.flatMap (Request.tokens y) := by
    intro y
    simp only [tokens, hs, List.flatMap_append, List.append_assoc]
  -- an address that is referred to gets no second request
  have hold : ∀ y, w.tokens y ≠ [] → rs.flatMap (Request.tokens y) = [] := by
    intro y hy
    rw [flatMap_request_tokens_eq_nil]
    rintro r hr rfl
    rcases (hrs r hr).1 with hxX | ⟨hge, _⟩
    · exact hy (hX _ hxX)
    · exact hy (h.fresh _ hge)
  refine ⟨he.wf h.heap, fun y => ?_, fun y hy => ?_, fun r hr => ?_, fun rep hm => ?_,
    fun a ha => ?_, fun eve q ctxs hm y hy => ?_⟩
  · rw [htok]
    by_cases hy : w.tokens y = []
    · rw [hy, List.nil_append]
      rcases flatMap_request_tokens_of_nodup (x := y) hnd with h0 | h1
      · rw [h0]; exact legal_nil
      · rw [h1]; exact legal_request
    · rw [hold y hy, List.append_nil]
      exact h.legal y
  · rw [htok, h.fresh y (he.next_le.trans hy), List.nil_append,
      flatMap_request_tokens_eq_nil]
    rintro r hr rfl
    rcases (hrs r hr).1 with hxX | ⟨_, hlt'⟩
    · exact absurd hy (not_le.mpr (lt_of_lt_of_le (hlt _ hxX) he.next_le))
    · exact absurd hy (not_le.mpr hlt')
  · rw [hs] at hr
    rcases List.mem_append.mp hr with hr | hr
    · exact ⟨(h.sent r hr).1, hkeep _ _ (tokens_ne_nil_of_sent hr) (h.sent r hr).2⟩
    · exact (hrs r hr).2
  · exact hkeep _ _ (tokens_ne_nil_of_reply hm) (h.reply rep hm)
  · exact hkeep _ _ (tokens_ne_nil_of_armed ha) (h.armed a ha)
  · obtain ⟨tb, htb, hholds⟩ := h.event eve q ctxs hm y hy
    exact ⟨tb, htb, hkeep _ _ (tokens_ne_nil_of_event hm hy) hholds⟩

/-! ## Messages -/

/-- The oldest message is taken out of the queue. -/
lemma Wf.pop (h : w.Wf) {m : Msg} {ms : List Msg} (hin : w.inbox = m :: ms) :
    ({ w with inbox := ms } : World).Wf := by
  have hmem : ∀ m', m' ∈ ms → m' ∈ w.inbox := fun m' hm' => hin ▸ List.mem_cons_of_mem _ hm'
  have htok : ∀ x, w.tokens x = m.tokens x ++ ({ w with inbox := ms } : World).tokens x := by
    intro x
    simp only [tokens, hin, List.flatMap_cons, List.append_assoc]
  refine ⟨h.heap, fun x => ?_, fun x hx => ?_, h.sent, fun rep hm => h.reply rep (hmem _ hm),
    h.armed, fun eve q ctxs hm => h.event eve q ctxs (hmem _ hm)⟩
  · have hl := h.legal x
    rw [htok] at hl
    exact hl.of_append
  · exact (List.append_eq_nil_iff.mp (htok x ▸ h.fresh x hx)).2

/-- The objects a message gives to its handler are referred to nowhere else. -/
lemma Wf.tokens_pop (h : w.Wf) {m : Msg} {ms : List Msg} (hin : w.inbox = m :: ms)
    (hx : Token.refusal ∈ m.tokens x ∨ Token.notice ∈ m.tokens x) :
    ({ w with inbox := ms } : World).tokens x = [] ∧ (m.tokens x).count .notice ≤ 1 := by
  have hl := h.legal x
  rw [show w.tokens x = m.tokens x ++ ({ w with inbox := ms } : World).tokens x by
    simp only [tokens, hin, List.flatMap_cons, List.append_assoc]] at hl
  exact hl.of_final hx

lemma notice_mem_tokens {eve : ZkEvent} {q : Path} {ctxs : List Ptr} (hx : x ∈ ctxs) :
    Token.notice ∈ (Msg.event eve q ctxs).tokens x := by
  rw [Msg.tokens, List.mem_replicate]
  exact ⟨fun h0 => List.count_eq_zero.mp h0 hx, rfl⟩

/-- When its notification is handled, an object is referred to nowhere else. -/
lemma Wf.unreferenced (h : w.Wf) {eve : ZkEvent} {q : Path} {ctxs : List Ptr} {ms : List Msg}
    (hin : w.inbox = .event eve q ctxs :: ms) (hx : x ∈ ctxs) :
    (∀ m ∈ ms, m.tokens x = []) ∧ (∀ a ∈ w.armed, a.ctx ≠ x) ∧
      ∀ r ∈ w.client.sent, r.ctx ≠ x :=
  tokens_eq_nil_iff.mp (h.tokens_pop hin (Or.inr (notice_mem_tokens hx))).1

/-- No notification runs the watcher of one object twice. -/
lemma Wf.ctxs_nodup (h : w.Wf) {eve : ZkEvent} {q : Path} {ctxs : List Ptr} {ms : List Msg}
    (hin : w.inbox = .event eve q ctxs :: ms) : ctxs.Nodup := by
  rw [List.nodup_iff_count_le_one]
  intro x
  by_cases hx : x ∈ ctxs
  · have hle := (h.tokens_pop hin (Or.inr (notice_mem_tokens hx))).2
    rwa [Msg.tokens, List.count_replicate_self] at hle
  · rw [List.count_eq_zero.mpr hx]
    exact Nat.zero_le _

/-- A handler works on objects that the session refers to nowhere else. -/
lemma Wf.effect_process (h : w.Wf) {m : Msg} {ms : List Msg} (hin : w.inbox = m :: ms) :
    ∃ X, Client.Effect X w.client (w.client.process m) ∧
      ∀ x ∈ X, x < w.client.next ∧ ({ w with inbox := ms } : World).tokens x = [] := by
  have hm : m ∈ w.inbox := hin ▸ List.mem_cons_self
  cases m with
  | reply rep =>
      have hlt := h.lt_next (tokens_ne_nil_of_reply hm)
      refine ⟨_, Client.effect_onReply hlt (h.reply rep hm), fun x hx => ?_⟩
      split_ifs at hx with ht
      · simp at hx
      · obtain rfl := List.mem_singleton.mp hx
        have hr : (Msg.reply rep).tokens rep.req.ctx = [.refusal] := by
          rw [Msg.tokens, if_pos rfl, if_neg ht]
        exact ⟨hlt, (h.tokens_pop hin (Or.inl (by rw [hr]; simp))).1⟩
  | event eve q ctxs =>
      have hlt : ∀ x ∈ ctxs, x < w.client.next :=
        fun x hx => h.lt_next (tokens_ne_nil_of_event hm hx)
      exact ⟨ctxs, Client.effect_onEvent_foldl eve q ctxs (h.ctxs_nodup hin) hlt
        (h.event eve q ctxs hm), fun x hx =>
        ⟨hlt x hx, (h.tokens_pop hin (Or.inr (notice_mem_tokens hx))).1⟩⟩

/-- An object that is still referred to is left as it is. -/
lemma Wf.heap_process (h : w.Wf) {m : Msg} {ms : List Msg} (hin : w.inbox = m :: ms)
    (hx : ({ w with inbox := ms } : World).tokens x ≠ []) :
    (w.client.process m).heap x = w.client.heap x := by
  obtain ⟨X, heff, hX⟩ := h.effect_process hin
  exact heff.heap_eq x (fun hmem => hx (hX x hmem).2) ((h.pop hin).lt_next hx)

/-- A request in flight stays in flight while a message is handled. -/
lemma Wf.sent_subset_process (h : w.Wf) {m : Msg} {ms : List Msg} (hin : w.inbox = m :: ms) :
    w.client.sent ⊆ (w.client.process m).sent := by
  obtain ⟨X, heff, -⟩ := h.effect_process hin
  obtain ⟨rs, hrs, -⟩ := heff.sent
  exact hrs ▸ List.subset_append_left _ _

lemma Wf.deliver (h : w.Wf) (hs : w.deliver = some w') : w'.Wf := by
  obtain ⟨m, ms, hin, rfl⟩ := deliver_cases hs
  obtain ⟨X, heff, hX⟩ := h.effect_process hin
  exact (h.pop hin).of_effect heff (fun x hx => (hX x hx).1) fun x hx => (hX x hx).2

/-! ## The server -/

lemma Wf.setTree (h : w.Wf) (t : Tree) : ({ w with tree := t } : World).Wf :=
  ⟨h.heap, h.legal, h.fresh, h.sent, h.reply, h.armed, h.event⟩

/-- An event consumes the watches it fires. -/
lemma Wf.fire (h : w.Wf) (eve : ZkEvent) (q : Path) : (w.fire eve q).Wf := by
  rw [World.fire]
  cases hc : collectWatchers eve q w.armed with
  | nil => exact h
  | cons y ys =>
      set w₁ : World := { w with
        armed := w.armed.filter fun a => ¬ a.FiredBy eve q
        inbox := w.inbox ++ [.event eve q (y :: ys)] } with hw₁
      -- the tokens of an address split by whether the event fires its watch
      have htok : ∀ x, w₁.tokens x = w.inbox.flatMap (Msg.tokens x) ++
          (List.replicate (w.armed.countP fun a => decide (a.FiredBy eve q) && decide (a.ctx = x))
            .notice ++
          (List.replicate (w.armed.countP fun a => !decide (a.FiredBy eve q) && decide (a.ctx = x))
            .armed ++ w.client.sent.flatMap (Request.tokens x))) := by
        intro x
        -- the filter and the count differ in the order of the conjunction only
        have hnot : (w.armed.filter fun a => ¬ a.FiredBy eve q).countP (fun a => a.ctx = x) =
            w.armed.countP fun a => !decide (a.FiredBy eve q) && decide (a.ctx = x) := by
          rw [List.countP_filter]
          refine List.countP_congr fun a _ => ?_
          rw [decide_not, Bool.and_comm]
        simp only [hw₁, tokens, List.flatMap_append, List.flatMap_cons, List.flatMap_nil,
          Msg.tokens, List.append_nil, List.append_assoc, flatMap_watch_tokens]
        rw [← hc, count_collectWatchers, hnot]
      have hcount : ∀ x, w.armed.countP (fun a => decide (a.ctx = x)) =
          w.armed.countP (fun a => decide (a.FiredBy eve q) && decide (a.ctx = x)) +
          w.armed.countP (fun a => !decide (a.FiredBy eve q) && decide (a.ctx = x)) := by
        intro x
        rw [List.countP_eq_countP_filter_add w.armed _ fun a => decide (a.FiredBy eve q)]
        simp only [List.countP_filter]
        congr 1 <;> refine List.countP_congr fun a _ => ?_ <;> simp [and_comm]
      have hold : ∀ x, w.tokens x = w.inbox.flatMap (Msg.tokens x) ++
          (List.replicate (w.armed.countP fun a => decide (a.ctx = x)) .armed ++
            w.client.sent.flatMap (Request.tokens x)) := by
        intro x
        rw [tokens, flatMap_watch_tokens]
      refine ⟨h.heap, fun x => ?_, fun x hx => ?_, h.sent, fun rep hm => ?_, fun a ha => ?_,
        fun eve' q' ctxs hm x hx => ?_⟩
      · -- a watch that fires turns its token into a notice
        have hl := h.legal x
        rw [hold, hcount] at hl
        rw [htok]
        exact hl.fire_replicate
      · have hnil := h.fresh x hx
        rw [hold, hcount] at hnil
        rw [htok]
        simp at hnil ⊢
        tauto
      · refine h.reply rep ?_
        simpa [hw₁] using hm
      · exact h.armed a (List.mem_of_mem_filter ha)
      · rcases List.mem_append.mp hm with hm | hm
        · exact h.event eve' q' ctxs hm x hx
        · obtain ⟨rfl, rfl, rfl⟩ : eve' = eve ∧ q' = q ∧ ctxs = y :: ys := by simpa using hm
          rw [← hc] at hx
          obtain ⟨a, ha, ⟨htb, rfl⟩, rfl⟩ := mem_collectWatchers.mp hx
          exact ⟨a.table, htb, h.armed a ha⟩

/-- When its request is handled, an object is referred to nowhere else. -/
lemma Wf.alone_of_sent (h : w.Wf) {r : Request} {rs : List Request}
    (hsent : w.client.sent = r :: rs) :
    ({ w with client := { w.client with sent := rs } } : World).tokens r.ctx = [] := by
  have hl := h.legal r.ctx
  rw [tokens, hsent, List.flatMap_cons, Request.tokens, if_pos rfl, ← List.append_assoc,
    List.singleton_append] at hl
  obtain ⟨hA, hB⟩ := hl.of_request
  rw [tokens, ← List.append_assoc, hA]
  exact hB

/-- An answer arms the watch of its request or refuses it. -/
lemma Wf.serve (h : w.Wf) (hs : w.serve = some w') : w'.Wf := by
  obtain ⟨r, rs, hsent, rfl⟩ := serve_cases hs
  set rep := answer w.tree w.armed r with hrep
  have hreq : rep.req = r := answer_req _ _ _
  have hr : r ∈ w.client.sent := hsent ▸ List.mem_cons_self
  have htok : ∀ x, ({ w with
      armed := activate w.armed rep
      inbox := w.inbox ++ [.reply rep]
      client := { w.client with sent := rs } } : World).tokens x =
      w.inbox.flatMap (Msg.tokens x) ++ ((Msg.reply rep).tokens x ++
        ((activate w.armed rep).flatMap (Watch.tokens x) ++
          rs.flatMap (Request.tokens x))) := by
    intro x
    simp only [tokens, List.flatMap_append, List.flatMap_cons, List.flatMap_nil,
      List.append_nil, List.append_assoc]
  have hold : ∀ x, w.tokens x = w.inbox.flatMap (Msg.tokens x) ++
      (w.armed.flatMap (Watch.tokens x) ++
        (r.tokens x ++ rs.flatMap (Request.tokens x))) := by
    intro x
    rw [tokens, hsent, List.flatMap_cons]
  -- a request is the only reference to its object
  have hself : w.inbox.flatMap (Msg.tokens r.ctx) = [] ∧
      w.armed.flatMap (Watch.tokens r.ctx) = [] ∧
      rs.flatMap (Request.tokens r.ctx) = [] := by
    have halone := h.alone_of_sent hsent
    rwa [tokens, List.append_eq_nil_iff, List.append_eq_nil_iff] at halone
  -- the answer arms no watch for another object, but may drop some
  have hother : ∀ x, x ≠ r.ctx → ∃ k ≤ w.armed.countP (fun a => a.ctx = x),
      (activate w.armed rep).flatMap (Watch.tokens x) = List.replicate k .armed := by
    intro x hx
    refine ⟨_, ?_, flatMap_watch_tokens x _⟩
    cases htb : rep.table? with
    | some tb =>
        rw [activate_of_some htb, List.countP_append, List.countP_singleton, hreq]
        simp [Ne.symm hx]
    | none => exact (activate_sublist htb w.armed).countP_le
  refine ⟨h.heap, fun x => ?_, fun x hx => ?_, fun r' hr' => ?_, fun rep' hm => ?_,
    fun a ha => ?_, fun eve q ctxs hm => ?_⟩
  · -- the object of the request: its request becomes a reply and perhaps a watch
    rw [htok]
    by_cases hx : x = r.ctx
    · subst hx
      obtain ⟨hI, hA, hS⟩ := hself
      rw [hI, hS, Msg.tokens, if_pos (congrArg Request.ctx hreq)]
      cases htb : rep.table? with
      | some tb =>
          rw [activate_of_some htb, List.flatMap_append, hA, hreq]
          simp [Watch.tokens, Legal]
      | none =>
          have hnil : (activate w.armed rep).flatMap (Watch.tokens r.ctx) = [] := by
            rw [flatMap_watch_tokens] at hA ⊢
            rw [List.replicate_eq_nil_iff] at hA ⊢
            exact Nat.le_zero.mp (hA ▸ (activate_sublist htb w.armed).countP_le)
          rw [hnil]
          simp [Legal]
    · obtain ⟨k, hk, hact⟩ := hother x hx
      have hl := h.legal x
      rw [hold, flatMap_watch_tokens, Request.tokens, if_neg (Ne.symm hx)] at hl
      rw [Msg.tokens, hreq, if_neg (Ne.symm hx), hact]
      exact hl.drop_replicate hk
  · have hne : x ≠ r.ctx := by
      rintro rfl
      exact absurd (h.lt_next (tokens_ne_nil_of_sent hr)) (not_lt.mpr hx)
    obtain ⟨k, hk, hact⟩ := hother x hne
    have hnil := h.fresh x hx
    rw [hold, flatMap_watch_tokens, Request.tokens, if_neg (Ne.symm hne)] at hnil
    rw [htok, Msg.tokens, hreq, if_neg (Ne.symm hne), hact]
    simp only [List.append_eq_nil_iff, List.replicate_eq_nil_iff, List.nil_append]
      at hnil ⊢
    exact ⟨hnil.1, Nat.le_zero.mp (hnil.2.1 ▸ hk), hnil.2.2⟩
  · exact h.sent r' (hsent ▸ List.mem_cons_of_mem _ hr')
  · rcases List.mem_append.mp hm with hm | hm
    · exact h.reply rep' hm
    · obtain rfl : rep' = rep := by simpa using hm
      rw [hreq]
      exact (h.sent r hr).2
  · rcases mem_of_mem_activate ha with ha | ⟨tb, htb, rfl⟩
    · exact h.armed a ha
    · obtain ⟨d, hd, hfor⟩ := (h.sent r hr).2
      refine ⟨d, hreq ▸ hd, ?_⟩
      have hfor' : d.For rep.req := hreq.symm ▸ hfor
      exact hfor'.forWatch htb
  · exact h.event eve q ctxs (by simpa using hm)

/-! ## A lost connection -/

lemma mem_answered {r : Request} {ms : List Msg} :
    r ∈ answered ms ↔ ∃ rep, Msg.reply rep ∈ ms ∧ rep.req = r := by
  rw [answered, List.mem_filterMap]
  constructor
  · rintro ⟨m, hm, heq⟩
    cases m with
    | reply rep => exact ⟨rep, hm, Option.some.inj heq⟩
    | event eve q ctxs => simp at heq
  · rintro ⟨rep, hm, rfl⟩
    exact ⟨_, hm, rfl⟩

lemma restored_cons (c : Client) (gone : List Ptr) (m : Msg) (ms : List Msg) :
    restored c gone (m :: ms) = restored c gone [m] ++ restored c gone ms := by
  rw [restored, List.flatMap_cons, restored, List.flatMap_singleton]
  rfl

lemma mem_restored {c : Client} {gone : List Ptr} {ms : List Msg} {a : Watch} :
    a ∈ restored c gone ms ↔ ∃ eve q ctxs, Msg.event eve q ctxs ∈ ms ∧
      ∃ y ∈ ctxs, y ∉ gone ∧ a = ⟨tableOf c eve y, q, y⟩ := by
  rw [restored, List.mem_flatMap]
  constructor
  · rintro ⟨m, hm, ha⟩
    cases m with
    | reply rep => simp at ha
    | event eve q ctxs =>
        obtain ⟨y, hy, rfl⟩ := List.mem_map.mp ha
        rw [List.mem_filter, decide_eq_true_eq] at hy
        exact ⟨eve, q, ctxs, hm, y, hy.1, hy.2, rfl⟩
  · rintro ⟨eve, q, ctxs, hm, y, hy, hgone, rfl⟩
    refine ⟨_, hm, List.mem_map.mpr ⟨y, List.mem_filter.mpr ⟨hy, ?_⟩, rfl⟩⟩
    exact decide_eq_true hgone

/-- Every answer among the messages opens the word of its object. -/
lemma countP_opens_messages (x : Ptr) (ms : List Msg) :
    (ms.flatMap (Msg.tokens x)).countP Token.opens =
      (answered ms).countP fun r => r.ctx = x := by
  induction ms with
  | nil => rfl
  | cons m ms ih =>
      rw [List.flatMap_cons, List.countP_append, ih]
      cases m with
      | reply rep =>
          rw [show answered (.reply rep :: ms) = rep.req :: answered ms from rfl,
            List.countP_cons, Msg.tokens, Nat.add_comm]
          by_cases hx : rep.req.ctx = x
          · cases ht : rep.table?.isSome <;> simp [hx, Token.opens]
          · simp [hx]
      | event eve q ctxs =>
          rw [show answered (.event eve q ctxs :: ms) = answered ms from rfl, Msg.tokens,
            List.countP_replicate]
          simp [Token.opens]

/-- Without an answer for the object, each of its notices is for a watch that is restored. -/
lemma flatMap_tokens_of_restored (c : Client) {gone : List Ptr} (hx : x ∉ gone) {ms : List Msg}
    (hms : ∀ r ∈ answered ms, r.ctx ≠ x) : ms.flatMap (Msg.tokens x) =
      List.replicate ((restored c gone ms).countP fun a => a.ctx = x) .notice := by
  induction ms with
  | nil => rfl
  | cons m ms ih =>
      rw [restored, List.flatMap_cons, List.flatMap_cons, List.countP_append, List.replicate_add]
      have ih' := ih fun r hr => hms r (by
        obtain ⟨rep, hm, rfl⟩ := mem_answered.mp hr
        exact mem_answered.mpr ⟨rep, List.mem_cons_of_mem _ hm, rfl⟩)
      rw [ih']
      cases m with
      | reply rep =>
          have hne : rep.req.ctx ≠ x := hms _ (mem_answered.mpr ⟨rep, List.mem_cons_self, rfl⟩)
          rw [Msg.tokens, if_neg hne]
          rfl
      | event eve q ctxs =>
          have hcount : (ctxs.filter (· ∉ gone)).count x = ctxs.count x :=
            List.count_filter (by simpa using hx)
          rw [Msg.tokens, ← hcount, List.countP_map]
          rfl

lemma flatMap_failed {rc : ZooError} (hrc : rc.Fails) (x : Ptr) (rs : List Request) :
    (rs.map fun r => Msg.reply { req := r, rc := rc }).flatMap (Msg.tokens x) =
      List.replicate (rs.countP fun r => r.ctx = x) .refusal := by
  induction rs with
  | nil => rfl
  | cons r rs ih =>
      have hnone : (Reply.table? { req := r, rc := rc }).isSome = false := by
        rw [Reply.table?, hrc r.op]
        split_ifs <;> rfl
      rw [List.map_cons, List.flatMap_cons, ih, List.countP_cons, Msg.tokens, hnone]
      by_cases hx : r.ctx = x
      · simp [hx, List.replicate_succ]
      · simp [hx]

lemma fails_zconnectionloss : ZooError.zconnectionloss.Fails := fun op => by cases op <;> rfl

lemma loss_cases {n : ℕ} {order : List Watch} (hs : w.loss n order = some w') :
    ∃ kept lost, kept ++ lost = w.inbox ∧ lost = w.inbox.drop n ∧
      (∀ r ∈ answered lost ++ w.client.sent, ∀ type, r.op ≠ .removeWatchesOp type) ∧
      order.Perm (restored w.client ((answered lost).map Request.ctx) lost) ∧
      w' = order.foldl setAgain (w.failed kept lost .zconnectionloss) := by
  rw [World.loss] at hs
  split_ifs at hs with hcond
  rw [not_or, not_not] at hcond
  obtain ⟨hrem, horder⟩ := hcond
  refine ⟨w.inbox.take n, w.inbox.drop n, List.take_append_drop n w.inbox, rfl, ?_, horder,
    (Option.some.inj hs).symm⟩
  intro r hr type hop
  exact hrem (List.any_eq_true.mpr ⟨r, hr, by rw [hop]⟩)

lemma loss_of_append {kept lost : List Msg} {order : List Watch} (hin : kept ++ lost = w.inbox)
    (hrem : ∀ r ∈ answered lost ++ w.client.sent, ∀ type, r.op ≠ .removeWatchesOp type)
    (horder : order.Perm (restored w.client ((answered lost).map Request.ctx) lost)) :
    w.loss kept.length order =
      some (order.foldl setAgain (w.failed kept lost .zconnectionloss)) := by
  rw [World.loss]
  rw [← hin, List.take_left, List.drop_left, if_neg]
  rintro (hany | hperm)
  · obtain ⟨r, hr, hop⟩ := List.any_eq_true.mp hany
    cases hr' : r.op with
    | removeWatchesOp type => exact hrem r hr type hr'
    | existsOp | getDataOp | getChildrenOp => simp [hr'] at hop
  · exact hperm horder

/-- What an event keeps is kept when watches are set again. -/
lemma setAgain_invariant {P : World → Prop} (hfire : ∀ w eve q, P w → P (w.fire eve q))
    (order : List Watch) (h : P w) : P (order.foldl setAgain w) := by
  induction order generalizing w with
  | nil => exact h
  | cons a order ih =>
      refine ih ?_
      rw [setAgain]
      split
      · exact hfire _ _ _ h
      · exact h

/-- A lost connection empties the queue of requests and leaves the rest of the client alone. -/
lemma client_loss {n : ℕ} {order : List Watch} (hs : w.loss n order = some w') :
    w'.client = { w.client with sent := [] } := by
  obtain ⟨kept, lost, -, -, -, -, rfl⟩ := loss_cases hs
  exact setAgain_invariant (P := fun w' => w'.client = { w.client with sent := [] })
    (fun w' eve q h => (client_fire w' eve q).trans h) order rfl

/-- A request that fails leaves a refusal and nothing else; a notice that is lost is an armed watch
again. -/
lemma Wf.tokens_failed (h : w.Wf) {kept lost : List Msg} (hin : kept ++ lost = w.inbox)
    {rc : ZooError} (hrc : rc.Fails) (x : Ptr) : Legal ((w.failed kept lost rc).tokens x) ∧
      (w.tokens x = [] → (w.failed kept lost rc).tokens x = []) := by
  set gone := (answered lost).map Request.ctx with hgone
  set back := restored w.client gone lost with hback
  have hl := h.legal x
  have hold : w.tokens x = kept.flatMap (Msg.tokens x) ++
      (lost.flatMap (Msg.tokens x) ++ (w.armed.flatMap (Watch.tokens x) ++
        w.client.sent.flatMap (Request.tokens x))) := by
    rw [tokens, ← hin, List.flatMap_append, List.append_assoc]
  have hnew : (w.failed kept lost rc).tokens x = kept.flatMap (Msg.tokens x) ++
      (List.replicate ((answered lost ++ w.client.sent).countP fun r => r.ctx = x) .refusal ++
        ((w.armed.filter fun a => a.ctx ∉ gone).flatMap (Watch.tokens x) ++
          back.flatMap (Watch.tokens x))) := by
    simp only [failed, tokens, List.flatMap_append, flatMap_failed hrc, List.flatMap_nil,
      List.append_nil, List.append_assoc]
    rfl
  -- each request is a token that opens, answered or not
  have hopens : (lost.flatMap (Msg.tokens x) ++ (w.armed.flatMap (Watch.tokens x) ++
      w.client.sent.flatMap (Request.tokens x))).countP Token.opens =
      (answered lost ++ w.client.sent).countP fun r => r.ctx = x := by
    rw [List.countP_append, List.countP_append, countP_opens_messages, flatMap_watch_tokens,
      flatMap_request_tokens, List.countP_replicate, List.countP_replicate, List.countP_append]
    simp [Token.opens]
  have hgmem : x ∈ gone ↔ 0 < (answered lost).countP fun r => r.ctx = x := by
    rw [List.countP_pos_iff, hgone, List.mem_map]
    simp
  have harmed : x ∉ gone → (w.armed.filter fun a => a.ctx ∉ gone).flatMap (Watch.tokens x) =
      w.armed.flatMap (Watch.tokens x) := by
    intro hx
    rw [flatMap_watch_tokens, flatMap_watch_tokens, List.countP_filter]
    refine congrArg (List.replicate · _) (List.countP_congr fun a _ => ?_)
    simp only [Bool.and_eq_true, decide_eq_true_eq, and_iff_left_iff_imp]
    rintro rfl
    exact hx
  have hlost : x ∉ gone → lost.flatMap (Msg.tokens x) =
      List.replicate (back.countP fun a => a.ctx = x) .notice := fun hx =>
    flatMap_tokens_of_restored w.client hx fun r hr hrx => hx (hrx ▸ List.mem_map_of_mem hr)
  -- either a request for the object is among those that fail, or its notices are undone
  by_cases hfail : 0 < (answered lost ++ w.client.sent).countP fun r => r.ctx = x
  · have hsplit := h.legal x
    rw [hold] at hsplit
    obtain ⟨hkept, hone⟩ := hsplit.of_opens (hopens ▸ hfail)
    refine ⟨?_, fun h0 => ?_⟩
    · have hrest : (w.armed.filter fun a => a.ctx ∉ gone).flatMap (Watch.tokens x) = [] ∧
          back.flatMap (Watch.tokens x) = [] := by
        by_cases hx : x ∈ gone
        · constructor <;>
            rw [flatMap_watch_tokens, List.replicate_eq_nil_iff, List.countP_eq_zero] <;>
            intro a ha hax <;> simp only [decide_eq_true_eq] at hax
          · rw [List.mem_filter, decide_eq_true_eq] at ha
            exact ha.2 (hax ▸ hx)
          · obtain ⟨_, _, _, _, y, _, hy, rfl⟩ := mem_restored.mp ha
            obtain rfl : y = x := hax
            exact hy hx
        · -- the request had not been answered: there is no other trace of its object
          obtain ⟨k, hk⟩ : ∃ k, (w.client.sent.countP fun r => r.ctx = x) = k + 1 := by
            rw [List.countP_append, Nat.eq_zero_of_not_pos (mt hgmem.mpr hx), Nat.zero_add]
              at hfail
            exact ⟨_, (Nat.succ_pred_eq_of_pos hfail).symm⟩
          rw [hold, hkept, flatMap_request_tokens, hk, List.replicate_succ, List.nil_append,
            ← List.append_assoc] at hl
          obtain ⟨hL, hA⟩ := List.append_eq_nil_iff.mp hl.of_request.1
          refine ⟨(harmed hx).trans hA, ?_⟩
          rw [hlost hx, List.replicate_eq_nil_iff] at hL
          rw [flatMap_watch_tokens, hL]
          rfl
      rw [hnew, hkept, hrest.1, hrest.2, ← hopens, hone]
      decide
    · rw [hold] at h0
      rw [(List.append_eq_nil_iff.mp h0).2] at hone
      simp at hone
  · have hzero := Nat.eq_zero_of_not_pos hfail
    have hboth := hzero
    rw [List.countP_append, Nat.add_eq_zero_iff] at hboth
    have hx : x ∉ gone := fun hx => absurd (hgmem.mp hx) (by rw [hboth.1]; simp)
    rw [hold, hlost hx, flatMap_request_tokens, hboth.2, flatMap_watch_tokens] at hl ⊢
    rw [hnew, hzero, harmed hx, flatMap_watch_tokens, flatMap_watch_tokens]
    simp only [List.replicate_zero, List.append_nil, List.nil_append, ← List.replicate_add] at hl ⊢
    refine ⟨hl.rearm_replicate, fun h0 => ?_⟩
    simp only [List.append_eq_nil_iff, List.replicate_eq_nil_iff] at h0 ⊢
    exact ⟨h0.1, by omega⟩

/-- The object of a watch that is restored is what its watcher expects. -/
lemma forWatch_tableOf {c : Client} {q : Path} {tb : Table} (eve : ZkEvent)
    (h : c.Holds x (·.ForWatch tb q)) :
    c.Holds x (·.ForWatch (tableOf c eve x) q) := by
  obtain ⟨d, hd, hfor⟩ := h
  refine ⟨d, hd, ?_⟩
  rw [tableOf, hd]
  cases d with
  | existsData d =>
      refine ⟨?_, hfor.2⟩
      dsimp only
      split_ifs <;> simp
  | wget d => exact ⟨rfl, hfor.2⟩
  | getChildren d => exact ⟨rfl, hfor.2⟩
  | operate cb | removeChain cb subs => exact absurd hfor id

lemma Wf.failed (h : w.Wf) {kept lost : List Msg} (hin : kept ++ lost = w.inbox)
    {rc : ZooError} (hrc : rc.Fails) : (w.failed kept lost rc).Wf := by
  have htok := h.tokens_failed hin hrc
  have hkm : ∀ m ∈ kept, m ∈ w.inbox := fun m hm => hin ▸ List.mem_append_left _ hm
  have hlm : ∀ m ∈ lost, m ∈ w.inbox := fun m hm => hin ▸ List.mem_append_right _ hm
  refine ⟨h.heap, fun x => (htok x).1, fun x hx => (htok x).2 (h.fresh x hx),
    by simp [World.failed], fun rep hm => ?_, fun a ha => ?_, fun eve q ctxs hm x hx => ?_⟩
  · rcases List.mem_append.mp hm with hm | hm
    · exact h.reply rep (hkm _ hm)
    · obtain ⟨r, hr, heq⟩ := List.mem_map.mp hm
      obtain rfl := Msg.reply.inj heq
      rcases List.mem_append.mp hr with hr | hr
      · obtain ⟨rep, hrep, rfl⟩ := mem_answered.mp hr
        exact h.reply rep (hlm _ hrep)
      · exact (h.sent r hr).2
  · rcases List.mem_append.mp ha with ha | ha
    · exact h.armed a (List.mem_of_mem_filter ha)
    · obtain ⟨eve, q, ctxs, hm, y, hy, -, rfl⟩ := mem_restored.mp ha
      obtain ⟨tb, -, hholds⟩ := h.event eve q ctxs (hlm _ hm) y hy
      exact forWatch_tableOf eve hholds
  · rcases List.mem_append.mp hm with hm | hm
    · exact h.event eve q ctxs (hkm _ hm) x hx
    · simp at hm

lemma Wf.loss (h : w.Wf) {n : ℕ} {order : List Watch} (hs : w.loss n order = some w') :
    w'.Wf := by
  obtain ⟨kept, lost, hin, -, -, -, rfl⟩ := loss_cases hs
  exact setAgain_invariant (fun w eve q hw => hw.fire eve q) order
    (h.failed hin fails_zconnectionloss)

/-- The session is over: nothing is armed, nothing more is sent, and only the first messages
arrive. -/
lemma Wf.cut (h : w.Wf) (ms : List Msg) {rest : List Msg} (hin : ms ++ rest = w.inbox)
    (t : Tree) :
    ({ tree := t, armed := [], inbox := ms, client := { w.client with sent := [] } } :
      World).Wf := by
  have htok : ∀ x, w.tokens x =
      ({ tree := t, armed := [], inbox := ms, client := { w.client with sent := [] } } :
        World).tokens x ++ (rest.flatMap (Msg.tokens x) ++
          (w.armed.flatMap (Watch.tokens x) ++ w.client.sent.flatMap (Request.tokens x))) := by
    intro x
    simp [tokens, ← hin]
  have hmem : ∀ m ∈ ms, m ∈ w.inbox := fun m hm => hin ▸ List.mem_append_left _ hm
  refine ⟨h.heap, fun x => ?_, fun x hx => ?_, by simp, fun rep hm => h.reply rep (hmem _ hm),
    by simp, fun eve q ctxs hm => h.event eve q ctxs (hmem _ hm)⟩
  · have hl := h.legal x
    rw [htok] at hl
    exact hl.of_append_left
  · exact (List.append_eq_nil_iff.mp (htok x ▸ h.fresh x hx)).1

/-! ## Every run -/

lemma Wf.create {q : Path} {v : Data} (h : w.Wf) (hs : w.create q v = some w') : w'.Wf := by
  obtain ⟨t, -, rfl⟩ := Option.map_eq_some_iff.mp hs
  exact ((h.setTree t).fire _ _).fire _ _

lemma Wf.set {q : Path} {v : Data} (h : w.Wf) (hs : w.set q v = some w') : w'.Wf := by
  obtain ⟨t, -, rfl⟩ := Option.map_eq_some_iff.mp hs
  exact (h.setTree t).fire _ _

lemma Wf.delete {q : Path} (h : w.Wf) (hs : w.delete q = some w') : w'.Wf := by
  obtain ⟨t, -, rfl⟩ := Option.map_eq_some_iff.mp hs
  exact ((h.setTree t).fire _ _).fire _ _

/-- A call made by the user is given no object. -/
lemma Wf.of_call (h : w.Wf) {c' : Client} (he : Client.Effect [] w.client c') :
    ({ w with client := c' } : World).Wf :=
  h.of_effect he (by simp) (by simp)

theorem Wf.step (h : w.Wf) {a : Action} (hs : w.step a = some w') : w'.Wf := by
  cases a with
  | create q v => exact h.create hs
  | set q v => exact h.set hs
  | delete q => exact h.delete hs
  | watchPath p cb => exact Option.some.inj hs ▸ h.of_call (Client.effect_watchPath _ p cb)
  | watchSubPath p cb => exact Option.some.inj hs ▸ h.of_call (Client.effect_watchSubPath _ p cb)
  | asyncRemoveWatches p type cb =>
      exact Option.some.inj hs ▸ h.of_call (Client.effect_asyncRemoveWatches _ p type cb)
  | serve => exact h.serve hs
  | deliver => exact h.deliver hs
  | loss n order => exact h.loss hs

lemma wf_start (t : Tree) : (start t).Wf := by
  refine ⟨?_, fun x => legal_nil, fun x _ => rfl, ?_, ?_, ?_, ?_⟩
  · intro x d hx
    simp [start, Client.init] at hx
  all_goals simp [start, Client.init]

/-- In every reachable state whatever the session refers to is there. -/
theorem wf_of_reach {t : Tree} {ok : World → Action → Prop} (h : Run.Reach step ok (start t) w) :
    w.Wf :=
  h.invariant (wf_start t) fun _ _ _ hwf _ hs => hwf.step hs

end World

end ConfigMonitor
