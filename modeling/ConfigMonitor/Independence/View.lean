/-
# What is seen of a session from some of its subscriptions

A `View` singles out some of the callbacks of the user, and with them the paths whose entries
of `last_sub_path_` they work on.  The objects made for these callbacks get new addresses, the
ones they would have if nothing else had been allocated; a naming `nm` says which.  What is
left of the requests, the watches and the messages is what refers to a named object.
-/
import ConfigMonitor.Monitor.Truthful

namespace ConfigMonitor

/-- Some of the subscriptions of a monitor. -/
structure View where
  mine : Cb → Bool
  side : Path → Bool

/-! ## Whom an object belongs to -/

/-- The callback of the user behind an `exists_callback`. -/
def ExistsCallback.cb : ExistsCallback → Cb
  | .watchPath cb _ | .watchSubPath cb _ => cb

/-- The callback of the user behind a `get_callback`. -/
def GetCallback.cb : GetCallback → Cb
  | .watchPath cb _ | .monitor cb _ => cb

/-- The callback of the user behind a `get_children_callback`. -/
def ChildrenCallback.cb : ChildrenCallback → Cb
  | .watchSubPath cb _ => cb
  | .removeWatches cb _ => cb.cb

/-- The callback of the user behind an object. -/
def Userdata.cb : Userdata → Cb
  | .existsData d => d.cb.cb
  | .wget d => d.cb.cb
  | .getChildren d => d.cb.cb
  | .operate cb | .removeChain cb _ => cb.cb

namespace View

variable (V : View)

/-- A removal of another subscription leaves the entries of the view alone. -/
def Spares (cb : OperateCallback) : Prop :=
  V.mine cb.cb = false → cb.type = .watchSubPath → V.side cb.p = false

/-- The object works on an entry of `last_sub_path_` of its own side only. -/
def Fits : Userdata → Prop
  | .existsData { cb := .watchSubPath cb pfx, eve := _ } => V.mine cb = V.side pfx
  | .getChildren { cb := .watchSubPath cb pfx, path := _, advanced := _ } =>
      V.mine cb = V.side pfx
  | .getChildren { cb := .removeWatches cb _, path := _, advanced := _ } => V.Spares cb
  | .operate cb | .removeChain cb _ => V.Spares cb
  | _ => True

end View

/-! ## What is left of the session -/

/-- The request, if it is for a named object. -/
def Request.seen (nm : Ptr → Option Ptr) (r : Request) : Option Request :=
  (nm r.ctx).map fun y => { r with ctx := y }

/-- The watch, if it is for a named object. -/
def Watch.seen (nm : Ptr → Option Ptr) (a : Watch) : Option Watch :=
  (nm a.ctx).map fun y => { a with ctx := y }

/-- The message, if it is for a named object; the other watchers of a notification are left
out. -/
def Msg.seen (nm : Ptr → Option Ptr) : Msg → Option Msg
  | .reply rep => (rep.req.seen nm).map fun r => .reply { rep with req := r }
  | .event eve q ctxs =>
      match ctxs.filterMap nm with
      | [] => none
      | y :: ys => some (.event eve q (y :: ys))

namespace Client

variable {V : View} {nm nm' : Ptr → Option Ptr} {c c' c₁ c₁' : Client} {x y : Ptr}
  {d : Userdata}

/-- `c₁` is what the view sees of `c`. -/
structure Seen (V : View) (nm : Ptr → Option Ptr) (c c₁ : Client) : Prop where
  sent : c₁.sent = c.sent.filterMap (Request.seen nm)
  sent_lt : ∀ r ∈ c.sent, r.ctx < c.next
  heap : ∀ x y, nm x = some y → c₁.heap y = c.heap x
  lt : ∀ x y, nm x = some y → x < c.next ∧ y < c₁.next
  inj : ∀ x x' y, nm x = some y → nm x' = some y → x = x'
  obj : ∀ x d, c.heap x = some d → V.Fits d ∧ V.mine d.cb = (nm x).isSome
  releaser : ∀ x y, nm x = some y → (y ∈ c₁.releaser ↔ x ∈ c.releaser)
  releaser_lt : (∀ x ∈ c.releaser, x < c.next) ∧ ∀ y ∈ c₁.releaser, y < c₁.next
  lastSubPath : ∀ p, V.side p = true → c₁.lastSubPath.lookup p = c.lastSubPath.lookup p
  calls : c₁.calls = c.calls.filter fun k => V.mine k.cb

lemma Seen.nm_next (h : Seen V nm c c₁) : nm c.next = none := by
  rw [← Option.not_isSome_iff_eq_none]
  intro hsome
  obtain ⟨y, hy⟩ := Option.isSome_iff_exists.mp hsome
  exact absurd (h.lt _ y hy).1 (lt_irrefl _)

/-! ## Requests -/

lemma seen_of_none {r : Request} (hr : nm r.ctx = none) : r.seen nm = none := by
  rw [Request.seen, hr, Option.map_none]

lemma seen_of_some {r : Request} (hr : nm r.ctx = some y) :
    r.seen nm = some { r with ctx := y } := by
  rw [Request.seen, hr, Option.map_some]

/-- A request of the view is sent by both. -/
lemma Seen.send (h : Seen V nm c c₁) {r : Request} (hr : nm r.ctx = some y) :
    Seen V nm (c.send r) (c₁.send { r with ctx := y }) := by
  by_cases hv : isValidPath r.path false = true
  · rw [Client.send, Client.send, if_pos hv, if_pos hv]
    refine { h with sent := ?_, sent_lt := ?_ }
    · rw [List.filterMap_append, h.sent]
      simp [seen_of_some hr]
    · intro r' hr'
      rcases List.mem_append.mp hr' with hr' | hr'
      · exact h.sent_lt r' hr'
      · rw [List.mem_singleton.mp hr']
        exact (h.lt _ y hr).1
  · rw [Client.send, Client.send, if_neg hv, if_neg hv]
    exact h

/-- A request of another subscription is not seen. -/
lemma Seen.send_other (h : Seen V nm c c₁) {r : Request} (hr : nm r.ctx = none)
    (hlt : r.ctx < c.next) : Seen V nm (c.send r) c₁ := by
  rw [Client.send]
  split_ifs
  · refine { h with sent := ?_, sent_lt := ?_ }
    · rw [List.filterMap_append, h.sent]
      simp [seen_of_none hr]
    · intro r' hr'
      rcases List.mem_append.mp hr' with hr' | hr'
      · exact h.sent_lt r' hr'
      · rw [List.mem_singleton.mp hr']
        exact hlt
  · exact h

/-! ## Objects -/

/-- A new object of the view gets the next address in both. -/
lemma Seen.alloc (h : Seen V nm c c₁) (hd : V.mine d.cb = true) (hfit : V.Fits d) :
    Seen V (Function.update nm c.next (some c₁.next)) (c.alloc d) (c₁.alloc d) := by
  have hold : ∀ x, x < c.next → Function.update nm c.next (some c₁.next) x = nm x :=
    fun x hx => Function.update_of_ne (Nat.ne_of_lt hx) _ _
  refine ⟨?_, fun r hr => Nat.lt_succ_of_lt (h.sent_lt r hr), ?_, ?_, ?_, ?_, ?_, ?_,
    h.lastSubPath, h.calls⟩
  · -- the requests in flight are for older objects
    refine h.sent.trans (List.filterMap_congr fun r hr => ?_)
    rw [Request.seen, Request.seen, hold _ (h.sent_lt r hr)]
  · intro x y hxy
    rw [heap_alloc, heap_alloc]
    by_cases hx : x = c.next
    · subst hx
      obtain rfl : c₁.next = y := by simpa using hxy
      simp
    · rw [Function.update_of_ne hx] at hxy ⊢
      rw [Function.update_of_ne (Nat.ne_of_lt (h.lt x y hxy).2)]
      exact h.heap x y hxy
  · intro x y hxy
    by_cases hx : x = c.next
    · subst hx
      obtain rfl : c₁.next = y := by simpa using hxy
      exact ⟨Nat.lt_succ_self _, Nat.lt_succ_self _⟩
    · rw [Function.update_of_ne hx] at hxy
      exact ⟨Nat.lt_succ_of_lt (h.lt x y hxy).1, Nat.lt_succ_of_lt (h.lt x y hxy).2⟩
  · -- the new address is the name of nothing else
    intro x x' y hx hx'
    by_cases hxn : x = c.next <;> by_cases hxn' : x' = c.next
    · rw [hxn, hxn']
    · rw [Function.update_of_ne hxn'] at hx'
      obtain rfl : c₁.next = y := by simpa [hxn] using hx
      exact absurd (h.lt x' _ hx').2 (lt_irrefl _)
    · rw [Function.update_of_ne hxn] at hx
      obtain rfl : c₁.next = y := by simpa [hxn'] using hx'
      exact absurd (h.lt x _ hx).2 (lt_irrefl _)
    · rw [Function.update_of_ne hxn] at hx
      rw [Function.update_of_ne hxn'] at hx'
      exact h.inj x x' y hx hx'
  · intro x d' hx
    rw [heap_alloc] at hx
    by_cases hxn : x = c.next
    · subst hxn
      obtain rfl : d = d' := by simpa using hx
      exact ⟨hfit, by simp [hd]⟩
    · rw [Function.update_of_ne hxn] at hx ⊢
      exact h.obj x d' hx
  · intro x y hxy
    by_cases hx : x = c.next
    · subst hx
      obtain rfl : c₁.next = y := by simpa using hxy
      exact iff_of_false (fun hy => absurd (h.releaser_lt.2 _ hy) (lt_irrefl _))
        (fun hx => absurd (h.releaser_lt.1 _ hx) (lt_irrefl _))
    · rw [Function.update_of_ne hx] at hxy
      exact h.releaser x y hxy
  · exact ⟨fun x hx => Nat.lt_succ_of_lt (h.releaser_lt.1 x hx),
      fun y hy => Nat.lt_succ_of_lt (h.releaser_lt.2 y hy)⟩

/-- A new object of another subscription is not seen. -/
lemma Seen.alloc_other (h : Seen V nm c c₁) (hd : V.mine d.cb = false) (hfit : V.Fits d) :
    Seen V nm (c.alloc d) c₁ := by
  have hne : ∀ x y, nm x = some y → x ≠ c.next := fun x y hxy => Nat.ne_of_lt (h.lt x y hxy).1
  refine { h with
    sent_lt := fun r hr => Nat.lt_succ_of_lt (h.sent_lt r hr)
    heap := fun x y hxy => ?_
    lt := fun x y hxy => ⟨Nat.lt_succ_of_lt (h.lt x y hxy).1, (h.lt x y hxy).2⟩
    obj := fun x d' hx => ?_
    releaser_lt := ⟨fun x hx => Nat.lt_succ_of_lt (h.releaser_lt.1 x hx), h.releaser_lt.2⟩ }
  · rw [heap_alloc, Function.update_of_ne (hne x y hxy)]
    exact h.heap x y hxy
  · rw [heap_alloc] at hx
    by_cases hxn : x = c.next
    · subst hxn
      obtain rfl : d = d' := by simpa using hx
      exact ⟨hfit, by rw [hd, h.nm_next]; rfl⟩
    · rw [Function.update_of_ne hxn] at hx
      exact h.obj x d' hx

/-- An object of the view is rewritten in both, or destroyed in both. -/
lemma Seen.update (h : Seen V nm c c₁) {o : Option Userdata} (hx : nm x = some y)
    (ho : ∀ d, o = some d → V.Fits d ∧ V.mine d.cb = true) :
    Seen V nm { c with heap := Function.update c.heap x o }
      { c₁ with heap := Function.update c₁.heap y o } := by
  refine { h with heap := fun x' y' hxy => ?_, obj := fun x' d' hx' => ?_ }
  · by_cases hxx : x' = x
    · subst hxx
      obtain rfl : y = y' := Option.some.inj (hx.symm.trans hxy)
      simp
    · have hyy : y' ≠ y := by
        rintro rfl
        exact hxx (h.inj x' x y' hxy hx)
      dsimp only
      rw [Function.update_of_ne hxx, Function.update_of_ne hyy]
      exact h.heap x' y' hxy
  · dsimp only at hx'
    by_cases hxx : x' = x
    · subst hxx
      rw [Function.update_self] at hx'
      exact ⟨(ho d' hx').1, by rw [hx, (ho d' hx').2]; rfl⟩
    · rw [Function.update_of_ne hxx] at hx'
      exact h.obj x' d' hx'

/-- An object of another subscription may be rewritten or destroyed. -/
lemma Seen.update_other (h : Seen V nm c c₁) {o : Option Userdata} (hx : nm x = none)
    (ho : ∀ d, o = some d → V.Fits d ∧ V.mine d.cb = false) :
    Seen V nm { c with heap := Function.update c.heap x o } c₁ := by
  have hne : ∀ x' y', nm x' = some y' → x' ≠ x := by
    rintro x' y' hxy rfl
    rw [hx] at hxy
    exact absurd hxy (by simp)
  refine { h with heap := fun x' y' hxy => ?_, obj := fun x' d' hx' => ?_ }
  · dsimp only
    rw [Function.update_of_ne (hne x' y' hxy)]
    exact h.heap x' y' hxy
  · dsimp only at hx'
    by_cases hxx : x' = x
    · subst hxx
      rw [Function.update_self] at hx'
      exact ⟨(ho d' hx').1, by rw [hx, (ho d' hx').2]; rfl⟩
    · rw [Function.update_of_ne hxx] at hx'
      exact h.obj x' d' hx'

lemma Seen.store (h : Seen V nm c c₁) (hx : nm x = some y) (hfit : V.Fits d)
    (hd : V.mine d.cb = true) : Seen V nm (c.store x d) (c₁.store y d) :=
  h.update hx fun _ heq => Option.some.inj heq ▸ ⟨hfit, hd⟩

lemma Seen.store_other (h : Seen V nm c c₁) (hx : nm x = none) (hfit : V.Fits d)
    (hd : V.mine d.cb = false) : Seen V nm (c.store x d) c₁ :=
  h.update_other hx fun _ heq => Option.some.inj heq ▸ ⟨hfit, hd⟩

lemma Seen.free (h : Seen V nm c c₁) (hx : nm x = some y) : Seen V nm (c.free x) (c₁.free y) :=
  h.update hx (by simp)

lemma Seen.free_other (h : Seen V nm c c₁) (hx : nm x = none) : Seen V nm (c.free x) c₁ :=
  h.update_other hx (by simp)

/-! ## Members -/

lemma Seen.emplace (h : Seen V nm c c₁) (hx : nm x = some y) :
    Seen V nm (c.emplace x) (c₁.emplace y) := by
  refine { h with releaser := fun x' y' hxy => ?_, releaser_lt := ⟨fun x' hx' => ?_,
    fun y' hy' => ?_⟩ }
  · rw [releaser_emplace, releaser_emplace, List.mem_append, List.mem_append,
      List.mem_singleton, List.mem_singleton, h.releaser x' y' hxy]
    refine or_congr_right ⟨?_, ?_⟩
    · rintro rfl
      exact h.inj x' x y' hxy hx
    · rintro rfl
      exact Option.some.inj (hxy.symm.trans hx)
  · rcases List.mem_append.mp hx' with hx' | hx'
    · exact h.releaser_lt.1 x' hx'
    · exact List.mem_singleton.mp hx' ▸ (h.lt x y hx).1
  · rcases List.mem_append.mp hy' with hy' | hy'
    · exact h.releaser_lt.2 y' hy'
    · exact List.mem_singleton.mp hy' ▸ (h.lt x y hx).2

lemma Seen.emplace_other (h : Seen V nm c c₁) (hx : nm x = none) (hlt : x < c.next) :
    Seen V nm (c.emplace x) c₁ := by
  refine { h with releaser := fun x' y' hxy => ?_, releaser_lt := ⟨fun x' hx' => ?_,
    h.releaser_lt.2⟩ }
  · rw [releaser_emplace, List.mem_append, List.mem_singleton, h.releaser x' y' hxy]
    refine ⟨Or.inl, fun hor => hor.elim id ?_⟩
    rintro rfl
    rw [hx] at hxy
    exact absurd hxy (by simp)
  · rcases List.mem_append.mp hx' with hx' | hx'
    · exact h.releaser_lt.1 x' hx'
    · exact List.mem_singleton.mp hx' ▸ hlt

lemma Seen.release (h : Seen V nm c c₁) (hx : nm x = some y) :
    Seen V nm (c.release x) (c₁.release y) := by
  by_cases hmem : x ∈ c.releaser
  · rw [Client.release, Client.release, if_pos hmem, if_pos ((h.releaser x y hx).mpr hmem)]
    have hupd := h.update (o := none) hx (by simp)
    refine { hupd with releaser := fun x' y' hxy => ?_, releaser_lt := ⟨fun x' hx' => ?_,
      fun y' hy' => ?_⟩ }
    · dsimp only
      rw [List.mem_filter, List.mem_filter, h.releaser x' y' hxy]
      refine and_congr_right fun _ => ?_
      simp only [ne_eq, decide_eq_true_eq]
      refine not_congr ⟨?_, ?_⟩
      · rintro rfl
        exact h.inj x' x y' hxy hx
      · rintro rfl
        exact Option.some.inj (hxy.symm.trans hx)
    · exact h.releaser_lt.1 x' (List.mem_of_mem_filter hx')
    · exact h.releaser_lt.2 y' (List.mem_of_mem_filter hy')
  · rw [Client.release, Client.release, if_neg hmem, if_neg (mt (h.releaser x y hx).mp hmem)]
    exact h

lemma Seen.release_other (h : Seen V nm c c₁) (hx : nm x = none) :
    Seen V nm (c.release x) c₁ := by
  rw [Client.release]
  split_ifs
  · have hupd := h.update_other (o := none) hx (by simp)
    refine { hupd with releaser := fun x' y' hxy => ?_, releaser_lt := ⟨fun x' hx' => ?_,
      h.releaser_lt.2⟩ }
    · dsimp only
      rw [List.mem_filter, h.releaser x' y' hxy]
      refine ⟨fun hx' => ⟨hx', ?_⟩, fun hx' => hx'.1⟩
      simp only [ne_eq, decide_eq_true_eq]
      rintro rfl
      rw [hx] at hxy
      exact absurd hxy (by simp)
    · exact h.releaser_lt.1 x' (List.mem_of_mem_filter hx')
  · exact h

lemma Seen.call (h : Seen V nm c c₁) (k : Call) :
    Seen V nm (c.call k) (if V.mine k.cb = true then c₁.call k else c₁) := by
  split_ifs with hk
  · exact { h with calls := by simp [h.calls, hk] }
  · exact { h with calls := by simp [h.calls, hk] }

/-- A listing of the view is recorded in both; one of another subscription is not looked at. -/
lemma Seen.insertLast (h : Seen V nm c c₁) (p : Path) (l : List Str) :
    Seen V nm { c with lastSubPath := c.lastSubPath.insert p l }
      (if V.side p = true then { c₁ with lastSubPath := c₁.lastSubPath.insert p l } else c₁) := by
  split_ifs with hp
  · refine { h with lastSubPath := fun p' hp' => ?_ }
    dsimp only
    by_cases hpp : p' = p
    · rw [hpp, AList.lookup_insert, AList.lookup_insert]
    · rw [AList.lookup_insert_ne hpp, AList.lookup_insert_ne hpp, h.lastSubPath p' hp']
  · refine { h with lastSubPath := fun p' hp' => ?_ }
    dsimp only
    rw [AList.lookup_insert_ne (by rintro rfl; exact hp hp'), h.lastSubPath p' hp']

lemma Seen.eraseLast (h : Seen V nm c c₁) (p : Path) :
    Seen V nm { c with lastSubPath := c.lastSubPath.erase p }
      { c₁ with lastSubPath := c₁.lastSubPath.erase p } := by
  refine { h with lastSubPath := fun p' hp' => ?_ }
  dsimp only
  by_cases hpp : p' = p
  · rw [hpp, AList.lookup_erase, AList.lookup_erase]
  · rw [AList.lookup_erase_ne hpp, AList.lookup_erase_ne hpp, h.lastSubPath p' hp']

/-- An entry of another subscription is not looked at. -/
lemma Seen.eraseLast_other (h : Seen V nm c c₁) {p : Path} (hp : V.side p = false) :
    Seen V nm { c with lastSubPath := c.lastSubPath.erase p } c₁ := by
  refine { h with lastSubPath := fun p' hp' => ?_ }
  dsimp only
  rw [AList.lookup_erase_ne (by rintro rfl; rw [hp] at hp'; exact absurd hp' (by simp)),
    h.lastSubPath p' hp']

end Client

end ConfigMonitor
