/-
# The watch records and the expiry handler

`init` installs a handler that opens a new session when the old one has expired: it takes both
record maps in one critical section and calls `watch_path` and `watch_sub_path` for the entries
it took, each of which enters the map again in a critical section of its own.  The calls of the
user and the removals that are completed fall anywhere in between.

A map of records is a table whose entries are taken out and written back, so that what becomes
of an entry follows from `LastWriter.Lawful.entry_eq_lastWrite_iff`.
-/
import ConfigMonitor.Monitor.Callbacks
import ConfigMonitor.Lib.LastWriter

namespace ConfigMonitor

open LastWriter Run

/-- The members of `config_monitor` that are guarded by `record_mtx_`, and `last_sub_path_`. -/
structure Records where
  lastSubPath : UMap (List Str)
  watchRecord : UMap Cb
  watchSubRecord : UMap Cb

namespace Records

/-- The record maps of a new `config_monitor`. -/
def init : Records := { lastSubPath := ∅, watchRecord := ∅, watchSubRecord := ∅ }

/-- The critical section of `watch_path` and `watch_sub_path`. -/
def watch (r : Records) (type : WatchType) (path : Path) (callback : Cb) : Records :=
  match type with
  | .watchPath => { r with watchRecord := r.watchRecord.insert path callback }
  | .watchSubPath => { r with watchSubRecord := r.watchSubRecord.insert path callback }

/-- What the completion of `async_remove_watches` does to the maps. -/
def erase (r : Records) (type : WatchType) (path : Path) : Records :=
  match type with
  | .watchPath => { r with watchRecord := r.watchRecord.erase path }
  | .watchSubPath =>
      { r with
        lastSubPath := r.lastSubPath.erase path
        watchSubRecord := r.watchSubRecord.erase path }

/-- The callback recorded for a path. -/
def lookup (r : Records) (type : WatchType) (path : Path) : Option Cb :=
  match type with
  | .watchPath => r.watchRecord.lookup path
  | .watchSubPath => r.watchSubRecord.lookup path

end Records

namespace Client

variable (c : Client) (path : Path) (cb : Cb)

/-- The maps of a client. -/
def records (c : Client) : Records :=
  { lastSubPath := c.lastSubPath, watchRecord := c.watchRecord,
    watchSubRecord := c.watchSubRecord }

lemma records_watchPathEvent (cb : ExistsCallback) :
    (c.watchPathEvent path cb).records = c.records := by
  rw [watchPathEvent, zooAwexists, send]
  split_ifs <;> rfl

lemma records_watchPath : (c.watchPath path cb).records = c.records.watch .watchPath path cb :=
  records_watchPathEvent _ _ _

lemma records_watchSubPath :
    (c.watchSubPath path cb).records = c.records.watch .watchSubPath path cb :=
  records_watchPathEvent _ _ _

lemma records_runOperate (cb : OperateCallback) (rc : ZooError) :
    (c.runOperate cb rc).records = c.records.erase cb.type cb.p := by
  rw [runOperate]
  cases cb.type <;> rfl

end Client

namespace Expiry

/-- How far the handler is: not running, in one of the steps before the maps are taken, or in
its two loops, with the entries that are still to be watched. -/
inductive Handler
  | idle
  | started
  | closed
  | cleared
  | connected
  | rewatching (watchRecord watchSubRecord : UMap Cb)

/-- The maps and the handler. -/
structure State where
  records : Records
  handler : Handler

/-- A new monitor. -/
def init : State := { records := Records.init, handler := .idle }

/-- The critical sections of the calls of the user and of the completions of removals, and the
steps of the handler. -/
inductive Action
  | watch (type : WatchType) (path : Path) (callback : Cb)
  | removed (type : WatchType) (path : Path)
  | expired
  | clearResource
  | clearLastSubPath
  | connectServer
  | takeRecords
  | rewatch (type : WatchType) (path : Path)
  | done
deriving DecidableEq, Repr

/-- The entry of a path among those the handler has taken. -/
def Handler.lookup (h : Handler) (type : WatchType) (path : Path) : Option Cb :=
  match h, type with
  | .rewatching watchRecord _, .watchPath => watchRecord.lookup path
  | .rewatching _ watchSubRecord, .watchSubPath => watchSubRecord.lookup path
  | _, _ => none

/-- The handler watches one of the paths it has taken; the paths with sub-path watches come
last, in the order of the map otherwise, which is not specified. -/
def rewatch (s : State) (type : WatchType) (path : Path) : Option State :=
  match s.handler with
  | .rewatching watchRecord watchSubRecord =>
      match type with
      | .watchPath =>
          (watchRecord.lookup path).map fun cb =>
            { records := s.records.watch .watchPath path cb
              handler := .rewatching (watchRecord.erase path) watchSubRecord }
      | .watchSubPath =>
          if watchRecord.keys = [] then
            (watchSubRecord.lookup path).map fun cb =>
              { records := s.records.watch .watchSubPath path cb
                handler := .rewatching watchRecord (watchSubRecord.erase path) }
          else none
  | _ => none

/-- One step. -/
def step (s : State) : Action → Option State
  | .watch type path callback => some { s with records := s.records.watch type path callback }
  | .removed type path => some { s with records := s.records.erase type path }
  | .expired =>
      match s.handler with
      | .idle => some { s with handler := .started }
      | _ => none
  | .clearResource =>
      match s.handler with
      | .started => some { s with handler := .closed }
      | _ => none
  | .clearLastSubPath =>
      match s.handler with
      | .closed => some { records := { s.records with lastSubPath := ∅ }, handler := .cleared }
      | _ => none
  | .connectServer =>
      match s.handler with
      | .cleared => some { s with handler := .connected }
      | _ => none
  | .takeRecords =>
      match s.handler with
      | .connected => some {
          records := { s.records with watchRecord := ∅, watchSubRecord := ∅ }
          handler := .rewatching s.records.watchRecord s.records.watchSubRecord }
      | _ => none
  | .rewatch type path => rewatch s type path
  | .done =>
      match s.handler with
      | .rewatching watchRecord watchSubRecord =>
          if watchRecord.keys = [] ∧ watchSubRecord.keys = [] then
            some { s with handler := .idle }
          else none
      | _ => none

/-! ## The maps as tables -/

/-- What a step does to the maps: the calls of the user write, completed removals erase. -/
def kind : Action → Kind (WatchType × Path) Cb
  | .watch type path callback => .write (type, path) (some callback)
  | .removed type path => .write (type, path) none
  | .takeRecords => .take
  | .rewatch type path => .restore (type, path)
  | _ => .other

/-- The callback recorded for a path. -/
def entry (s : State) (k : WatchType × Path) : Option Cb := s.records.lookup k.1 k.2

/-- The callback the handler is still to watch a path with. -/
def held (s : State) (k : WatchType × Path) : Option Cb := s.handler.lookup k.1 k.2

/-- When the handler is done, the callback recorded for a path is the one of the last call of
the user for it that no completed removal has followed. -/
def Kept : Prop :=
  ∀ acts s, Runs step init acts s → s.handler = .idle → ∀ type path,
    s.records.lookup type path = lastWrite kind (type, path) acts

/-! ## A call between taking the records and watching again -/

theorem not_kept : ¬ Kept := by
  intro h
  obtain ⟨s, hs, hw⟩ := Option.map_eq_some_iff.mp (show
    (exec step (fun _ _ => True) init
      [.watch .watchPath ['/', 'p'] 1, .expired, .clearResource, .clearLastSubPath, .connectServer,
        .takeRecords, .watch .watchPath ['/', 'p'] 2, .rewatch .watchPath ['/', 'p'],
        .done]).map (fun s => (s.handler matches .idle, s.records.lookup .watchPath ['/', 'p'])) =
      some (true, some 1) from rfl)
  obtain ⟨hidle, hlookup⟩ := Prod.mk.inj hw
  have hidle' : s.handler = .idle := by
    cases hh : s.handler <;> simp [hh] at hidle ⊢
  have hlast := h _ s (runs_of_exec hs) hidle' .watchPath ['/', 'p']
  rw [hlookup] at hlast
  exact absurd hlast (by decide)

/-! ## What a step does -/

variable {s s' : State} {type : WatchType} {path : Path} {cb : Cb}

lemma lookup_watch (r : Records) (type : WatchType) (path : Path) (cb : Cb) :
    (fun k : WatchType × Path => (r.watch type path cb).lookup k.1 k.2) =
      Function.update (fun k => r.lookup k.1 k.2) (type, path) (some cb) := by
  funext ⟨type', path'⟩
  by_cases hp : path' = path
  · subst hp
    cases type <;> cases type' <;> simp [Records.watch, Records.lookup, Function.update]
  · cases type <;> cases type' <;> simp [Records.watch, Records.lookup, hp, Function.update]

lemma lookup_erase (r : Records) (type : WatchType) (path : Path) :
    (fun k : WatchType × Path => (r.erase type path).lookup k.1 k.2) =
      Function.update (fun k => r.lookup k.1 k.2) (type, path) none := by
  funext ⟨type', path'⟩
  by_cases hp : path' = path
  · subst hp
    cases type <;> cases type' <;> simp [Records.erase, Records.lookup, Function.update]
  · cases type <;> cases type' <;> simp [Records.erase, Records.lookup, hp, Function.update]

lemma rewatch_cases (h : rewatch s type path = some s') : ∃ cb,
    s.handler.lookup type path = some cb ∧ s'.records = s.records.watch type path cb ∧
      ∀ k : WatchType × Path, s'.handler.lookup k.1 k.2 =
        Function.update (held s) (type, path) none k := by
  rw [rewatch] at h
  cases hh : s.handler with
  | rewatching watchRecord watchSubRecord =>
      rw [hh] at h
      cases type with
      | watchPath =>
          obtain ⟨cb, hcb, rfl⟩ := Option.map_eq_some_iff.mp h
          refine ⟨cb, hcb, rfl, fun ⟨type', path'⟩ => ?_⟩
          by_cases hp : path' = path
          · subst hp
            cases type' <;> simp [held, Handler.lookup, hh, Function.update]
          · cases type' <;> simp [held, Handler.lookup, hh, hp, Function.update]
      | watchSubPath =>
          dsimp only at h
          split_ifs at h
          obtain ⟨cb, hcb, rfl⟩ := Option.map_eq_some_iff.mp h
          refine ⟨cb, hcb, rfl, fun ⟨type', path'⟩ => ?_⟩
          by_cases hp : path' = path
          · subst hp
            cases type' <;> simp [held, Handler.lookup, hh, Function.update]
          · cases type' <;> simp [held, Handler.lookup, hh, hp, Function.update]
  | _ => rw [hh] at h; simp at h

lemma lookup_of_keys_eq_nil {m : UMap Cb} (h : m.keys = []) (path : Path) :
    m.lookup path = none := by
  rw [AList.lookup_eq_none]
  intro hmem
  rw [AList.mem_keys, h] at hmem
  simp at hmem

/-- The other steps of the handler move no entry. -/
lemma step_other {a : Action} (h : step s a = some s') (ha : kind a = .other) :
    entry s' = entry s ∧ held s' = held s := by
  cases a with
  | expired | clearResource | clearLastSubPath | connectServer =>
      rw [step] at h
      split at h
      · rename_i hh
        obtain rfl := Option.some.inj h
        refine ⟨?_, ?_⟩
        · funext ⟨type, path⟩
          cases type <;> rfl
        · funext ⟨type, path⟩
          simp [held, Handler.lookup, hh]
      · simp at h
  | done =>
      rw [step] at h
      split at h
      · rename_i hh
        split_ifs at h with hkeys
        obtain rfl := Option.some.inj h
        refine ⟨rfl, ?_⟩
        funext ⟨type, path⟩
        cases type with
        | watchPath =>
            simp only [held, Handler.lookup, hh]
            exact (lookup_of_keys_eq_nil hkeys.1 path).symm
        | watchSubPath =>
            simp only [held, Handler.lookup, hh]
            exact (lookup_of_keys_eq_nil hkeys.2 path).symm
      · simp at h
  | _ => simp [kind] at ha

lemma step_take (h : step s .takeRecords = some s') :
    (∀ k, held s k = none) ∧ (∀ k, entry s' k = none) ∧ held s' = entry s := by
  rw [step] at h
  split at h
  · rename_i hh
    obtain rfl := Option.some.inj h
    refine ⟨fun k => ?_, fun ⟨type, path⟩ => ?_, ?_⟩
    · simp [held, Handler.lookup, hh]
    · cases type <;> simp [entry, Records.lookup]
    · funext ⟨type, path⟩
      cases type <;> rfl
  · simp at h

/-- The maps are tables whose entries are taken out and written back. -/
lemma lawful : Lawful step kind entry held where
  write := by
    intro s a s' k v h ha
    cases a with
    | watch type path callback =>
        obtain ⟨rfl, rfl⟩ := (Kind.write.injEq _ _ _ _).mp ha
        obtain rfl := Option.some.inj h
        exact ⟨lookup_watch s.records type path callback, rfl⟩
    | removed type path =>
        obtain ⟨rfl, rfl⟩ := (Kind.write.injEq _ _ _ _).mp ha
        obtain rfl := Option.some.inj h
        exact ⟨lookup_erase s.records type path, rfl⟩
    | _ => simp [kind] at ha
  take := by
    intro s a s' h ha
    cases a with
    | takeRecords => exact step_take h
    | _ => simp [kind] at ha
  restore := by
    intro s a s' k h ha
    cases a with
    | rewatch type path =>
        obtain rfl := (Kind.restore.injEq _ _).mp ha
        obtain ⟨cb, hcb, hrec, hheld⟩ := rewatch_cases h
        refine ⟨cb, hcb, ?_, funext hheld⟩
        refine Eq.trans (funext fun k => ?_) (lookup_watch s.records type path cb)
        rw [entry, hrec]
    | _ => simp [kind] at ha
  other := fun h ha => step_other h ha

/-- When the handler is done, the callback recorded for a path is the one of the last call of
the user, if and only if the handler has not watched the path with another callback since. -/
theorem lookup_eq_lastWrite_iff {acts : List Action} (hr : Runs step init acts s)
    (hidle : s.handler = .idle) (type : WatchType) (path : Path) :
    s.records.lookup type path = lastWrite kind (type, path) acts ↔
      ¬ Undone step kind held init (type, path) acts := by
  have hnone : ∀ k, entry init k = none := by
    rintro ⟨type, path⟩
    cases type <;> rfl
  have hheld : held s (type, path) = none := by
    rw [held, hidle]
    rfl
  exact lawful.entry_eq_lastWrite_iff hnone (fun _ => rfl) hr hheld

/-- A path is watched, and the session expires. -/
theorem lookup_eq_lastWrite_iff_expired : ∃ s : State,
    s.records.lookup .watchPath ['/', 'p'] = some 1 ∧
      ¬ Undone step kind held init (.watchPath, ['/', 'p'])
        [.watch .watchPath ['/', 'p'] 1, .expired, .clearResource, .clearLastSubPath,
          .connectServer, .takeRecords, .rewatch .watchPath ['/', 'p'], .done] := by
  obtain ⟨s, hs, hw⟩ := Option.map_eq_some_iff.mp (show
    (exec step (fun _ _ => True) init
      [.watch .watchPath ['/', 'p'] 1, .expired, .clearResource, .clearLastSubPath, .connectServer,
        .takeRecords, .rewatch .watchPath ['/', 'p'],
        .done]).map (fun s => (s.handler matches .idle, s.records.lookup .watchPath ['/', 'p'])) =
      some (true, some 1) from rfl)
  obtain ⟨hidle, hlookup⟩ := Prod.mk.inj hw
  have hidle' : s.handler = .idle := by
    cases hh : s.handler <;> simp [hh] at hidle ⊢
  refine ⟨s, hlookup, (lookup_eq_lastWrite_iff (runs_of_exec hs) hidle' _ _).mp ?_⟩
  rw [hlookup]
  rfl

end Expiry

end ConfigMonitor
