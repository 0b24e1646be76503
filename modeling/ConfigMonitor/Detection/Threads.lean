/-
# The detection of an expired session

`initialize` opens a handle of the client library, waits until its session is connected and starts
a thread that looks at `is_conntected_` in a loop; when it finds the flag down it runs the handler
that `init` has installed, which closes the handle and calls `initialize` again.  The flags are
set by the watcher, which the completion thread of the handle calls for the session events that
its IO thread has queued.  The destructor stops the loop, waits for the thread and closes the
handle.

A step is one access to a shared flag or one call of the library.  How long the threads sleep is
left open, and so is what the server answers.
-/
import ConfigMonitor.Lib.Run
import Mathlib.Logic.Function.Basic

namespace ConfigMonitor

namespace Detection

/-! ## Handles -/

/-- The states that session events report. -/
inductive SessionState
  | connecting
  | connected
  | expired
  | authFailed
deriving DecidableEq, Repr

/-- `zh->state`: `0` after a lost connection, one of the states on the way to a connection, or the
one reported. -/
inductive Phase
  | lost
  | connecting
  | connected
  | expired
  | authFailed
deriving DecidableEq, Repr

/-- `is_unrecoverable`. -/
def Phase.isUnrecoverable : Phase → Bool
  | .expired | .authFailed => true
  | _ => false

/-- A handle of the library: `seen` says that a server has accepted the session before,
`resetting` that the watcher is between its two writes for an expired session.  The events that
the watcher has been told and the calls of `zookeeper_close` are recorded. -/
structure Handle where
  phase : Phase
  seen : Bool
  events : List SessionState
  resetting : Bool
  told : List SessionState
  closes : ℕ
deriving DecidableEq, Repr

/-- What `zookeeper_init` returns. -/
def Handle.new : Handle where
  phase := .connecting
  seen := false
  events := []
  resetting := false
  told := []
  closes := 0

/-- What happens to a connection: a new attempt, a handshake with the session accepted, a failure,
a handshake in which the server has given out another session, and an answer that the
authentication has failed. -/
inductive Io
  | dial
  | establish
  | lose
  | expire
  | authFail
deriving DecidableEq, Repr

/-- `do_io`, which ends in the unrecoverable states. -/
def Handle.io (h : Handle) : Io → Option Handle
  | .dial => if h.phase = .lost then some { h with phase := .connecting } else none
  | .establish =>
      if h.phase = .connecting then
        some { h with phase := .connected, seen := true, events := h.events ++ [.connected] }
      else none
  | .lose =>
      match h.phase with
      | .connecting => some { h with phase := .lost }
      | .connected => some { h with phase := .lost, events := h.events ++ [.connecting] }
      | _ => none
  | .expire =>
      if h.phase = .connecting ∧ h.seen = true then
        some { h with phase := .expired, events := h.events ++ [.expired] }
      else none
  | .authFail =>
      if h.phase = .connected then
        some { h with phase := .authFailed, events := h.events ++ [.authFailed] }
      else none

/-! ## Threads -/

/-- Where the thread is that runs `initialize`, and from the first return of it on the thread of
`detect_expired_session`: in `connect_server` up to `rewatch`, which stands for what the handler
does after `initialize`; in the loop from `check` on; in the handler at `closing`; or done, or
left by an exception of `zookeeper_init` or `zoo_add_auth`. -/
inductive Control
  | start
  | opening
  | pollConnected
  | pollRun
  | auth
  | setNeedDetect
  | recvTimeout
  | rewatch
  | check
  | readNeedDetect
  | probe
  | readConnected
  | clear
  | closing
  | finished
  | initThrew
  | authThrew
deriving DecidableEq, Repr

/-- Where the destructor is: not called, waiting for the thread, in `zookeeper_close`, done. -/
inductive Destructor
  | idle
  | joining
  | closing
  | done
deriving DecidableEq, Repr

/-- The members of `cppzk` and the handles, numbered in the order in which they were opened; the
handles for which the handler has been entered are recorded. -/
structure State where
  run : Bool
  needDetect : Bool
  isConnected : Bool
  hasCredential : Bool
  zh : Option ℕ
  handles : ℕ → Handle
  opened : ℕ
  control : Control
  started : Bool
  destructor : Destructor
  entered : List ℕ

/-- The steps of the IO thread and of the completion thread of a handle, of the thread that detects
(`ok` says that the call of the library does not fail), and of the destructor. -/
inductive Action
  | io (i : ℕ) (e : Io)
  | watcher (i : ℕ)
  | thread (ok : Bool)
  | destructor
deriving DecidableEq, Repr

namespace State

/-- A new `cppzk`. -/
def init (hasCredential : Bool) : State where
  run := true
  needDetect := false
  isConnected := false
  hasCredential := hasCredential
  zh := none
  handles := fun _ => .new
  opened := 0
  control := .start
  started := false
  destructor := .idle
  entered := []

/-- The handle `i` changes. -/
def setHandle (s : State) (i : ℕ) (h : Handle) : State :=
  { s with handles := Function.update s.handles i h }

/-- The handle is there and its threads are running. -/
def isOpen (s : State) (i : ℕ) : Bool := i < s.opened && (s.handles i).closes == 0

/-- The completion thread: the watcher of `connect_server` for the next event, whose second write
for an expired session is a step of its own. -/
def watcher (s : State) (i : ℕ) : Option State :=
  let h := s.handles i
  if h.resetting then
    some { s.setHandle i { h with resetting := false } with isConnected := false }
  else
    match h.events with
    | [] => none
    | e :: rest =>
        let h' := { h with events := rest, told := h.told ++ [e] }
        match e with
        | .connected => some { s.setHandle i h' with isConnected := true }
        | .expired =>
            some { s.setHandle i { h' with resetting := true } with needDetect := false }
        | .connecting | .authFailed => some (s.setHandle i h')

/-- `zookeeper_close` returns when the completion thread has left the watcher. -/
def close (s : State) (i : ℕ) : Option State :=
  if (s.handles i).resetting then none
  else some (s.setHandle i { s.handles i with closes := (s.handles i).closes + 1 })

/-- Does `zoo_add_auth` return an error? -/
def authFails (s : State) (i : ℕ) (ok : Bool) : Bool :=
  s.hasCredential && ((s.handles i).phase.isUnrecoverable || (s.handles i).phase == .lost || !ok)

/-- `connect_server`, `initialize`, `detect_expired_session` and the handler. -/
def thread (s : State) (ok : Bool) : Option State :=
  match s.control with
  | .start => some { s with control := .opening }
  | .opening =>
      if ok then
        some
          { s.setHandle s.opened .new with
            zh := some s.opened, opened := s.opened + 1, control := .pollConnected }
      else some { s with zh := none, control := .initThrew }
  | .pollConnected => some { s with control := if s.isConnected then .auth else .pollRun }
  | .pollRun => some { s with control := if s.run then .pollConnected else .auth }
  | .auth =>
      s.zh.map fun i =>
        { s with control := if s.authFails i ok then .authThrew else .setNeedDetect }
  | .setNeedDetect => some { s with needDetect := true, control := .recvTimeout }
  | .recvTimeout =>
      some { s with started := true, control := if s.started then .rewatch else .check }
  | .rewatch => some { s with control := .check }
  | .check => some { s with control := if s.run then .readNeedDetect else .finished }
  | .readNeedDetect => some { s with control := if s.needDetect then .probe else .readConnected }
  | .probe => some { s with control := .readConnected }
  | .readConnected => some { s with control := if s.isConnected then .check else .clear }
  | .clear => some { s with entered := s.entered ++ s.zh.toList, control := .closing }
  | .closing =>
      s.zh.bind fun i => (s.close i).map fun s => { s with control := .opening }
  | .finished | .initThrew | .authThrew => none

/-- The destructor, which is called when the first `initialize` has returned, or has thrown. -/
def destruct (s : State) : Option State :=
  match s.destructor with
  | .idle =>
      if s.started ∨ s.control = .initThrew ∨ s.control = .authThrew then
        some { s with run := false, destructor := .joining }
      else none
  | .joining =>
      if s.control = .finished ∨ s.started = false then some { s with destructor := .closing }
      else none
  | .closing =>
      match s.zh with
      | none => some { s with destructor := .done }
      | some i => (s.close i).map fun s => { s with destructor := .done }
  | .done => none

/-- An exception that leaves the thread ends the process. -/
def terminated (s : State) : Bool :=
  s.started && (s.control == .initThrew || s.control == .authThrew)

/-- One step. -/
def step (s : State) (a : Action) : Option State :=
  if s.terminated then none
  else
    match a with
    | .io i e =>
        if s.isOpen i then ((s.handles i).io e).map fun h => s.setHandle i h else none
    | .watcher i => if s.isOpen i then s.watcher i else none
    | .thread ok => s.thread ok
    | .destructor => s.destruct

end State

end Detection

end ConfigMonitor
