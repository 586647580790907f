import Whatsvelte.Spec.Backend

/-!
# `session.rs`

The session manager. Any number of calls of `get_or_create` and `reset` run at once; the mutex around
the map lets one of them at a time past `sessions.lock().await`, and it is held across every await
that follows. A call is cut at its awaits, and `Action.poll` runs it up to the next one.

`Spec.Backend` follows the events of the clients and takes a boot as one step of the one call that
holds the lock. Here the calls that wait are part of the state, a boot has its two fallible awaits,
and a session knows whether its join handle was taken. `Proof.Sessions` relates the two.
-/

namespace Whatsvelte.Sessions

open Backend (SessionId)

/-- A call of the manager. -/
inductive Call
  | getOrCreate (id : SessionId)
  | reset (id : SessionId)
  deriving DecidableEq

def Call.id : Call → SessionId
  | .getOrCreate id => id
  | .reset id => id

/-- The await at which a call is; `old` is the session that a reset took out of the map. -/
inductive Progress
  /-- `self.sessions.lock()`. -/
  | locking (call : Call)
  /-- `old.client.disconnect()`. -/
  | disconnecting (id : SessionId) (old : ℕ)
  /-- The join handle of the aborted run task. -/
  | joining (id : SessionId) (old : ℕ)
  /-- An attempt of `delete_db_files`. -/
  | deleting (id : SessionId) (old : Option ℕ) (attempt : ℕ)
  /-- `SqliteStore::new` of `boot`. -/
  | opening (call : Call) (old : Option ℕ)
  /-- `Bot::builder().build()` of `boot`. -/
  | building (call : Call) (old : Option ℕ)
  /-- The call has returned: `Ok` of a session or `Err`. -/
  | returned (result : Option ℕ)
  deriving DecidableEq

/-- A booted session: whether its run task has not ended, and whether `run_task` still holds the
join handle. -/
structure Session where
  id : SessionId
  running : Bool
  runTask : Bool
  deriving DecidableEq

/-- What a call has done, as its caller sees it. -/
inductive Entry
  /-- `get_or_create` returns a session. -/
  | created (id : SessionId) (session : ℕ)
  /-- `reset` has the lock. -/
  | reset (id : SessionId)
  /-- A boot has failed. -/
  | failed (id : SessionId)
  deriving DecidableEq

structure State where
  sessions : SessionId → Option ℕ
  /-- All sessions booted so far. -/
  booted : List Session
  /-- The call that holds the lock of the map. -/
  lock : Option ℕ
  /-- All calls made so far. -/
  calls : List Progress
  /-- Newest first. -/
  log : List Entry

def State.init : State where
  sessions _ := none
  booted := []
  lock := none
  calls := []
  log := []

/-! ## Steps -/

inductive Action
  /-- A command calls the manager. -/
  | call (call : Call)
  /-- The await of call `c` is over; `ok` says how a fallible one ended, or that no file was busy. -/
  | poll (c : ℕ) (ok : Bool)
  /-- The run task of a session ends, by itself or because it was aborted. -/
  | ends (n : ℕ)
  deriving DecidableEq

/-- Call `c` goes on to its next await. -/
def State.goto (s : State) (c : ℕ) (p : Progress) : State := { s with calls := s.calls.set c p }

def State.record (s : State) (e : Entry) : State := { s with log := e :: s.log }

/-- Call `c` returns, which drops the guard of the lock. -/
def State.ret (s : State) (c : ℕ) (result : Option ℕ) : State :=
  { s.goto c (.returned result) with lock := none }

/-- `Session::take_run_task`. -/
def State.takeRunTask (s : State) (n : ℕ) : State :=
  { s with booted := s.booted.modify n ({ · with runTask := false }) }

/-- `boot` fails, and so does the call. -/
def State.fail (s : State) (c : ℕ) (call : Call) : State := (s.record (.failed call.id)).ret c none

/-- The end of `boot`: the run loop is spawned, and the session goes into the map. -/
def State.spawn (s : State) (id : SessionId) : State :=
  { s with
    sessions := Function.update s.sessions id (some s.booted.length)
    booted := s.booted ++ [⟨id, true, true⟩] }

/-- `get_or_create` with the lock. -/
def getOrCreate (s : State) (c : ℕ) (id : SessionId) : State :=
  match s.sessions id with
  | some existing => (s.record (.created id existing)).ret c (some existing)
  | none => s.goto c (.opening (.getOrCreate id) none)

/-- `reset` with the lock. -/
def reset (s : State) (c : ℕ) (id : SessionId) : State :=
  match s.sessions id with
  | some old =>
    { s.record (.reset id) with sessions := Function.update s.sessions id none }.goto c
      (.disconnecting id old)
  | none => (s.record (.reset id)).goto c (.deleting id none 0)

/-- Both return the session that `boot` has made. -/
def booted (s : State) (c : ℕ) : Call → State
  | .getOrCreate id => ((s.spawn id).record (.created id s.booted.length)).ret c (some s.booted.length)
  | .reset id => (s.spawn id).ret c (some s.booted.length)

/-- The code of a call behind the await at which it is. -/
def resume (s : State) (c : ℕ) (ok : Bool) : Progress → State
  | .locking call =>
    if s.lock.isSome then s
    else
      match call with
      | .getOrCreate id => getOrCreate { s with lock := some c } c id
      | .reset id => reset { s with lock := some c } c id
  | .disconnecting id old =>
    if (s.booted[old]?).any (·.runTask) then (s.takeRunTask old).goto c (.joining id old)
    else s.goto c (.deleting id (some old) 0)
  | .joining id old =>
    -- the handle of an aborted task resolves when the task has been dropped
    if (s.booted[old]?).any (·.running) then s else s.goto c (.deleting id (some old) 0)
  | .deleting id old attempt =>
    if ok || attempt ≥ 29 then s.goto c (.opening (.reset id) old)
    else s.goto c (.deleting id old (attempt + 1))
  | .opening call old => if ok then s.goto c (.building call old) else s.fail c call
  | .building call _ => if ok then booted s c call else s.fail c call
  | .returned _ => s

def State.step (s : State) : Action → State
  | .call call => { s with calls := s.calls ++ [.locking call] }
  | .poll c ok =>
    match s.calls[c]? with
    | some p => resume s c ok p
    | none => s
  | .ends n => { s with booted := s.booted.modify n ({ · with running := false }) }

end Whatsvelte.Sessions
