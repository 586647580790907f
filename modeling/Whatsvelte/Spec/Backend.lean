import Whatsvelte.Lib.Run

/-!
# The backend's sessions

`session.rs` boots one client per session id and keeps it in a map behind a mutex;
`bridge.rs` drains the event channel of each client into Tauri events. Every boot gets
a number here, and everything that is emitted is logged with the number of the boot it
comes from, which the frontend does not see: it only sees the session id.

The tasks interleave freely. A call of `get_or_create` or `reset` holds the lock of the
map from its first step to its last, so there is one such call at a time, in one of the
phases of `Phase`. The client dispatches events from its run loop, and from tasks that are
detached from it: the workers of the chat lanes, the handlers of other stanzas, and commands
that hold the client. `pump` pops them, one a step; a history sync becomes a blocking task
that waits for `HISTORY_DECODE_LOCK` and then emits one chunk per conversation.

`mirror` is `MIRROR_GLOBAL`: debug builds subscribe to every event kind and emit
everything on the catch-all topic as well.
-/

namespace Whatsvelte.Backend

abbrev SessionId := String

/-- `SessionManager::resolve_id`'s default. -/
def DEFAULT_SESSION : SessionId := "default"

/-! ## Events -/

/-- `EventKind`, as far as `topic_for` and `FORWARDED` tell them apart. -/
inductive EventKind
  | PairingQrCode | PairingCode | PairSuccess | PairError | LoggedOut | Connected | Disconnected
  | Message | Receipt | HistorySync | MuteUpdate | PinUpdate | ArchiveUpdate
  | DeleteMessageForMeUpdate | Presence | ChatPresence | GroupUpdate | ContactUpdated
  | PushNameUpdate | IncomingCall | StreamError | ConnectFailure | TemporaryBan
  | Notification | RawNode
  /-- A kind that the bridge does not name. -/
  | Unnamed
  deriving DecidableEq

/-- A library event, with what decides its way through `pump`. -/
inductive Event
  /-- `Event::Message`: whether `message_update_dto` finds a control message, whether it
  is an undecryptable edit or reaction, and whether its dto `is_renderable`. -/
  | message (update secretEncrypted renderable : Bool)
  /-- `Event::HistorySync`: how many conversations the stream yields before it ends. -/
  | historySync (conversations : ℕ)
  /-- `Event::Receipt`: whether `receipt_dto` has a status for it. -/
  | receipt (shown : Bool)
  /-- A mute, pin or archive update, which become one shape. -/
  | chatFlags (kind : EventKind)
  | deleteMessageForMe
  | notification
  | rawNode
  /-- Pairing codes, and everything that is emitted as it is. -/
  | other (kind : EventKind)
  deriving DecidableEq

def Event.kind : Event → EventKind
  | .message .. => .Message
  | .historySync _ => .HistorySync
  | .receipt _ => .Receipt
  | .chatFlags kind => kind
  | .deleteMessageForMe => .DeleteMessageForMeUpdate
  | .notification => .Notification
  | .rawNode => .RawNode
  | .other kind => kind

/-- The kinds that release builds subscribe to. -/
def FORWARDED : List EventKind :=
  [.PairingQrCode, .PairingCode, .PairSuccess, .PairError, .LoggedOut, .Connected, .Disconnected,
    .Message, .Receipt, .HistorySync, .MuteUpdate, .PinUpdate, .ArchiveUpdate,
    .DeleteMessageForMeUpdate, .GroupUpdate, .ContactUpdated, .PushNameUpdate, .IncomingCall,
    .StreamError, .ConnectFailure, .TemporaryBan]

/-- `BridgeHandler::interest`. -/
def interest (mirror : Bool) (kind : EventKind) : Bool := mirror || kind ∈ FORWARDED

def GLOBAL_TOPIC : String := "wa://event"

def topicFor : EventKind → String
  | .PairingQrCode => "wa://auth/qr"
  | .PairingCode => "wa://auth/pair-code"
  | .PairSuccess => "wa://auth/paired"
  | .PairError => "wa://auth/pair-error"
  | .LoggedOut => "wa://auth/logged-out"
  | .Connected | .Disconnected => "wa://conn/state"
  | .Message => "wa://message"
  | .Receipt => "wa://receipt"
  | .Presence | .ChatPresence => "wa://presence"
  | .GroupUpdate => "wa://group/update"
  | .ContactUpdated | .PushNameUpdate => "wa://contact/update"
  | .IncomingCall => "wa://call"
  | .StreamError | .ConnectFailure | .TemporaryBan => "wa://error/stream"
  | _ => GLOBAL_TOPIC

/-- The topics on which `emit` sends an envelope. -/
def emit (mirror : Bool) (topic : String) : List String :=
  (if mirror && topic ≠ GLOBAL_TOPIC then [GLOBAL_TOPIC] else []) ++
    (if topic ≠ GLOBAL_TOPIC || mirror then [topic] else [])

/-- The topics on which `pump` emits an event; a history sync is decoded elsewhere. -/
def Event.topics (mirror : Bool) : Event → List String
  | .message update secretEncrypted renderable =>
    if update then emit mirror "wa://message/update"
    else if secretEncrypted then []
    else if renderable then emit mirror (topicFor .Message) else []
  | .historySync _ => []
  | .receipt shown => if shown then emit mirror (topicFor .Receipt) else []
  | .chatFlags _ => emit mirror "wa://chat/flags"
  | .deleteMessageForMe => emit mirror "wa://message/delete-for-me"
  | .notification => []
  | .rawNode => []
  | .other kind => emit mirror (topicFor kind)

/-! ## State -/

/-- A booted session: the id, whether the run loop has not ended, the channel from the
client's handler to `pump`, and the events that detached tasks have yet to dispatch. -/
structure Session where
  id : SessionId
  running : Bool
  rx : List Event
  detached : List Event
  deriving DecidableEq

/-- A task of `spawn_history_decode` and the conversations it has yet to emit. -/
structure Decode where
  origin : ℕ
  sessionId : SessionId
  left : ℕ
  deriving DecidableEq

/-- Something that reached the frontend, with the boot it derives from. -/
structure Emission where
  origin : ℕ
  sessionId : SessionId
  topic : String
  deriving DecidableEq

/-- Where the call is that holds the lock of the session map. -/
inductive Phase
  /-- `reset` waits for `old.client.disconnect()`. -/
  | disconnect (old : ℕ)
  /-- `reset` has requested the abort of the run loop and waits for it to end. -/
  | join (old : ℕ)
  /-- `reset` deletes the database files. -/
  | deleteDbFiles (old : Option ℕ)
  /-- `reset` or `get_or_create` boots a session. -/
  | boot (old : Option ℕ)
  deriving DecidableEq

structure State where
  sessions : SessionId → Option ℕ
  /-- All sessions booted so far; those that were reset included. -/
  booted : List Session
  lock : Option (SessionId × Phase)
  /-- Decode tasks that wait for `HISTORY_DECODE_LOCK`, and the one that holds it. -/
  waiting : List Decode
  decoding : Option Decode
  emitted : List Emission

def State.init : State where
  sessions _ := none
  booted := []
  lock := none
  waiting := []
  decoding := none
  emitted := []

/-! ## Steps -/

inductive Step
  /-- A command takes the lock of the map, for `get_or_create` or for `reset`. -/
  | getOrCreate (id : SessionId)
  | reset (id : SessionId)
  | disconnected
  /-- The abort takes effect at an await of the run loop. -/
  | aborted
  | joined
  | deletedDbFiles
  /-- `boot` succeeds, and the call returns; or it fails. -/
  | booted
  | bootFails
  /-- The client of boot `n` dispatches an event from its run loop. -/
  | push (n : ℕ) (event : Event)
  /-- The run loop queues a stanza for a worker or spawns a task, or a command takes the
  client from the map; an event will be dispatched there. -/
  | spawn (n : ℕ) (event : Event)
  /-- A detached task dispatches the `i`-th of these events. -/
  | dispatch (n i : ℕ)
  /-- `bot.run()` returns by itself. -/
  | runEnds (n : ℕ) (loggedIn : Bool)
  /-- `pump` of boot `n` receives one event. -/
  | pump (n : ℕ)
  /-- The `i`-th waiting decode takes the lock; it emits a chunk; it is through. -/
  | lockDecode (i : ℕ)
  | chunk
  | decoded
  deriving DecidableEq

def State.emit (b : State) (n : ℕ) (id : SessionId) (topics : List String) : State :=
  { b with emitted := b.emitted ++ topics.map (⟨n, id, ·⟩) }

def getOrCreate (b : State) (id : SessionId) : State :=
  match b.lock, b.sessions id with
  | none, none => { b with lock := some (id, .boot none) }
  | _, _ => b

/-- The start of `reset`: the old session leaves the map. -/
def reset (b : State) (id : SessionId) : State :=
  match b.lock, b.sessions id with
  | none, some n => { b with
      sessions := Function.update b.sessions id none
      lock := some (id, .disconnect n) }
  | none, none => { b with lock := some (id, .deleteDbFiles none) }
  | some _, _ => b

/-- The end of `boot`: a new client with a new channel, which goes into the map. -/
def boot (b : State) (id : SessionId) : State :=
  { b with
    sessions := Function.update b.sessions id (some b.booted.length)
    booted := b.booted ++ [⟨id, true, [], []⟩]
    lock := none }

/-- The run loop of boot `n` ends. -/
def State.endRun (b : State) (n : ℕ) : State :=
  { b with booted := b.booted.modify n ({ · with running := false }) }

/-- `BridgeHandler::handle_event`. -/
def handleEvent (mirror : Bool) (b : State) (n : ℕ) (event : Event) : State :=
  if interest mirror event.kind then
    { b with booted := b.booted.modify n fun s => { s with rx := s.rx ++ [event] } }
  else b

/-- New work for detached tasks: from the run loop, or from a command. -/
def spawn (b : State) (n : ℕ) (event : Event) : State :=
  if (b.booted[n]?).any (fun s => s.running || b.sessions s.id = some n) then
    { b with booted := b.booted.modify n fun s => { s with detached := s.detached ++ [event] } }
  else b

/-- A detached task goes on whatever has become of the run loop: neither `disconnect` nor the
abort stops it. -/
def dispatch (mirror : Bool) (b : State) (n i : ℕ) : State :=
  match (b.booted[n]?).bind (·.detached[i]?) with
  | some event =>
    let b := { b with booted := b.booted.modify n fun s => { s with detached := s.detached.eraseIdx i } }
    handleEvent mirror b n event
  | none => b

/-- The end of the run loop when nobody aborts it. -/
def runEnds (b : State) (n : ℕ) (loggedIn : Bool) : State :=
  match b.booted[n]? with
  | some s =>
    if s.running then
      (b.endRun n).emit n s.id (if loggedIn then [] else ["wa://auth/dead", GLOBAL_TOPIC])
    else b
  | none => b

def spawnHistoryDecode (b : State) (n : ℕ) (id : SessionId) (conversations : ℕ) : State :=
  { b with waiting := b.waiting ++ [⟨n, id, conversations⟩] }

/-- One turn of the loop of `pump`. -/
def pump (mirror : Bool) (b : State) (n : ℕ) : State :=
  match b.booted[n]? with
  | some ⟨id, running, event :: rx, detached⟩ =>
    let b := { b with booted := b.booted.set n ⟨id, running, rx, detached⟩ }
    match event with
    | .historySync conversations => spawnHistoryDecode b n id conversations
    | event => b.emit n id (event.topics mirror)
  | _ => b

def lockDecode (b : State) (i : ℕ) : State :=
  match b.decoding, b.waiting[i]? with
  | none, some d => { b with waiting := b.waiting.eraseIdx i, decoding := some d }
  | _, _ => b

/-- One turn of the loop of `stream_history`. -/
def chunk (b : State) : State :=
  match b.decoding with
  | some ⟨n, id, left + 1⟩ =>
    { b with decoding := some ⟨n, id, left⟩ }.emit n id ["wa://history"]
  | _ => b

def State.step (mirror : Bool) (b : State) : Step → State
  | .getOrCreate id => getOrCreate b id
  | .reset id => reset b id
  | .disconnected =>
    match b.lock with
    | some (id, .disconnect old) => { b with lock := some (id, .join old) }
    | _ => b
  | .aborted =>
    match b.lock with
    | some (_, .join old) => b.endRun old
    | _ => b
  | .joined =>
    match b.lock with
    | some (id, .join old) =>
      if (b.booted[old]?).any (·.running) then b
      else { b with lock := some (id, .deleteDbFiles (some old)) }
    | _ => b
  | .deletedDbFiles =>
    match b.lock with
    | some (id, .deleteDbFiles old) => { b with lock := some (id, .boot old) }
    | _ => b
  | .booted =>
    match b.lock with
    | some (id, .boot _) => boot b id
    | _ => b
  | .bootFails =>
    match b.lock with
    | some (_, .boot _) => { b with lock := none }
    | _ => b
  | .push n event => if (b.booted[n]?).any (·.running) then handleEvent mirror b n event else b
  | .spawn n event => spawn b n event
  | .dispatch n i => dispatch mirror b n i
  | .runEnds n loggedIn => runEnds b n loggedIn
  | .pump n => pump mirror b n
  | .lockDecode i => lockDecode b i
  | .chunk => chunk b
  | .decoded =>
    match b.decoding with
    | some ⟨_, _, 0⟩ => { b with decoding := none }
    | _ => b

/-- The states that the backend can get into. -/
def Reachable (mirror : Bool) (b : State) : Prop :=
  ∃ es, b = run (State.step mirror) State.init es

end Whatsvelte.Backend
