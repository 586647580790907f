import Whatsvelte.Lib.Run
import Whatsvelte.Spec.Lid

/-!
# The event loop

`World.step` runs one event: a call of a store function, an answer of the backend,
or one move of the transaction queue. `openNext` resolves `openDb` for the next
entry of the queue (in call order), which is where a write of an older epoch stops.
`advance` runs the transaction at the head of the queue.
-/

namespace Whatsvelte

/-! ## The transaction queue -/

/-- A write that finds another epoch after `openDb` returns without a transaction. -/
def Job.stale (epoch : ℕ) : Job → Bool
  | .flush started ops => started ≠ epoch && !ops.rows.isEmpty
  | .patch started .. => started ≠ epoch
  | .move started .. => started ≠ epoch
  | .chats started => started ≠ epoch
  | _ => false

/-- `openDb` resolves for the first entry that waits for it. -/
def openNext (w : World) : World :=
  let before := w.txq.takeWhile (·.opened)
  match w.txq.dropWhile (·.opened) with
  | [] => w
  | t :: later =>
    if t.job.stale w.epoch then
      let w := { w with txq := before ++ later }
      match t.job with
      | .patch _ k _ _ after => afterPatch w k false after
      | _ => w
    else { w with txq := before ++ ⟨t.tid, true, t.job, w.chats.rows⟩ :: later }

/-- A slice of a flush has committed; the next one is queued behind what waits. -/
def flushSlice (w : World) (tid started : ℕ) (ops : Table PendingOp.key) (later : List Txn) :
    World :=
  let w := { w with msgs := applyOps w.msgs (ops.take FLUSH_SLICE).rows, txq := later }
  let more := ops.drop FLUSH_SLICE
  if more.rows.isEmpty then { w with q := scheduleFlushMessages w.q }
  else if started ≠ w.epoch then w
  else { w with txq := later ++ [⟨tid, true, .flush started more, []⟩] }

/-- The requests of `patchPersistedMessage`. -/
def patchRequests (w : World) (tid : ℕ) (k : Key) (queued : Option Obj) (fn : Patch)
    (after : AfterPatch) (later : List Txn) : World :=
  let (pending, msgs, found) := readModifyWrite w.q.pending w.msgs k fn.apply (queued.map (·.msg))
  { w with
    q := { w.q with pending := pending }
    msgs := msgs
    txq := ⟨tid, true, .patched k found.isSome after, []⟩ :: later }

/-- The newest `n` messages of each chat, as `loadTails` returns them. -/
def tailRows (w : World) (n : ℕ) : ℕ → List Jid → List Obj × ℕ
  | ref, [] => ([], ref)
  | ref, jid :: jids =>
    let rows := readLatest w.msgs jid n none
    let r := tailRows w n (ref + rows.length) jids
    (mergePending (objs ref rows) (pendingFor w.q jid none) n ++ r.1, r.2)

/-- Boot: the tails are put in memory. -/
def loadTailsDone (w : World) (jids : List Jid) (n : ℕ) : World :=
  let r := tailRows w n w.nextRef jids
  addHistoryMessages { w with nextRef := r.2 } r.1 false

/-- Run the transaction at the head of the queue and its continuation. -/
def advance (w : World) : World :=
  match w.txq with
  | ⟨tid, true, job, chats⟩ :: later =>
    let done := { w with txq := later }
    match job with
    | .flush started ops => flushSlice w tid started ops later
    | .patch _ k queued fn after => patchRequests w tid k queued fn after later
    | .patched k found after => afterPatch done k found after
    | .move _ fromJid toJid =>
      { done with
        msgs := moveRows w.msgs fromJid toJid
        chatRows := w.chatRows.erase fromJid }
    | .page jid limit beforeTs => openChatDone (loadOlderDone done jid limit beforeTs) jid
    | .tails jids n => loadTailsDone done jids n
    | .adopt fresh => adoptStoredDone done fresh (w.msgs.get fresh.key)
    | .chats _ => { done with chatRows := chats.foldl Table.set w.chatRows }
    | .account jid => { done with account := some jid }
    | .clear => { done with msgs := .empty, chatRows := .empty, account := none }
  | _ => w

/-- How a flush can fail. -/
inductive FlushFailure
  /-- `openDb` rejects. -/
  | openDb
  /-- `store.put` or `store.add` throws for operation `i` of the slice. -/
  | throwAt (i : ℕ)
  /-- The transaction of the slice errors or aborts. -/
  | abort
  deriving DecidableEq

/-- A flush fails: its `catch` only logs. A synchronous throw leaves the requests
already made in the transaction, which then commits. -/
def flushFails (w : World) : FlushFailure → World
  | .openDb =>
    match w.txq.dropWhile (·.opened) with
    | ⟨_, _, .flush _ _, _⟩ :: later =>
      { w with txq := w.txq.takeWhile (·.opened) ++ later, q := scheduleFlushMessages w.q }
    | _ => w
  | .throwAt i =>
    match w.txq with
    | ⟨_, true, .flush _ ops, _⟩ :: later =>
      if i < (ops.take FLUSH_SLICE).rows.length then
        { w with
          msgs := applyOps w.msgs ((ops.take FLUSH_SLICE).take i).rows
          txq := later
          q := scheduleFlushMessages w.q }
      else w
    | _ => w
  | .abort =>
    match w.txq with
    | ⟨_, true, .flush _ _, _⟩ :: later => { w with txq := later, q := scheduleFlushMessages w.q }
    | _ => w

/-- The writes a `clearAll` waited for have settled: its own transaction is next. -/
def wipe (w : World) : World :=
  match w.wiping with
  | [] => w
  | tids :: rest =>
    if w.txq.any (fun t => t.tid ∈ tids) then w else { w with wiping := rest }.enqueue .clear

/-! ## Reset -/

/-- `resetAll` of `stores/events.ts` up to the wait in `clearAll`. The session flags,
the name cache and the backend call after it are not part of the model. -/
def resetAll (w : World) : World :=
  clearAll { clearMessages w with
    chats := .empty
    q := { w.q with pending := .empty, msgTimer := false }
    activeJid := none
    lidToPn := fun _ => none }

/-! ## Events -/

/-- Calls of the chat store. -/
inductive ChatOp
  | upsertChatFromDto (d : ChatDto)
  | touchChat (jid : Jid) (lastMessage : Option String) (timestamp : ℤ) (incoming : Bool)
  | markChatAsRead (jid : Jid)
  | hydrateChat (c : Chat)
  | ensureChat (jid : Jid) (lastMessage : Option String) (timestamp : ℤ) (name : Option String)
  | applyChatFlags (jid : Jid) (flags : ChatFlags)
  | setChatFlag (jid : Jid) (flag : ChatFlag) (value : Bool)
  | setChatName (jid : Jid) (name : String)

def ChatOp.run (w : World) : ChatOp → World
  | .upsertChatFromDto d => Whatsvelte.upsertChatFromDto w d
  | .touchChat jid lastMessage timestamp incoming =>
    Whatsvelte.touchChat w jid lastMessage timestamp incoming
  | .markChatAsRead jid => Whatsvelte.markChatAsRead w jid
  | .hydrateChat c => Whatsvelte.hydrateChat w c
  | .ensureChat jid lastMessage timestamp name =>
    Whatsvelte.ensureChat w jid lastMessage timestamp name
  | .applyChatFlags jid flags => Whatsvelte.applyChatFlags w jid flags
  | .setChatFlag jid flag value => Whatsvelte.setChatFlag w jid flag value
  | .setChatName jid name => Whatsvelte.setChatName w jid name

/-- One event of the client. -/
inductive Step
  -- deliveries
  | addMessage (m : UiMessage)
  | addHistoryMessages (list : List UiMessage)
  -- sends
  | addOptimistic (jid : Jid) (r : String) (now : ℤ) (text : String) (quoted : Option QuotedDto)
  | addOptimisticMedia (jid : Jid) (r : String) (now : ℤ) (kind : MessageKind)
      (text thumbnail : Option String)
  | confirmOptimistic (jid : Jid) (r : String) (realId : MsgId)
  | failOptimistic (jid : Jid) (r : String)
  -- updates
  | applyRevoke (jid : Jid) (targetId : MsgId) (fallback : Option Fallback)
  | applyEdit (jid : Jid) (targetId : MsgId) (text : Option String) (editedAt : ℤ)
  | applyReaction (jid : Jid) (targetId : MsgId) (reactor : Jid) (emoji : String)
  | applyReceipt (jid : Jid) (ids : List MsgId) (status : MessageStatus)
  | removeMessage (jid : Jid) (targetId : MsgId)
  | restoreMessage (original : Obj)
  | markMessageRead (jid : Jid) (messageId : MsgId)
  | markMessagesRead (jid : Jid) (messageIds : List MsgId)
  | syncUnreadFlagForChat (jid : Jid)
  -- paging
  | loadOlder (jid : Jid) (count : ℕ)
  | openChat (jid : Jid)
  | closeChat (jid : Jid)
  | trimChat (jid : Jid) (keep : ℕ)
  | selectChat (jid : Jid)
  | loadTails (jids : List Jid) (n : ℕ)
  -- chats and unification
  | chat (op : ChatOp)
  | learnLidMapping (lid pn : Jid)
  | unifyLid (jid : Jid) (receipt : Option ReceiptDto)
  | unifyLidDone (jid : Jid) (pn : Option Jid)
  -- persistence
  | enablePersistence
  | flushPendingWrites
  | msgTimer
  | chatsTimer
  | setAccount (jid : Option Jid)
  | openNext
  | advance
  | flushFails (f : FlushFailure)
  -- reset
  | resetAll
  | wipe

def World.step (w : World) : Step → World
  | .addMessage m => Whatsvelte.addMessage w m
  | .addHistoryMessages list =>
    Whatsvelte.addHistoryMessages { w with nextRef := w.nextRef + list.length }
      (objs w.nextRef list) true
  | .addOptimistic jid r now text quoted => Whatsvelte.addOptimistic w jid r now text quoted
  | .addOptimisticMedia jid r now kind text thumbnail =>
    Whatsvelte.addOptimisticMedia w jid r now kind text thumbnail
  | .confirmOptimistic jid r realId => Whatsvelte.confirmOptimistic w jid (tempId r) realId
  | .failOptimistic jid r => Whatsvelte.failOptimistic w jid (tempId r)
  | .applyRevoke jid targetId fallback => Whatsvelte.applyRevoke w jid targetId fallback
  | .applyEdit jid targetId text editedAt => Whatsvelte.applyEdit w jid targetId text editedAt
  | .applyReaction jid targetId reactor emoji =>
    Whatsvelte.applyReaction w jid targetId reactor emoji
  | .applyReceipt jid ids status => Whatsvelte.applyReceipt w jid ids status
  | .removeMessage jid targetId => Whatsvelte.removeMessage w jid targetId
  | .restoreMessage original => Whatsvelte.restoreMessage w original
  | .markMessageRead jid messageId => Whatsvelte.markMessageRead w jid messageId
  | .markMessagesRead jid messageIds => Whatsvelte.markMessagesRead w jid messageIds
  | .syncUnreadFlagForChat jid => Whatsvelte.syncUnreadFlagForChat w jid
  | .loadOlder jid count => Whatsvelte.loadOlder w jid count
  | .openChat jid => Whatsvelte.openChat w jid
  | .closeChat jid => Whatsvelte.closeChat w jid
  | .trimChat jid keep => Whatsvelte.trimChat w jid keep
  | .selectChat jid => Whatsvelte.selectChat w jid
  | .loadTails jids n => if jids.isEmpty || n = 0 then w else w.enqueue (.tails jids n)
  | .chat op => op.run w
  | .learnLidMapping lid pn => Whatsvelte.learnLidMapping w lid pn
  | .unifyLid jid receipt => Whatsvelte.unifyLid w jid receipt
  | .unifyLidDone jid pn => Whatsvelte.unifyLidDone w jid pn
  | .enablePersistence => Whatsvelte.enablePersistence w
  | .flushPendingWrites => Whatsvelte.flushPendingWrites w
  | .msgTimer => if w.q.msgTimer then Whatsvelte.flushPendingWrites w else w
  | .chatsTimer =>
    if w.chatsTimer then { w with chatsTimer := false }.enqueue (.chats w.epoch) else w
  | .setAccount jid => Whatsvelte.setAccount w jid
  | .openNext => Whatsvelte.openNext w
  | .advance => Whatsvelte.advance w
  | .flushFails f => Whatsvelte.flushFails w f
  | .resetAll => Whatsvelte.resetAll w
  | .wipe => Whatsvelte.wipe w

/-- The state after a run of events. -/
def World.run (w : World) (es : List Step) : World := Whatsvelte.run World.step w es

/-- A state that some run from the empty store reaches. -/
def Reachable (w : World) : Prop := ∃ es, World.init.run es = w

end Whatsvelte
