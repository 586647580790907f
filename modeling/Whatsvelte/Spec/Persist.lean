import Whatsvelte.Spec.World

/-!
# `persist.ts`

The write queue, the reads that merge it with the database, and the calls that
start a transaction. What a transaction does when it runs is in `Spec.Loop`.
-/

namespace Whatsvelte

/-- `FLUSH_SLICE`: records per write transaction. -/
def FLUSH_SLICE : ℕ := 1000

/-! ## The write queue -/

def scheduleFlushMessages (q : Queue) : Queue :=
  { q with msgTimer := q.msgTimer || (q.enabled && !q.pending.rows.isEmpty) }

/-- Queue a write of one message. -/
def persistMessage (q : Queue) (m : Obj) : Queue :=
  if persistable m.msg then scheduleFlushMessages { q with pending := q.pending.set (.put m) } else q

/-- Queue an insert-only write, unless a full write is already queued. -/
def persistMessageInsert (q : Queue) (m : Obj) : Queue :=
  if persistable m.msg then
    match q.pending.get m.key with
    | some (.put _) => q
    | _ => scheduleFlushMessages { q with pending := q.pending.set (.add m) }
  else q

/-- Queue a delete of one message. -/
def persistMessageDelete (q : Queue) (chatJid : Jid) (id : MsgId) : Queue :=
  if id = "" then q
  else scheduleFlushMessages { q with pending := q.pending.set (.del chatJid id) }

/-! ## Reads -/

/-- Index order of `byChatTime`, then of the primary key. -/
def indexLe (a b : UiMessage) : Prop :=
  a.timestamp < b.timestamp ∨ (a.timestamp = b.timestamp ∧ ¬ b.id < a.id)

instance : DecidableRel indexLe := fun _ _ => inferInstanceAs (Decidable (_ ∨ _))

/-- `timestamp <= beforeTs`, when given. -/
def upTo (beforeTs : Option ℤ) (t : ℤ) : Bool :=
  match beforeTs with
  | none => true
  | some b => t ≤ b

/-- The newest `limit` rows of a chat, oldest first. -/
def readLatest (msgs : Table UiMessage.key) (jid : Jid) (limit : ℕ) (beforeTs : Option ℤ) :
    List UiMessage :=
  let rows := (msgs.rows.filter (fun m => m.chatJid = jid && upTo beforeTs m.timestamp)).insertionSort
    indexLe
  rows.drop (rows.length - limit)

/-- Unflushed puts and inserts of a chat. -/
def pendingFor (q : Queue) (jid : Jid) (beforeTs : Option ℤ) : List Obj :=
  q.pending.rows.filterMap fun
    | .put m => if m.msg.chatJid = jid && upTo beforeTs m.msg.timestamp then some m else none
    | .add m => if m.msg.chatJid = jid && upTo beforeTs m.msg.timestamp then some m else none
    | .del _ _ => none

/-- `arr.sort((a, b) => a.timestamp - b.timestamp)`, a stable sort. -/
def sortByTime (l : List Obj) : List Obj :=
  l.insertionSort (fun a b => a.msg.timestamp ≤ b.msg.timestamp)

/-- Rows merged with unflushed writes (pending wins), the newest `limit`. -/
def mergePending (rows extra : List Obj) (limit : ℕ) : List Obj :=
  if extra.isEmpty then rows
  else
    let byId := (rows ++ extra).foldl Table.set (Table.empty : Table (fun o : Obj => o.msg.id))
    let all := sortByTime byId.rows
    all.drop (all.length - limit)

/-- Records read from the database are new objects. -/
def objs (ref : ℕ) : List UiMessage → List Obj
  | [] => []
  | m :: l => ⟨ref, m⟩ :: objs (ref + 1) l

/-- What `loadLatestMessages` returns when its transaction runs in `w`. -/
def loadLatestMessages (w : World) (jid : Jid) (limit : ℕ) (beforeTs : Option ℤ) : List Obj :=
  mergePending (objs w.nextRef (readLatest w.msgs jid limit beforeTs)) (pendingFor w.q jid beforeTs)
    limit

/-! ## Calls that start a transaction -/

/-- Start an asynchronous operation on the database. -/
def World.enqueue (w : World) (job : Job) : World :=
  { w with txq := w.txq ++ [⟨w.nextTid, false, job, []⟩], nextTid := w.nextTid + 1 }

def schedulePersistChats (w : World) : World := { w with chatsTimer := w.chatsTimer || w.q.enabled }

def enablePersistence (w : World) : World :=
  schedulePersistChats { w with q := scheduleFlushMessages { w.q with enabled := true } }

/-- Capture the queued operations and start writing them. -/
def flushMessages (w : World) : World :=
  { w with q := { w.q with pending := .empty } }.enqueue (.flush w.epoch w.q.pending)

def flushPendingWrites (w : World) : World :=
  flushMessages { w with q := { w.q with msgTimer := false } }

/-- Update a message that is not in memory. The answer is known at once when a full
write or a delete is queued, else the read-modify-write is started. -/
def patchPersistedMessage (w : World) (k : Key) (fn : Patch) (after : AfterPatch) :
    World × Option Bool :=
  match w.q.pending.get k with
  | some (.put m) =>
    match fn.apply m.msg with
    | some next =>
      ({ w with q := { w.q with pending := w.q.pending.set (.put ⟨w.nextRef, next⟩) },
                nextRef := w.nextRef + 1 }, some true)
    | none => (w, some true)
  | some (.del _ _) => (w, some false)
  | some (.add m) => (w.enqueue (.patch w.epoch k (some m) fn after), none)
  | none => (w.enqueue (.patch w.epoch k none fn after), none)

/-- The transaction of `patchPersistedMessage`: the queue, the store and the answer. `added` is the
insert that was queued when it was called, which only matters when nothing is stored yet. -/
def readModifyWrite (pending : Table PendingOp.key) (msgs : Table UiMessage.key) (k : Key)
    (fn : UiMessage → Option UiMessage) (added : Option UiMessage) :
    Table PendingOp.key × Table UiMessage.key × Option UiMessage :=
  let stored := msgs.get k
  let pending := if stored.isSome && added.isSome then pending.erase k else pending
  match stored.or added with
  | none => (pending, msgs, none)
  | some current =>
    match fn current with
    | some next => (pending, msgs.set (toRecord next next.chatJid), some next)
    | none => (pending, msgs, some current)

/-- `patchPersistedMessageImpl` from its call to its end: the queue, the store and the answer. -/
def patchPersistedMessageImpl (pending : Table PendingOp.key) (msgs : Table UiMessage.key) (ref : ℕ) (k : Key)
    (fn : UiMessage → Option UiMessage) :
    Table PendingOp.key × Table UiMessage.key × Option UiMessage :=
  match pending.get k with
  | some (.put m) =>
    match fn m.msg with
    | some next => (pending.set (.put ⟨ref, next⟩), msgs, some next)
    | none => (pending, msgs, some m.msg)
  | some (.del _ _) => (pending, msgs, none)
  | some (.add m) => readModifyWrite pending msgs k fn (some m.msg)
  | none => readModifyWrite pending msgs k fn none

/-- A message re-keyed by LID→PN unification. -/
def rekey (fromJid toJid : Jid) (m : UiMessage) : UiMessage :=
  { m with chatJid := toJid, wireChatJid := m.wireChatJid.or (some fromJid) }

/-- Re-key one queued operation. -/
def movePendingOp (fromJid toJid : Jid) (t : Table PendingOp.key × ℕ) (op : PendingOp) :
    Table PendingOp.key × ℕ :=
  if op.key.chatJid ≠ fromJid then t
  else
    match op with
    | .put m => ((t.1.erase op.key).set (.put ⟨t.2, rekey fromJid toJid m.msg⟩), t.2 + 1)
    | .add m => ((t.1.erase op.key).set (.add ⟨t.2, rekey fromJid toJid m.msg⟩), t.2 + 1)
    | .del _ _ => (t.1.erase op.key, t.2)

/-- Move a chat's queued and persisted messages from one key to another. -/
def movePersistedChat (w : World) (fromJid toJid : Jid) : World :=
  if fromJid = toJid then w
  else
    let moved := w.q.pending.rows.foldl (movePendingOp fromJid toJid) (w.q.pending, w.nextRef)
    { w with q := { w.q with pending := moved.1 }, nextRef := moved.2 }.enqueue
      (.move w.epoch fromJid toJid)

def setAccount (w : World) (jid : Option Jid) : World := w.enqueue (.account jid)

/-- Writes that `clearAll` waits for (`track`). -/
def Job.tracked : Job → Bool
  | .flush .. => true
  | .patch .. => true
  | .patched .. => true
  | .move .. => true
  | .chats .. => true
  | _ => false

def World.inflight (w : World) : List ℕ := (w.txq.filter (·.job.tracked)).map (·.tid)

/-- `clearAll` up to its first wait. -/
def clearAll (w : World) : World :=
  { w with
    epoch := w.epoch + 1
    q := { w.q with pending := .empty, msgTimer := false }
    chatsTimer := false
    wiping := w.wiping ++ [w.inflight] }

/-! ## Transactions on the `msgs` store -/

/-- One queued operation, applied to the store. -/
def applyOp (t : Table UiMessage.key) : PendingOp → Table UiMessage.key
  | .put m => t.set (toRecord m.msg m.msg.chatJid)
  | .add m => t.add (toRecord m.msg m.msg.chatJid)
  | .del chatJid id => t.erase ⟨chatJid, id⟩

def applyOps (t : Table UiMessage.key) (ops : List PendingOp) : Table UiMessage.key :=
  ops.foldl applyOp t

/-- The cursor of `movePersistedChat`. -/
def moveRows (t : Table UiMessage.key) (fromJid toJid : Jid) : Table UiMessage.key :=
  (t.rows.filter (·.chatJid = fromJid)).foldl
    (fun t row => (t.set (rekey fromJid toJid row)).erase row.key) t

end Whatsvelte
