import Mathlib.Data.List.Sort
import Whatsvelte.Spec.Message

/-!
# The state of the client

`World` collects the module-level state of `persist.ts` and of the stores
(`messages`, `chats`, `lid`), the IndexedDB object stores, and what the event loop
still has to run.

IndexedDB runs transactions one at a time in the order they were created, so the
outstanding asynchronous work on the database is one queue, `txq`. An entry is put
there when its function is called. It waits for `openDb` (`opened = false`), then
for the transactions before it, and its continuation runs while the transaction
still holds the store: no other transaction comes in between, but any synchronous
code may.
-/

namespace Whatsvelte

/-- A message object in memory. `ref` is the identity of the object (`===`); every
`{ ...m }` makes a new one. -/
structure Obj where
  ref : ℕ
  msg : UiMessage
  deriving DecidableEq

def Obj.key (o : Obj) : Key := o.msg.key

/-- `Chat`. -/
structure Chat where
  jid : Jid
  name : Option String
  lastMessage : Option String
  timestamp : ℤ
  unread : ℕ
  muted : Option Bool := none
  pinned : Option Bool := none
  archived : Option Bool := none
  draft : Option String := none
  deriving DecidableEq

/-- `PendingOp`: "put" replaces the stored record, "add" inserts only if there is none. -/
inductive PendingOp
  | put (m : Obj)
  | add (m : Obj)
  | del (chatJid : Jid) (id : MsgId)
  deriving DecidableEq

/-- `pendingKey` of the operation. -/
def PendingOp.key : PendingOp → Key
  | .put m => m.key
  | .add m => m.key
  | .del chatJid id => ⟨chatJid, id⟩

/-- The fallback data a revoke carries for its tombstone. -/
structure Fallback where
  senderJid : Jid
  fromMe : Bool
  timestamp : ℤ
  deriving DecidableEq

/-- `ReceiptDto`, as far as the stores use it. -/
structure ReceiptDto where
  chatJid : Jid
  messageIds : List MsgId
  status : MessageStatus
  deriving DecidableEq

/-- What the caller of `patchPersistedMessage` does with the answer. -/
inductive AfterPatch
  /-- `updateMessage` ignores it. -/
  | ignore
  /-- `applyRevoke` inserts a tombstone when nothing was found. -/
  | tombstone (fallback : Option Fallback)
  /-- `applyReceipt` remembers the receipt when nothing was found. -/
  | early (status : MessageStatus)
  deriving DecidableEq

/-- An asynchronous operation on the database and its continuation. `started` is the
epoch in which a write began. -/
inductive Job
  /-- `flushMessages`, with the operations it has still to write. -/
  | flush (started : ℕ) (ops : Table PendingOp.key)
  /-- `patchPersistedMessage`; `queued` is the insert-only write it saw in the queue. -/
  | patch (started : ℕ) (k : Key) (queued : Option Obj) (fn : Patch) (after : AfterPatch)
  /-- The same after its requests, waiting for the transaction to complete. -/
  | patched (k : Key) (found : Bool) (after : AfterPatch)
  /-- `movePersistedChat`. -/
  | move (started : ℕ) (fromJid toJid : Jid)
  /-- The read of `loadOlder`. -/
  | page (jid : Jid) (limit : ℕ) (beforeTs : Option ℤ)
  /-- `loadTails`, read back into memory at boot. -/
  | tails (jids : List Jid) (n : ℕ)
  /-- `getPersistedMessage` for `adoptStored`. -/
  | adopt (fresh : Obj)
  /-- `flushChats`. -/
  | chats (started : ℕ)
  /-- `setAccount`. -/
  | account (jid : Option Jid)
  /-- The wipe of `clearAll`. -/
  | clear
  deriving DecidableEq

/-- An entry of the transaction queue. `chats` is the chat list when the transaction
was created, which is what `flushChats` puts. -/
structure Txn where
  tid : ℕ
  opened : Bool
  job : Job
  chats : List Chat := []
  deriving DecidableEq

/-- A `resolve_jid` request in flight, with the receipt that waits for it. -/
structure Resolving where
  jid : Jid
  receipt : Option ReceiptDto
  deriving DecidableEq

/-- The write queue of `persist.ts`. -/
structure Queue where
  pending : Table PendingOp.key
  enabled : Bool
  msgTimer : Bool

structure World where
  -- stores/messages.svelte.ts
  byChat : Jid → Option (List Obj)
  exhausted : Jid → Bool
  loadingOlder : Jid → Bool
  /-- Chats whose `openChat` waits for the page being read. -/
  opening : Jid → Bool
  earlyReceipts : Table (Prod.fst : MsgId × MessageStatus → MsgId)
  -- stores/chats.svelte.ts
  chats : Table Chat.jid
  activeJid : Option Jid
  -- stores/lid.ts
  lidToPn : Jid → Option Jid
  resolving : Table Resolving.jid
  -- persist.ts
  q : Queue
  chatsTimer : Bool
  epoch : ℕ
  -- IndexedDB
  msgs : Table UiMessage.key
  chatRows : Table Chat.jid
  account : Option (Option Jid)
  -- the event loop
  txq : List Txn
  /-- `clearAll` calls that wait for the writes in flight when they were made. -/
  wiping : List (List ℕ)
  nextTid : ℕ
  nextRef : ℕ

/-- The state after loading the modules on an empty database. -/
def World.init : World where
  byChat := fun _ => none
  exhausted := fun _ => false
  loadingOlder := fun _ => false
  opening := fun _ => false
  earlyReceipts := .empty
  chats := .empty
  activeJid := none
  lidToPn := fun _ => none
  resolving := .empty
  q := ⟨.empty, false, false⟩
  chatsTimer := false
  epoch := 0
  msgs := .empty
  chatRows := .empty
  account := none
  txq := []
  wiping := []
  nextTid := 0
  nextRef := 0

/-- The outstanding work, in the order it will run. -/
def World.jobs (w : World) : List Job := w.txq.map (·.job)

/-- No continuation is outstanding. -/
def World.Quiescent (w : World) : Prop := w.txq = [] ∧ w.resolving.rows = [] ∧ w.wiping = []

end Whatsvelte
