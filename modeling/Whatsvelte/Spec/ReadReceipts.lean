import Whatsvelte.Spec.Albums

/-!
# `receipts.ts`

Read receipts: an element that scrolls into view puts its messages on a queue, and a timer sends the
queue in one call per chat and sender. The calls of a flush are awaited one after the other, so that
new entries, and other flushes, come in between.

`markMessageRead`, which `enqueue` calls first, is a step of the message store and touches nothing
of this module; it is left out here.
-/

namespace Whatsvelte.ReadReceipts

/-- `Pending`. -/
structure Pending where
  chatJid : Jid
  wireChatJid : Jid
  senderJid : Option Jid
  id : MsgId
  deriving DecidableEq

/-- A group of a flush, which is one call of `markReadMessages`. -/
structure Group where
  chatJid : Jid
  senderJid : Option Jid
  ids : List MsgId
  deriving DecidableEq

/-- `wireChatJid + "||" + (senderJid ?? "")`. -/
def groupKey (wireChatJid : Jid) (senderJid : Option Jid) : String :=
  wireChatJid ++ "||" ++ senderJid.getD ""

def Pending.groupKey (p : Pending) : String := ReadReceipts.groupKey p.wireChatJid p.senderJid

def Group.key (g : Group) : String := groupKey g.chatJid g.senderJid

/-- `chatJid + "|" + id`. -/
def Pending.ackedKey (p : Pending) : String := p.chatJid ++ "|" ++ p.id

/-- One turn of the loop that groups a batch. -/
def addToGroups (groups : Table Group.key) (p : Pending) : Table Group.key :=
  match groups.get p.groupKey with
  | none => groups.set ⟨p.wireChatJid, p.senderJid, [p.id]⟩
  | some g => groups.set { g with ids := g.ids ++ [p.id] }

def groupsOf (batch : List Pending) : Table Group.key := batch.foldl addToGroups .empty

/-- A run of `flush`: the batch it took, the calls it made, and those it has still to make. -/
structure Flush where
  batch : List Pending
  sent : List Group
  due : List Group
  deriving DecidableEq

/-- The module state, the setting, and the runs of `flush` so far. -/
structure State where
  sendReadReceipts : Bool
  acked : List String
  queue : List Pending
  timer : Bool
  flushes : List Flush
  deriving DecidableEq

def State.init (sendReadReceipts : Bool) : State := ⟨sendReadReceipts, [], [], false, []⟩

def ACKED_MAX : ℕ := 5000

/-- `acked.add(key)`, and the oldest entry dropped when there are too many. -/
def addAcked (acked : List String) (key : String) : List String :=
  if (acked ++ [key]).length > ACKED_MAX then (acked ++ [key]).drop 1 else acked ++ [key]

def enqueue (s : State) (p : Pending) : State :=
  if !s.sendReadReceipts then s
  else if p.ackedKey ∈ s.acked then s
  else { s with acked := addAcked s.acked p.ackedKey, queue := s.queue ++ [p], timer := true }

/-- `flush` up to its first `await`. -/
def flush (s : State) : State :=
  if s.queue.isEmpty then { s with timer := false }
  else { s with
    timer := false
    queue := []
    flushes := s.flushes ++ [⟨s.queue, (groupsOf s.queue).rows.take 1, (groupsOf s.queue).rows.drop 1⟩] }

/-- The awaited call returned or failed: the next one is made. -/
def Flush.next (f : Flush) : Flush :=
  match f.due with
  | [] => f
  | g :: due => { f with sent := f.sent ++ [g], due := due }

/-- What happens to the module. -/
inductive Step
  | enqueue (p : Pending)
  | setSendReadReceipts (value : Bool)
  | timerFires
  /-- The call that the `i`-th run of `flush` awaits is answered. -/
  | answered (i : ℕ)
  deriving DecidableEq

def State.step (s : State) : Step → State
  | .enqueue p => ReadReceipts.enqueue s p
  | .setSendReadReceipts value => { s with sendReadReceipts := value }
  | .timerFires => if s.timer then flush s else s
  | .answered i => { s with flushes := s.flushes.modify i Flush.next }

def State.run (s : State) (es : List Step) : State := Whatsvelte.run State.step s es

/-! ## What is tracked -/

/-- The parameters of `trackRead`. -/
structure TrackParams where
  chatJid : Jid
  wireChatJid : Jid
  id : MsgId
  ids : Option (List MsgId)
  senderJid : Option Jid
  fromMe : Bool

/-- `trackRead`: the entries of an element, which are put on the queue once it is seen. -/
def trackRead (params : TrackParams) : List Pending :=
  if !params.fromMe && params.id ≠ "" then
    (match params.ids with
      | some (i :: ids) => i :: ids
      | _ => [params.id]).map fun id =>
        { chatJid := params.chatJid, wireChatJid := params.wireChatJid, senderJid := params.senderJid, id := id }
  else []

/-- The parameters that `MessageBubble` passes. -/
def bubbleParams (message : UiMessage) (album : Option (List UiMessage)) : TrackParams where
  chatJid := message.chatJid
  wireChatJid := protoChatJid message
  id := message.id
  ids := album.map fun items => items.map (·.id)
  senderJid := if isGroup message.chatJid then some (protoSenderJid message) else none
  fromMe := message.fromMe

/-- The entries of a row of `MessageList`: the last item of an album stands for all of them. -/
def rowEntries : Albums.Row → List Pending
  | .msg _ m => trackRead (bubbleParams m none)
  | .album _ items => items.getLast?.elim [] fun last => trackRead (bubbleParams last (some items))

end Whatsvelte.ReadReceipts
