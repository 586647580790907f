import Whatsvelte.Spec.Loop

/-!
# `stores/events.ts`

The handlers of the `wa://` events: they canonicalize the JIDs of an event, call the
stores, and ask for the mapping of every LID they saw. Names of contacts (`learnName`), the
indicator of a running history sync and the session flags are not part of the model.

`Event` is what reaches the client: a `wa://` event, or a call of a store that comes from
the user interface, a timer, the backend or the event loop.
-/

namespace Whatsvelte

/-! ## Payloads -/

/-- `MessageDto`. -/
structure MessageDto where
  id : MsgId
  chatJid : Jid
  senderJid : Jid
  fromMe : Bool
  timestamp : ℤ
  pushName : Option String := none
  text : Option String := none
  kind : MessageKind := .text
  thumbnail : Option String := none
  media : Option MediaDto := none
  quoted : Option QuotedDto := none
  albumParentId : Option MsgId := none
  deriving DecidableEq

/-- A `MessageDto` as the `UiMessage` it is, without any client-side field. -/
def MessageDto.ui (d : MessageDto) : UiMessage where
  id := d.id
  chatJid := d.chatJid
  senderJid := d.senderJid
  fromMe := d.fromMe
  timestamp := d.timestamp
  pushName := d.pushName
  text := d.text
  kind := d.kind
  thumbnail := d.thumbnail
  media := d.media
  quoted := d.quoted
  albumParentId := d.albumParentId

/-- `HistoryDto`. -/
structure HistoryDto where
  chats : List ChatDto
  messages : List MessageDto
  deriving DecidableEq

/-- The values of `MessageUpdateDto.kind`. -/
inductive UpdateKind
  | revoke | edit | reaction
  deriving DecidableEq

/-- `MessageUpdateDto`. -/
structure MessageUpdateDto where
  chatJid : Jid
  targetId : MsgId
  kind : UpdateKind
  text : Option String
  senderJid : Option Jid
  fromMe : Bool
  timestamp : ℤ
  deriving DecidableEq

/-! ## Addresses -/

/-- The chat JID to address protocol actions on a message to. -/
def protoChatJid (m : UiMessage) : Jid := m.wireChatJid.getD m.chatJid

/-- The sender JID as the server knows it. -/
def protoSenderJid (m : UiMessage) : Jid := m.wireSenderJid.getD m.senderJid

/-- Re-key a message to its canonical chat and sender, remembering the addresses that the
server used. -/
def canonicalMessage (w : World) (m : MessageDto) : UiMessage :=
  let jid := canonicalJid w m.chatJid
  let senderJid := canonicalJid w m.senderJid
  if jid = m.chatJid ∧ senderJid = m.senderJid then m.ui
  else { m.ui with
    chatJid := jid
    senderJid := senderJid
    wireChatJid := if jid ≠ m.chatJid then some m.chatJid else none
    wireSenderJid := if senderJid ≠ m.senderJid then some m.senderJid else none }

/-! ## Handlers -/

/-- `if (senderJid && senderJid !== chatJid) void unifyLid(senderJid)`. -/
def unifySender (w : World) (senderJid chatJid : Jid) : World :=
  if senderJid ≠ "" ∧ senderJid ≠ chatJid then unifyLid w senderJid none else w

/-- `wa://message`. -/
def onMessage (w : World) (m : MessageDto) : World :=
  let cm := canonicalMessage w m
  if isBlankMessage cm then w
  else
    let w := addMessage w cm
    let w := touchChat w cm.chatJid cm.text cm.timestamp (!cm.fromMe)
    let w := if truthy cm.pushName && !cm.fromMe then setChatName w cm.chatJid (cm.pushName.getD "")
      else w
    unifySender (unifyLid w m.chatJid none) m.senderJid m.chatJid

/-- One chat row of a history chunk. -/
def onHistoryChat (w : World) (c : ChatDto) : World :=
  unifyLid (upsertChatFromDto w { c with jid := canonicalJid w c.jid }) c.jid none

/-- The messages of a chunk are canonicalized one by one, each followed by the unification
of its sender. -/
def onHistoryMessages : World → List MessageDto → World × List UiMessage
  | w, [] => (w, [])
  | w, m :: ms =>
    let r := onHistoryMessages (unifySender w m.senderJid m.chatJid) ms
    (r.1, canonicalMessage w m :: r.2)

/-- `wa://history`. -/
def onHistory (w : World) (h : HistoryDto) : World :=
  let r := onHistoryMessages (h.chats.foldl onHistoryChat w) h.messages
  r.1.step (.addHistoryMessages r.2)

/-- `wa://receipt`. -/
def onReceipt (w : World) (r : ReceiptDto) : World :=
  let jid := canonicalJid w r.chatJid
  if isLid jid then unifyLid w r.chatJid (some r) else applyReceipt w jid r.messageIds r.status

/-- `wa://chat/flags`. -/
def onChatFlags (w : World) (jid : Jid) (flags : ChatFlags) : World :=
  unifyLid (applyChatFlags w (canonicalJid w jid) flags) jid none

/-- `wa://message/update`. -/
def onMessageUpdate (w : World) (u : MessageUpdateDto) : World :=
  let jid := canonicalJid w u.chatJid
  let senderJid := canonicalJid w (u.senderJid.getD "")
  let w := match u.kind with
    | .revoke => applyRevoke w jid u.targetId (some ⟨senderJid, u.fromMe, u.timestamp⟩)
    | .edit => applyEdit w jid u.targetId u.text u.timestamp
    | .reaction => applyReaction w jid u.targetId (normalizeJid senderJid) (u.text.getD "")
  unifySender (unifyLid w u.chatJid none) (u.senderJid.getD "") u.chatJid

/-- `wa://message/delete-for-me`. -/
def onDeleteForMe (w : World) (chatJid : Jid) (messageId : MsgId) : World :=
  unifyLid (removeMessage w (canonicalJid w chatJid) messageId) chatJid none

/-- What reaches the client. -/
inductive Event
  | message (m : MessageDto)
  | history (h : HistoryDto)
  | receipt (r : ReceiptDto)
  | chatFlags (jid : Jid) (flags : ChatFlags)
  | messageUpdate (u : MessageUpdateDto)
  | deleteForMe (chatJid : Jid) (messageId : MsgId)
  /-- A call of a store, or a move of the event loop. -/
  | call (e : Step)

def World.handle (w : World) : Event → World
  | .message m => onMessage w m
  | .history h => onHistory w h
  | .receipt r => onReceipt w r
  | .chatFlags jid flags => onChatFlags w jid flags
  | .messageUpdate u => onMessageUpdate w u
  | .deleteForMe chatJid messageId => onDeleteForMe w chatJid messageId
  | .call e => w.step e

end Whatsvelte
