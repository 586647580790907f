import Whatsvelte.Lib.Names

/-!
# The chat keys on the wire

The library's JIDs (`jid.rs`), and the `chatJid` that `bridge.rs` puts into each payload for the UI:
`normalize_chat_jid` of the JID's text, except in `wa://message/delete-for-me`. The texts are lists of
characters. The `integrator` of a JID is in no text and is left out.
-/

namespace Whatsvelte.Wire

/-! ## `jid.rs` -/

inductive Server
  | Pn | Lid | Group | Broadcast | Newsletter | Hosted | HostedLid | Messenger | Interop | Bot | Legacy
  | Call
  deriving DecidableEq, Repr

def Server.asStr : Server → String
  | .Pn => "s.whatsapp.net"
  | .Lid => "lid"
  | .Group => "g.us"
  | .Broadcast => "broadcast"
  | .Newsletter => "newsletter"
  | .Hosted => "hosted"
  | .HostedLid => "hosted.lid"
  | .Messenger => "msgr"
  | .Interop => "interop"
  | .Bot => "bot"
  | .Legacy => "c.us"
  | .Call => "call"

def Server.all : List Server :=
  [.Pn, .Lid, .Group, .Broadcast, .Newsletter, .Hosted, .HostedLid, .Messenger, .Interop, .Bot, .Legacy,
    .Call]

/-- `Server::try_from`. -/
def Server.tryFrom (s : List Char) : Option Server := Server.all.find? (·.asStr.toList = s)

/-- Whether the `agent` byte is part of the rendered JID. -/
def Server.rendersAgent : Server → Bool
  | .Pn | .Lid | .Hosted | .HostedLid => false
  | _ => true

/-- A JID; its user ends at the `@` of its text. -/
structure Jid where
  user : List Char
  server : Server
  agent : UInt8
  device : UInt16
  user_at : '@' ∉ user
  deriving DecidableEq

/-- `write_jid!`: the text between the user and the `@`. -/
def Jid.suffix (jid : Jid) : List Char :=
  (if jid.agent > 0 && jid.server.rendersAgent then '.' :: jid.agent.toNat.repr.toList else []) ++
    if jid.device > 0 then ':' :: jid.device.toNat.repr.toList else []

/-- `to_string`: `{user}[.{agent}][:{device}]@{server}`. -/
def Jid.text (jid : Jid) : List Char :=
  if jid.user = [] then jid.server.asStr.toList
  else jid.user ++ jid.suffix ++ '@' :: jid.server.asStr.toList

/-- `to_ad_string`: `{user}.{agent}:{device}@{server}`. -/
def Jid.adText (jid : Jid) : List Char :=
  if jid.user = [] then jid.server.asStr.toList
  else jid.user ++ ('.' :: (jid.agent.toNat.repr.toList ++ ':' :: jid.device.toNat.repr.toList)) ++
    '@' :: jid.server.asStr.toList

/-- `str::parse::<u16>`. -/
def parseU16 (s : List Char) : Option UInt16 :=
  let digits := match s with
    | '+' :: s => s
    | s => s
  if digits ≠ [] ∧ digits.all Char.isDigit ∧ Nat.ofDigitChars 10 digits 0 < 2 ^ 16 then
    some (UInt16.ofNat (Nat.ofDigitChars 10 digits 0))
  else none

/-- The user, the agent and the device that `parse_jid_fast` reads in front of `@server`. Dots in the
user of a LID separate nothing, and for a phone number they separate the device. -/
def userParts (userPart server : List Char) : List Char × UInt8 × UInt16 :=
  let (user, device) := match rsplitOnce ':' userPart with
    | some (user, device) => (user, (parseU16 device).getD 0)
    | none => (userPart, 0)
  if server = Server.Lid.asStr.toList then (user, 0, device)
  else if server = Server.Pn.asStr.toList then
    if ':' ∈ userPart then (user, 0, device)
    else
      match rsplitOnce '.' userPart with
      | some (u, d) =>
        match parseU16 d with
        | some device => (u, 0, device)
        | none => (userPart, 0, 0)
      | none => (userPart, 0, 0)
  else
    match rsplitOnce '.' user with
    | some (u, a) =>
      match parseU16 a with
      | some agent => if agent ≤ 255 then (u, agent.toUInt8, device) else (user, 0, device)
      | none => (user, 0, device)
    | none => (user, 0, device)

theorem mem_of_mem_userParts {userPart server : List Char} {a : Char}
    (h : a ∈ (userParts userPart server).1) : a ∈ userPart := by
  have hcolon : ∀ user device, rsplitOnce ':' userPart = some (user, device) → a ∈ user → a ∈ userPart :=
    fun user device hs ha => mem_of_mem_rsplitOnce hs ha
  have hdot : ∀ l user rest, (a ∈ l → a ∈ userPart) → rsplitOnce '.' l = some (user, rest) →
      a ∈ user → a ∈ userPart := fun l user rest hl hs ha => hl (mem_of_mem_rsplitOnce hs ha)
  unfold userParts at h
  cases hc : rsplitOnce ':' userPart with
  | none =>
    simp only [hc] at h
    split_ifs at h
    · exact h
    · exact h
    · split at h
      · rename_i u d hd
        split at h
        · exact hdot userPart u d (fun ha => ha) hd h
        · exact h
      · exact h
    · split at h
      · rename_i u d hd
        split at h
        · split_ifs at h
          · exact hdot userPart u d (fun ha => ha) hd h
          · exact h
        · exact h
      · exact h
  | some ud =>
    obtain ⟨user, device⟩ := ud
    simp only [hc] at h
    have huser := hcolon user device hc
    split_ifs at h
    · exact huser h
    · exact huser h
    · split at h
      · rename_i u d hd
        split at h
        · exact hdot userPart u d (fun ha => ha) hd h
        · exact h
      · exact h
    · split at h
      · rename_i u d hd
        split at h
        · split_ifs at h
          · exact hdot user u d huser hd h
          · exact huser h
        · exact huser h
      · exact huser h

/-- `Jid::from_str`. Where `parse_jid_fast` gives up there is no user in front of an `@`, and the
fallback accepts a server alone. -/
def Jid.fromStr (s : List Char) : Option Jid :=
  match h : splitOnce '@' s with
  | some (userPart, server) =>
    (Server.tryFrom server).map fun srv =>
      if userPart = [] then ⟨[], srv, 0, 0, List.not_mem_nil⟩
      else ⟨(userParts userPart server).1, srv, (userParts userPart server).2.1,
        (userParts userPart server).2.2,
        fun ha => notMem_of_splitOnce h (mem_of_mem_userParts ha)⟩
  | none => (Server.tryFrom s).map (⟨[], ·, 0, 0, List.not_mem_nil⟩)

/-! ## `bridge.rs` -/

/-- `normalize_chat_jid`: the user part up to the first `:` or `.`, and the server. -/
def normalizeChatJid (jid : List Char) : List Char :=
  match splitOnce '@' jid with
  | some (user, server) =>
    let base := ((user.splitOnP fun c => c = ':' || c = '.').head?).getD user
    base ++ '@' :: server
  | none => jid

inductive ReceiptType
  | Delivered | Sent | Sender | Retry | EncRekeyRetry | Read | ReadSelf | Played | PlayedSelf | ServerError
  | Inactive | PeerMsg | HistorySync | Other (s : String)
  deriving DecidableEq

/-- The `status` of `receipt_dto`; other types are not forwarded. -/
def ReceiptType.status : ReceiptType → Option String
  | .Delivered => some "delivered"
  | .Sent => some "sent"
  | .Read | .ReadSelf => some "read"
  | .Played | .PlayedSelf => some "played"
  | _ => none

/-- A conversation of a history sync: the JID that its id is a text of, whether it is written as an AD
string, and for each of its messages whether it `is_renderable`. -/
structure Conversation where
  chat : Jid
  ad : Bool
  messages : List Bool
  deriving DecidableEq

def Conversation.id (conv : Conversation) : List Char :=
  if conv.ad then conv.chat.adText else conv.chat.text

/-- A library event about conversations, with what decides its way through `pump`. -/
inductive Event
  /-- `Event::Message`: whether it is a control message, an undecryptable one, and renderable. -/
  | message (chat : Jid) (update secretEncrypted renderable : Bool)
  | historySync (conversations : List Conversation)
  | receipt (chat : Jid) (type : ReceiptType)
  /-- `MuteUpdate`, `PinUpdate` or `ArchiveUpdate`. -/
  | chatFlags (jid : Jid)
  | deleteMessageForMe (chatJid : Jid)
  deriving DecidableEq

inductive Topic
  | message | historyChat | historyMessage | receipt | chatFlags | messageUpdate | deleteForMe
  deriving DecidableEq, Repr

/-- A chat key that is emitted, with the JID of the conversation it is for, which is not sent. -/
structure Payload where
  topic : Topic
  chat : Jid
  chatJid : List Char
  deriving DecidableEq

/-- `convert_conversation`: the chat and its messages have one key. -/
def convertConversation (conv : Conversation) : List Payload :=
  let chatJid := normalizeChatJid conv.id
  ⟨.historyChat, conv.chat, chatJid⟩ ::
    (conv.messages.filter id).map fun _ => ⟨.historyMessage, conv.chat, chatJid⟩

/-- The payloads that `pump` emits for an event. -/
def Event.payloads : Event → List Payload
  | .message chat update secretEncrypted renderable =>
    let chatJid := normalizeChatJid chat.text
    if update then [⟨.messageUpdate, chat, chatJid⟩]
    else if secretEncrypted then []
    else if renderable then [⟨.message, chat, chatJid⟩] else []
  | .historySync conversations => conversations.flatMap convertConversation
  | .receipt chat type =>
    if type.status.isSome then [⟨.receipt, chat, normalizeChatJid chat.text⟩] else []
  | .chatFlags jid => [⟨.chatFlags, jid, normalizeChatJid jid.text⟩]
  | .deleteMessageForMe chatJid => [⟨.deleteForMe, chatJid, chatJid.text⟩]

end Whatsvelte.Wire
