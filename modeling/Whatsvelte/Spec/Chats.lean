import Whatsvelte.Spec.Persist

/-!
# `stores/chats.svelte.ts`

The chat list. The read marks sent to the server (`api.markRead`) leave the client
state alone and are left out.
-/

namespace Whatsvelte

/-- `ChatDto`. -/
structure ChatDto where
  jid : Jid
  name : Option String
  lastMessage : Option String
  timestamp : ℤ
  unread : ℕ
  deriving DecidableEq

/-- The flags of a `wa://chat/flags` event. -/
structure ChatFlags where
  muted : Option Bool
  pinned : Option Bool
  archived : Option Bool
  deriving DecidableEq

inductive ChatFlag
  | muted | pinned | archived
  deriving DecidableEq

def World.setChat (w : World) (c : Chat) : World := { w with chats := w.chats.set c }

/-- Upsert from a history-sync chat row: only the newer row drives the preview. -/
def upsertChatFromDto (w : World) (d : ChatDto) : World :=
  let prev := w.chats.get d.jid
  let prevLast := prev.bind (·.lastMessage)
  let isNewer := prev.all (fun p => p.timestamp ≤ d.timestamp)
  schedulePersistChats <| w.setChat
    { jid := d.jid
      name := d.name.or (prev.bind (·.name))
      lastMessage := if isNewer then d.lastMessage.or prevLast else prevLast
      timestamp := max d.timestamp (prev.elim 0 (·.timestamp))
      unread := if d.unread ≠ 0 then d.unread else prev.elim 0 (·.unread)
      muted := prev.bind (·.muted)
      pinned := prev.bind (·.pinned)
      archived := prev.bind (·.archived)
      draft := prev.bind (·.draft) }

/-- Bump a chat on a new message. -/
def touchChat (w : World) (jid : Jid) (lastMessage : Option String) (timestamp : ℤ)
    (incoming : Bool) : World :=
  let prev := w.chats.get jid
  let prevLast := prev.bind (·.lastMessage)
  let isNewer := prev.all (fun p => p.timestamp ≤ timestamp)
  let unread := prev.elim 0 (·.unread)
  schedulePersistChats <| w.setChat
    { jid := jid
      name := prev.bind (·.name)
      lastMessage := if isNewer then lastMessage.or prevLast else prevLast
      timestamp := max timestamp (prev.elim 0 (·.timestamp))
      unread := if incoming then unread + 1 else unread
      muted := prev.bind (·.muted)
      pinned := prev.bind (·.pinned)
      archived := prev.bind (·.archived)
      draft := prev.bind (·.draft) }

def decrementUnread (w : World) (jid : Jid) (amount : ℕ) : World :=
  match w.chats.get jid with
  | none => w
  | some c =>
    if c.unread - amount = c.unread then w
    else schedulePersistChats (w.setChat { c with unread := c.unread - amount })

def markChatAsRead (w : World) (jid : Jid) : World :=
  match w.chats.get jid with
  | none => w
  | some c => if c.unread = 0 then w else schedulePersistChats (w.setChat { c with unread := 0 })

/-- Rehydrate a persisted chat row, keeping its flags. -/
def hydrateChat (w : World) (c : Chat) : World :=
  let prev := w.chats.get c.jid
  let fresh : Chat := { c with
    muted := c.muted.or (prev.bind (·.muted))
    pinned := c.pinned.or (prev.bind (·.pinned))
    archived := c.archived.or (prev.bind (·.archived)) }
  match prev with
  | none => w.setChat fresh
  | some p =>
    if p.timestamp > c.timestamp then
      w.setChat { p with
        muted := p.muted.or c.muted
        pinned := p.pinned.or c.pinned
        archived := p.archived.or c.archived }
    else w.setChat fresh

def ensureChat (w : World) (jid : Jid) (lastMessage : Option String) (timestamp : ℤ)
    (name : Option String) : World :=
  if w.chats.has jid then w
  else schedulePersistChats <| w.setChat
    { jid := jid, name := name, lastMessage := lastMessage, timestamp := timestamp, unread := 0 }

/-- Apply a server-synced flag change; a chat that is not known is ignored. -/
def applyChatFlags (w : World) (jid : Jid) (flags : ChatFlags) : World :=
  match w.chats.get jid with
  | none => w
  | some prev =>
    schedulePersistChats <| w.setChat { prev with
      muted := flags.muted.or prev.muted
      pinned := flags.pinned.or prev.pinned
      archived := flags.archived.or prev.archived }

def setChatFlag (w : World) (jid : Jid) (flag : ChatFlag) (value : Bool) : World :=
  match w.chats.get jid with
  | none => w
  | some prev =>
    schedulePersistChats <| w.setChat <|
      match flag with
      | .muted => { prev with muted := some value }
      | .pinned => { prev with pinned := some value }
      | .archived => { prev with archived := some value }

/-- The row that `mergeChats` leaves under `toJid`. -/
def mergedChat (toJid : Jid) (src : Chat) : Option Chat → Chat
  | none => { src with jid := toJid }
  | some dst =>
    { jid := toJid
      name := dst.name.or src.name
      lastMessage := if src.timestamp ≥ dst.timestamp then src.lastMessage else dst.lastMessage
      timestamp := max dst.timestamp src.timestamp
      unread := dst.unread + src.unread
      muted := dst.muted.or src.muted
      pinned := dst.pinned.or src.pinned
      archived := dst.archived.or src.archived
      draft := dst.draft.or src.draft }

/-- Merge the row of `fromJid` into `toJid` and remove it. -/
def mergeChats (w : World) (fromJid toJid : Jid) : World :=
  match w.chats.get fromJid with
  | none => w
  | some src =>
    schedulePersistChats { w with
      chats := (w.chats.set (mergedChat toJid src (w.chats.get toJid))).erase fromJid
      activeJid := if w.activeJid = some fromJid then some toJid else w.activeJid }

def selectChat (w : World) (jid : Jid) : World := { w with activeJid := some jid }

/-- Name a chat that has no name yet. -/
def setChatName (w : World) (jid : Jid) (name : String) : World :=
  match w.chats.get jid with
  | none => w
  | some c =>
    if truthy c.name then w else schedulePersistChats (w.setChat { c with name := some name })

end Whatsvelte
