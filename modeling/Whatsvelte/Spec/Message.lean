import Mathlib.Data.Int.Notation
import Whatsvelte.Lib.Table

/-!
# Messages

The message records of `types.ts` and `stores/messages.svelte.ts`, and the pure
predicates of `persist.ts` on them. A field that TypeScript marks optional or
nullable is an `Option`; `deleted` is only ever absent or `true`, so it is a `Bool`.
-/

namespace Whatsvelte

abbrev Jid := String

abbrev MsgId := String

/-- `MessageStatus`. -/
inductive MessageStatus
  | sending | failed | sent | delivered | read | played
  deriving DecidableEq, Repr

/-- `STATUS_RANK`. -/
def MessageStatus.rank : MessageStatus → ℕ
  | .failed => 0
  | .sending => 0
  | .sent => 1
  | .delivered => 2
  | .read => 3
  | .played => 4

/-- The values of `MessageDto.kind`. -/
inductive MessageKind
  | text | image | video | audio | document | sticker | buttons | list | interactive | template
  | poll | order | product | contact | location | other
  deriving DecidableEq, Repr

/-- `MediaDescriptorDto`. -/
structure MediaDescriptorDto where
  directPath : String
  mediaKey : String
  fileSha256 : String
  fileEncSha256 : String
  fileLength : ℕ
  mediaType : String
  deriving DecidableEq

/-- `MediaDto`. -/
structure MediaDto where
  kind : String
  mimetype : Option String
  fileName : Option String
  width : Option ℕ
  height : Option ℕ
  durationSecs : Option ℕ
  isAnimated : Option Bool
  descriptor : MediaDescriptorDto
  deriving DecidableEq

/-- `QuotedDto`. -/
structure QuotedDto where
  id : MsgId
  senderJid : Option Jid
  text : Option String
  kind : String
  thumbnail : Option String
  deriving DecidableEq

/-- A plain object used as a map (`Record<string, string>`). -/
abbrev StrMap := Table (Prod.fst : String × String → String)

/-- `UiMessage`: a `MessageDto` with the client-side fields. A message straight from
the bridge has none of the fields after `albumParentId`. -/
structure UiMessage where
  id : MsgId
  chatJid : Jid
  senderJid : Jid
  fromMe : Bool
  timestamp : ℤ
  pushName : Option String := none
  text : Option String := none
  kind : MessageKind := .text
  thumbnail : Option String := none
  media : Option MediaDto := none
  quoted : Option QuotedDto := none
  albumParentId : Option MsgId := none
  status : Option MessageStatus := none
  editedAt : Option ℤ := none
  deleted : Bool := false
  reactions : Option StrMap := none
  unread : Option Bool := none
  wireChatJid : Option Jid := none
  wireSenderJid : Option Jid := none
  deriving DecidableEq

/-- The key path `[chatJid, id]` of the `msgs` store. The write queue joins the two
with U+0001 (`pendingKey`), which neither contains; the model keeps the pair. -/
structure Key where
  chatJid : Jid
  id : MsgId
  deriving DecidableEq

def UiMessage.key (m : UiMessage) : Key := ⟨m.chatJid, m.id⟩

/-- JavaScript truthiness of a `string | null`. -/
def truthy : Option String → Bool
  | none => false
  | some s => s ≠ ""

/-- `id.startsWith("tmp-")`: the id of an optimistic bubble. -/
def isTmp (id : MsgId) : Bool := "tmp-".toList.isPrefixOf id.toList

/-- `jid.endsWith("@lid")`. -/
def isLid (jid : Jid) : Bool := "@lid".toList.isSuffixOf jid.toList

/-- `jid.endsWith("@g.us")`. -/
def isGroup (jid : Jid) : Bool := "@g.us".toList.isSuffixOf jid.toList

/-- `jid.endsWith("@newsletter")`. -/
def isNewsletter (jid : Jid) : Bool := "@newsletter".toList.isSuffixOf jid.toList

/-- Nothing to draw: protocol traffic that older builds stored. -/
def isBlankMessage (m : UiMessage) : Bool :=
  m.kind = .other && !truthy m.text && m.media.isNone && !truthy m.thumbnail && !m.deleted

/-- Whether a message should be persisted at all. -/
def persistable (m : UiMessage) : Bool :=
  m.id ≠ "" && m.chatJid ≠ "" && !isTmp m.id && m.status ≠ some .sending && !isBlankMessage m

theorem persistable_iff {m : UiMessage} : persistable m = true ↔ m.id ≠ "" ∧ m.chatJid ≠ "" ∧
    isTmp m.id = false ∧ m.status ≠ some .sending ∧ isBlankMessage m = false := by
  simp [persistable, and_assoc]

theorem id_of_persistable {m : UiMessage} (h : persistable m = true) : m.id ≠ "" := (persistable_iff.1 h).1

theorem isTmp_of_persistable {m : UiMessage} (h : persistable m = true) : isTmp m.id = false :=
  (persistable_iff.1 h).2.2.1

theorem status_of_persistable {m : UiMessage} (h : persistable m = true) : m.status ≠ some .sending :=
  (persistable_iff.1 h).2.2.2.1

theorem blank_of_persistable {m : UiMessage} (h : persistable m = true) : isBlankMessage m = false :=
  (persistable_iff.1 h).2.2.2.2

/-- The storable record of a message under a chat key. Timestamps of the model are
integers, so the `Number.isFinite` fallback is never taken. -/
def toRecord (m : UiMessage) (chatJid : Jid) : UiMessage := { m with chatJid := chatJid }

@[simp] theorem toRecord_self (m : UiMessage) : toRecord m m.chatJid = m := rfl

/-- `normalizeJid`: strip the device and agent suffix of the user part. -/
def normalizeJid (jid : Jid) : Jid :=
  if '@' ∈ jid.toList then
    let user := jid.toList.takeWhile (· ≠ '@')
    String.ofList ((user.takeWhile (· ≠ ':')).takeWhile (· ≠ '.') ++ jid.toList.dropWhile (· ≠ '@'))
  else jid

/-! ## Updates of a message

The functions the stores pass to `updateMessage` and `patchPersistedMessage`. They
are data here, since an outstanding read-modify-write keeps the one it will apply. -/

inductive Patch
  | revoke
  | edit (text : Option String) (editedAt : ℤ)
  | reaction (reactor : Jid) (emoji : String)
  | receipt (status : MessageStatus)
  deriving DecidableEq

/-- The updated message; `none` means "no change". -/
def Patch.apply : Patch → UiMessage → Option UiMessage
  | .revoke, m =>
    some { m with deleted := true, text := none, thumbnail := none, reactions := none }
  | .edit text editedAt, m => some { m with text := text, editedAt := some editedAt }
  | .reaction reactor emoji, m =>
    let reactions := m.reactions.getD .empty
    some { m with reactions := some <|
      if emoji ≠ "" then reactions.set (reactor, emoji) else reactions.erase reactor }
  | .receipt status, m =>
    if status.rank > (m.status.getD .sent).rank then some { m with status := some status } else none

/-- An update keeps the key and the timestamp of the message. -/
theorem Patch.apply_key {p : Patch} {m m' : UiMessage} (h : p.apply m = some m') :
    m'.key = m.key ∧ m'.timestamp = m.timestamp := by
  cases p with
  | revoke | edit | reaction => cases h; exact ⟨rfl, rfl⟩
  | receipt =>
    simp only [Patch.apply] at h
    split at h
    · cases h; exact ⟨rfl, rfl⟩
    · cases h

/-! ## Sample messages

The chat and the messages of the runs that show what the stores get wrong. -/

def chatA : Jid := "a@s.whatsapp.net"

def msgX : UiMessage :=
  { id := "X", chatJid := chatA, senderJid := chatA, fromMe := false, timestamp := 5, text := some "hi" }

def msgY : UiMessage := { msgX with id := "Y", timestamp := 6, text := some "ho" }

end Whatsvelte
