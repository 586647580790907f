import Whatsvelte.Spec.Loop

/-!
# Optimistic actions

`MessageComposer.send` with an edit target, `MessageBubble.react` and the two deletes of
`DeleteMessageModal` change a message at once and ask the server then. When the server rejects
the change, they call `restoreMessage` with the object that they hold: for an edit the one that
`startEdit` put into `compose.editTarget`, for the others the one that was shown at the click.
-/

namespace Whatsvelte

/-- A message that the chat shows, which is what the components take hold of. -/
abbrev Shown (w : World) : Type := { x : Obj // x ∈ messagesFor w x.msg.chatJid }

inductive Action
  /-- `typing` is all that happens between `startEdit` and `send`. -/
  | edit (typing : List Step) (body : String) (now : ℤ)
  /-- `me` is the own JID. -/
  | react (me : Jid) (emoji : String)
  | deleteForEveryone
  | deleteForMe

/-- What happens after the object was taken and before the message is changed. -/
def Action.before : Action → List Step
  | .edit typing _ _ => typing
  | _ => []

/-- The call of the store that changes the message. -/
def Action.step (x : UiMessage) : Action → Step
  | .edit _ body now => .applyEdit x.chatJid x.id (some body) now
  | .react me emoji =>
    let current := if me ≠ "" then (x.reactions.bind (·.get me)).map (·.2) else none
    .applyReaction x.chatJid x.id me (if current = some emoji then "" else emoji)
  | .deleteForEveryone => .applyRevoke x.chatJid x.id none
  | .deleteForMe => .removeMessage x.chatJid x.id

/-- What may happen to a message before the answer of the server. -/
inductive Meanwhile
  | receipt (status : MessageStatus)
  | reaction (reactor : Jid) (emoji : String)
  | edit (text : Option String) (editedAt : ℤ)
  | revoke (fallback : Fallback)
  /-- A mapping is learned, and the chat may be merged. -/
  | learn (lid pn : Jid)
  | flush
  | openNext
  | advance

/-- The call of the store; an update is addressed to the canonical key of the chat. -/
def Meanwhile.step (jid : Jid) (id : MsgId) (w : World) : Meanwhile → Step
  | .receipt status => .applyReceipt (canonicalJid w jid) [id] status
  | .reaction reactor emoji => .applyReaction (canonicalJid w jid) id reactor emoji
  | .edit text editedAt => .applyEdit (canonicalJid w jid) id text editedAt
  | .revoke fallback => .applyRevoke (canonicalJid w jid) id (some fallback)
  | .learn lid pn => .learnLidMapping lid pn
  | .flush => .flushPendingWrites
  | .openNext => .openNext
  | .advance => .advance

variable (w : World) (x : Shown w) (a : Action) (es : List Meanwhile)

/-- The state when the server has rejected the action. -/
def rejected : World :=
  run (fun w e => w.step (e.step x.1.msg.chatJid x.1.msg.id w)) ((w.run a.before).step (a.step x.1.msg)) es

/-- The state after the rollback. -/
def rolledBack : World := (rejected w x a es).step (.restoreMessage x)

end Whatsvelte
