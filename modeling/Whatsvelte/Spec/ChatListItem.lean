import Whatsvelte.Spec.Chats

/-!
# `ChatListItem.svelte`

The menu of a row in the chat list toggles the flags of the chat. `toggle` writes the flag before it calls the
server, and a rejected call makes it write the flag again; it is cut at its await here. A run is about one flag of
one row: the calls that are out and the flag that the server has are part of the state.
-/

namespace Whatsvelte.ChatListItem

/-- `chat[flag]`. -/
def flagOf (chat : Chat) : ChatFlag → Option Bool
  | .muted => chat.muted
  | .pinned => chat.pinned
  | .archived => chat.archived

/-- The flag as the row shows it: a missing one is off. -/
def shown (w : World) (jid : Jid) (flag : ChatFlag) : Bool :=
  ((w.chats.get jid).bind (flagOf · flag)).getD false

/-- `call(chat.jid, next)`. -/
structure Call where
  next : Bool
  accepted : Bool
  replied : Bool
  deriving DecidableEq

structure State where
  w : World
  server : Bool
  /-- In the order in which they were made. -/
  calls : List Call

inductive Event
  /-- A toggle, and what the server does with its call. -/
  | toggle (accepted : Bool)
  /-- The reply to a call. -/
  | reply (i : ℕ)
  deriving DecidableEq

section
variable (jid : Jid) (flag : ChatFlag)

def State.start (w : World) : State where
  w := w
  server := shown w jid flag
  calls := []

/-- `toggle` up to its await. -/
def toggle (s : State) (accepted : Bool) : State :=
  let next := !shown s.w jid flag
  { w := setChatFlag s.w jid flag next
    server := if accepted then next else s.server
    calls := s.calls ++ [⟨next, accepted, false⟩] }

/-- `toggle` behind its await, once for each call. -/
def reply (s : State) (i : ℕ) : State :=
  match s.calls[i]? with
  | none => s
  | some call =>
    if call.replied then s
    else
      { s with
        w := if call.accepted then s.w else setChatFlag s.w jid flag (!call.next)
        calls := s.calls.set i { call with replied := true } }

def step (s : State) : Event → State
  | .toggle accepted => toggle jid flag s accepted
  | .reply i => reply jid flag s i

end

end Whatsvelte.ChatListItem
