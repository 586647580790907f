import Mathlib.Data.Prod.Lex
import Mathlib.Data.String.Basic
import Whatsvelte.Lib.Cursor
import Whatsvelte.Lib.Run
import Whatsvelte.Spec.World

/-!
# `openDb`: the upgrade of the database

The upgrade transaction of `persist.ts`: `migrateLegacy` copies the rows of version 1, one
per chat, to one record per message, and `purgeBlank` deletes what has nothing to draw.

Both issue requests of one transaction. A request is executed when it is the oldest that was
not, and its callback runs some time later; the callbacks run in the order of their requests
and issue more of them. `Upgrade.step` takes one of these two moves, so that a list of moves
is a schedule of the transaction.

Strings are compared by code points and not by UTF-16 units, as IndexedDB does; the order is
only used for the order in which the cursors visit the rows.
-/

namespace Whatsvelte

/-- A row of the store `messages` of version 1. -/
structure LegacyRow where
  jid : Jid
  items : Option (List UiMessage)
  deriving DecidableEq

/-- A row of the store `meta`. -/
structure MetaRow where
  k : String
  v : Option String
  deriving DecidableEq

/-- The object stores of a database before the upgrade. -/
structure Db where
  chats : Option (Table Chat.jid)
  metaRows : Option (Table MetaRow.k)
  msgs : Option (Table UiMessage.key)
  legacy : Option (Table LegacyRow.jid)

/-- The object stores during the upgrade. -/
structure Stores where
  chats : Table Chat.jid
  metaRows : Table MetaRow.k
  msgs : Table UiMessage.key
  legacy : Option (Table LegacyRow.jid)

/-- The order of the key path `[chatJid, id]`. -/
instance : LinearOrder Key :=
  LinearOrder.lift' (fun k => toLex (k.chatJid, k.id)) fun _ _ h => by
    obtain ⟨h1, h2⟩ := Prod.mk.inj (toLex.injective h)
    exact Key.mk.injEq _ _ _ _ ▸ ⟨h1, h2⟩

/-! ## Requests -/

/-- A request of the upgrade transaction. A cursor request carries the key that the cursor is
at, and `getChat` what its callback has captured. -/
inductive Request
  | openLegacy
  | continueLegacy (jid : Jid)
  | putMsg (m : UiMessage)
  | getChat (jid : Jid) (last : UiMessage)
  | putChat (c : Chat)
  | openMsgs
  | continueMsgs (k : Key)
  | deleteMsg (k : Key)
  deriving DecidableEq

/-- The result of a request, for its callback. -/
inductive Response
  | legacy (row : Option LegacyRow)
  | chat (jid : Jid) (last : UiMessage) (existing : Option Chat)
  | msgs (row : Option UiMessage)
  /-- A write without a callback. -/
  | done
  deriving DecidableEq

def Request.execute (s : Stores) : Request → Stores × Response
  | .openLegacy => (s, .legacy ((s.legacy.getD .empty).next none))
  | .continueLegacy jid => (s, .legacy ((s.legacy.getD .empty).next (some jid)))
  | .putMsg m => ({ s with msgs := s.msgs.set m }, .done)
  | .getChat jid last => (s, .chat jid last (s.chats.get jid))
  | .putChat c => ({ s with chats := s.chats.set c }, .done)
  | .openMsgs => (s, .msgs (s.msgs.next none))
  | .continueMsgs k => (s, .msgs (s.msgs.next (some k)))
  | .deleteMsg k => ({ s with msgs := s.msgs.erase k }, .done)

/-! ## Callbacks -/

/-- The chat row of a chat that has none. -/
def legacyChat (jid : Jid) (last : UiMessage) : Chat :=
  { jid := jid, name := last.pushName, lastMessage := last.text, timestamp := last.timestamp, unread := 0 }

/-- The requests of `migrateLegacy` for one row. -/
def migrateRow (row : LegacyRow) : List Request :=
  let items := row.items.getD []
  (items.filter persistable).map (fun m => .putMsg (toRecord m row.jid)) ++
    (items.getLast?.toList.map fun last => .getChat row.jid last) ++ [.continueLegacy row.jid]

/-- The requests of `purgeBlank` for one row. -/
def purgeRow (row : UiMessage) : List Request :=
  (if isBlankMessage row then [.deleteMsg row.key] else []) ++ [.continueMsgs row.key]

/-- The callback of a request: what it does at once, and the requests it issues. -/
def Response.deliver (s : Stores) : Response → Stores × List Request
  | .legacy none => ({ s with legacy := none }, [])
  | .legacy (some row) => (s, migrateRow row)
  | .chat _ _ (some _) => (s, [])
  | .chat jid last none => (s, [.putChat (legacyChat jid last)])
  | .msgs none => (s, [])
  | .msgs (some row) => (s, purgeRow row)
  | .done => (s, [])

/-! ## The transaction -/

/-- The upgrade transaction: the requests that were not executed, and the results that wait
for their callbacks, both oldest first. -/
structure Upgrade where
  stores : Stores
  issued : List Request
  ready : List Response

/-- `onupgradeneeded`. -/
def onUpgradeNeeded (oldVersion : ℕ) (db : Db) : Upgrade where
  stores :=
    { chats := db.chats.getD .empty
      metaRows := db.metaRows.getD .empty
      msgs := db.msgs.getD .empty
      legacy := db.legacy }
  issued := (if db.legacy.isSome then [.openLegacy] else []) ++
    (if 0 < oldVersion ∧ oldVersion < 3 then [.openMsgs] else [])
  ready := []

/-- What the transaction does next. -/
inductive Move
  | execute
  | deliver
  deriving DecidableEq

def Upgrade.step (u : Upgrade) : Move → Upgrade
  | .execute =>
    match u.issued with
    | [] => u
    | r :: rest =>
      { stores := (r.execute u.stores).1
        issued := rest
        ready := u.ready ++ [(r.execute u.stores).2] }
  | .deliver =>
    match u.ready with
    | [] => u
    | r :: rest =>
      { stores := (r.deliver u.stores).1
        issued := u.issued ++ (r.deliver u.stores).2
        ready := rest }

/-- There is something to execute, or to deliver. -/
def Upgrade.Enabled (u : Upgrade) : Move → Prop
  | .execute => u.issued ≠ []
  | .deliver => u.ready ≠ []

instance (u : Upgrade) (mv : Move) : Decidable (u.Enabled mv) := by
  unfold Upgrade.Enabled
  split <;> infer_instance

/-- The transaction completes when nothing is outstanding. -/
def Upgrade.Complete (u : Upgrade) : Prop := u.issued = [] ∧ u.ready = []

instance (u : Upgrade) : Decidable u.Complete := inferInstanceAs (Decidable (_ ∧ _))

end Whatsvelte
