import Whatsvelte.Lib.Lists
import Whatsvelte.Spec.Chats

/-!
# `stores/messages.svelte.ts`

The in-memory window over the message history. A function that awaits is cut at its
first wait; the rest of it is the `…Done` function that `Spec.Loop` runs with the
answer.
-/

namespace Whatsvelte

/-- Messages kept in memory for chats that are not open. -/
def RESIDENT_TAIL : ℕ := 20

/-- Messages paged in per scroll-up or on open. -/
def PAGE : ℕ := 50

/-- Upper bound on the initial load of a chat with many unread messages. -/
def MAX_INITIAL : ℕ := 500

def EARLY_RECEIPTS_MAX : ℕ := 500

/-- The resident messages of a chat. -/
def messagesFor (w : World) (jid : Jid) : List Obj := (w.byChat jid).getD []

/-- `messagesByChat.set(jid, arr)`. -/
def World.setList (w : World) (jid : Jid) (arr : List Obj) : World :=
  { w with byChat := Function.update w.byChat jid (some arr) }

/-- Whether a list holds a message with this id. -/
def hasId (arr : List Obj) (id : MsgId) : Bool := arr.any (fun o => o.msg.id = id)

/-- The first message with this id. -/
def findId (arr : List Obj) (id : MsgId) : Option Obj := arr.find? (fun o => o.msg.id = id)

/-- Replace the first message with this id. -/
def replaceId (arr : List Obj) (id : MsgId) (o : Obj) : List Obj :=
  replaceFirst (fun x => x.msg.id = id) o arr

/-- Whether `commit` cuts the list of a chat down to the resident tail. -/
def trims (w : World) (jid : Jid) (arr : List Obj) : Bool :=
  w.activeJid ≠ some jid && arr.length > RESIDENT_TAIL

/-- Sort, trim to the resident tail when the chat is not open, and publish. -/
def commit (w : World) (jid : Jid) (arr : List Obj) : World :=
  let sorted := sortByTime arr
  { w with
    byChat := Function.update w.byChat jid <| some <|
      if trims w jid arr then lastN RESIDENT_TAIL sorted else sorted
    exhausted := if trims w jid arr then Function.update w.exhausted jid false else w.exhausted }

/-- `written.forEach(persistMessage)`. -/
def persistAll (q : Queue) (written : List Obj) : Queue := written.foldl persistMessage q

/-! ## Loops that rewrite messages in place -/

/-- The outcome of a loop over a list that replaces some of its messages: the new
list, the replaced messages, the loop's own state and the next object identity. -/
structure Swept (σ : Type) where
  arr : List Obj
  written : List Obj
  state : σ
  ref : ℕ

/-- Run `g` over the messages of a list in order; `some m` replaces the message. -/
def sweep {σ : Type} (g : σ → UiMessage → σ × Option UiMessage) : σ → ℕ → List Obj → Swept σ
  | s, ref, [] => ⟨[], [], s, ref⟩
  | s, ref, o :: l =>
    match g s o.msg with
    | (s, some m) =>
      let r := sweep g s (ref + 1) l
      ⟨⟨ref, m⟩ :: r.arr, ⟨ref, m⟩ :: r.written, r.state, r.ref⟩
    | (s, none) =>
      let r := sweep g s ref l
      ⟨o :: r.arr, r.written, r.state, r.ref⟩

/-- Newest first, the first `n` incoming messages. -/
def flagNewest : ℕ → List Obj → List Bool
  | _, [] => []
  | n, o :: l =>
    if !o.msg.fromMe && 0 < n then true :: flagNewest (n - 1) l else false :: flagNewest n l

/-- Set the unread flag of one message to the head of the mask. -/
def setUnread : List Bool → UiMessage → List Bool × Option UiMessage
  | [], _ => ([], none)
  | b :: mask, m =>
    (mask, if m.unread.getD false ≠ b then some { m with unread := some b } else none)

/-- Flag the last `chat.unread` incoming messages as unread and the rest as read. -/
def applyUnreadFlags (w : World) (jid : Jid) (arr : List Obj) : Swept (List Bool) :=
  let count := (w.chats.get jid).elim 0 (·.unread)
  sweep setUnread (flagNewest count arr.reverse).reverse w.nextRef arr

def syncUnreadFlagForChat (w : World) (jid : Jid) : World :=
  match w.byChat jid with
  | none => w
  | some arr =>
    let r := applyUnreadFlags w jid arr
    if r.written.isEmpty then w
    else commit { w with q := persistAll w.q r.written, nextRef := r.ref } jid r.arr

/-! ## Deliveries -/

/-- An own message that the server echoes matches this bubble. -/
def matchesEcho (m : UiMessage) (x : Obj) : Bool :=
  x.msg.status = some .sending && isTmp x.msg.id && x.msg.kind = m.kind && x.msg.text = m.text &&
    x.msg.quoted.map (·.id) = m.quoted.map (·.id)

/-- The stored copy with the media of the fresh one where it has none. -/
def adopted (stored fresh : UiMessage) : UiMessage :=
  { stored with
    media := stored.media.or fresh.media
    thumbnail := stored.thumbnail.or fresh.thumbnail }

/-- The rest of `adoptStored` once the stored copy is known. -/
def adoptStoredDone (w : World) (fresh : Obj) (stored : Option UiMessage) : World :=
  match stored, w.byChat fresh.msg.chatJid with
  | some s, some arr =>
    match findId arr fresh.msg.id with
    | none => w
    | some cur =>
      if cur.ref ≠ fresh.ref then w
      else
        let o : Obj := ⟨w.nextRef, adopted s fresh.msg⟩
        let q := if o.msg.media ≠ s.media then persistMessage w.q o else w.q
        commit { w with q := q, nextRef := w.nextRef + 1 } fresh.msg.chatJid
          (replaceId arr fresh.msg.id o)
  | _, _ => w

/-- A message that looks new adopts its stored copy, if there is one. -/
def adoptStored (w : World) (fresh : Obj) : World :=
  match w.q.pending.get fresh.key with
  | some (.put m) => adoptStoredDone w fresh (some m.msg)
  | some (.del _ _) => w
  | _ => w.enqueue (.adopt fresh)

/-- Incoming messages start unread unless they say otherwise. -/
def startUnread (m : UiMessage) : UiMessage :=
  if !m.fromMe && m.unread.isNone then { m with unread := some true } else m

/-- `addMessage` for a message that is not resident and no echo of a bubble. -/
def insertNew (w : World) (o : Obj) (arr : List Obj) : World :=
  let w := commit { w with q := persistMessageInsert w.q o } o.msg.chatJid (arr ++ [o])
  if o.msg.id ≠ "" && !w.exhausted o.msg.chatJid then adoptStored w o else w

/-- `addMessage` for a message that is already resident: only missing media is taken. -/
def refreshMedia (w : World) (m : UiMessage) (arr : List Obj) (existing : Obj) : World :=
  if m.media.isSome && existing.msg.media.isNone then
    let o : Obj := ⟨w.nextRef, { existing.msg with
      media := m.media, thumbnail := m.thumbnail.or existing.msg.thumbnail }⟩
    commit { w with q := persistMessage w.q o, nextRef := w.nextRef + 1 } m.chatJid
      (replaceId arr m.id o)
  else w

def addMessage (w : World) (m : UiMessage) : World :=
  if isBlankMessage m then w
  else
    let arr := messagesFor w m.chatJid
    let w := w.setList m.chatJid arr
    let m := startUnread m
    match if m.id ≠ "" then findId arr m.id else none with
    | some existing => refreshMedia w m arr existing
    | none =>
      if m.fromMe && arr.any (matchesEcho m) then
        let o : Obj := ⟨w.nextRef, { m with status := some .sent }⟩
        commit { w with q := persistMessage w.q o, nextRef := w.nextRef + 1 } m.chatJid
          (replaceFirst (matchesEcho m) o arr)
      else insertNew { w with nextRef := w.nextRef + 1 } ⟨w.nextRef, m⟩ arr

/-- One message of a bulk insert; the second component is the touched chats. -/
def historyPush (persist : Bool) (st : World × List Jid) (o : Obj) : World × List Jid :=
  if isBlankMessage o.msg then st
  else
    let jid := o.msg.chatJid
    let arr := messagesFor st.1 jid
    let touched := if jid ∈ st.2 then st.2 else st.2 ++ [jid]
    if o.msg.id ≠ "" && hasId arr o.msg.id then (st.1.setList jid arr, touched)
    else
      ({ st.1.setList jid (arr ++ [o]) with
        q := if persist then persistMessage st.1.q o else st.1.q }, touched)

/-- Flag unread on the full batch of a touched chat, then trim. -/
def historyFinish (w : World) (jid : Jid) : World :=
  let r := applyUnreadFlags w jid (sortByTime (messagesFor w jid))
  commit { w with q := persistAll w.q r.written, nextRef := r.ref } jid r.arr

/-- Bulk insert; `persist` is false for rows that came from the database. -/
def addHistoryMessages (w : World) (list : List Obj) (persist : Bool) : World :=
  let st := list.foldl (historyPush persist) (w, [])
  st.2.foldl historyFinish st.1

/-! ## Reading -/

def markMessageRead (w : World) (jid : Jid) (messageId : MsgId) : World :=
  match w.byChat jid with
  | none => w
  | some arr =>
    match findId arr messageId with
    | none => w
    | some x =>
      if x.msg.unread = some true then
        let o : Obj := ⟨w.nextRef, { x.msg with unread := some false }⟩
        decrementUnread
          (commit { w with q := persistMessage w.q o, nextRef := w.nextRef + 1 } jid
            (replaceId arr messageId o)) jid 1
      else w

/-- Mark one message of a batch read, counting. -/
def markRead (ids : List MsgId) (n : ℕ) (m : UiMessage) : ℕ × Option UiMessage :=
  if m.id ∈ ids ∧ m.unread = some true then (n + 1, some { m with unread := some false })
  else (n, none)

def markMessagesRead (w : World) (jid : Jid) (messageIds : List MsgId) : World :=
  match w.byChat jid with
  | none => w
  | some arr =>
    let r := sweep (markRead messageIds) 0 w.nextRef arr
    if 0 < r.state then
      decrementUnread (commit { w with q := persistAll w.q r.written, nextRef := r.ref } jid r.arr) jid
        r.state
    else w

/-! ## Sends -/

/-- The id of an optimistic bubble; `r` is the random part. -/
def tempId (r : String) : MsgId := "tmp-" ++ r

/-- Optimistic bubble of an outgoing text at time `now`. -/
def textBubble (jid : Jid) (r : String) (now : ℤ) (text : String) (quoted : Option QuotedDto) :
    UiMessage :=
  { id := tempId r, chatJid := jid, senderJid := "", fromMe := true, timestamp := now,
    text := some text, kind := .text, quoted := quoted, status := some .sending }

/-- Optimistic bubble of an outgoing media message. -/
def mediaBubble (jid : Jid) (r : String) (now : ℤ) (kind : MessageKind)
    (text thumbnail : Option String) : UiMessage :=
  { id := tempId r, chatJid := jid, senderJid := "", fromMe := true, timestamp := now,
    text := text, kind := kind, thumbnail := thumbnail, status := some .sending }

def addOptimistic (w : World) (jid : Jid) (r : String) (now : ℤ) (text : String)
    (quoted : Option QuotedDto) : World := addMessage w (textBubble jid r now text quoted)

def addOptimisticMedia (w : World) (jid : Jid) (r : String) (now : ℤ) (kind : MessageKind)
    (text thumbnail : Option String) : World := addMessage w (mediaBubble jid r now kind text thumbnail)

/-- The server accepted a send and gave it its id. -/
def confirmOptimistic (w : World) (jid : Jid) (tempId realId : MsgId) : World :=
  match w.byChat jid with
  | none => w
  | some arr =>
    match findId arr tempId with
    | none => w
    | some x =>
      if hasId arr realId then commit w jid (arr.eraseP (fun o => o.msg.id = tempId))
      else
        let early := (w.earlyReceipts.get realId).map (·.2)
        let status := early.elim .sent fun s => if s.rank > MessageStatus.sent.rank then s else .sent
        let o : Obj := ⟨w.nextRef, { x.msg with id := realId, status := some status }⟩
        commit { w with
          earlyReceipts := w.earlyReceipts.erase realId
          q := persistMessage w.q o
          nextRef := w.nextRef + 1 } jid (replaceId arr tempId o)

/-- The send call failed. -/
def failOptimistic (w : World) (jid : Jid) (tempId : MsgId) : World :=
  match w.byChat jid with
  | none => w
  | some arr =>
    match findId arr tempId with
    | none => w
    | some x =>
      { w with nextRef := w.nextRef + 1 }.setList jid
        (replaceId arr tempId ⟨w.nextRef, { x.msg with status := some .failed }⟩)

/-- Put a message back as it was before a change that the server rejected. -/
def restoreMessage (w : World) (original : Obj) : World :=
  let jid := original.msg.chatJid
  let w' := { w with q := persistMessage w.q original }
  if hasId (messagesFor w jid) original.msg.id then
    w'.setList jid (replaceId (messagesFor w jid) original.msg.id original)
  else commit w' jid (messagesFor w jid ++ [original])

/-! ## Paging -/

/-- Whether older messages may exist in IndexedDB beyond what is in memory. -/
def hasOlder (w : World) (jid : Jid) : Bool := !w.exhausted jid

/-- Page up to `count` older messages in; concurrent calls share one read. -/
def loadOlder (w : World) (jid : Jid) (count : ℕ) : World :=
  if w.loadingOlder jid || w.exhausted jid then w
  else
    let before := messagesFor w jid
    let oldestTs := before.head?.map (·.msg.timestamp)
    let sameSecond := (before.filter (fun o => some o.msg.timestamp = oldestTs)).length
    { w with loadingOlder := Function.update w.loadingOlder jid true }.enqueue
      (.page jid (count + sameSecond) oldestTs)

/-- The rest of `loadOlder` when its read has run. -/
def loadOlderDone (w : World) (jid : Jid) (limit : ℕ) (beforeTs : Option ℤ) : World :=
  let rows := loadLatestMessages w jid limit beforeTs
  let cur := messagesFor w jid
  let fresh := rows.filter (fun o => !hasId cur o.msg.id)
  { w with
    exhausted := if rows.length < limit then Function.update w.exhausted jid true else w.exhausted
    byChat := if fresh.isEmpty then w.byChat
      else Function.update w.byChat jid (some (sortByTime (fresh ++ cur)))
    loadingOlder := Function.update w.loadingOlder jid false
    nextRef := w.nextRef + (readLatest w.msgs jid limit beforeTs).length }

/-- A chat was opened: page in enough to show the unread messages. -/
def openChat (w : World) (jid : Jid) : World :=
  let unread := (w.chats.get jid).elim 0 (·.unread)
  let want := min MAX_INITIAL (max PAGE (unread + 10))
  let resident := (messagesFor w jid).length
  if resident < want ∧ w.exhausted jid = false then
    loadOlder { w with opening := Function.update w.opening jid true } jid (want - resident)
  else syncUnreadFlagForChat w jid

/-- The rest of `openChat` when its page is there. -/
def openChatDone (w : World) (jid : Jid) : World :=
  if w.opening jid then
    syncUnreadFlagForChat { w with opening := Function.update w.opening jid false } jid
  else w

/-- A chat was closed: drop its paged-in history back to the resident tail. -/
def closeChat (w : World) (jid : Jid) : World :=
  if w.activeJid = some jid then w
  else
    match w.byChat jid with
    | none => w
    | some arr =>
      if arr.length > RESIDENT_TAIL then
        { w with exhausted := Function.update w.exhausted jid false }.setList jid
          (lastN RESIDENT_TAIL arr)
      else w

/-- Drop the open chat's history down to its newest `keep` messages. -/
def trimChat (w : World) (jid : Jid) (keep : ℕ) : World :=
  match w.byChat jid with
  | none => w
  | some arr =>
    if arr.length ≤ keep then w
    else { w with exhausted := Function.update w.exhausted jid false }.setList jid (lastN keep arr)

/-- Forget everything in memory. -/
def clearMessages (w : World) : World :=
  { w with
    earlyReceipts := .empty
    byChat := fun _ => none
    exhausted := fun _ => false
    loadingOlder := fun _ => false }

/-- Move one message to another chat key, unless that holds its id already. -/
def mergePush (fromJid toJid : Jid) (st : List Obj × ℕ) (o : Obj) : List Obj × ℕ :=
  if o.msg.id ≠ "" && hasId st.1 o.msg.id then st
  else (st.1 ++ [⟨st.2, rekey fromJid toJid o.msg⟩], st.2 + 1)

/-- Move the resident messages of one chat key into another. -/
def mergeMessages (w : World) (fromJid toJid : Jid) : World :=
  let src := messagesFor w fromJid
  let w := { w with
    byChat := Function.update w.byChat fromJid none
    exhausted := Function.update w.exhausted fromJid false }
  if src.isEmpty then w
  else
    let merged := src.foldl (mergePush fromJid toJid) (messagesFor w toJid, w.nextRef)
    commit { w with
      exhausted := Function.update w.exhausted toJid false
      nextRef := merged.2 } toJid merged.1

/-! ## Updates -/

/-- Keep a receipt for an id that is not known yet. -/
def rememberEarlyReceipt (w : World) (id : MsgId) (status : MessageStatus) : World :=
  match w.earlyReceipts.get id with
  | some (_, prev) =>
    if prev.rank ≥ status.rank then w
    else { w with earlyReceipts := bounded ((w.earlyReceipts.erase id).set (id, status)) }
  | none => { w with earlyReceipts := bounded (w.earlyReceipts.set (id, status)) }
where
  /-- Drop the oldest entry of a full map. -/
  bounded (t : Table (Prod.fst : MsgId × MessageStatus → MsgId)) :=
    if t.rows.length > EARLY_RECEIPTS_MAX then t.drop 1 else t

/-- The tombstone of a message that was never seen. -/
def tombstone (k : Key) (f : Fallback) : UiMessage :=
  { id := k.id, chatJid := k.chatJid, senderJid := f.senderJid, fromMe := f.fromMe,
    timestamp := f.timestamp, kind := .other, deleted := true }

/-- The end of `applyRevoke` when nothing was found. -/
def insertTombstone (w : World) (k : Key) (f : Fallback) : World :=
  let cur := messagesFor w k.chatJid
  if hasId cur k.id then w.setList k.chatJid cur
  else
    let o : Obj := ⟨w.nextRef, tombstone k f⟩
    commit { w with q := persistMessage w.q o, nextRef := w.nextRef + 1 } k.chatJid (cur ++ [o])

/-- What the caller of `patchPersistedMessage` does with the answer. -/
def afterPatch (w : World) (k : Key) (found : Bool) : AfterPatch → World
  | .ignore => w
  | .tombstone none => w
  | .tombstone (some f) => if found then w else insertTombstone w k f
  | .early status => if found then w else rememberEarlyReceipt w k.id status

/-- `patchPersistedMessage(…).then(…)`. -/
def patchThen (w : World) (k : Key) (fn : Patch) (after : AfterPatch) : World :=
  match patchPersistedMessage w k fn after with
  | (w, some found) => afterPatch w k found after
  | (w, none) => w

/-- Mark a message deleted for everyone, inserting a tombstone if it is unseen. -/
def applyRevoke (w : World) (jid : Jid) (targetId : MsgId) (fallback : Option Fallback) : World :=
  match findId (messagesFor w jid) targetId, w.byChat jid with
  | some x, some arr =>
    match Patch.revoke.apply x.msg with
    | none => w
    | some m =>
      let o : Obj := ⟨w.nextRef, m⟩
      commit { w with q := persistMessage w.q o, nextRef := w.nextRef + 1 } jid
        (replaceId arr targetId o)
  | _, _ => patchThen w ⟨jid, targetId⟩ .revoke (.tombstone fallback)

/-- Remove a message entirely (delete-for-me). -/
def removeMessage (w : World) (jid : Jid) (targetId : MsgId) : World :=
  { w with
    q := persistMessageDelete w.q jid targetId
    byChat := Function.update w.byChat jid
      ((w.byChat jid).map (·.filter (fun o => o.msg.id ≠ targetId))) }

/-- Apply `fn` to a message, in memory when resident, else to the stored record. -/
def updateMessage (w : World) (jid : Jid) (targetId : MsgId) (fn : Patch) : World :=
  match findId (messagesFor w jid) targetId, w.byChat jid with
  | some x, some arr =>
    match fn.apply x.msg with
    | none => w
    | some m =>
      let o : Obj := ⟨w.nextRef, m⟩
      { w with q := persistMessage w.q o, nextRef := w.nextRef + 1 }.setList jid
        (replaceId arr targetId o)
  | _, _ => patchThen w ⟨jid, targetId⟩ fn .ignore

def applyEdit (w : World) (jid : Jid) (targetId : MsgId) (text : Option String) (editedAt : ℤ) :
    World := updateMessage w jid targetId (.edit text editedAt)

def applyReaction (w : World) (jid : Jid) (targetId : MsgId) (reactor : Jid) (emoji : String) :
    World := updateMessage w jid targetId (.reaction reactor emoji)

/-- Upgrade one message named by a receipt; the state is the ids still missing. -/
def upgrade (status : MessageStatus) (missing : List MsgId) (m : UiMessage) :
    List MsgId × Option UiMessage :=
  if m.id ∈ missing then (missing.erase m.id, (Patch.receipt status).apply m) else (missing, none)

/-- `new Set(ids)`. -/
def idSet (ids : List MsgId) : List MsgId :=
  ids.foldl (fun s id => if id ∈ s then s else s ++ [id]) []

/-- Upgrade the delivery status of the given messages. -/
def applyReceipt (w : World) (jid : Jid) (ids : List MsgId) (status : MessageStatus) : World :=
  let r := sweep (upgrade status) (idSet ids) w.nextRef (messagesFor w jid)
  let w' : World := { w with
    q := persistAll w.q r.written
    nextRef := r.ref
    byChat := if r.written.isEmpty then w.byChat else Function.update w.byChat jid (some r.arr) }
  r.state.foldl (fun w id => patchThen w ⟨jid, id⟩ (.receipt status) (.early status)) w'

end Whatsvelte
