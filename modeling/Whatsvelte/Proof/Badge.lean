import Whatsvelte.Proof.Twice
import Whatsvelte.Proof.UnreadFlags

/-!
# The unread badge

`chat.unread` and the `unread` flags live in two stores. `badge_equals_unread`: over every run of new
messages, read marks, revokes and removals, the counter of the open chat stays the number of its
resident messages that are flagged, if no message that is flagged is removed (`BadgeSafe`): `removeMessage`
leaves the counter. A later `syncUnreadFlagForChat` flags no message that has been read if and only if none
of those is among the newest `chat.unread` incoming messages.
-/

namespace Whatsvelte

open List

variable {w v u : World} {c jid : Jid} {id : MsgId} {m : UiMessage} {o x : Obj} {arr : List Obj} {k : Key}

/-! ## Counter and flags -/

/-- `chat.unread`. -/
def unreadOf (w : World) (c : Jid) : ℕ := (w.chats.get c).elim 0 (·.unread)

/-- The number of resident messages that are flagged unread. -/
def flaggedOf (w : World) (c : Jid) : ℕ := (messagesFor w c).countP Obj.flagged

/-- The chat is open, and its badge shows the messages that are flagged. -/
structure Badge (c : Jid) (w : World) : Prop where
  active : w.activeJid = some c
  equal : unreadOf w c = flaggedOf w c

/-- Neither the counter nor the number of flags changes. -/
structure Steady (c : Jid) (w v : World) : Prop where
  active : v.activeJid = w.activeJid
  unread : unreadOf v c = unreadOf w c
  flagged : w.activeJid = some c → flaggedOf v c = flaggedOf w c

theorem Badge.steady (h : Badge c w) (hs : Steady c w v) : Badge c v :=
  ⟨hs.active.trans h.active, by rw [hs.unread, hs.flagged h.active, h.equal]⟩

theorem Steady.trans (h : Steady c w v) (h' : Steady c v u) : Steady c w u :=
  ⟨h'.active.trans h.active, h'.unread.trans h.unread,
    fun ha => (h'.flagged (h.active.trans ha)).trans (h.flagged ha)⟩

theorem steady_of_eq (ha : v.activeJid = w.activeJid := by rfl) (hc : v.chats = w.chats := by rfl)
    (hb : v.byChat = w.byChat := by rfl) : Steady c w v :=
  ⟨ha, by rw [unreadOf, hc]; rfl, fun _ => by rw [flaggedOf, messagesFor, hb]; rfl⟩

theorem Idle.steady (h : Idle w v) : Steady c w v := steady_of_eq h.active h.chats h.byChat

/-- Another chat is written. -/
theorem OneChat.steady (h : OneChat jid w v) (hne : c ≠ jid) : Steady c w v :=
  ⟨h.active, by rw [unreadOf, h.chats c hne]; rfl,
    fun _ => by rw [flaggedOf, messagesFor, h.byChat c hne]; rfl⟩

/-- The list of one chat is written. -/
theorem OneList.steady (h : OneList jid w v)
    (hf : w.activeJid = some jid → flaggedOf v jid = flaggedOf w jid) : Steady c w v := by
  by_cases hc : c = jid
  · subst hc
    exact ⟨h.active, by rw [unreadOf, h.chats]; rfl, hf⟩
  · exact h.oneChat.steady hc

/-- An open chat is published in full. -/
theorem flaggedOf_commit (ha : w.activeJid = some jid) (arr : List Obj) :
    flaggedOf (commit w jid arr) jid = arr.countP Obj.flagged := by
  rw [flaggedOf, messagesFor_commit, if_pos rfl]
  exact (committed_perm (.inl ha)).countP_eq _

/-- A message is replaced by one with the same flag. -/
theorem countP_replaceId (hx : findId arr id = some x) (ho : o.flagged = x.flagged) :
    (replaceId arr id o).countP Obj.flagged = arr.countP Obj.flagged := by
  have h := countP_replaceFirst (q := Obj.flagged) hx o
  rw [ho] at h
  exact Nat.add_right_cancel h

/-! ## New messages -/

/-- The message is new to its chat: it is not resident and no full write of it is queued. A bubble that
it echoes is not flagged. -/
def NewMessage (w : World) (m : UiMessage) : Prop :=
  (m.id = "" ∨ (w.slot m.key).resident = none) ∧ (∀ n, w.q.pending.get m.key ≠ some (.put n)) ∧
    ∀ x ∈ messagesFor w m.chatJid, matchesEcho m x = true → x.flagged = false

instance (r : Option PendingOp) : Decidable (∀ n, r ≠ some (.put n)) :=
  match r with
  | some (.put n) => isFalse fun h => h n rfl
  | some (.add _) => isTrue fun _ h => nomatch h
  | some (.del _ _) => isTrue fun _ h => nomatch h
  | none => isTrue fun _ h => nomatch h

instance (w : World) (m : UiMessage) : Decidable (NewMessage w m) := by
  unfold NewMessage
  infer_instance

theorem flagged_startUnread (hun : m.unread = none) (r : ℕ) : Obj.flagged ⟨r, startUnread m⟩ = !m.fromMe := by
  cases hme : m.fromMe <;> simp [Obj.flagged, startUnread, hme, hun]

theorem flaggedOf_insertNew (ha : w.activeJid = some o.msg.chatJid)
    (hput : ∀ n, w.q.pending.get o.key ≠ some (.put n)) (arr : List Obj) :
    flaggedOf (insertNew w o arr) o.msg.chatJid = arr.countP Obj.flagged + o.flagged.toNat := by
  have hcommit := flaggedOf_commit ha (arr ++ [o])
  have hsum : (arr ++ [o]).countP Obj.flagged = arr.countP Obj.flagged + o.flagged.toNat := by
    rw [countP_append, countP_singleton]
    cases o.flagged <;> rfl
  rw [← hsum, ← hcommit]
  unfold insertNew
  dsimp only
  split
  · unfold adoptStored
    split
    · rename_i n hn
      exact absurd (get_insert_put.1 hn) (hput n)
    · rfl
    · rfl
  · rfl

/-- **A new message** is flagged if it is incoming. -/
theorem flaggedOf_addMessage (ha : w.activeJid = some m.chatJid) (hun : m.unread = none)
    (hb : isBlankMessage m = false) (hnew : NewMessage w m) :
    flaggedOf (addMessage w m) m.chatJid = flaggedOf w m.chatJid + (!m.fromMe).toNat := by
  obtain ⟨hres, hput, hecho⟩ := hnew
  have hnone : (if m.id ≠ "" then findId (messagesFor w m.chatJid) m.id else none) = none := by
    split
    · rename_i hid
      exact hres.resolve_left hid
    · rfl
  unfold addMessage
  simp only [hb, Bool.false_eq_true, if_false, startUnread_id, startUnread_chatJid]
  rw [hnone]
  simp only [matchesEcho_startUnread, fromMe_startUnread]
  split
  · rename_i hany
    rw [Bool.and_eq_true] at hany
    obtain ⟨x, hx⟩ := List.find?_isSome.2 (any_eq_true.1 hany.2) |> Option.isSome_iff_exists.1
    have hxf := hecho x (mem_of_find?_eq_some hx) (find?_some hx)
    have hcount : ∀ o : Obj, o.flagged = false →
        (replaceFirst (matchesEcho m) o (messagesFor w m.chatJid)).countP Obj.flagged =
          flaggedOf w m.chatJid := by
      intro o ho
      have h := countP_replaceFirst (q := Obj.flagged) hx o
      rwa [ho, hxf] at h
    have hown : (!m.fromMe).toNat = 0 := by rw [hany.1]; rfl
    rw [flaggedOf_commit (by exact ha), hown]
    exact hcount _ (by simp [Obj.flagged, startUnread, hany.1, hun])
  · let o : Obj := ⟨w.nextRef, startUnread m⟩
    have hkey : o.key = m.key := startUnread_key m
    have hins := flaggedOf_insertNew (w := { w.setList m.chatJid (messagesFor w m.chatJid) with
      nextRef := w.nextRef + 1 }) (o := o) (by rwa [startUnread_chatJid])
      (by rwa [hkey]) (messagesFor w m.chatJid)
    rwa [startUnread_chatJid, flagged_startUnread hun] at hins

/-! ## Reading -/

theorem decrementUnread_frame (w : World) (jid : Jid) (n : ℕ) :
    (decrementUnread w jid n).byChat = w.byChat ∧ (decrementUnread w jid n).activeJid = w.activeJid ∧
      ∀ c, unreadOf (decrementUnread w jid n) c = unreadOf w c - if c = jid then n else 0 := by
  unfold decrementUnread
  split
  · rename_i hr
    refine ⟨rfl, rfl, fun c => ?_⟩
    split
    · rename_i hc
      rw [unreadOf, hc, hr]
      exact (Nat.zero_sub n).symm
    · rfl
  · rename_i r hr
    have hjid : r.jid = jid := Table.get_key hr
    split
    · rename_i he
      refine ⟨rfl, rfl, fun c => ?_⟩
      split
      · rename_i hc
        rw [unreadOf, hc, hr]
        exact he.symm
      · rfl
    · refine ⟨rfl, rfl, fun c => ?_⟩
      have hget : (schedulePersistChats (w.setChat { r with unread := r.unread - n })).chats.get c =
          if r.jid = c then some { r with unread := r.unread - n } else w.chats.get c := Table.get_set _ _ _
      rw [unreadOf, hget, hjid]
      by_cases hc : c = jid
      · rw [if_pos hc.symm, if_pos hc, unreadOf, hc, hr]
        rfl
      · rw [if_neg (Ne.symm hc), if_neg hc]
        rfl

/-- Messages of one chat are marked read, and the counter goes down by their number. -/
theorem badge_read {written : Queue} {ref n : ℕ} (h : Badge c w)
    (hcount : arr.countP Obj.flagged + n = flaggedOf w jid) :
    Badge c (decrementUnread (commit { w with q := written, nextRef := ref } jid arr) jid n) := by
  obtain ⟨hb, ha, hun⟩ := decrementUnread_frame (commit { w with q := written, nextRef := ref } jid arr) jid n
  refine ⟨ha.trans h.active, ?_⟩
  have hcommit : unreadOf (commit { w with q := written, nextRef := ref } jid arr) c = unreadOf w c := rfl
  have hlist : flaggedOf (decrementUnread (commit { w with q := written, nextRef := ref } jid arr) jid n) c =
      flaggedOf (commit { w with q := written, nextRef := ref } jid arr) c := by
    rw [flaggedOf, messagesFor, hb]
    rfl
  rw [hun, hcommit, hlist, h.equal]
  by_cases hc : c = jid
  · subst hc
    rw [if_pos rfl, flaggedOf_commit (by exact h.active)]
    omega
  · rw [if_neg hc, flaggedOf, flaggedOf, messagesFor_commit, if_neg hc]
    rfl

theorem badge_markMessageRead (h : Badge c w) (jid : Jid) (id : MsgId) :
    Badge c (markMessageRead w jid id) := by
  unfold markMessageRead
  split
  · exact h
  · rename_i arr harr
    split
    · exact h
    · rename_i x hx
      split
      · rename_i hun
        refine badge_read h ?_
        have hcount := countP_replaceFirst (q := Obj.flagged) hx
          ⟨w.nextRef, { x.msg with unread := some false }⟩
        have hxf : x.flagged = true := by simp [Obj.flagged, hun]
        rw [hxf] at hcount
        rwa [flaggedOf, messagesFor_of_some harr]
      · exact h

/-- A batch counts the messages it marks. -/
theorem countP_markRead (ids : List MsgId) (arr : List Obj) : ∀ n ref,
    (sweep (markRead ids) n ref arr).arr.countP Obj.flagged + (sweep (markRead ids) n ref arr).state =
      arr.countP Obj.flagged + n := by
  induction arr with
  | nil => intro n ref; rfl
  | cons o arr ih =>
    intro n ref
    by_cases ho : o.msg.id ∈ ids ∧ o.msg.unread = some true
    · have hrest := ih (n + 1) (ref + 1)
      simp only [sweep, markRead, ho, and_self, if_true, countP_cons, Obj.flagged, decide_true] at hrest ⊢
      simp only [Option.some.injEq, decide_false, Bool.false_eq_true, if_false]
      omega
    · have hrest := ih n ref
      simp only [sweep, markRead, ho, if_false, countP_cons] at hrest ⊢
      omega

theorem badge_markMessagesRead (h : Badge c w) (jid : Jid) (ids : List MsgId) :
    Badge c (markMessagesRead w jid ids) := by
  unfold markMessagesRead
  split
  · exact h
  · rename_i arr harr
    dsimp only
    split
    · refine badge_read h ?_
      rw [flaggedOf, messagesFor_of_some harr]
      exact countP_markRead ids arr 0 w.nextRef
    · exact h

/-! ## Revokes and removals -/

/-- A message is rewritten and keeps its flag. -/
theorem replaced_steady (hx : findId (messagesFor w jid) id = some x) (ho : o.flagged = x.flagged)
    (q : Queue) (ref : ℕ) :
    OneList jid w (commit { w with q := q, nextRef := ref } jid (replaceId (messagesFor w jid) id o)) ∧
      Steady c w (commit { w with q := q, nextRef := ref } jid (replaceId (messagesFor w jid) id o)) := by
  have hone : OneList jid w (commit { w with q := q, nextRef := ref } jid
      (replaceId (messagesFor w jid) id o)) := oneList_update rfl rfl rfl rfl
  refine ⟨hone, hone.steady fun ha => ?_⟩
  rw [flaggedOf_commit (by exact ha), countP_replaceId hx ho]
  rfl

theorem oneList_patchPersistedMessage (w : World) (k : Key) (fn : Patch) (after : AfterPatch) :
    (patchPersistedMessage w k fn after).1.byChat = w.byChat ∧
      OneList k.chatJid w (patchPersistedMessage w k fn after).1 := by
  unfold patchPersistedMessage
  split
  · split
    · exact ⟨rfl, rfl, rfl, rfl, fun _ _ => rfl⟩
    · exact ⟨rfl, .refl _ _⟩
  · exact ⟨rfl, .refl _ _⟩
  · exact ⟨rfl, rfl, rfl, rfl, fun _ _ => rfl⟩
  · exact ⟨rfl, rfl, rfl, rfl, fun _ _ => rfl⟩

/-- A tombstone is not flagged. -/
theorem insertTombstone_steady (w : World) (k : Key) (f : Fallback) :
    OneList k.chatJid w (insertTombstone w k f) ∧ Steady c w (insertTombstone w k f) := by
  unfold insertTombstone
  dsimp only
  split
  · have hone : OneList k.chatJid w (w.setList k.chatJid (messagesFor w k.chatJid)) :=
      oneList_update rfl rfl rfl rfl
    refine ⟨hone, hone.steady fun _ => ?_⟩
    rw [flaggedOf, (Same.setList w k.chatJid).lists]
    rfl
  · have hone : OneList k.chatJid w (commit { w with
        q := persistMessage w.q ⟨w.nextRef, tombstone k f⟩, nextRef := w.nextRef + 1 } k.chatJid
        (messagesFor w k.chatJid ++ [⟨w.nextRef, tombstone k f⟩])) := oneList_update rfl rfl rfl rfl
    refine ⟨hone, hone.steady fun ha => ?_⟩
    rw [flaggedOf_commit (by exact ha), countP_append]
    rfl

theorem afterPatch_steady (w : World) (k : Key) (found : Bool) (after : AfterPatch) :
    OneList k.chatJid w (afterPatch w k found after) ∧ Steady c w (afterPatch w k found after) := by
  have hrefl : OneList k.chatJid w w ∧ Steady c w w := ⟨.refl _ _, steady_of_eq⟩
  cases after with
  | ignore => exact hrefl
  | tombstone f =>
    cases f with
    | none => exact hrefl
    | some f =>
      rw [afterPatch]
      split
      · exact hrefl
      · exact insertTombstone_steady w k f
  | early status =>
    obtain ⟨t, he⟩ := afterPatch_early w k found status
    rw [he]
    exact ⟨⟨rfl, rfl, rfl, fun _ _ => rfl⟩, steady_of_eq⟩

theorem patchThen_steady (w : World) (k : Key) (fn : Patch) (after : AfterPatch) :
    OneList k.chatJid w (patchThen w k fn after) ∧ Steady c w (patchThen w k fn after) := by
  obtain ⟨hb, hone⟩ := oneList_patchPersistedMessage w k fn after
  have hsteady : Steady c w (patchPersistedMessage w k fn after).1 := steady_of_eq hone.active hone.chats hb
  unfold patchThen
  split
  · rename_i v found hp
    rw [hp] at hone hsteady
    obtain ⟨h1, h2⟩ := afterPatch_steady v k found after
    exact ⟨hone.trans h1, hsteady.trans h2⟩
  · rename_i v hp
    rw [hp] at hone hsteady
    exact ⟨hone, hsteady⟩

/-- **A revoke** keeps the flag. -/
theorem applyRevoke_steady (w : World) (jid : Jid) (id : MsgId) (f : Option Fallback) :
    OneList jid w (applyRevoke w jid id f) ∧ Steady c w (applyRevoke w jid id f) := by
  unfold applyRevoke
  split
  · rename_i x arr hx harr
    let o : Obj := ⟨w.nextRef, { x.msg with
      deleted := true, text := none, thumbnail := none, reactions := none }⟩
    have h := replaced_steady (c := c) (o := o) hx rfl (persistMessage w.q o) (w.nextRef + 1)
    rwa [messagesFor_of_some harr] at h
  · exact patchThen_steady w ⟨jid, id⟩ .revoke (.tombstone f)

/-- No message with this id is flagged. -/
def Unflagged (w : World) (c : Jid) (id : MsgId) : Prop :=
  ∀ o ∈ messagesFor w c, o.msg.id = id → o.flagged = false

instance (w : World) (c : Jid) (id : MsgId) : Decidable (Unflagged w c id) :=
  inferInstanceAs (Decidable (∀ o ∈ messagesFor w c, _))

/-- **A removal** is right if and only if the message was not flagged. -/
theorem flaggedOf_removeMessage (w : World) (jid : Jid) (id : MsgId) :
    flaggedOf (removeMessage w jid id) jid = flaggedOf w jid ↔ Unflagged w jid id := by
  rw [flaggedOf, messagesFor_removeMessage, if_pos rfl, flaggedOf, countP_filter_eq_iff]
  simp [Unflagged]

theorem oneList_removeMessage (w : World) (jid : Jid) (id : MsgId) : OneList jid w (removeMessage w jid id) :=
  oneList_update rfl rfl rfl rfl

theorem steady_removeMessage (h : jid = c → Unflagged w c id) : Steady c w (removeMessage w jid id) := by
  by_cases hc : jid = c
  · subst hc
    exact (oneList_removeMessage w jid id).steady fun _ => (flaggedOf_removeMessage w jid id).2 (h rfl)
  · exact (oneList_removeMessage w jid id).oneChat.steady (Ne.symm hc)

/-! ## The event loop -/

/-- The move of the queue brings no stored message into the chat: it reads no page of it and no tails,
and a stored copy that is adopted has the flag of the copy in memory. -/
def FlagSafe (c : Jid) (w : World) : Prop :=
  match w.txq with
  | ⟨_, true, .page jid _ _, _⟩ :: _ => jid ≠ c
  | ⟨_, true, .tails _ _, _⟩ :: _ => False
  | ⟨_, true, .adopt fresh, _⟩ :: _ => fresh.msg.chatJid = c → ∀ s ∈ w.msgs.get fresh.key,
      ∀ cur ∈ (w.slot fresh.key).resident, cur.ref = fresh.ref → (s.unread = some true ↔ cur.flagged = true)
  | _ => True

instance (c : Jid) (w : World) : Decidable (FlagSafe c w) := by
  unfold FlagSafe
  match w.txq with
  | [] => infer_instance
  | ⟨_, false, _, _⟩ :: _ => infer_instance
  | ⟨_, true, job, _⟩ :: _ => induction job using Job.casesOn <;> infer_instance

theorem oneList_syncUnreadFlagForChat (w : World) (jid : Jid) :
    OneList jid w (syncUnreadFlagForChat w jid) := by
  unfold syncUnreadFlagForChat
  split
  · exact .refl _ _
  · dsimp only
    split
    · exact .refl _ _
    · exact oneList_update rfl rfl rfl rfl

theorem oneList_loadOlderDone (w : World) (jid : Jid) (limit : ℕ) (beforeTs : Option ℤ) :
    OneList jid w (loadOlderDone w jid limit beforeTs) := by
  refine ⟨rfl, rfl, rfl, fun j hj => ?_⟩
  unfold loadOlderDone
  dsimp only
  split
  · rfl
  · exact Function.update_of_ne hj _ _

theorem oneList_openChatDone (w : World) (jid : Jid) : OneList jid w (openChatDone w jid) := by
  unfold openChatDone
  split
  · have hopen : OneList jid w { w with opening := Function.update w.opening jid false } :=
      ⟨rfl, rfl, rfl, fun _ _ => rfl⟩
    exact hopen.trans (oneList_syncUnreadFlagForChat _ jid)
  · exact .refl _ _

theorem steady_adopt {fresh : Obj} {stored : Option UiMessage}
    (h : fresh.msg.chatJid = c → ∀ s ∈ stored, ∀ cur ∈ (w.slot fresh.key).resident,
      cur.ref = fresh.ref → (s.unread = some true ↔ cur.flagged = true)) :
    Steady c w (adoptStoredDone w fresh stored) := by
  rcases adoptStoredDone_cases w fresh stored with ⟨he, -⟩ | ⟨s, cur, hs, hcur, href, he⟩
  · rw [he]
    exact steady_of_eq
  · rw [he]
    by_cases hc : fresh.msg.chatJid = c
    · have hflag := h hc s hs cur hcur href
      refine (replaced_steady hcur ?_ _ _).2
      rw [Bool.eq_iff_iff, ← hflag]
      exact decide_eq_true_iff
    · rw [← he]
      exact (oneList_adoptStoredDone w fresh stored).oneChat.steady (Ne.symm hc)

/-- **A move of the queue.** -/
theorem steady_advance (h : FlagSafe c w) : Steady c w (advance w) := by
  have hpop : ∀ later, Steady c w (w.popped later) := fun _ => steady_of_eq
  have hran := ran_advance w
  generalize advance w = v at hran ⊢
  cases hran with
  | idle => exact steady_of_eq
  | flush =>
    unfold flushSlice
    dsimp only
    split
    · exact steady_of_eq
    · split <;> exact steady_of_eq
  | patch => exact steady_of_eq
  | patched tid k found after ch later => exact (hpop later).trans (afterPatch_steady _ k found after).2
  | move => exact steady_of_eq
  | page tid jid limit beforeTs ch later ht =>
    rw [FlagSafe, ht] at h
    have hone := (oneList_loadOlderDone (w.popped later) jid limit beforeTs).trans (oneList_openChatDone _ jid)
    exact (hpop later).trans (hone.oneChat.steady (Ne.symm h))
  | tails tid jids n ch later ht =>
    rw [FlagSafe, ht] at h
    exact h.elim
  | adopt tid fresh ch later ht =>
    rw [FlagSafe, ht] at h
    exact (hpop later).trans (steady_adopt h)
  | _ => exact steady_of_eq

theorem steady_openNext (w : World) : Steady c w (openNext w) := by
  rcases openNext_cases w with he | ⟨before, t, later, -, -, ⟨-, he⟩ | ⟨-, ⟨s, k, q, fn, after, -, he⟩ | ⟨-, he⟩⟩⟩
  · rw [he]
    exact steady_of_eq
  · rw [he]
    exact steady_of_eq
  · rw [he]
    have hpop : Steady c w { w with txq := before ++ later } := steady_of_eq
    exact hpop.trans (afterPatch_steady _ k false after).2
  · rw [he]
    exact steady_of_eq

/-! ## Flagging again -/

/-- No incoming message that has been read is among the newest `n`. -/
def ReadIsOld (n : ℕ) (arr : List Obj) : Prop :=
  ∀ pre y post, arr = pre ++ y :: post → y.incoming = true → y.flagged = false →
    n ≤ post.countP Obj.incoming

theorem readIsOld_cons {n : ℕ} : ReadIsOld n (x :: arr) ↔
    (x.incoming = true → x.flagged = false → n ≤ arr.countP Obj.incoming) ∧ ReadIsOld n arr := by
  refine ⟨fun h => ⟨h [] x arr rfl, fun pre y post he => h (x :: pre) y post (by rw [he]; rfl)⟩, ?_⟩
  rintro ⟨hx, h⟩ pre y post he
  cases pre with
  | nil =>
    cases he
    exact hx
  | cons z pre =>
    rw [cons_append, List.cons.injEq] at he
    exact h pre y post he.2

/-- **What is flagged again.** -/
theorem flags_nothing_iff (n : ℕ) (arr : List Obj) : ∀ ref,
    (∀ o ∈ (sweep setUnread (newestMask n arr) ref arr).written, o.flagged = false) ↔ ReadIsOld n arr := by
  induction arr with
  | nil =>
    intro ref
    refine ⟨fun _ pre y post he => by simp at he, fun _ o ho => by simp [sweep] at ho⟩
  | cons x arr ih =>
    intro ref
    have hget : x.msg.unread.getD false = x.flagged := by
      rcases hun : x.msg.unread with _ | _ | _ <;> simp [Obj.flagged, hun]
    -- the head is to be flagged if it is one of the newest
    have hhead : (x.incoming && decide (arr.countP Obj.incoming < n)) = true ↔
        x.incoming = true ∧ arr.countP Obj.incoming < n := by simp
    rw [readIsOld_cons, newestMask]
    generalize hb : (x.incoming && decide (arr.countP Obj.incoming < n)) = b at hhead
    by_cases hf : x.flagged = b
    · have hkeep : sweep setUnread (b :: newestMask n arr) ref (x :: arr) =
          ⟨x :: (sweep setUnread (newestMask n arr) ref arr).arr,
            (sweep setUnread (newestMask n arr) ref arr).written,
            (sweep setUnread (newestMask n arr) ref arr).state,
            (sweep setUnread (newestMask n arr) ref arr).ref⟩ := by
        simp [sweep, setUnread, hget, hf]
      rw [hkeep, ih ref]
      refine ⟨fun h => ⟨fun hin hno => ?_, h⟩, And.right⟩
      rw [← hf, hno] at hhead
      by_contra hlt
      exact absurd (hhead.2 ⟨hin, by omega⟩) (by simp)
    · have hwrite : (sweep setUnread (b :: newestMask n arr) ref (x :: arr)).written =
          ⟨ref, { x.msg with unread := some b }⟩ ::
            (sweep setUnread (newestMask n arr) (ref + 1) arr).written := by
        simp [sweep, setUnread, hget, hf]
      rw [hwrite, forall_mem_cons, ih (ref + 1)]
      refine and_congr_left fun _ => ?_
      cases b with
      | true =>
        have hno : x.flagged = false := by simpa using hf
        obtain ⟨hin, hlt⟩ := hhead.1 rfl
        exact ⟨fun h => absurd h (by simp [Obj.flagged]), fun h => absurd (h hin hno) (by omega)⟩
      | false =>
        have hyes : x.flagged = true := by simpa using hf
        exact ⟨fun _ _ hno => absurd (hyes.symm.trans hno) (by decide), fun _ => by simp [Obj.flagged]⟩

/-! ## Every run -/

/-- The call belongs to the run: the badge of the chat is right after it if it was before. -/
def OpSafe (c : Jid) (w : World) : Step → Prop
  | .markMessageRead _ _ => True
  | .markMessagesRead _ _ => True
  | .applyRevoke _ _ _ => True
  | .removeMessage jid id => jid = c → Unflagged w c id
  | .flushPendingWrites => True
  | .msgTimer => True
  | .chatsTimer => True
  | .openNext => True
  | .advance => FlagSafe c w
  | _ => False

/-- The event belongs to the run: a message that is new to its chat, a revoke, a removal of a message
that is not flagged, or a call. It merges no chat. -/
def BadgeSafe (c : Jid) (w : World) : Event → Prop
  | .message m => Unified w m.chatJid m.senderJid ∧ (canonicalJid w m.chatJid = c →
      isBlankMessage (canonicalMessage w m) = true ∨ NewMessage w (canonicalMessage w m))
  | .messageUpdate u => u.kind = .revoke ∧ Unified w u.chatJid (u.senderJid.getD "")
  | .deleteForMe chatJid id => Unified w chatJid chatJid ∧ (canonicalJid w chatJid = c → Unflagged w c id)
  | .call e => OpSafe c w e
  | _ => False

instance (c : Jid) (w : World) (e : Step) : Decidable (OpSafe c w e) := by
  unfold OpSafe
  induction e using Step.casesOn <;> infer_instance

instance (c : Jid) (w : World) (ev : Event) : Decidable (BadgeSafe c w ev) := by
  unfold BadgeSafe
  induction ev using Event.casesOn <;> infer_instance

theorem unread_canonicalMessage (w : World) (m : MessageDto) : (canonicalMessage w m).unread = none := by
  unfold canonicalMessage
  dsimp only
  split <;> rfl

theorem unreadOf_receivedChats (w : World) (m : UiMessage) :
    unreadOf (receivedChats w m) m.chatJid = unreadOf w m.chatJid + (!m.fromMe).toNat := by
  have hmap : ((receivedChats w m).chats.get m.chatJid).map (·.unread) =
      some (unreadOf w m.chatJid + (!m.fromMe).toNat) := by
    have htouch : ((touchChat w m.chatJid m.text m.timestamp (!m.fromMe)).chats.get m.chatJid).map
        (·.unread) = some (unreadOf w m.chatJid + (!m.fromMe).toNat) := by
      have hget : (touchChat w m.chatJid m.text m.timestamp (!m.fromMe)).chats.get m.chatJid = _ :=
        (Table.get_set _ _ _).trans (if_pos rfl)
      rw [hget]
      cases m.fromMe <;> rfl
    unfold receivedChats
    split
    · rw [(setChatName_get _ _ _ _).1, htouch]
    · exact htouch
  obtain ⟨r, hr, hun⟩ := Option.map_eq_some_iff.1 hmap
  rwa [unreadOf, hr]

/-- **A new message** moves both by the same amount. -/
theorem badge_onMessage {m : MessageDto} (h : Badge c w) (hs : BadgeSafe c w (.message m)) :
    Badge c (onMessage w m) := by
  obtain ⟨hu, hnew⟩ := hs
  cases hb : isBlankMessage (canonicalMessage w m) with
  | true =>
    have hsame : onMessage w m = w := by simp [onMessage, hb]
    rwa [hsame]
  | false =>
    refine Badge.steady ?_ (idle_onMessage hu hb).steady
    have hadd := oneList_addMessage w (canonicalMessage w m)
    have hrec := oneChat_receivedChats (addMessage w (canonicalMessage w m)) (canonicalMessage w m)
    rw [← canonicalMessage_chatJid] at hnew
    by_cases hc : (canonicalMessage w m).chatJid = c
    · have hfresh := (hnew hc).resolve_left (by simp [hb])
      subst hc
      refine ⟨(hrec.active.trans hadd.active).trans h.active, ?_⟩
      have hflags : flaggedOf (receivedChats (addMessage w (canonicalMessage w m)) (canonicalMessage w m))
          (canonicalMessage w m).chatJid =
            flaggedOf (addMessage w (canonicalMessage w m)) (canonicalMessage w m).chatJid := by
        rw [flaggedOf, (same_receivedChats _ _).lists]
        rfl
      have hcounter : unreadOf (addMessage w (canonicalMessage w m)) (canonicalMessage w m).chatJid =
          unreadOf w (canonicalMessage w m).chatJid := by
        rw [unreadOf, hadd.chats]
        rfl
      rw [hflags, flaggedOf_addMessage h.active (unread_canonicalMessage w m) hb hfresh,
        unreadOf_receivedChats, hcounter, h.equal]
    · exact h.steady ((hadd.oneChat.trans hrec).steady (Ne.symm hc))

/-- **One event** keeps the badge right. -/
theorem badge_handle {ev : Event} (h : Badge c w) (hs : BadgeSafe c w ev) : Badge c (w.handle ev) := by
  cases ev with
  | message => exact badge_onMessage h hs
  | messageUpdate u =>
    obtain ⟨hk, hu⟩ := hs
    obtain ⟨hone, hsteady⟩ := applyRevoke_steady w (canonicalJid w u.chatJid) u.targetId
      (some ⟨canonicalJid w (u.senderJid.getD ""), u.fromMe, u.timestamp⟩)
    have heq : w.handle (.messageUpdate u) = unifySender (unifyLid (applyRevoke w (canonicalJid w u.chatJid)
        u.targetId (some ⟨canonicalJid w (u.senderJid.getD ""), u.fromMe, u.timestamp⟩)) u.chatJid none)
          (u.senderJid.getD "") u.chatJid := by
      simp only [World.handle, onMessageUpdate, hk]
    rw [heq]
    exact h.steady (hsteady.trans (idle_unify hu hone.oneChat).steady)
  | deleteForMe chatJid id =>
    obtain ⟨hu, hflag⟩ := hs
    have hone := (oneList_removeMessage w (canonicalJid w chatJid) id).oneChat
    have hidle := idle_unify hu hone
    rw [unifySender, if_neg (fun h => h.2 rfl)] at hidle
    exact h.steady ((steady_removeMessage hflag).trans hidle.steady)
  | call e =>
    cases e with
    | markMessageRead jid id => exact badge_markMessageRead h jid id
    | markMessagesRead jid ids => exact badge_markMessagesRead h jid ids
    | applyRevoke jid id f => exact h.steady (applyRevoke_steady w jid id f).2
    | removeMessage => exact h.steady (steady_removeMessage hs)
    | flushPendingWrites => exact h.steady (steady_of_eq)
    | msgTimer | chatsTimer =>
      simp only [World.handle, World.step]
      split
      · exact h.steady (steady_of_eq)
      · exact h
    | openNext => exact h.steady (steady_openNext w)
    | advance => exact h.steady (steady_advance hs)
    | _ => exact hs.elim
  | _ => exact hs.elim

/-- **The badge shows the unread messages.** From any state in which the chat is open and its badge is
right, over every run of events that meet `BadgeSafe`, the badge stays right. A later
`syncUnreadFlagForChat` flags no message that is not flagged if and only if no incoming message that has
been read is among the newest ones, as many as there are flags. -/
theorem badge_equals_unread (w : World) (c : Jid) (h : Badge c w) (evs : List Event)
    (ha : Along World.handle (BadgeSafe c) w evs) :
    Badge c (w.handleAll evs) ∧
      ((∀ o ∈ (applyUnreadFlags (w.handleAll evs) c (messagesFor (w.handleAll evs) c)).written,
          o.flagged = false) ↔
        ReadIsOld (flaggedOf (w.handleAll evs) c) (messagesFor (w.handleAll evs) c)) := by
  have hend : Badge c (w.handleAll evs) := ha.inv (fun _ _ => badge_handle) h
  refine ⟨hend, ?_⟩
  rw [← hend.equal, ← flags_nothing_iff _ _ (w.handleAll evs).nextRef, ← flagNewest_reverse]
  rfl

/-- A message to the open chat. -/
def dtoIn (id : MsgId) (ts : ℤ) : MessageDto :=
  { id := id, chatJid := chatA, senderJid := chatA, fromMe := false, timestamp := ts, text := some "hi" }

/-- The chat is open and empty. -/
def openA : World := World.init.step (.selectChat chatA)

/-- Two messages come in; the older one is read and then removed, the newer one revoked. -/
theorem badge_equals_unread_removed :
    unreadOf (openA.handleAll [.message (dtoIn "X" 5), .message (dtoIn "Y" 6),
      .call (.markMessagesRead chatA ["X", "Z"]), .deleteForMe chatA "X",
      .messageUpdate ⟨chatA, "Y", .revoke, none, none, false, 7⟩]) chatA = 1 := by
  rw [(badge_equals_unread openA chatA ⟨rfl, rfl⟩ _ (by decide +kernel)).1.equal]
  decide +kernel

/-- A message that is removed before it is read stays on the badge. And of two messages, the newer of which
has been read, it is that one that is flagged again. -/
theorem badge_counts_removed : Badge chatA openA ∧
    ¬ Badge chatA (openA.handleAll [.message (dtoIn "X" 5), .deleteForMe chatA "X"]) ∧
    ¬ ∀ o ∈ (applyUnreadFlags (openA.handleAll [.message (dtoIn "X" 5), .message (dtoIn "Y" 6),
        .call (.markMessageRead chatA "Y")]) chatA (messagesFor (openA.handleAll [.message (dtoIn "X" 5),
          .message (dtoIn "Y" 6), .call (.markMessageRead chatA "Y")]) chatA)).written,
      o.flagged = false := by
  refine ⟨⟨rfl, rfl⟩, fun h => ?_, ?_⟩
  · have hoff := h.equal
    revert hoff
    decide +kernel
  · decide +kernel

end Whatsvelte
