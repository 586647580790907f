import Whatsvelte.Proof.Slot

/-!
# Quiet store functions

The functions that are about no particular message: the chat list, reading marks,
opening, closing, trimming, paging requests and the start of a flush. For every key
they are `Quiet`; only the ones that sweep over a chat set unread flags, and only there.
-/

namespace Whatsvelte

open Function (update)

variable {P : Prop} {w v u : World} {k : Key} {jid : Jid}

/-! ## Code that does not touch messages -/

/-- Only the chat list, the open chat and the timer of the chat list differ. -/
def ChatsOnly (w v : World) : Prop :=
  ∃ c t a, v = { w with chats := c, chatsTimer := t, activeJid := a }

namespace ChatsOnly

theorem decrementUnread (w : World) (jid : Jid) (n : ℕ) : ChatsOnly w (decrementUnread w jid n) := by
  unfold Whatsvelte.decrementUnread
  repeat' split
  all_goals exact ⟨_, _, _, rfl⟩

theorem chat (w : World) (op : ChatOp) : ChatsOnly w (op.run w) := by
  unfold ChatOp.run markChatAsRead hydrateChat ensureChat applyChatFlags setChatFlag setChatName
  dsimp only
  repeat' split
  all_goals exact ⟨_, _, _, rfl⟩

theorem mergeChats (w : World) (fromJid toJid : Jid) : ChatsOnly w (mergeChats w fromJid toJid) := by
  unfold Whatsvelte.mergeChats
  split <;> exact ⟨_, _, _, rfl⟩

end ChatsOnly

/-- The two states agree on messages, write queue and database. -/
structure Same (w v : World) : Prop where
  lists : ∀ jid, messagesFor v jid = messagesFor w jid
  pending : v.q.pending = w.q.pending
  txq : v.txq = w.txq
  msgs : v.msgs = w.msgs
  chatRows : v.chatRows = w.chatRows
  account : v.account = w.account
  epoch : v.epoch = w.epoch
  wiping : v.wiping = w.wiping
  nextTid : v.nextTid = w.nextTid

namespace Same

theorem refl (w : World) : Same w w := ⟨fun _ => rfl, rfl, rfl, rfl, rfl, rfl, rfl, rfl, rfl⟩

theorem trans (h : Same w v) (h' : Same v u) : Same w u :=
  ⟨fun j => (h'.lists j).trans (h.lists j), h'.pending.trans h.pending, h'.txq.trans h.txq, h'.msgs.trans h.msgs,
    h'.chatRows.trans h.chatRows, h'.account.trans h.account, h'.epoch.trans h.epoch,
    h'.wiping.trans h.wiping, h'.nextTid.trans h.nextTid⟩

theorem sync (h : Same w v) : Sync w v :=
  .of_same h.msgs h.chatRows h.account h.epoch h.wiping h.nextTid h.txq

theorem base (h : Same w v) : v.base = w.base := by
  rw [World.base, World.base, World.jobs, World.jobs, h.txq, h.msgs]

theorem jobs (h : Same w v) : v.jobs = w.jobs := by rw [World.jobs, h.txq]; rfl

theorem eff (h : Same w v) : v.eff = w.eff := by rw [World.eff, World.eff, h.pending, h.base]

theorem slot (h : Same w v) (k : Key) : v.slot k = w.slot k := by
  rw [World.slot, World.slot, h.lists, h.eff]

theorem wf (h : Same w v) (hw : w.Wf) : v.Wf := fun j => h.lists j ▸ hw j

theorem quiet (h : Same w v) (hw : w.Wf) : Quiet P k w v :=
  ⟨h.wf hw, h.sync, .inl (h.slot k ▸ .refl _)⟩

theorem then_quiet (h : Same w v) (hw : w.Wf) (hq : v.Wf → Quiet P k v u) : Quiet P k w u :=
  (h.quiet hw).trans (hq (h.wf hw))

/-- Code of the chat list. -/
theorem chats (w : World) (c : Table Chat.jid) (timer : Bool) (active : Option Jid) :
    Same w { w with chats := c, chatsTimer := timer, activeJid := active } :=
  ⟨fun _ => rfl, rfl, rfl, rfl, rfl, rfl, rfl, rfl, rfl⟩

theorem of_chats (h : ChatsOnly w v) : Same w v := by
  obtain ⟨c, t, a, rfl⟩ := h
  exact .chats w c t a

theorem decrementUnread (w : World) (jid : Jid) (n : ℕ) : Same w (decrementUnread w jid n) :=
  .of_chats (.decrementUnread w jid n)

theorem chat (w : World) (op : ChatOp) : Same w (op.run w) := .of_chats (.chat w op)

theorem mergeChats (w : World) (fromJid toJid : Jid) : Same w (mergeChats w fromJid toJid) :=
  .of_chats (.mergeChats w fromJid toJid)

theorem selectChat (w : World) (jid : Jid) : Same w (selectChat w jid) := .chats w _ _ _

theorem enablePersistence (w : World) : Same w (enablePersistence w) :=
  ⟨fun _ => rfl, rfl, rfl, rfl, rfl, rfl, rfl, rfl, rfl⟩

/-- `getMessages`: a chat without a list gets an empty one. -/
theorem setList (w : World) (jid : Jid) : Same w (w.setList jid (messagesFor w jid)) := by
  refine ⟨fun j => ?_, rfl, rfl, rfl, rfl, rfl, rfl, rfl, rfl⟩
  rw [messagesFor_setList]
  split
  · rename_i h; rw [h]
  · rfl

/-- New objects are made. -/
theorem ref (w : World) (n : ℕ) : Same w { w with nextRef := n } :=
  ⟨fun _ => rfl, rfl, rfl, rfl, rfl, rfl, rfl, rfl, rfl⟩

/-- Code of paging that only sets its flags. -/
theorem flags (w : World) (loading opening : Jid → Bool) (timer : Bool) :
    Same w { w with loadingOlder := loading, opening := opening,
                    q := { w.q with msgTimer := timer } } :=
  ⟨fun _ => rfl, rfl, rfl, rfl, rfl, rfl, rfl, rfl, rfl⟩

end Same

/-! ## Code about one message -/

/-- A piece of code that is about the message `k₀` only. -/
structure Touches (k₀ : Key) (w v : World) : Prop where
  sync : Sync w v
  wf : v.Wf
  keeps : ∀ k : Key, k.id ≠ "" → k₀ ≠ k → Slot.Keeps (w.slot k) (v.slot k)

namespace Touches

variable {k₀ : Key}

theorem refl (h : w.Wf) : Touches k₀ w w := ⟨.refl w, h, fun _ _ _ => .refl _⟩

theorem trans (h : Touches k₀ w v) (h' : Touches k₀ v u) : Touches k₀ w u :=
  ⟨h.sync.trans h'.sync, h'.wf, fun k hid hne => (h.keeps k hid hne).trans (h'.keeps k hid hne)⟩

theorem quiet (h : Touches k₀ w v) (hid : k.id ≠ "") (hne : k₀ ≠ k) : Quiet P k w v :=
  ⟨h.wf, h.sync, .inl (h.keeps k hid hne)⟩

end Touches

theorem Same.touches {k₀ : Key} (h : Same w v) (hw : w.Wf) : Touches k₀ w v :=
  ⟨h.sync, h.wf hw, fun k _ _ => h.slot k ▸ .refl _⟩

theorem key_of_find {id : MsgId} {x : Obj} (h : w.Wf) (hx : findId (messagesFor w jid) id = some x) :
    x.key = ⟨jid, id⟩ := by
  rw [Obj.key, UiMessage.key, (h jid).chat x (findId_mem hx), findId_id hx]

/-- **One resident message is rewritten** and persisted. -/
theorem write_one {Q : Prop} {id : MsgId} {o x : Obj} (h : w.Wf) (hx : findId (messagesFor w jid) id = some x)
    (hk : o.key = ⟨jid, id⟩) (hs : Sync w v) (hq : v.q = persistMessage w.q o) (hb : v.base = w.base)
    (hp : Publishes w v jid (replaceId (messagesFor w jid) id o))
    (hQ : Slot.Writes o (w.slot ⟨jid, id⟩) (v.slot ⟨jid, id⟩) → Q) :
    Touches ⟨jid, id⟩ w v ∧ (id ≠ "" → Q) := by
  cases hk
  obtain ⟨hwf, hslot⟩ := replace_one h hx rfl hp
  have he := fun k => eff_persistMessage (k := k) hq hb
  exact ⟨⟨hs, hwf, fun k hid hne => (hslot k hid).1 hne ((he k).trans (if_neg hne))⟩,
    fun hid => hQ ⟨(he o.key).trans (if_pos rfl), (hslot o.key hid).2 rfl⟩⟩

/-! ## Starting a transaction -/

theorem keeps_enqueue {job : Job} (hi : job.Inert k) : Slot.Keeps (w.slot k) ((w.enqueue job).slot k) :=
  ⟨eff_congr rfl (base_enqueue_of_inert hi), .inl rfl⟩

theorem quiet_enqueue (hw : w.Wf) {job : Job} (hi : job.Inert k) (hs : job.stale w.epoch = false)
    (hp : job.proper = true) : Quiet P k w (w.enqueue job) :=
  ⟨hw, .enqueue w hs hp, .inl (keeps_enqueue hi)⟩

theorem sync_flushMessages (w : World) : Sync w (flushMessages w) := by
  have h : Sync w { w with q := { w.q with pending := .empty } } := .of_same
  have hs : (Job.flush w.epoch w.q.pending).stale w.epoch = false := by simp [Job.stale]
  exact h.trans (.enqueue _ hs rfl)

/-- Starting a flush moves the queue into a transaction and leaves the effect. -/
theorem quiet_flushMessages (hw : w.Wf) : Quiet P k w (flushMessages w) := by
  refine ⟨hw, sync_flushMessages w, .inl ⟨?_, .inl rfl⟩⟩
  change (flushMessages w).eff k = w.eff k
  rw [eff_apply, flushMessages, base_enqueue]
  rfl

theorem quiet_flushPendingWrites (hw : w.Wf) : Quiet P k w (flushPendingWrites w) :=
  (Same.flags w w.loadingOlder w.opening false).then_quiet hw quiet_flushMessages

theorem quiet_loadOlder (hw : w.Wf) (jid : Jid) (count : ℕ) : Quiet P k w (loadOlder w jid count) := by
  unfold loadOlder
  split
  · exact .refl hw
  · exact (Same.flags w (update w.loadingOlder jid true) w.opening w.q.msgTimer).then_quiet hw
      fun h => quiet_enqueue h (fun _ => rfl) rfl rfl

/-! ## Unread flags -/

/-- A rewrite of the unread flag. -/
def Unread (m m' : UiMessage) : Prop := ∃ b, m' = { m with unread := some b }

theorem Unread.key {m m' : UiMessage} (h : Unread m m') : m'.key = m.key := by
  obtain ⟨b, rfl⟩ := h; rfl

theorem setUnread_unread (s : List Bool) (m m' : UiMessage) (h : (setUnread s m).2 = some m') :
    Unread m m' := by
  cases s with
  | nil => cases h
  | cons b =>
    simp only [setUnread] at h
    split at h
    · cases h; exact ⟨b, rfl⟩
    · cases h

theorem markRead_unread (ids : List MsgId) (n : ℕ) (m m' : UiMessage)
    (h : (markRead ids n m).2 = some m') : Unread m m' := by
  unfold markRead at h
  split at h
  · cases h; exact ⟨false, rfl⟩
  · cases h

/-- A loop over a chat that only rewrites unread flags is quiet. -/
theorem quiet_swept (hw : w.Wf) (hid : k.id ≠ "") {arr arr' written : List Obj}
    (hsw : Sweeps Unread arr arr' written) (hperm : arr.Perm (messagesFor w jid)) (hs : Sync w v)
    (hq : v.q = persistAll w.q written) (hb : v.base = w.base) (hp : Publishes w v jid arr')
    (hP : k.chatJid = jid → P) : Quiet P k w v := by
  obtain ⟨hwf, hk⟩ := write_swept hw hsw (fun _ _ => Unread.key) hperm hq hb hp
  refine ⟨hwf, hs, ?_⟩
  rcases hk k hid with ⟨h, -⟩ | ⟨hj, x, o, hx, ⟨b, ho⟩, h⟩
  · exact .inl h
  · exact .inr ⟨hP hj, x, o, b, hx, ho, h⟩

theorem messagesFor_of_some {arr : List Obj} (h : w.byChat jid = some arr) : messagesFor w jid = arr := by
  rw [messagesFor, h]; rfl

theorem quiet_syncUnreadFlagForChat (hw : w.Wf) (hid : k.id ≠ "") (jid : Jid)
    (hP : k.chatJid = jid → P) : Quiet P k w (syncUnreadFlagForChat w jid) := by
  unfold syncUnreadFlagForChat
  split
  · exact .refl hw
  · rename_i arr harr
    dsimp only
    split
    · exact .refl hw
    · exact quiet_swept hw hid (sweep_sweeps setUnread_unread _ _ _)
        (by rw [messagesFor_of_some harr]) (.of_same) rfl rfl
        (publishes_commit rfl) hP

theorem quiet_historyFinish (hw : w.Wf) (hid : k.id ≠ "") (jid : Jid) (hP : k.chatJid = jid → P) :
    Quiet P k w (historyFinish w jid) :=
  quiet_swept hw hid (sweep_sweeps setUnread_unread _ _ _) (sortByTime_perm _)
    (.of_same) rfl rfl (publishes_commit rfl) hP

theorem quiet_markMessagesRead (hw : w.Wf) (hid : k.id ≠ "") (jid : Jid) (ids : List MsgId)
    (hP : k.chatJid = jid → P) : Quiet P k w (markMessagesRead w jid ids) := by
  unfold markMessagesRead
  split
  · exact .refl hw
  · rename_i arr harr
    dsimp only
    split
    · have h := quiet_swept (v := commit { w with
          q := persistAll w.q (sweep (markRead ids) 0 w.nextRef arr).written
          nextRef := (sweep (markRead ids) 0 w.nextRef arr).ref } jid
          (sweep (markRead ids) 0 w.nextRef arr).arr) hw hid
        (sweep_sweeps (markRead_unread ids) arr 0 w.nextRef)
        (by rw [messagesFor_of_some harr]) (.of_same) rfl rfl
        (publishes_commit rfl) hP
      exact h.trans ((Same.decrementUnread _ _ _).quiet h.wf)
    · exact .refl hw

/-- **Marking one message read**: a resident message that is unread is rewritten. -/
theorem markMessageRead_spec (hw : w.Wf) (jid : Jid) (id : MsgId) :
    (markMessageRead w jid id).Wf ∧ Sync w (markMessageRead w jid id) ∧ ∀ k : Key, k.id ≠ "" →
      (Slot.Keeps (w.slot k) ((markMessageRead w jid id).slot k) ∧
          (k = ⟨jid, id⟩ → ∀ x, (w.slot k).resident = some x → x.msg.unread ≠ some true)) ∨
        k = ⟨jid, id⟩ ∧ ∃ x o, (w.slot k).resident = some x ∧ x.msg.unread = some true ∧
          o.msg = { x.msg with unread := some false } ∧
          Slot.Writes o (w.slot k) ((markMessageRead w jid id).slot k) := by
  have hsame : ∀ hn : (∀ x, (w.slot ⟨jid, id⟩).resident = some x → x.msg.unread ≠ some true),
      w.Wf ∧ Sync w w ∧ ∀ k : Key, k.id ≠ "" → (Slot.Keeps (w.slot k) (w.slot k) ∧
        (k = ⟨jid, id⟩ → ∀ x, (w.slot k).resident = some x → x.msg.unread ≠ some true)) ∨
        k = ⟨jid, id⟩ ∧ ∃ x o, (w.slot k).resident = some x ∧ x.msg.unread = some true ∧
          o.msg = { x.msg with unread := some false } ∧ Slot.Writes o (w.slot k) (w.slot k) :=
    fun hn => ⟨hw, .refl w, fun k _ => .inl ⟨.refl _, fun hk => hk ▸ hn⟩⟩
  unfold markMessageRead
  split
  · rename_i hnone
    refine hsame fun x hx => ?_
    rw [slot_resident, messagesFor, hnone] at hx
    cases hx
  · rename_i arr harr
    have harr := messagesFor_of_some harr
    subst harr
    split
    · rename_i hnone
      refine hsame fun x hx => ?_
      rw [slot_resident, hnone] at hx
      cases hx
    · rename_i x hx
      split
      · rename_i hunread
        let o : Obj := ⟨w.nextRef, { x.msg with unread := some false }⟩
        let v := commit { w with q := persistMessage w.q o, nextRef := w.nextRef + 1 } jid
          (replaceId (messagesFor w jid) id o)
        obtain ⟨ht, hslot⟩ := write_one (o := o) (v := v) hw hx (key_of_find (x := x) hw hx) .of_same rfl rfl
          (publishes_commit rfl) fun hw => hw
        have hread := Same.decrementUnread v jid 1
        refine ⟨hread.wf ht.wf, ht.sync.trans hread.sync, fun k hid => ?_⟩
        rw [show (decrementUnread v jid 1).slot k = v.slot k from hread.slot k]
        rcases eq_or_ne k ⟨jid, id⟩ with rfl | hne
        · exact .inr ⟨rfl, x, o, hx, hunread, rfl, hslot hid⟩
        · exact .inl ⟨ht.keeps k hid hne.symm, fun he => absurd he hne⟩
      · rename_i hread
        refine hsame fun y hy => ?_
        rw [slot_resident, hx] at hy
        cases hy
        exact hread

theorem quiet_markMessageRead (hw : w.Wf) (hid : k.id ≠ "") (jid : Jid) (id : MsgId)
    (hP : k.chatJid = jid → P) : Quiet P k w (markMessageRead w jid id) := by
  obtain ⟨hwf, hsync, hk⟩ := markMessageRead_spec hw jid id
  refine ⟨hwf, hsync, ?_⟩
  rcases hk k hid with ⟨hk, -⟩ | ⟨rfl, x, o, hx, -, ho, hw⟩
  · exact .inl hk
  · exact .inr ⟨hP rfl, x, o, false, hx, ho, hw⟩

/-! ## Opening, closing and trimming -/

theorem quiet_openChat (hw : w.Wf) (hid : k.id ≠ "") (jid : Jid) (hP : k.chatJid = jid → P) :
    Quiet P k w (openChat w jid) := by
  unfold openChat
  dsimp only
  split
  · exact (Same.flags w w.loadingOlder (update w.opening jid true) w.q.msgTimer).then_quiet hw
      fun h => quiet_loadOlder h _ _
  · exact quiet_syncUnreadFlagForChat hw hid jid hP

theorem quiet_openChatDone (hw : w.Wf) (hid : k.id ≠ "") (jid : Jid) (hP : k.chatJid = jid → P) :
    Quiet P k w (openChatDone w jid) := by
  unfold openChatDone
  split
  · exact (Same.flags w w.loadingOlder (update w.opening jid false) w.q.msgTimer).then_quiet hw
      fun h => quiet_syncUnreadFlagForChat h hid jid hP
  · exact .refl hw

/-- Dropping all but the newest messages of a chat. -/
theorem quiet_trim (hw : w.Wf) (hid : k.id ≠ "") (jid : Jid) (n : ℕ) :
    Quiet P k w ({ w with exhausted := update w.exhausted jid false }.setList jid
      (lastN n (messagesFor w jid))) := by
  have hp : Publishes w ({ w with exhausted := update w.exhausted jid false }.setList jid
      (lastN n (messagesFor w jid))) jid (messagesFor w jid) :=
    publishes_setList rfl (lastN_sublist _ _)
  exact ⟨hp.wf hw (hw jid), .of_same, Or.inl (hp.keeps (hw jid) hid rfl fun _ => .inl rfl)⟩

theorem quiet_closeChat (hw : w.Wf) (hid : k.id ≠ "") (jid : Jid) : Quiet P k w (closeChat w jid) := by
  unfold closeChat
  split
  · exact .refl hw
  · split
    · exact .refl hw
    · rename_i arr harr
      split
      · rw [← messagesFor_of_some harr]; exact quiet_trim hw hid jid _
      · exact .refl hw

theorem quiet_trimChat (hw : w.Wf) (hid : k.id ≠ "") (jid : Jid) (keep : ℕ) :
    Quiet P k w (trimChat w jid keep) := by
  unfold trimChat
  split
  · exact .refl hw
  · rename_i arr harr
    split
    · exact .refl hw
    · rw [← messagesFor_of_some harr]; exact quiet_trim hw hid jid _

end Whatsvelte
