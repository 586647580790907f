import Whatsvelte.Proof.Handlers

/-!
# A message that is on its way to the database

`conv` names the conversation of a JID; a LID and the phone number that it is mapped to have the same one
(`Mapped`). A message is on its way to the database while a write of it is in the queue (`Queued`), in a
flush that is running (`Flushing`), or when its record is there (`Landed`), under any key of its
conversation. `Spares conv w v`: what the stores do on a delivery, on a merge and when boot fills them
keeps every queued write, writes nothing itself, and brings no message into memory that is not on its way.
-/

namespace Whatsvelte

open List Table

variable {α : Type} {conv : Jid → α} {c : α} {id : MsgId} {w v u : World} {q q' q'' : Queue} {jid : Jid}
  {arr : List Obj} {o : Obj}
variable {l p : Jid} {m : UiMessage}

/-! ## Where a message is -/

/-- The operation writes a record. -/
def PendingOp.writes : PendingOp → Bool
  | .del _ _ => false
  | _ => true

/-- A write of the message is queued. -/
def Queued (conv : Jid → α) (c : α) (id : MsgId) (w : World) : Prop :=
  ∃ jid op, conv jid = c ∧ w.q.pending.get ⟨jid, id⟩ = some op ∧ op.writes = true

/-- A record of the message is stored. -/
def Landed (conv : Jid → α) (c : α) (id : MsgId) (w : World) : Prop :=
  ∃ jid, conv jid = c ∧ (w.msgs.get ⟨jid, id⟩).isSome = true

/-- The message is in memory under a key that can be stored. -/
def InMemory (conv : Jid → α) (c : α) (id : MsgId) (w : World) : Prop :=
  ∃ jid, jid ≠ "" ∧ conv jid = c ∧ ∃ o ∈ messagesFor w jid, o.msg.id = id

/-- An id under which a message can be stored. -/
def Recordable (id : MsgId) : Prop := id ≠ "" ∧ isTmp id = false

/-- The LID map stays inside the conversations, and no receipt waits for an answer about a LID. -/
structure Mapped (conv : Jid → α) (w : World) : Prop where
  lidToPn : ∀ l p, w.lidToPn l = some p → conv l = conv p
  asked : ∀ r ∈ w.resolving.rows, isLid r.jid = true ∧ r.receipt = none

theorem Mapped.of_eq (h : Mapped conv w) (hl : v.lidToPn = w.lidToPn) (hr : v.resolving = w.resolving) :
    Mapped conv v := ⟨by rw [hl]; exact h.lidToPn, by rw [hr]; exact h.asked⟩

theorem Mapped.canonicalJid (h : Mapped conv w) (jid : Jid) : conv (canonicalJid w jid) = conv jid := by
  unfold Whatsvelte.canonicalJid
  split
  · cases hm : w.lidToPn jid with
    | none => rfl
    | some p => exact (h.lidToPn jid p hm).symm
  · rfl

/-! ## The queue only grows -/

/-- A flush is due if persistence is on and something is queued. -/
def Queue.Armed (q : Queue) : Prop :=
  q.enabled = true → (∃ k, (q.pending.get k).isSome = true) → q.msgTimer = true

/-- Every queued write is still queued, and there are no new deletes. -/
structure Grows (q q' : Queue) : Prop where
  enabled : q'.enabled = q.enabled
  timer : q.enabled = false → q'.msgTimer = q.msgTimer
  armed : q.Armed → q'.Armed
  writes : (∀ k op, q.pending.get k = some op → op.writes = true) →
    ∀ k op, q'.pending.get k = some op → op.writes = true
  keeps : ∀ k op, q.pending.get k = some op → op.writes = true →
    ∃ op', q'.pending.get k = some op' ∧ op'.writes = true

theorem Grows.refl (q : Queue) : Grows q q := ⟨rfl, fun _ => rfl, id, id, fun _ op h hw => ⟨op, h, hw⟩⟩

theorem Grows.trans (h : Grows q q') (h' : Grows q' q'') : Grows q q'' := by
  refine ⟨h'.enabled.trans h.enabled, fun he => ?_, fun ha => h'.armed (h.armed ha),
    fun hw => h'.writes (h.writes hw), fun k op hk hw => ?_⟩
  · rw [h'.timer (h.enabled.trans he), h.timer he]
  · obtain ⟨op', hk', hw'⟩ := h.keeps k op hk hw
    exact h'.keeps k op' hk' hw'

theorem armed_schedule (q : Queue) : (scheduleFlushMessages q).Armed := by
  rintro he ⟨k, hk⟩
  obtain ⟨op, hop, -⟩ := get_isSome.1 hk
  have hne : (scheduleFlushMessages q).pending.rows ≠ [] := ne_nil_of_mem hop
  have he' : q.enabled = true := he
  have hne' : q.pending.rows ≠ [] := hne
  simp [scheduleFlushMessages, he', hne']

/-- One operation is put into the queue. -/
theorem grows_set {op : PendingOp} (ho : op.writes = true) :
    Grows q (scheduleFlushMessages { q with pending := q.pending.set op }) := by
  have hget : ∀ k, (scheduleFlushMessages { q with pending := q.pending.set op }).pending.get k =
      if op.key = k then some op else q.pending.get k := get_set q.pending op
  refine ⟨rfl, fun he => ?_, fun _ => armed_schedule _, fun hw k op' h => ?_, fun k op' h hw => ?_⟩
  · simp [scheduleFlushMessages, he]
  · rw [hget] at h
    split at h
    · injection h with h
      rwa [← h]
    · exact hw k op' h
  · rw [hget]
    split
    · exact ⟨op, rfl, ho⟩
    · exact ⟨op', h, hw⟩

theorem grows_persistMessage (q : Queue) (o : Obj) : Grows q (persistMessage q o) := by
  unfold persistMessage
  split
  · exact grows_set rfl
  · exact .refl q

theorem grows_persistMessageInsert (q : Queue) (o : Obj) : Grows q (persistMessageInsert q o) := by
  unfold persistMessageInsert
  split
  · split
    · exact .refl q
    · exact grows_set rfl
  · exact .refl q

theorem grows_persistAll (written : List Obj) : ∀ q, Grows q (persistAll q written) := by
  induction written with
  | nil => exact .refl
  | cons o written ih => exact fun q => (grows_persistMessage q o).trans (ih _)

/-! ## Code that spares what is on its way -/

/-- A job that the stores start on a delivery, on a merge or at boot. -/
def Job.Plain (conv : Jid → α) : Job → Prop
  | .move _ l p => l ≠ p ∧ conv l = conv p
  | .tails _ _ => True
  | .adopt _ => True
  | .chats _ => True
  | .account _ => True
  | _ => False

structure Spares (conv : Jid → α) (w v : World) : Prop where
  msgs : v.msgs = w.msgs
  epoch : v.epoch = w.epoch
  wiping : v.wiping = w.wiping
  txq : ∃ ts, v.txq = w.txq ++ ts ∧ ∀ t ∈ ts, t.job.Plain conv
  enabled : v.q.enabled = w.q.enabled
  timer : w.q.enabled = false → v.q.msgTimer = w.q.msgTimer
  armed : w.q.Armed → v.q.Armed
  writes : (∀ k op, w.q.pending.get k = some op → op.writes = true) →
    ∀ k op, v.q.pending.get k = some op → op.writes = true
  queued : ∀ c id, Queued conv c id w → Queued conv c id v
  mapped : Mapped conv w → Mapped conv v
  memory : ∀ c id, Recordable id → InMemory conv c id v →
    InMemory conv c id w ∨ Queued conv c id v ∨ Landed conv c id w

namespace Spares

theorem refl (w : World) : Spares conv w w :=
  ⟨rfl, rfl, rfl, ⟨[], by simp, by simp⟩, rfl, fun _ => rfl, id, id, fun _ _ => id, id,
    fun _ _ _ => .inl⟩

theorem landed (h : Spares conv w v) : Landed conv c id w ↔ Landed conv c id v := by
  rw [Landed, Landed, h.msgs]

theorem trans (h : Spares conv w v) (h' : Spares conv v u) : Spares conv w u := by
  obtain ⟨ts, h1, h2⟩ := h.txq
  obtain ⟨ts', h1', h2'⟩ := h'.txq
  refine ⟨h'.msgs.trans h.msgs, h'.epoch.trans h.epoch, h'.wiping.trans h.wiping,
    ⟨ts ++ ts', by rw [h1', h1, append_assoc], fun t ht => ?_⟩, h'.enabled.trans h.enabled,
    fun he => ?_, fun ha => h'.armed (h.armed ha), fun hw => h'.writes (h.writes hw),
    fun c id hq => h'.queued c id (h.queued c id hq),
    fun hm => h'.mapped (h.mapped hm), fun c id hr hm => ?_⟩
  · exact (mem_append.1 ht).elim (h2 t) (h2' t)
  · rw [h'.timer (h.enabled.trans he), h.timer he]
  · rcases h'.memory c id hr hm with hm | hm | hm
    · exact (h.memory c id hr hm).imp_right (Or.imp_left (h'.queued c id))
    · exact .inr (.inl hm)
    · exact .inr (.inr (h.landed.2 hm))

theorem after (h' : Spares conv v u) (h : Spares conv w v) : Spares conv w u := h.trans h'

end Spares

/-- What lies outside the lists and the queue is the same. -/
structure Rest (w v : World) : Prop where
  msgs : v.msgs = w.msgs
  epoch : v.epoch = w.epoch
  wiping : v.wiping = w.wiping
  txq : v.txq = w.txq
  lidToPn : v.lidToPn = w.lidToPn
  resolving : v.resolving = w.resolving

theorem queued_of_grows (h : Grows w.q v.q) (hq : Queued conv c id w) : Queued conv c id v := by
  obtain ⟨jid, op, hc, hk, hw⟩ := hq
  obtain ⟨op', hk', hw'⟩ := h.keeps _ op hk hw
  exact ⟨jid, op', hc, hk', hw'⟩

/-- The queue grows, and what is new in memory is on its way. -/
theorem Spares.of_lists (hr : Rest w v) (hq : Grows w.q v.q)
    (hm : ∀ c id, Recordable id → InMemory conv c id v →
      InMemory conv c id w ∨ Queued conv c id v ∨ Landed conv c id w) : Spares conv w v :=
  ⟨hr.msgs, hr.epoch, hr.wiping, ⟨[], by rw [hr.txq]; simp, by simp⟩, hq.enabled, hq.timer, hq.armed,
    hq.writes,
    fun _ _ => queued_of_grows hq, fun h => h.of_eq hr.lidToPn hr.resolving, hm⟩

/-- Only the chat list and the like change. -/
theorem Spares.of_eq (hr : Rest w v) (hb : v.byChat = w.byChat) (hq : v.q = w.q) : Spares conv w v := by
  refine .of_lists hr (by rw [hq]; exact .refl _) fun c id _ hm => .inl ?_
  simpa only [InMemory, messagesFor, hb] using hm

/-- One list is published: what it holds was there, or is on its way. -/
theorem Spares.publish (hr : Rest w v) (hq : Grows w.q v.q) (hp : Publishes w v jid arr)
    (ha : ∀ x ∈ arr, jid ≠ "" → Recordable x.msg.id → (∃ y ∈ messagesFor w jid, y.msg.id = x.msg.id) ∨
      Queued conv (conv jid) x.msg.id v ∨ Landed conv (conv jid) x.msg.id w) : Spares conv w v := by
  refine .of_lists hr hq fun c id hrec hm => ?_
  obtain ⟨j, hj, hc, x, hx, hid⟩ := hm
  obtain ⟨l, l', hperm, hsub, hlists⟩ := hp
  rw [hlists] at hx
  split at hx
  · rename_i heq
    subst heq hid hc
    exact (ha x (hperm.subset (hsub.subset hx)) hj hrec).imp_left fun ⟨y, hy, he⟩ => ⟨j, hj, rfl, y, hy, he⟩
  · exact .inl ⟨j, hj, hc, x, hx, hid⟩

theorem Spares.enqueue (w : World) {job : Job} (h : job.Plain conv) : Spares conv w (w.enqueue job) :=
  ⟨rfl, rfl, rfl, ⟨[⟨w.nextTid, false, job, []⟩], rfl, by simpa using h⟩, rfl, fun _ => rfl, id,
    id, fun _ _ => id, fun h => ⟨h.lidToPn, h.asked⟩, fun _ _ _ => .inl⟩

/-! ## Deliveries -/

theorem mem_of_replaceId {x y : Obj} (hx : findId arr id = some x) (ho : o.msg.id = id)
    (hy : y ∈ replaceId arr id o) : ∃ z ∈ arr, z.msg.id = y.msg.id := by
  rcases mem_replaceFirst hy with rfl | hy
  · exact ⟨x, findId_mem hx, (findId_id hx).trans ho.symm⟩
  · exact ⟨y, hy, rfl⟩

/-- A message in memory is replaced by a copy. -/
theorem spares_replace {x : Obj} {n : ℕ} (hx : findId (messagesFor w jid) id = some x)
    (ho : o.msg.id = id) (hq : Grows w.q q) :
    Spares conv w (commit { w with q := q, nextRef := n } jid (replaceId (messagesFor w jid) id o)) :=
  .publish ⟨rfl, rfl, rfl, rfl, rfl, rfl⟩ hq (publishes_commit rfl) fun _ hy _ _ =>
    Or.inl (mem_of_replaceId hx ho hy)

theorem spares_adoptStoredDone {fresh : Obj} {stored : Option UiMessage}
    (hs : ∀ s, stored = some s → s.key = fresh.key) : Spares conv w (adoptStoredDone w fresh stored) := by
  rcases adoptStoredDone_cases w fresh stored with ⟨he, -⟩ | ⟨s, cur, hst, hcur, -, he⟩
  · rw [he]
    exact .refl w
  · rw [he]
    refine spares_replace hcur (congrArg Key.id (hs s hst)) ?_
    split
    · exact grows_persistMessage _ _
    · exact .refl _

theorem spares_adoptStored (w : World) (fresh : Obj) : Spares conv w (adoptStored w fresh) := by
  unfold adoptStored
  split
  · rename_i m hm
    refine spares_adoptStoredDone fun s hs => ?_
    injection hs with hs
    have hkey : (PendingOp.put m).key = fresh.key := get_key hm
    rwa [← hs]
  · exact .refl w
  · exact .enqueue w trivial

/-- A record that may be stored is queued by either write. -/
theorem queued_of_persist (hp : persistable o.msg = true) (hc : conv o.msg.chatJid = c)
    (hq : v.q = persistMessage w.q o ∨ v.q = persistMessageInsert w.q o) : Queued conv c o.msg.id v := by
  rcases hq with hq | hq
  · refine ⟨o.msg.chatJid, .put o, hc, ?_, rfl⟩
    rw [hq]
    exact (get_persistMessage w.q o _).trans (if_pos ⟨hp, rfl⟩)
  · have hget := (get_persistMessageInsert w.q o o.key).trans (if_pos ⟨hp, rfl⟩)
    rw [← hq] at hget
    unfold insertOver at hget
    split at hget <;> exact ⟨o.msg.chatJid, _, hc, hget, rfl⟩

theorem persistable_of_recordable (hc : m.chatJid ≠ "") (hr : Recordable m.id)
    (hs : m.status ≠ some .sending) (hb : isBlankMessage m = false) : persistable m = true :=
  persistable_iff.2 ⟨hr.1, hc, hr.2, hs, hb⟩

theorem spares_insertNew (hs : o.msg.status ≠ some .sending) (hb : isBlankMessage o.msg = false) :
    Spares conv w (insertNew w o (messagesFor w o.msg.chatJid)) := by
  have hcommit : Spares conv w (commit { w with q := persistMessageInsert w.q o } o.msg.chatJid
      (messagesFor w o.msg.chatJid ++ [o])) := by
    refine .publish ⟨rfl, rfl, rfl, rfl, rfl, rfl⟩ (grows_persistMessageInsert w.q o)
      (publishes_commit rfl) fun x hx hj hrec => ?_
    rcases mem_append.1 hx with hx | hx
    · exact .inl ⟨x, hx, rfl⟩
    · rw [mem_singleton.1 hx] at hrec ⊢
      exact .inr (.inl (queued_of_persist (persistable_of_recordable hj hrec hs hb) rfl (.inr rfl)))
  unfold insertNew
  dsimp only
  split
  · exact (spares_adoptStored _ o).after hcommit
  · exact hcommit

/-- **A delivery** of a message that is not a bubble of ours. -/
theorem spares_addMessage (hs : m.status ≠ some .sending) : Spares conv w (addMessage w m) := by
  obtain ⟨un, hun⟩ := startUnread_fields m
  have hj := startUnread_chatJid m
  have hst : (startUnread m).status = m.status := by rw [hun]
  have hbl : isBlankMessage (startUnread m) = isBlankMessage m := by rw [hun]; rfl
  unfold addMessage refreshMedia
  dsimp only
  split
  · exact .refl w
  · rename_i hb
    have hb : isBlankMessage m = false := by simpa using hb
    have hset : Spares conv w (w.setList m.chatJid (messagesFor w m.chatJid)) :=
      .publish ⟨rfl, rfl, rfl, rfl, rfl, rfl⟩ (.refl _) (publishes_setList rfl (.refl _))
        fun x hx _ _ => .inl ⟨x, hx, rfl⟩
    have hlist : messagesFor (w.setList m.chatJid (messagesFor w m.chatJid)) m.chatJid =
        messagesFor w m.chatJid := by
      rw [messagesFor_setList, if_pos rfl]
    generalize w.setList m.chatJid (messagesFor w m.chatJid) = w₁ at hset hlist ⊢
    refine hset.trans ?_
    rw [hj, ← hlist]
    split
    · rename_i x hx
      split
      · split at hx
        · have hxid := findId_id hx
          exact spares_replace hx hxid (grows_persistMessage _ _)
        · cases hx
      · exact .refl _
    · split
      · refine .publish ⟨rfl, rfl, rfl, rfl, rfl, rfl⟩ (grows_persistMessage _ _) (publishes_commit rfl)
          fun y hy hne hrec => ?_
        rcases mem_replaceFirst hy with rfl | hy
        · refine .inr (.inl (queued_of_persist (persistable_of_recordable ?_ hrec ?_ ?_) ?_
            (.inl rfl)))
          · exact hne
          · simp
          · exact hbl.trans hb
          · rfl
        · exact .inl ⟨y, hy, rfl⟩
      · have hnew : Spares conv { w₁ with nextRef := w₁.nextRef + 1 }
            (insertNew { w₁ with nextRef := w₁.nextRef + 1 } ⟨w₁.nextRef, startUnread m⟩
              (messagesFor w₁ (startUnread m).chatJid)) :=
          spares_insertNew (by rwa [hst]) (hbl.trans hb)
        rw [hj] at hnew
        exact hnew.after (.of_eq ⟨rfl, rfl, rfl, rfl, rfl, rfl⟩ rfl rfl)

/-- A message that can be stored and is not resident is queued by its delivery. -/
theorem queued_addMessage (hp : persistable m = true) (hn : findId (messagesFor w m.chatJid) m.id = none) :
    Queued conv (conv m.chatJid) m.id (addMessage w m) := by
  have hj := startUnread_chatJid m
  have hps : persistable (startUnread m) = true := (persistable_startUnread m).trans hp
  have hb := blank_of_persistable hp
  unfold addMessage
  dsimp only
  rw [if_neg (by simp [hb]), startUnread_id, hn]
  simp only [ite_self]
  rw [← startUnread_id m]
  split
  · exact queued_of_persist (o := ⟨_, { startUnread m with status := some .sent }⟩) (persistable_sent hp)
      (congrArg conv hj) (.inl rfl)
  · unfold insertNew
    dsimp only
    have hq : Queued conv (conv m.chatJid) (startUnread m).id
        (commit { w.setList m.chatJid (messagesFor w m.chatJid) with
          q := persistMessageInsert w.q ⟨w.nextRef, startUnread m⟩
          nextRef := w.nextRef + 1 } (startUnread m).chatJid
            (messagesFor w m.chatJid ++ [⟨w.nextRef, startUnread m⟩])) :=
      queued_of_persist (o := ⟨w.nextRef, startUnread m⟩) hps (congrArg conv hj) (.inr rfl)
    split
    · exact (spares_adoptStored _ _).queued _ _ hq
    · exact hq

/-! ## Boot fills the lists -/

theorem spares_historyPush (st : World × List Jid)
    (ho : Queued conv (conv o.msg.chatJid) o.msg.id st.1 ∨ Landed conv (conv o.msg.chatJid) o.msg.id st.1) :
    Spares conv st.1 (historyPush false st o).1 := by
  unfold historyPush
  dsimp only
  split
  · exact .refl _
  · split
    · exact .publish ⟨rfl, rfl, rfl, rfl, rfl, rfl⟩ (.refl _) (publishes_setList rfl (.refl _))
        fun x hx _ _ => .inl ⟨x, hx, rfl⟩
    · have hp : Publishes st.1 { st.1.setList o.msg.chatJid (messagesFor st.1 o.msg.chatJid ++ [o]) with
          q := if false = true then persistMessage st.1.q o else st.1.q } o.msg.chatJid
          (messagesFor st.1 o.msg.chatJid ++ [o]) := ⟨_, _, .refl _, .refl _, fun j => messagesFor_setList⟩
      refine .publish ⟨rfl, rfl, rfl, rfl, rfl, rfl⟩ (.refl _) hp fun x hx _ _ => ?_
      rcases mem_append.1 hx with hx | hx
      · exact .inl ⟨x, hx, rfl⟩
      · rw [mem_singleton.1 hx]
        exact .inr ho

theorem spares_historyFinish (w : World) (jid : Jid) : Spares conv w (historyFinish w jid) := by
  refine .publish ⟨rfl, rfl, rfl, rfl, rfl, rfl⟩ (grows_persistAll _ _) (publishes_commit rfl)
    fun x hx _ _ => .inl ?_
  obtain ⟨y, hy, hk⟩ := (sweep_sweeps setUnread_unread _ _ _).mem_key (fun _ _ => Unread.key) hx
  exact ⟨y, (sortByTime_perm _).subset hy, congrArg Key.id hk⟩

/-- Messages that are on their way already may be put into memory. -/
theorem spares_addHistoryMessages {list : List Obj}
    (hl : ∀ o ∈ list, Queued conv (conv o.msg.chatJid) o.msg.id w ∨
      Landed conv (conv o.msg.chatJid) o.msg.id w) : Spares conv w (addHistoryMessages w list false) := by
  have hpush : ∀ (list : List Obj) (st : World × List Jid), (∀ o ∈ list,
      Queued conv (conv o.msg.chatJid) o.msg.id st.1 ∨ Landed conv (conv o.msg.chatJid) o.msg.id st.1) →
      Spares conv st.1 (list.foldl (historyPush false) st).1 := by
    intro list
    induction list with
    | nil => exact fun st _ => .refl st.1
    | cons o list ih =>
      intro st hl
      have hone := spares_historyPush st (hl o mem_cons_self)
      refine hone.trans (ih _ fun x hx => ?_)
      exact (hl x (mem_cons_of_mem _ hx)).imp (hone.queued _ _) hone.landed.1
  exact List.foldlRecOn _ _ (hpush list (w, []) hl) fun v hv j _ => hv.trans (spares_historyFinish v j)

theorem spares_loadTailsDone (w : World) (jids : List Jid) (n : ℕ) :
    Spares conv w (loadTailsDone w jids n) := by
  refine (spares_addHistoryMessages fun o ho => ?_).after (.of_eq ⟨rfl, rfl, rfl, rfl, rfl, rfl⟩ rfl rfl)
  -- a row of a tail is a queued write or a stored record
  rcases row_of_tail jids _ ho with ⟨h | h, -⟩ | ⟨h, -⟩
  · exact .inl ⟨_, _, rfl, h, rfl⟩
  · exact .inl ⟨_, _, rfl, h, rfl⟩
  · exact .inr ⟨_, rfl, Option.isSome_iff_exists.2 ⟨_, h⟩⟩

/-! ## Merges -/

theorem mem_mergePush (src : List Obj) : ∀ (st : List Obj × ℕ),
    ∀ x ∈ (src.foldl (mergePush l p) st).1, ∃ y, (y ∈ st.1 ∨ y ∈ src) ∧ y.msg.id = x.msg.id := by
  induction src with
  | nil => exact fun st x hx => ⟨x, .inl hx, rfl⟩
  | cons o src ih =>
    intro st x hx
    obtain ⟨y, hy, hid⟩ := ih _ x hx
    rcases hy with hy | hy
    · unfold mergePush at hy
      split at hy
      · exact ⟨y, .inl hy, hid⟩
      · rcases mem_append.1 hy with hy | hy
        · exact ⟨y, .inl hy, hid⟩
        · rw [mem_singleton.1 hy] at hid
          exact ⟨o, .inr mem_cons_self, hid⟩
    · exact ⟨y, .inr (mem_cons_of_mem _ hy), hid⟩

theorem spares_mergeMessages (w : World) (hl : l ≠ "") (hc : conv l = conv p) :
    Spares conv w (mergeMessages w l p) := by
  obtain ⟨w₁, hw₁, he⟩ := mergeMessages_eq w l p
  have hsub : ∀ j, ∀ x ∈ messagesFor w₁ j, x ∈ messagesFor w j := by
    intro j x hx
    subst hw₁
    by_cases hjl : j = l
    · subst hjl
      simp [messagesFor] at hx
    · simpa [messagesFor, hjl] using hx
  have hrest : Rest w w₁ := by rw [hw₁]; exact ⟨rfl, rfl, rfl, rfl, rfl, rfl⟩
  have hq : w₁.q = w.q := by rw [hw₁]
  rw [he]
  split
  · refine .of_lists hrest (by rw [hq]; exact .refl _) fun c id _ hm => .inl ?_
    obtain ⟨j, hj, hjc, x, hx, hid⟩ := hm
    exact ⟨j, hj, hjc, x, hsub j x hx, hid⟩
  · refine .of_lists { hrest with }
      (by rw [← hq]; exact .refl _) fun c id _ hm => .inl ?_
    obtain ⟨j, hj, hjc, x, hx, hid⟩ := hm
    have hp : Publishes w₁ (commit { w₁ with
        exhausted := Function.update w₁.exhausted p false
        nextRef := ((messagesFor w l).foldl (mergePush l p) (messagesFor w₁ p, w₁.nextRef)).2 } p
        ((messagesFor w l).foldl (mergePush l p) (messagesFor w₁ p, w₁.nextRef)).1) p
        ((messagesFor w l).foldl (mergePush l p) (messagesFor w₁ p, w₁.nextRef)).1 := publishes_commit rfl
    obtain ⟨a, a', hperm, hsl, hlists⟩ := hp
    rw [hlists] at hx
    split at hx
    · -- the list of `p` holds the ids of both
      rename_i hjp
      subst hjp
      obtain ⟨y, hy | hy, hyid⟩ := mem_mergePush _ _ x (hperm.subset (hsl.subset hx))
      · exact ⟨j, hj, hjc, y, hsub j y hy, hyid.trans hid⟩
      · exact ⟨l, hl, hc.trans hjc, y, hy, hyid.trans hid⟩
    · exact ⟨j, hj, hjc, x, hsub j x hx, hid⟩

/-- What the queue holds under `p` after the move is a write of `l`, or what it held. -/
theorem movedOp_cases {own src r : Option PendingOp} (h : MovedOp l p own src r) :
    (src.isSome = true ∧ ∃ op, r = some op ∧ op.writes = true) ∨
      r = own ∧ ∀ op, src = some op → op.writes = false := by
  cases src with
  | none => exact .inr ⟨h, fun op hop => absurd hop.symm (Option.some_ne_none op)⟩
  | some op =>
    obtain ⟨r', hr, rfl⟩ := h
    cases hr with
    | put | add => exact .inl ⟨rfl, _, rfl, rfl⟩
    | del =>
      refine .inr ⟨rfl, fun op hop => ?_⟩
      rw [← Option.some.inj hop]
      rfl

theorem spares_movePersistedChat (w : World) (hc : conv l = conv p) :
    Spares conv w (movePersistedChat w l p) := by
  by_cases hne : l = p
  · rw [movePersistedChat, if_pos hne]
    exact .refl w
  obtain ⟨h1, h2, h3⟩ := get_movePending_fold hne w.q.pending.rows w.q.pending.nodup (w.q.pending, w.nextRef)
  rw [movePersistedChat, if_neg hne]
  generalize w.q.pending.rows.foldl (movePendingOp l p) (w.q.pending, w.nextRef) = moved at h1 h2 h3 ⊢
  -- what is queued now was queued, or is a write that was queued under `l`
  have hback : ∀ k op, moved.1.get k = some op → w.q.pending.get k = some op ∨
      op.writes = true ∧ (w.q.pending.get ⟨l, k.id⟩).isSome = true := by
    intro k op hk
    by_cases hkl : k.chatJid = l
    · rw [h1 k hkl] at hk
      split at hk
      · cases hk
      · exact .inl hk
    · by_cases hkp : k.chatJid = p
      · obtain ⟨j, id⟩ := k
        obtain rfl : j = p := hkp
        rcases movedOp_cases (h2 id) with ⟨hsrc, op', he, hw⟩ | ⟨he, -⟩
        · obtain rfl : op = op' := Option.some.inj (hk.symm.trans he)
          exact .inr ⟨hw, hsrc⟩
        · exact .inl (he.symm.trans hk)
      · exact .inl ((h3 k hkl hkp).symm.trans hk)
  refine ⟨rfl, rfl, rfl, ⟨[⟨w.nextTid, false, .move w.epoch l p, []⟩], rfl,
      fun t ht => by rw [mem_singleton.1 ht]; exact ⟨hne, hc⟩⟩, rfl, fun _ => rfl,
    fun ha he => ?_, fun hw k op hk => ?_, fun c id hq => ?_, fun h => ⟨h.lidToPn, h.asked⟩, fun _ _ _ => .inl⟩
  · rintro ⟨k, hk⟩
    obtain ⟨op, hk⟩ := Option.isSome_iff_exists.1 hk
    refine ha he ?_
    rcases hback k op hk with hk | ⟨-, hk⟩
    · exact ⟨k, by rw [hk]; rfl⟩
    · exact ⟨_, hk⟩
  · rcases hback k op hk with hk | ⟨hk, -⟩
    · exact hw k op hk
    · exact hk
  · obtain ⟨j, op, hj, hk, hw⟩ := hq
    by_cases hjlp : j = l ∨ j = p
    · have hp : ∃ op', moved.1.get ⟨p, id⟩ = some op' ∧ op'.writes = true := by
        rcases movedOp_cases (h2 id) with ⟨-, h⟩ | ⟨he, hsrc⟩
        · exact h
        · rcases hjlp with rfl | rfl
          · exact absurd (hsrc op hk) (by rw [hw]; decide)
          · exact ⟨op, he.trans hk, hw⟩
      obtain ⟨op', he, hw'⟩ := hp
      refine ⟨p, op', ?_, he, hw'⟩
      rcases hjlp with rfl | rfl
      · exact hc.symm.trans hj
      · exact hj
    · rw [not_or] at hjlp
      exact ⟨j, op, hj, (h3 ⟨j, id⟩ hjlp.1 hjlp.2).trans hk, hw⟩

theorem Spares.of_chats (h : ChatsOnly w v) : Spares conv w v := by
  obtain ⟨c, t, a, rfl⟩ := h
  exact .of_eq ⟨rfl, rfl, rfl, rfl, rfl, rfl⟩ rfl rfl

theorem spares_applyMerge (w : World) (hl : l ≠ "") (hc : conv l = conv p) :
    Spares conv w (applyMerge w l p) := by
  unfold applyMerge
  split
  · exact .refl w
  · have hmove := (spares_movePersistedChat (mergeChats (mergeMessages w l p) l p) hc).after
      ((Spares.of_chats (.mergeChats _ l p)).after (spares_mergeMessages w hl hc))
    exact hmove.trans (.of_eq ⟨rfl, rfl, rfl, rfl, rfl, rfl⟩ rfl rfl)

theorem ne_empty_of_lid (h : isLid jid = true) : jid ≠ "" := by
  rintro rfl
  exact absurd h (by decide)

/-- A mapping inside a conversation is learned. -/
theorem spares_learn (w : World) (hc : conv l = conv p) : Spares conv w (w.learn l p) := by
  refine { Spares.refl w with mapped := fun h => ⟨fun l' p' h' => ?_, h.asked⟩ }
  have h' : Function.update w.lidToPn l (some p) l' = some p' := h'
  by_cases hl : l' = l
  · subst hl
    rw [Function.update_self] at h'
    injection h' with h'
    exact h' ▸ hc
  · rw [Function.update_of_ne hl] at h'
    exact h.lidToPn l' p' h'

theorem spares_learnLidMapping (w : World) (hc : conv (normalizeJid l) = conv (normalizeJid p)) :
    Spares conv w (learnLidMapping w l p) := by
  unfold learnLidMapping
  dsimp only
  split
  · exact .refl w
  · rename_i hn
    have hlid : isLid (normalizeJid l) = true := by
      simp only [Bool.or_eq_true, Bool.not_eq_true', not_or] at hn
      simpa using hn.1
    exact (spares_applyMerge _ (ne_empty_of_lid hlid) hc).after (spares_learn w hc)

theorem spares_unifyLid (h : Mapped conv w) (jid : Jid) : Spares conv w (unifyLid w jid none) := by
  unfold unifyLid
  split
  · exact .refl w
  · rename_i hlid
    split
    · rename_i p hp
      exact spares_applyMerge w (ne_empty_of_lid (by simpa using hlid)) (h.lidToPn jid p hp)
    · split
      · exact .refl w
      · refine { Spares.refl w with mapped := fun h => ⟨h.lidToPn, fun r hr => ?_⟩ }
        rcases mem_upsert hr with rfl | hr
        · exact ⟨by simpa using hlid, rfl⟩
        · exact h.asked r hr

theorem spares_answered (w : World) (jid : Jid) :
    Spares conv w { w with resolving := w.resolving.erase jid } :=
  { Spares.refl w with mapped := fun h => ⟨h.lidToPn, fun x hx => h.asked x (mem_of_mem_filter hx)⟩ }

/-- The backend answers with a phone number of the conversation. -/
theorem spares_unifyLidDone (h : Mapped conv w) (jid : Jid) {pn : Option Jid}
    (hc : ∀ p, pn = some p → conv jid = conv p) : Spares conv w (unifyLidDone w jid pn) := by
  unfold unifyLidDone
  split
  · exact .refl w
  · rename_i r hr
    obtain ⟨hlid, hnone⟩ := h.asked r (Table.get_mem hr)
    have hjid : r.jid = jid := get_key hr
    rw [hnone]
    cases pn with
    | none => exact spares_answered w jid
    | some p =>
      have hp := hc p rfl
      dsimp only
      split
      · exact spares_answered w jid
      · have hmerge := (spares_applyMerge (w.learn jid p) (ne_empty_of_lid (hjid ▸ hlid)) hp).after
          (spares_learn w hp)
        exact hmerge.trans (spares_answered _ jid)

/-! ## A message comes in -/

theorem spares_unifySender (h : Mapped conv w) (senderJid chatJid : Jid) :
    Spares conv w (unifySender w senderJid chatJid) := by
  unfold unifySender
  split
  · exact spares_unifyLid h senderJid
  · exact .refl w

theorem canonicalMessage_status (w : World) (m : MessageDto) : (canonicalMessage w m).status = none := by
  unfold canonicalMessage
  dsimp only
  split <;> rfl

/-- What follows the delivery in `onMessage`, once the chat is at the top. -/
theorem spares_afterMessage (h : Mapped conv w) (m : MessageDto) (cm : UiMessage) (b : Bool) :
    Spares conv w (unifySender (unifyLid (if b then
        setChatName (touchChat w cm.chatJid cm.text cm.timestamp (!cm.fromMe)) cm.chatJid (cm.pushName.getD "")
      else touchChat w cm.chatJid cm.text cm.timestamp (!cm.fromMe)) m.chatJid none) m.senderJid m.chatJid) := by
  have htouch : Spares conv w (touchChat w cm.chatJid cm.text cm.timestamp (!cm.fromMe)) :=
    .of_chats (.chat w (.touchChat ..))
  have hunify : ∀ v, Spares conv w v →
      Spares conv w (unifySender (unifyLid v m.chatJid none) m.senderJid m.chatJid) := by
    intro v hv
    have hu := hv.trans (spares_unifyLid (hv.mapped h) m.chatJid)
    exact hu.trans (spares_unifySender (hu.mapped h) m.senderJid m.chatJid)
  cases b with
  | true => exact hunify _ (htouch.trans (.of_chats (.chat _ (.setChatName ..))))
  | false => exact hunify _ htouch

theorem spares_onMessage (h : Mapped conv w) (m : MessageDto) : Spares conv w (onMessage w m) := by
  unfold onMessage
  dsimp only
  split
  · exact .refl w
  · have hadd : Spares conv w (addMessage w (canonicalMessage w m)) :=
      spares_addMessage (by rw [canonicalMessage_status]; decide)
    exact hadd.trans (spares_afterMessage (hadd.mapped h) m _ _)

/-- **A delivery queues the message**, unless it is resident. -/
theorem queued_onMessage (h : Mapped conv w) {m : MessageDto} (hp : persistable (canonicalMessage w m) = true)
    (hn : findId (messagesFor w (canonicalJid w m.chatJid)) m.id = none) :
    Queued conv (conv m.chatJid) m.id (onMessage w m) := by
  have hid : (canonicalMessage w m).id = m.id := id_canonicalMessage w m
  have hj := canonicalMessage_chatJid w m
  have hb := blank_of_persistable hp
  have hadd : Queued conv (conv m.chatJid) m.id (addMessage w (canonicalMessage w m)) := by
    rw [← hid, ← h.canonicalJid, ← hj]
    exact queued_addMessage hp (by rwa [hj, hid])
  have hmapped : Mapped conv (addMessage w (canonicalMessage w m)) :=
    (spares_addMessage (by rw [canonicalMessage_status]; decide)).mapped h
  unfold onMessage
  rw [if_neg (by simp [hb])]
  exact (spares_afterMessage hmapped m _ _).queued _ _ hadd

end Whatsvelte
