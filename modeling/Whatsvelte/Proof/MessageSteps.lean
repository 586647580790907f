import Whatsvelte.Proof.Advance

/-!
# What a step does to one message

`Happens k w e v` lists everything a synchronous step `e` can do to the slot of `k`, and
`Advanced k w v` everything one move of the transaction queue can do to it. An invariant
of one message is then a case analysis of these two, one line for most cases.

`QueueSafe k w` is the condition under which the queue writes what it stands for: the
flush at the head keeps nothing for later that is written in between, and the patch at
the head takes out of the write queue only the insert that it saw.
-/

namespace Whatsvelte

variable {w v : World} {k : Key} {e : Step}
variable {later : List Txn} {tid started : ℕ}

/-! ## Synchronous steps -/

/-- The message that a step delivers. -/
def Step.delivers : Step → Option UiMessage
  | .addMessage m => some m
  | .addOptimistic jid r now text quoted => some (textBubble jid r now text quoted)
  | .addOptimisticMedia jid r now kind text thumbnail =>
    some (mediaBubble jid r now kind text thumbnail)
  | _ => none

/-- What a step has to say about the message `k`. -/
def Step.update (k : Key) : Step → Option Patch
  | .applyRevoke jid targetId _ => if (⟨jid, targetId⟩ : Key) = k then some .revoke else none
  | .applyEdit jid targetId text editedAt =>
    if (⟨jid, targetId⟩ : Key) = k then some (.edit text editedAt) else none
  | .applyReaction jid targetId reactor emoji =>
    if (⟨jid, targetId⟩ : Key) = k then some (.reaction reactor emoji) else none
  | .applyReceipt jid ids status =>
    if k.chatJid = jid ∧ k.id ∈ ids then some (.receipt status) else none
  | _ => none

/-- The fallback data that a step carries for a tombstone. -/
def Step.fallback : Step → Option Fallback
  | .applyRevoke _ _ fallback => fallback
  | _ => none

/-- The receipt that waited for a unification step, as far as it is about `k`. -/
def Received (e : Step) (k : Key) (w w₁ v : World) : Prop :=
  Slot.Keeps (w₁.slot k) (v.slot k) ∨
    ∃ d, e.waited w = some d ∧ k.id ∈ d.messageIds ∧ Updated (.receipt d.status) none k w₁ v

/-- Everything that a synchronous step can do to the slot of `k`. -/
inductive Happens (k : Key) (w : World) (e : Step) (v : World) : Prop
  | quiet (h : Slot.Calm (e.flags k = true) (w.slot k) (v.slot k))
  | delivered (m : UiMessage) (hd : e.delivers = some m) (hk : m.key = k) (h : Delivered m w v)
  | history (list : List UiMessage) (w₁ : World) (he : e = .addHistoryMessages list)
      (hp : Pushed true (fun o => o.msg ∈ list) k (w.slot k) (w₁.slot k))
      (hq : Slot.Calm (e.flags k = true) (w₁.slot k) (v.slot k))
  | confirmed (jid : Jid) (r : String) (x o : Obj) (he : e = .confirmOptimistic jid r k.id)
      (hk : jid = k.chatJid) (hx : findId (messagesFor w jid) (tempId r) = some x)
      (hres : (w.slot k).resident = none)
      (ho : ∃ s, o.msg = { x.msg with id := k.id, status := some s } ∧ s ≠ .sending)
      (hw : Slot.Writes o (w.slot k) (v.slot k))
  | failed (jid : Jid) (r : String) (he : e = .failOptimistic jid r) (hk : k.id = tempId r)
      (hn : (w.slot k).resident = none → v.slot k = w.slot k)
  | updated (fn : Patch) (hu : e.update k = some fn) (h : Updated fn e.fallback k w v)
  | removed (he : e = .removeMessage k.chatJid k.id) (hs : v.slot k = ⟨none, none⟩)
  | restored (o : Obj) (he : e = .restoreMessage o) (hk : o.key = k)
      (hw : Slot.Writes o (w.slot k) (v.slot k))
  /-- A unification step merges the chat of `k` or not; then comes the receipt. -/
  | unified (w₁ w₂ w₃ : World) (he : e.unifies = true) (h1 : Same w w₁)
      (hm : w₂.slot k = w₁.slot k ∨ ∃ l p, e.merge w = some (l, p) ∧
        (k.chatJid = l ∨ k.chatJid = p) ∧ w₂ = applyMerge w₁ l p)
      (hs : Sync w₁ w₂) (hwf : w₂.Wf) (h3 : Same w₂ w₃) (hr : Received e k w w₃ v)
      (hs' : Sync w₃ v)

theorem failOptimistic_of_none {jid : Jid} {id : MsgId}
    (h : findId (messagesFor w jid) id = none) : failOptimistic w jid id = w := by
  unfold failOptimistic
  split
  · rfl
  · rename_i arr harr
    rw [messagesFor_of_some harr] at h
    rw [h]

theorem happens_unify (h : w.Wf) (hid : k.id ≠ "") (he : e.unifies = true) : Happens k w e (w.step e) := by
  obtain ⟨w₁, w₂, w₃, h1, hm, h3, hr⟩ := unify_cases he
  have h2 := merged_frame (h1.wf h) hm
  have h4 := h3.wf h2.2
  refine .unified w₁ w₂ w₃ he h1 ?_ h2.1 h2.2 h3 (hr.slot h4 hid) (hr.frame h4).1
  rcases hm with rfl | ⟨l, p, hlp, rfl⟩
  · exact .inl rfl
  · by_cases hk : k.chatJid = l ∨ k.chatJid = p
    · exact .inr ⟨l, p, hlp, hk, rfl⟩
    · rw [not_or] at hk
      exact .inl ((applyMerge_frame (h1.wf h) l p).2.2 k hk.1 hk.2)

/-- **An update of a message**, by any of the four kinds of step. -/
theorem updated_step {fn : Patch} (h : w.Wf) (hid : k.id ≠ "") (hu : e.update k = some fn) :
    Updated fn e.fallback k w (w.step e) := by
  cases e with
  | applyRevoke jid targetId fallback =>
    obtain ⟨rfl, hfn⟩ := Option.ite_none_right_eq_some.1 hu
    cases hfn
    exact (applyRevoke_spec h jid targetId fallback).2 hid
  | applyEdit jid targetId | applyReaction jid targetId =>
    obtain ⟨rfl, hfn⟩ := Option.ite_none_right_eq_some.1 hu
    cases hfn
    exact (updateMessage_spec h jid targetId _).2 hid
  | applyReceipt jid ids status =>
    obtain ⟨hk, hfn⟩ := Option.ite_none_right_eq_some.1 hu
    cases hfn
    have hup := (applyReceipt_spec h jid ids status).2.2 k hid
    rwa [if_pos hk] at hup
  | _ => cases hu

theorem update_of_async (he : ¬ e.sync = true) : e.update k = none := by
  cases e <;> first | rfl | exact absurd rfl he

/-- **What a synchronous step does to a message.** -/
theorem happens (h : w.Wf) (hid : k.id ≠ "") (he : e.sync = true) : Happens k w e (w.step e) := by
  -- most steps are about no message at all, or about another one
  by_cases hn : e.about w k = false
  · exact .quiet (quiet_step h hid he hn).calm
  rw [Bool.not_eq_false] at hn
  cases hu : e.update k with
  | some fn => exact .updated fn hu (updated_step h hid hu)
  | none =>
  cases e with
  | addMessage m =>
    have hk : m.key = k := of_decide_eq_true hn
    subst hk
    exact .delivered m rfl rfl ((addMessage_spec h m).2 hid)
  | addHistoryMessages list =>
    have hr := Same.ref w (w.nextRef + list.length)
    obtain ⟨w₁, h1, h2, h3⟩ := addHistoryMessages_spec (hr.wf h) (objs w.nextRef list) true
    obtain ⟨h4, h5⟩ := h3 k hid
    refine .history list w₁ rfl ?_ (h5.calm.mono ?_)
    swap
    · rintro ⟨o, ho, hc⟩
      exact List.any_eq_true.2 ⟨o.msg, mem_objs ho, decide_eq_true hc⟩
    rw [hr.slot k] at h4
    exact h4.mono fun o ho => mem_objs ho
  | addOptimistic jid r now text quoted =>
    have hk : (⟨jid, tempId r⟩ : Key) = k := of_decide_eq_true hn
    subst hk
    exact .delivered (textBubble jid r now text quoted) rfl rfl ((addMessage_spec h _).2 hid)
  | addOptimisticMedia jid r now kind text thumbnail =>
    have hk : (⟨jid, tempId r⟩ : Key) = k := of_decide_eq_true hn
    subst hk
    exact .delivered (mediaBubble jid r now kind text thumbnail) rfl rfl ((addMessage_spec h _).2 hid)
  | confirmOptimistic jid r realId =>
    have hk : (⟨jid, realId⟩ : Key) = k := of_decide_eq_true hn
    subst hk
    rcases (confirmOptimistic_spec h jid (tempId r) realId).2 hid with ⟨hk, -⟩ | ⟨x, hx, hres, hw⟩
    · exact .quiet (.inl hk)
    · exact .confirmed jid r x _ rfl rfl hx hres ⟨_, rfl, earlyStatus_ne_sending w _⟩ hw
  | failOptimistic jid r =>
    have hk : (⟨jid, tempId r⟩ : Key) = k := of_decide_eq_true hn
    subst hk
    refine .failed jid r rfl rfl fun hres => ?_
    rw [World.step, failOptimistic_of_none hres]
  | applyRevoke | applyEdit | applyReaction => exact absurd hu (by simp [Step.update, of_decide_eq_true hn])
  | applyReceipt => exact absurd hu (by simpa [Step.update, Step.about] using hn)
  | removeMessage jid targetId =>
    have hk : (⟨jid, targetId⟩ : Key) = k := of_decide_eq_true hn
    subst hk
    exact .removed rfl ((removeMessage_spec h jid targetId).2 hid)
  | restoreMessage original =>
    have hk : original.key = k := of_decide_eq_true hn
    subst hk
    exact .restored original rfl rfl ((restoreMessage_spec h original).2 hid)
  | learnLidMapping | unifyLid | unifyLidDone => exact happens_unify h hid rfl
  | openNext | advance | flushFails | resetAll | wipe => cases he
  | _ => simp [Step.about, Step.merge, Step.waited] at hn

/-! ## The transaction queue -/

/-- What the transaction at the head writes is what it stands for, as far as `k` goes. -/
def QueueSafe (k : Key) (w : World) : Prop :=
  match w.txq with
  | ⟨_, true, .flush _ ops, _⟩ :: later => SliceSafe k.id ops later
  | ⟨_, true, .patch _ k₀ queued _ _, _⟩ :: later => k₀ = k → PatchSafe w k queued later
  | _ => True

instance (k : Key) (w : World) : Decidable (QueueSafe k w) := by
  unfold QueueSafe
  match w.txq with
  | [] => infer_instance
  | ⟨_, false, _, _⟩ :: _ => infer_instance
  | ⟨_, true, job, _⟩ :: _ => induction job using Job.casesOn <;> infer_instance

/-- The key under which the continuation of an earlier revoke puts its tombstone. -/
def Step.plants (w : World) : Step → Option Key
  | .advance =>
    match w.txq with
    | ⟨_, true, .patched k false (.tombstone (some _)), _⟩ :: _ => some k
    | _ => none
  | .openNext =>
    match w.txq.dropWhile (·.opened) with
    | ⟨_, _, .patch started k _ _ (.tombstone (some _)), _⟩ :: _ =>
      if started ≠ w.epoch then some k else none
    | _ => none
  | _ => none

/-- The rows that the read at the head of the queue will return, with its upper bound. -/
def World.rowsRead (w : World) : List (Option ℤ × Obj) :=
  match w.txq with
  | ⟨_, true, .page jid limit beforeTs, _⟩ :: later =>
    (loadLatestMessages (w.popped later) jid limit beforeTs).map (beforeTs, ·)
  | ⟨_, true, .tails jids n, _⟩ :: later =>
    (tailRows (w.popped later) n w.nextRef jids).1.map (none, ·)
  | _ => []

/-- Whether a read of the chat is at the head of the queue. -/
def World.reads (w : World) (c : Jid) : Bool :=
  match w.txq with
  | ⟨_, true, .page jid _ _, _⟩ :: _ => c = jid
  | ⟨_, true, .tails jids _, _⟩ :: _ => c ∈ jids
  | _ => false

theorem row_of_rowsRead {r : Option ℤ × Obj} (h : r ∈ w.rowsRead) : Row w r.1 r.2 := by
  unfold World.rowsRead at h
  split at h
  · obtain ⟨o, ho, rfl⟩ := List.mem_map.1 h
    exact row_of_load ho
  · obtain ⟨o, ho, rfl⟩ := List.mem_map.1 h
    have hrow := row_of_tail _ _ ho
    exact hrow
  · cases h

/-- The resident copy of `k` is the fresh one for which a stored copy was asked, and the
answer is next. -/
def AdoptsNow (k : Key) (w : World) : Prop :=
  ∃ tid fresh c later s cur, w.txq = ⟨tid, true, .adopt fresh, c⟩ :: later ∧ fresh.key = k ∧
    w.msgs.get k = some s ∧ (w.slot k).resident = some cur ∧ cur.ref = fresh.ref

/-- Everything that one move of the queue can do to the slot of `k`. -/
inductive Advanced (k : Key) (w v : World) : Prop
  | quiet (hno : ¬ AdoptsNow k w)
      (h : Slot.Calm (w.reads k.chatJid = true) (w.slot k) (v.slot k))
  /-- A revoke that found nothing inserts its tombstone. -/
  | tombstone (tid : ℕ) (f : Fallback) (o : Obj) (c : List Chat) (later : List Txn)
      (ht : w.txq = ⟨tid, true, .patched k false (.tombstone (some f)), c⟩ :: later)
      (hres : (w.slot k).resident = none) (ho : o.msg = tombstone k f)
      (hw : Slot.Writes o (w.slot k) (v.slot k))
  /-- A read brings the message into memory. -/
  | loaded (r : Option ℤ × Obj) (hr : r ∈ w.rowsRead) (hk : r.2.key = k)
      (hres : (w.slot k).resident = none)
      (hc : Slot.Calm (w.reads k.chatJid = true) ⟨some r.2, w.eff k⟩ (v.slot k))
  /-- The fresh copy adopts the stored one. -/
  | adopted (tid : ℕ) (fresh cur o : Obj) (s : UiMessage) (c : List Chat) (later : List Txn)
      (ht : w.txq = ⟨tid, true, .adopt fresh, c⟩ :: later) (hk : fresh.key = k)
      (hs : w.msgs.get k = some s) (hcur : (w.slot k).resident = some cur)
      (href : cur.ref = fresh.ref) (ho : o.msg = adopted s fresh.msg)
      (hres : (v.slot k).resident = some o ∨ (v.slot k).resident = none)
      (heff : v.eff k = if (adopted s fresh.msg).media ≠ s.media then putEff o.msg (w.eff k)
        else w.eff k)

theorem slot_of_lists (hb : v.byChat = w.byChat) (he : v.eff k = w.eff k) : v.slot k = w.slot k := by
  rw [World.slot, World.slot, messagesFor, messagesFor, hb, he]

theorem slot_of_base (hb : v.byChat = w.byChat) (hp : v.q.pending = w.q.pending)
    (he : v.base = w.base) : v.slot k = w.slot k :=
  slot_of_lists hb (by rw [World.eff, World.eff, hp, he])

/-- The read or continuation at the head leaves the queue: no record changes. -/
theorem slot_popped {t : Txn} (ht : w.txq = t :: later)
    (hi : ∀ k, t.job.Inert k) (k : Key) : (w.popped later).slot k = w.slot k :=
  slot_of_base rfl rfl (base_pop ht hi rfl rfl)

theorem slot_flushSlice {ops : Table PendingOp.key} {c : List Chat}
    (h : Sound w) (ht : w.txq = ⟨tid, true, .flush started ops, c⟩ :: later)
    (hs : SliceSafe k.id ops later) : (flushSlice w tid started ops later).slot k = w.slot k := by
  obtain ⟨h1, -, -, h2, -⟩ := flushSlice_frame w tid started ops later
  refine slot_of_lists h1 (eff_congr (by rw [h2]) ?_)
  rcases started_of_fresh (h.head ht).1 with hst | rfl
  · exact base_flushSlice ht hs hst k rfl
  · -- nothing to write
    have hb := base_pop (v := flushSlice w tid started .empty later) ht (fun _ _ => rfl) rfl rfl
    rw [hb]

theorem slot_patchRequests {k₀ : Key} {queued : Option Obj} {fn : Patch}
    {after : AfterPatch} {c : List Chat} (h : Sound w)
    (ht : w.txq = ⟨tid, true, .patch started k₀ queued fn after, c⟩ :: later)
    (hs : k₀ = k → PatchSafe w k queued later) :
    (patchRequests w tid k₀ queued fn after later).slot k = w.slot k := by
  have hq : ∀ m, queued = some m → m.key = k₀ := by
    rintro m rfl
    exact of_decide_eq_true (h.head ht).2
  refine slot_of_lists patchRequests_byChat ?_
  by_cases hk : k₀ = k
  · subst hk
    rw [eff_patchRequests ht hq (hs rfl)]
  · refine eff_congr ?_ (by rw [base_patchRequests ht hq])
    rw [patchRequests_pending]
    split
    · rw [Table.get_erase, if_neg hk]
    · rfl

/-- It is the turn of the adoption that the resident copy waits for. -/
theorem advanced_adopt (h : Sound w) (hid : k.id ≠ "") (hnow : AdoptsNow k w) : Advanced k w (advance w) := by
  obtain ⟨tid, fresh, c, later, s, cur, ht, rfl, hs, hcur, href⟩ := hnow
  have hp := slot_popped ht (fun _ _ => rfl) fresh.key
  have hrun : advance w = adoptStoredDone (w.popped later) fresh (w.msgs.get fresh.key) := by
    unfold advance; rw [ht]; rfl
  rcases adoptStoredDone_cases (w.popped later) fresh (w.msgs.get fresh.key) with
    ⟨-, hno | hno⟩ | ⟨s', cur', hst, hcur', -, he⟩
  · rw [hs] at hno; cases hno
  · exact absurd href (hno cur (hp ▸ hcur))
  · rw [hs] at hst
    cases hst
    obtain ⟨-, -, h2⟩ := adoptWith_spec (h.popped ht).wf (Table.get_key hs) hcur'
    obtain ⟨o, ho, hres, heff⟩ := h2 hid
    have hpe : (w.popped later).eff fresh.key = w.eff fresh.key := congrArg Slot.stored hp
    rw [hpe] at heff
    rw [hrun, he]
    exact .adopted tid fresh cur o s c later ht rfl hs hcur href ho hres heff

/-- **What one move of the queue does to a message.** -/
theorem advanced (h : Sound w) (hid : k.id ≠ "") (hs : QueueSafe k w) : Advanced k w (advance w) := by
  by_cases hnow : AdoptsNow k w
  · exact advanced_adopt h hid hnow
  have hsame : ∀ {v : World}, v.slot k = w.slot k → Advanced k w v := fun hv =>
    .quiet hnow (.inl (hv ▸ .refl _))
  have hr := ran_advance w
  generalize advance w = v at hr
  cases hr with
  | idle => exact hsame rfl
  | flush tid started ops c later ht =>
    rw [QueueSafe, ht] at hs
    exact hsame (slot_flushSlice h ht hs)
  | patch tid started k₀ queued fn after c later ht =>
    rw [QueueSafe, ht] at hs
    exact hsame (slot_patchRequests h ht hs)
  | patched tid k₀ found after c later ht =>
    have hp := slot_popped ht (fun _ _ => rfl) k
    obtain ⟨h1, -, h2⟩ := afterPatch_spec (h.popped ht).wf k₀ found after
    by_cases hk : k₀ = k
    · subst hk
      rcases h2 hid with h2 | ⟨hres, rfl, f, o, rfl, ho, hw⟩
      · exact hsame (h2.trans hp)
      · rw [hp] at hres hw
        exact .tombstone tid f o c later ht hres ho hw
    · have := h1.keeps k hid hk
      rw [hp] at this
      exact .quiet hnow (.inl this)
  | move tid started l p c later ht =>
    have hne : l ≠ p := of_decide_eq_true (h.head ht).2
    refine hsame (slot_of_base rfl rfl ?_)
    exact base_move ht hne rfl rfl
  | page tid jid limit beforeTs c later ht =>
    have hp := slot_popped ht (fun _ _ => rfl) k
    obtain ⟨-, h1, h2⟩ := loadOlderDone_spec (h.popped ht).wf jid limit beforeTs
    have hq := (quiet_openChatDone (P := w.reads k.chatJid = true) h1 hid jid fun hj => by
      rw [World.reads, ht]; exact decide_eq_true hj).calm
    rcases h2 k hid with h2 | ⟨hres, o, ho, hk, h2⟩
    · rw [h2, hp] at hq; exact .quiet hnow hq
    · rw [h2, hp] at hq
      refine .loaded (beforeTs, o) ?_ hk (hp ▸ hres) hq
      rw [World.rowsRead, ht]
      exact List.mem_map.2 ⟨o, ho, rfl⟩
  | tails tid jids n c later ht =>
    have hp := slot_popped ht (fun _ _ => rfl) k
    obtain ⟨w₁, -, -, h2⟩ := loadTailsDone_spec (h.popped ht).wf jids n
    obtain ⟨h2, hq⟩ := h2 k hid
    have hq := hq.calm.mono fun hj => show w.reads k.chatJid = true by
      rw [World.reads, ht]; exact decide_eq_true hj
    rcases h2 with h2 | ⟨hres, o, ho, hk, h2⟩
    · rw [h2, hp] at hq; exact .quiet hnow hq
    · rw [h2, hp] at hq
      refine .loaded (none, o) ?_ hk (hp ▸ hres) hq
      rw [World.rowsRead, ht]
      exact List.mem_map.2 ⟨o, ho, rfl⟩
  | adopt tid fresh c later ht =>
    have hp := slot_popped ht (fun _ _ => rfl)
    rcases adoptStoredDone_cases (w.popped later) fresh (w.msgs.get fresh.key) with
      ⟨he, -⟩ | ⟨s, cur, hst, hcur, href, he⟩
    · rw [he]; exact hsame (hp k)
    · rw [he]
      by_cases hk : fresh.key = k
      · subst hk
        exact absurd ⟨tid, fresh, c, later, s, cur, ht, rfl, hst, hp _ ▸ hcur, href⟩ hnow
      · have := (adoptWith_spec (h.popped ht).wf (Table.get_key hst) hcur).1.keeps k hid hk
        rw [hp] at this
        exact .quiet hnow (.inl this)
  | chats tid started c later ht | account tid jid c later ht =>
    refine hsame (slot_of_base rfl rfl ?_)
    exact base_pop ht (fun _ _ => rfl) rfl rfl
  | clear tid c later ht =>
    refine hsame (slot_of_base rfl rfl ?_)
    exact base_clear ht rfl rfl

theorem slot_openNext (h : Sound w) (k : Key) : (openNext w).slot k = w.slot k := by
  obtain ⟨-, h1, h2, h3, h4, -, -⟩ := openNext_spec h
  refine slot_of_base h3 (by rw [h4]) ?_
  rw [World.base, World.base, h1, h2]

end Whatsvelte
