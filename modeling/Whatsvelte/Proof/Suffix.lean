import Whatsvelte.Proof.Window

/-!
# The window is the end of the history

`WindowSafe` is the condition on a step: the copies of an id carry one timestamp, what is put into a window and
left there is not older than what stays hidden, a merge brings no hidden messages over a window, and the
transaction at the head of the queue does what it stands for.

* `slides_step`, `sourced_step`: what a synchronous step does to the lists and to the set of records.
* `window_sync`, `window_advance`: the window is kept by calls and by moves of the queue.
* **window_is_suffix**: along every safe run a record that is newer than a resident message is resident, and
  all are where `hasOlder` is false.
* **late_message_splits_window**: without the condition a late message leaves a gap.
-/

namespace Whatsvelte

open List

variable {stamp : MsgId → ℤ} {w v : World} {c jid : Jid} {i : MsgId} {ins : List MsgId} {k : Key} {e : Step}
  {limit : ℕ} {beforeTs : Option ℤ} {o : Obj} {m : UiMessage}
variable {later : List Txn} {fn : Patch} {r : Option UiMessage} {P : Prop}

/-! ## Synchronous steps -/

/-- The keys of the messages that a step puts into memory, reads apart. -/
def Step.inserts (w : World) : Step → List Key
  | .addMessage m => brought m
  | .addHistoryMessages list => list.flatMap brought
  | .addOptimistic jid r now text quoted => brought (textBubble jid r now text quoted)
  | .addOptimisticMedia jid r now kind text thumbnail => brought (mediaBubble jid r now kind text thumbnail)
  | .confirmOptimistic jid r realId => Whatsvelte.confirms w jid (tempId r) realId
  | .applyRevoke jid id fallback => revokes w jid id fallback
  | .restoreMessage original => [original.key]
  | .advance =>
    match w.txq with
    | ⟨_, true, .patched k found after, _⟩ :: _ => planted k found after
    | _ => []
  | e => e.gathers w

theorem stamped_of_unread (h : Stamped stamp (startUnread m)) : Stamped stamp m := by
  obtain ⟨b, hb⟩ := startUnread_fields m
  rwa [hb] at h

theorem OneStamp.put (h : OneStamp stamp w) (ho : w.q.pending.get k = some (.put o)) : Stamped stamp o.msg := by
  have hold : Filed stamp o.msg := h.pending _ (Table.get_mem ho)
  exact hold.1

theorem flatMap_objs (ref : ℕ) (list : List UiMessage) :
    (objs ref list).flatMap (fun o => brought o.msg) = list.flatMap brought := by
  conv_rhs => rw [← map_msg_objs ref list]
  rw [flatMap_map]

theorem ChatsOnly.slides (h : ChatsOnly w v) (hs : Dated stamp (messagesFor w c)) : Slides stamp c [] w v := by
  obtain ⟨cs, t, a, rfl⟩ := h
  exact .of_same hs rfl rfl

/-- Steps that work in place. -/
theorem slides_called (hs : Dated stamp (messagesFor w c)) (ht : w.Sorted) (h : Called .inPlace w e v)
    (hl : ∀ list, e ≠ .addHistoryMessages list) (hr : ∀ jid id, e ≠ .removeMessage jid id)
    (hu : e.unifies = false) : Slides stamp c [] w v := by
  cases h with
  | store h => exact slides_acts hs h
  | read h jid n =>
    have h1 := slides_acts hs h
    exact h1.trans ((ChatsOnly.decrementUnread _ jid n).slides h1.dated)
  | confirm t h => exact (slides_acts (w := { w with earlyReceipts := t }) hs h).before rfl id
  | cut hb n =>
    have harr := messagesFor_of_some hb
    subst harr
    exact slides_lastN hs ht n (fun _ => messagesFor_setList) rfl
  | history list => exact absurd rfl (hl list)
  | remove jid id => exact absurd rfl (hr jid id)
  | chat op => exact (ChatsOnly.chat w op).slides hs
  | unify h => rw [hu] at h; cases h
  | _ => exact .of_same hs rfl rfl

/-- **A synchronous step slides the windows**; a delete is another matter. -/
theorem slides_step (h : OneStamp stamp w) (ht : w.Sorted) (hb : Brings (Stamped stamp) w e) (he : e.sync = true)
    (hr : ∀ jid id, e ≠ .removeMessage jid id) (hc : ∀ l p, e.merge w = some (l, p) → c ≠ l) :
    Slides stamp c (idsIn c (e.inserts w)) w (w.step e) := by
  have hs : ∀ j, Dated stamp (messagesFor w j) := h.resident
  cases e with
  | addMessage => exact slides_addMessage (hs c) (stamped_of_unread hb.1) fun o ho => h.put ho
  | addHistoryMessages list =>
    have hlist : Dated stamp (objs w.nextRef list) := fun o ho => hb _ (mem_objs ho)
    have h1 := slides_addHistoryMessages (w := { w with nextRef := w.nextRef + list.length }) (hs c) hlist true
    rw [flatMap_objs] at h1
    exact h1.before rfl id
  | addOptimistic | addOptimisticMedia =>
    exact slides_addMessage (hs c) hb.2 fun o ho => h.put ho
  | confirmOptimistic jid r => exact slides_confirmOptimistic (hs c) (isTmp_tempId r) fun x hx => hb x hx
  | failOptimistic =>
    exact slides_called (hs c) ht (calls_step rfl fun _ _ => ⟨_, rfl, rfl, rfl⟩) nofun nofun rfl
  | applyRevoke jid id fallback => exact slides_applyRevoke (hs c) jid id fallback fun hn f hf => hb hn f hf
  | applyReceipt =>
    exact slides_called (hs c) ht (calls_step rfl fun _ _ => trivial) nofun nofun rfl
  | removeMessage jid id => exact absurd rfl (hr jid id)
  | restoreMessage => exact slides_restoreMessage (hs c) hb
  | learnLidMapping | unifyLid | unifyLidDone => exact slides_unify hs rfl hc
  | openNext | advance | flushFails | resetAll | wipe => cases he
  | _ => exact slides_called (hs c) ht (calls_step rfl trivial) nofun nofun rfl

/-! ## New records -/

theorem isSome_putEff (h : (putEff m r).isSome = true) : persistable m = true ∨ r.isSome = true := by
  unfold putEff at h
  split at h
  · rename_i hp
    exact .inl hp
  · exact .inr h

theorem isSome_patchedEff (h : (patchedEff fn r).isSome = true) : r.isSome = true := by
  cases r with
  | none => exact h
  | some => rfl

/-- A record that a merge leaves under `p` was there, or under `l`. -/
theorem Moves.source_of_known {l p : Jid} (h : Moves l p w v) (hi : (v.eff ⟨p, i⟩).isSome = true) :
    (w.eff ⟨p, i⟩).isSome = true ∨ (w.eff ⟨l, i⟩).isSome = true ∨ (w.base ⟨l, i⟩).isSome = true := by
  have hp := h.pending i
  rw [eff_apply, h.base i] at hi
  rw [eff_apply w ⟨l, i⟩]
  -- the queue of `p` keeps its own operation, if the one of `l` is a delete or there is none
  have hown : v.q.pending.get ⟨p, i⟩ = w.q.pending.get ⟨p, i⟩ →
      ((w.q.pending.get ⟨p, i⟩).elim (w.base ⟨p, i⟩) (·.eff (w.base ⟨p, i⟩))).isSome = true ∨
        (w.base ⟨l, i⟩).isSome = true := by
    intro hq
    rw [hq] at hi
    cases hop : w.q.pending.get ⟨p, i⟩ with
    | none =>
      rw [hop, Option.elim_none, World.baseMerged, Option.isSome_or, Bool.or_eq_true, Option.isSome_map] at hi
      exact hi.symm
    | some op =>
      cases op with
      | put => exact .inl rfl
      | add =>
        left
        rw [Option.elim_some, PendingOp.eff]
        rcases w.base ⟨p, i⟩ with _ | r <;> rfl
      | del =>
        rw [hop] at hi
        cases hi
  cases hol : w.q.pending.get ⟨l, i⟩ with
  | none =>
    rw [hol] at hp
    exact (hown hp).imp_right Or.inr
  | some =>
    rw [hol] at hp
    obtain ⟨r', hr', hv⟩ := hp
    cases hr' with
    | put => exact .inr (.inl rfl)
    | add =>
      right; left
      rw [Option.elim_some, PendingOp.eff]
      rcases w.base ⟨l, i⟩ with _ | r <;> rfl
    | del => exact (hown hv).imp_right Or.inr

/-- The record of `k` is one of the chat before the step, or comes with it. -/
def Sourced (w : World) (e : Step) (c : Jid) (i : MsgId) : Prop :=
  (w.eff ⟨c, i⟩).isSome = true ∨ hasId (messagesFor w c) i = true ∨ i ∈ idsIn c (e.inserts w)

/-- The record comes from a chat that is merged into `c`. -/
def Moved (w : World) (e : Step) (c : Jid) (i : MsgId) : Prop :=
  ∃ l, e.merge w = some (l, c) ∧ ((w.eff ⟨l, i⟩).isSome = true ∨ (w.base ⟨l, i⟩).isSome = true)

theorem hasId_of_resident (h : ((w.slot ⟨c, i⟩).resident).isSome = true) : hasId (messagesFor w c) i = true := by
  rwa [hasId_eq]

theorem sourced_of_keeps {s : Slot} (hk : Slot.Keeps (w.slot ⟨c, i⟩) s) (hi : s.stored.isSome = true) :
    Sourced w e c i := by
  rw [hk.1] at hi
  exact .inl hi

theorem sourced_of_calm {s : Slot} (hk : Slot.Calm P (w.slot ⟨c, i⟩) s) (hi : s.stored.isSome = true) :
    Sourced w e c i := by
  rcases hk with hk | ⟨-, x, o, b, hx, -, -⟩
  · exact sourced_of_keeps hk hi
  · exact .inr (.inl (hasId_of_resident (by rw [hx]; rfl)))

/-- Only a queued delete makes a patch answer at once that there is nothing. -/
theorem found_of_not_deleting {after : AfterPatch} {found : Bool} (hd : w.deleting k = false)
    (h : (patchPersistedMessage w k fn after).2 = some found) : found = true := by
  unfold patchPersistedMessage at h
  unfold World.deleting at hd
  cases hop : w.q.pending.get k with
  | none =>
    rw [hop] at h
    cases h
  | some op =>
    rw [hop] at h hd
    cases op with
    | put =>
      dsimp only at h
      split at h <;> exact (Option.some.inj h).symm
    | add => cases h
    | del => cases hd

/-- A revoke that finds no queued delete leaves a tombstone only later. -/
theorem eff_applyRevoke_of_not_deleting (h : w.Wf) (hx : findId (messagesFor w jid) i = none)
    (hd : w.deleting ⟨jid, i⟩ = false) (fallback : Option Fallback) :
    (applyRevoke w jid i fallback).eff ⟨jid, i⟩ = patchedEff .revoke (w.eff ⟨jid, i⟩) := by
  obtain ⟨-, -, heff, -⟩ := patchPersistedMessage_spec h ⟨jid, i⟩ .revoke (.tombstone fallback)
  rw [← heff]
  have hrev : applyRevoke w jid i fallback = patchThen w ⟨jid, i⟩ .revoke (.tombstone fallback) := by
    unfold applyRevoke
    rw [hx]
  rw [hrev]
  unfold patchThen
  split
  · rename_i w' found hw'
    have hfound : found = true := found_of_not_deleting hd (by rw [hw'])
    rw [hw', hfound]
    cases fallback <;> rfl
  · rename_i w' hw'
    rw [hw']

theorem sourced_delivered (hd : e.delivers = some m) (hk : m.key = ⟨c, i⟩) (h : Delivered m w v)
    (hi : (v.eff ⟨c, i⟩).isSome = true) : Sourced w e c i := by
  have hin : isBlankMessage m = false → Sourced w e c i := by
    intro hb
    refine .inr (.inr (mem_idsIn.2 ?_))
    have hbr : e.inserts w = brought m := by cases e <;> cases hd <;> rfl
    rw [hbr, brought_eq hb, hk]
    exact mem_singleton_self _
  cases h with
  | known _ hslot =>
    have heff : v.eff ⟨c, i⟩ = w.eff ⟨c, i⟩ := congrArg Slot.stored (hk ▸ hslot)
    rw [heff] at hi
    exact .inl hi
  | media x _ hx =>
    rw [hk] at hx
    exact .inr (.inl (hasId_of_resident (by rw [hx]; rfl)))
  | echo o _ _ _ ho hw =>
    have heff : v.eff ⟨c, i⟩ = putEff o.msg (w.eff ⟨c, i⟩) := (hk ▸ hw : Slot.Writes _ _ _).1
    rw [heff] at hi
    rcases isSome_putEff hi with hp | hold
    · refine hin ?_
      have hb := blank_of_persistable hp
      obtain ⟨b, hu⟩ := startUnread_fields m
      rwa [ho, hu] at hb
    · exact .inl hold
  | new _ _ hb => exact hin hb

theorem sourced_updated (hwf : w.Wf) (hu : e.update ⟨c, i⟩ = some fn)
    (h : Updated fn e.fallback ⟨c, i⟩ w (w.step e)) (hi : ((w.step e).eff ⟨c, i⟩).isSome = true) :
    Sourced w e c i := by
  have hres : ∀ x, (w.slot ⟨c, i⟩).resident = some x → Sourced w e c i := fun x hx =>
    Or.inr (.inl (hasId_of_resident (by rw [hx]; rfl)))
  cases h with
  | resident x _ hx | unchanged x hx => exact hres x hx
  | stored _ hs =>
    have heff : (w.step e).eff ⟨c, i⟩ = patchedEff fn (w.eff ⟨c, i⟩) := congrArg Slot.stored hs
    rw [heff] at hi
    exact .inl (isSome_patchedEff hi)
  | tombstone f o hx heff hf =>
    cases e with
    | applyRevoke jid id fallback =>
      have hk : (⟨jid, id⟩ : Key) = ⟨c, i⟩ := by
        simp only [Step.update] at hu
        split at hu
        · assumption
        · cases hu
      obtain ⟨rfl, rfl⟩ : jid = c ∧ id = i := ⟨congrArg Key.chatJid hk, congrArg Key.id hk⟩
      cases hd : w.deleting ⟨jid, id⟩ with
      | false =>
        have hv : (w.step (.applyRevoke jid id fallback)).eff ⟨jid, id⟩ = _ :=
          eff_applyRevoke_of_not_deleting hwf hx hd fallback
        rw [hv] at hi
        exact .inl (isSome_patchedEff hi)
      | true =>
        refine .inr (.inr (mem_idsIn.2 ?_))
        have hfb : fallback = some f := hf
        have hnot : hasId (messagesFor w jid) id = false := by
          rw [hasId_eq]
          exact Option.isSome_eq_false_iff.2 (Option.isNone_iff_eq_none.2 hx)
        show (⟨jid, id⟩ : Key) ∈ revokes w jid id fallback
        rw [revokes, hnot, hd, hfb]
        exact mem_singleton_self _
    | _ => cases hf

theorem sourced_history {list : List UiMessage} {s₁ s : Slot} (he : e = .addHistoryMessages list)
    (hp : Pushed true (fun o => o.msg ∈ list) ⟨c, i⟩ (w.slot ⟨c, i⟩) s₁) (hq : Slot.Calm P s₁ s)
    (hi : s.stored.isSome = true) : Sourced w e c i := by
  rcases hp with rfl | ⟨-, o, ho, hk, hb, -⟩
  · exact sourced_of_calm hq hi
  · refine .inr (.inr (mem_idsIn.2 ?_))
    rw [he]
    refine mem_flatMap.2 ⟨o.msg, ho, ?_⟩
    rw [brought_eq hb, ← hk]
    exact mem_singleton_self _

theorem known_received {w₃ : World} (hr : Received e k w w₃ v) (hi : (v.eff k).isSome = true) :
    (w₃.eff k).isSome = true ∨ ((w₃.slot k).resident).isSome = true := by
  rcases hr with hk | ⟨d, -, -, hu⟩
  · have heff : v.eff k = w₃.eff k := hk.1
    rw [heff] at hi
    exact .inl hi
  · cases hu with
    | resident x _ hx | unchanged x hx =>
      right
      rw [hx]
      rfl
    | stored _ hs =>
      have heff : v.eff k = patchedEff (.receipt d.status) (w₃.eff k) := congrArg Slot.stored hs
      rw [heff] at hi
      exact .inl (isSome_patchedEff hi)
    | tombstone f _ _ _ hf => cases hf

theorem inserts_of_merge {l p : Jid} (hm : e.merge w = some (l, p)) : e.inserts w = merges w l p := by
  have hg : e.inserts w = e.gathers w := by cases e <;> first | rfl | cases hm
  rw [hg, Step.gathers, hm]

theorem sourced_unified {w₁ w₂ w₃ : World} (hwf : w.Wf) (hid : i ≠ "") (h1 : Same w w₁)
    (hm : w₂.slot ⟨c, i⟩ = w₁.slot ⟨c, i⟩ ∨ ∃ l p, e.merge w = some (l, p) ∧ (c = l ∨ c = p) ∧
      w₂ = applyMerge w₁ l p)
    (h3 : Same w₂ w₃) (hr : Received e ⟨c, i⟩ w w₃ v) (hne : ∀ l p, e.merge w = some (l, p) → l ≠ p)
    (hi : (v.eff ⟨c, i⟩).isSome = true) : Sourced w e c i ∨ Moved w e c i := by
  have hknown := known_received hr hi
  have hslot3 : w₃.slot ⟨c, i⟩ = w₂.slot ⟨c, i⟩ := h3.slot ⟨c, i⟩
  have heff3 : w₃.eff ⟨c, i⟩ = w₂.eff ⟨c, i⟩ := congrArg Slot.stored hslot3
  rw [heff3, hslot3] at hknown
  -- the chat is not merged
  have hsame : w₂.slot ⟨c, i⟩ = w₁.slot ⟨c, i⟩ → Sourced w e c i := by
    intro hs
    have hsw : w₂.slot ⟨c, i⟩ = w.slot ⟨c, i⟩ := hs.trans (h1.slot ⟨c, i⟩)
    rcases hknown with hk | hk
    · have heff : w₂.eff ⟨c, i⟩ = w.eff ⟨c, i⟩ := congrArg Slot.stored hsw
      rw [heff] at hk
      exact .inl hk
    · rw [hsw] at hk
      exact .inr (.inl (hasId_of_resident hk))
  rcases hm with hs | ⟨l, p, hlp, hc, rfl⟩
  · exact .inl (hsame hs)
  have hlpne := hne l p hlp
  rcases applyMerge_spec (h1.wf hwf) hlpne with ⟨hno, -⟩ | ⟨hg, hmv⟩
  · exact .inl (hsame (by rw [hno]))
  rcases hc with rfl | rfl
  · -- nothing is left of the chat that goes
    exfalso
    rcases hknown with hk | hk
    · rw [hmv.source ⟨c, i⟩ rfl] at hk
      cases hk
    · rw [hg.source ⟨c, i⟩ hid rfl] at hk
      cases hk
  rcases hknown with hk | hk
  · rcases hmv.source_of_known hk with hp | hl | hl
    · left; left
      have heff : w₁.eff ⟨c, i⟩ = w.eff ⟨c, i⟩ := congrArg Slot.stored (h1.slot _)
      rwa [heff] at hp
    · right
      have heff : w₁.eff ⟨l, i⟩ = w.eff ⟨l, i⟩ := congrArg Slot.stored (h1.slot _)
      rw [heff] at hl
      exact ⟨l, hlp, .inl hl⟩
    · right
      rw [h1.base] at hl
      exact ⟨l, hlp, .inr hl⟩
  · left
    rcases hg.target i hid with hn | hold | ⟨-, y, ref, hy, -⟩
    · rw [hn] at hk
      cases hk
    · rw [hold, h1.slot] at hk
      exact .inr (.inl (hasId_of_resident hk))
    · rw [h1.slot] at hy
      refine .inr (.inr (mem_idsIn.2 ?_))
      rw [inserts_of_merge hlp]
      exact mem_map.2 ⟨y, findId_mem hy, by rw [findId_id hy]⟩

/-- **A record that a synchronous step leaves** was there, is resident or comes with the step. -/
theorem sourced_step (hwf : w.Wf) (hid : i ≠ "") (he : e.sync = true)
    (hne : ∀ l p, e.merge w = some (l, p) → l ≠ p) (hi : ((w.step e).eff ⟨c, i⟩).isSome = true) :
    Sourced w e c i ∨ Moved w e c i := by
  have hh := happens hwf (k := ⟨c, i⟩) hid he
  cases hh with
  | quiet hq => exact .inl (sourced_of_calm hq hi)
  | delivered m hd hk hdel => exact .inl (sourced_delivered hd hk hdel hi)
  | history list w₁ hl hp hq => exact .inl (sourced_history hl hp hq hi)
  | confirmed jid r x o hc hk hx =>
    refine .inl (.inr (.inr (mem_idsIn.2 ?_)))
    rw [hc]
    show (⟨c, i⟩ : Key) ∈ confirms w jid (tempId r) i
    rw [confirms, hasId_eq, hx, hk]
    exact mem_singleton_self _
  | failed jid r hf hk hn =>
    left
    cases hres : (w.slot ⟨c, i⟩).resident with
    | none =>
      have heff : (w.step e).eff ⟨c, i⟩ = w.eff ⟨c, i⟩ := congrArg Slot.stored (hn hres)
      rw [heff] at hi
      exact .inl hi
    | some => exact .inr (.inl (hasId_of_resident (by rw [hres]; rfl)))
  | updated fn hu hup => exact .inl (sourced_updated hwf hu hup hi)
  | removed hr hs =>
    have heff : (w.step e).eff ⟨c, i⟩ = none := congrArg Slot.stored hs
    rw [heff] at hi
    cases hi
  | restored o hr hk =>
    refine .inl (.inr (.inr (mem_idsIn.2 ?_)))
    rw [hr, ← hk]
    exact mem_singleton_self _
  | unified w₁ w₂ w₃ hu h1 hm hs hwf₂ h3 hr => exact sourced_unified hwf hid h1 hm h3 hr hne hi

/-! ## The transaction queue -/

theorem known_of_calm {s s' : Slot} (hk : Slot.Calm P s s') (hi : s'.stored.isSome = true) :
    s.stored.isSome = true ∨ ∃ x, s.resident = some x ∧ persistable x.msg = true := by
  rcases hk with hk | ⟨-, x, o, b, hx, ho, hw⟩
  · rw [hk.1] at hi
    exact .inl hi
  · rw [hw.1] at hi
    rcases isSome_putEff hi with hp | hp
    · rw [ho] at hp
      exact .inr ⟨x, hx, hp⟩
    · exact .inl hp

/-- A record that a move of the queue leaves was there, is resident or comes with the move: as the tombstone
of a revoke, or as a row that a read returns. -/
theorem sourced_advance (h : Sound w) (hid : i ≠ "") (hq : QueueSafe ⟨c, i⟩ w)
    (hi : ((advance w).eff ⟨c, i⟩).isSome = true) :
    Sourced w .advance c i ∨ ∃ r ∈ w.rowsRead, r.2.key = ⟨c, i⟩ ∧ persistable r.2.msg = true := by
  cases advanced h hid hq with
  | quiet _ hcalm => exact .inl (sourced_of_calm hcalm hi)
  | tombstone tid f o ch later ht =>
    refine .inl (.inr (.inr (mem_idsIn.2 ?_)))
    rw [Step.inserts, ht]
    exact mem_singleton_self _
  | loaded r hr hk _ hc =>
    rcases known_of_calm hc hi with hw | ⟨x, hx, hp⟩
    · exact .inl (.inl hw)
    · cases hx
      exact .inr ⟨r, hr, hk, hp⟩
  | adopted _ _ _ _ _ _ _ _ _ _ hcur =>
    exact .inl (.inr (.inl (hasId_of_resident (by rw [hcur]; rfl))))

/-- The transaction at the head does what it stands for. The rest of a flush is not overtaken, and a patch
finds what it saw. A read meets no other write to its chat, and its time is not below what is hidden; a
tail is one message. -/
def HeadSafe (stamp : MsgId → ℤ) (w : World) : Prop :=
  match w.txq with
  | ⟨_, true, .flush _ ops, _⟩ :: later =>
    ∀ t ∈ later, ∀ op ∈ (ops.drop FLUSH_SLICE).rows, t.job.touches op.key = false
  | ⟨_, true, .patch _ k queued _ _, _⟩ :: later => PatchSafe w k queued later
  | ⟨_, true, .page jid _ beforeTs, _⟩ :: _ =>
    (∀ job ∈ w.jobs, job.writes jid = false) ∧
      ∀ i ∈ w.ids, Hidden w jid i → upTo beforeTs (stamp i) = true
  | ⟨_, true, .tails jids n, _⟩ :: _ => n ≤ 1 ∧ ∀ jid ∈ jids, ∀ job ∈ w.jobs, job.writes jid = false
  | _ => True

instance (stamp : MsgId → ℤ) (w : World) : Decidable (HeadSafe stamp w) := by
  unfold HeadSafe
  match w.txq with
  | [] => infer_instance
  | ⟨_, false, _, _⟩ :: _ => infer_instance
  | ⟨_, true, job, _⟩ :: _ => induction job using Job.casesOn <;> infer_instance

theorem HeadSafe.queueSafe (h : HeadSafe stamp w) (k : Key) : QueueSafe k w := by
  unfold QueueSafe
  split
  · rename_i ht
    rw [HeadSafe, ht] at h
    exact fun t hm op hop _ => h t hm op hop
  · rename_i ht
    rw [HeadSafe, ht] at h
    rintro rfl
    exact h
  · trivial

theorem OneStamp.record (h : OneStamp stamp w) (hp : ∀ t ∈ w.txq, t.job.proper = true)
    (hi : (w.eff ⟨c, i⟩).isSome = true) : i ≠ "" ∧ isTmp i = false := by
  obtain ⟨m, hm⟩ := Option.isSome_iff_exists.1 hi
  obtain ⟨hkey, hst, htmp⟩ := (h.recorded (closedUnder_stamped stamp) hp).2 _ m hm
  have hid : m.id = i := congrArg Key.id hkey
  rw [← hid]
  exact ⟨hst.1, htmp⟩

/-- Nothing is put into the window, and not cut off again by the step, that is older than what stays hidden. -/
def Step.Above (stamp : MsgId → ℤ) (w : World) (e : Step) : Prop :=
  ∀ k ∈ e.inserts w, hasId (messagesFor w k.chatJid) k.id = false →
    hasId (messagesFor (w.step e) k.chatJid) k.id = true →
    ∀ j ∈ w.ids, Hidden w k.chatJid j → ⟨k.chatJid, j⟩ ∉ e.inserts w → stamp j ≤ stamp k.id

instance (stamp : MsgId → ℤ) (w : World) (e : Step) : Decidable (e.Above stamp w) := by
  unfold Step.Above
  infer_instance

theorem Step.Above.idsIn (h : e.Above stamp w) (c : Jid) :
    ∀ i ∈ idsIn c (e.inserts w), hasId (messagesFor w c) i = false → hasId (messagesFor (w.step e) c) i = true →
      ∀ j, Hidden w c j → j ∉ Whatsvelte.idsIn c (e.inserts w) → stamp j ≤ stamp i := by
  intro i hi hn hv j hj hout
  rw [mem_idsIn] at hi hout
  exact h ⟨c, i⟩ hi hn hv j (mem_ids_of_eff hj.1) hj hout

theorem mem_jobs_popped {t : Txn} (ht : w.txq = t :: later) {job : Job}
    (hj : job ∈ (w.popped later).jobs) : job ∈ w.jobs := by
  rw [World.jobs, ht]
  exact mem_cons_of_mem _ hj

theorem OneStamp.popped {t : Txn} (h : OneStamp stamp w) (ht : w.txq = t :: later) :
    OneStamp stamp (w.popped later) :=
  ⟨h.resident, h.pending, fun _ hj => h.jobs _ (mem_jobs_popped ht hj), h.msgs⟩

/-- The page at the head of the queue is read. -/
theorem window_page {tid : ℕ} {ch : List Chat} (h : Sound w) (hst : OneStamp stamp w)
    (hw : Window stamp c w) (hh : HeadSafe stamp w)
    (ht : w.txq = ⟨tid, true, .page jid limit beforeTs, ch⟩ :: later)
    (hrec : ∀ i, ((openChatDone (loadOlderDone (w.popped later) jid limit beforeTs) jid).eff ⟨c, i⟩).isSome = true →
      i ≠ "" ∧ isTmp i = false) :
    Window stamp c (openChatDone (loadOlderDone (w.popped later) jid limit beforeTs) jid) := by
  rw [HeadSafe, ht] at hh
  have hslot := fun k => slot_popped ht (fun _ _ => rfl) k
  have heff : ∀ k, (w.popped later).eff k = w.eff k := fun k => congrArg Slot.stored (hslot k)
  have hst' := hst.popped ht
  have hproper : ∀ t ∈ w.txq, t.job.proper = true := fun t htm => (h.fresh t htm).2
  have hw' : Window stamp c (w.popped later) := hw.of_same rfl rfl fun i hi => heff _ ▸ hi
  have hu : Window stamp c (loadOlderDone (w.popped later) jid limit beforeTs) := by
    by_cases hc : c = jid
    · subst hc
      refine window_loadOlderDone hst' hw' (fun i hi => (hst.record hproper (heff _ ▸ hi)).2)
        (fun job hj => hh.1 job (mem_jobs_popped ht hj)) fun i hi => ?_
      have hi' : Hidden w c i := ⟨heff _ ▸ hi.1, hi.2⟩
      exact hh.2 i (mem_ids_of_eff hi'.1) hi'
    · obtain ⟨l, hl, hm⟩ := messagesFor_loadOlderDone (w.popped later) jid limit beforeTs
      refine hw'.of_same ?_ ?_ fun i hi => hi
      · rw [hm c, if_neg hc]
      · unfold loadOlderDone
        dsimp only
        split
        · exact Function.update_of_ne hc _ _
        · rfl
  have hst'' := holding_loadOlderDone (closedUnder_stamped stamp) hst' jid limit beforeTs
  have hwf := (loadOlderDone_spec (h.popped ht).wf jid limit beforeTs).2.1
  refine Slides.window (slides_acts (hst''.resident c) (acts_openChatDone _ jid)) hu
    (fun i hi => (hrec i hi).2) ?_ nofun
  intro i hi
  have hq := (quiet_openChatDone (k := ⟨c, i⟩) hwf (hrec i hi).1 jid fun _ => trivial).calm
  rcases known_of_calm hq hi with hk | ⟨x, hx, -⟩
  · exact .inl hk
  · exact .inr (.inl (hasId_of_resident (by rw [hx]; rfl)))

/-- The tails at the head of the queue are read. -/
theorem window_tails {tid n : ℕ} {jids : List Jid} {ch : List Chat} (hst : OneStamp stamp w)
    (hw : Window stamp c w) (hh : HeadSafe stamp w) (ht : w.txq = ⟨tid, true, .tails jids n, ch⟩ :: later)
    (hrec : ∀ i, ((loadTailsDone (w.popped later) jids n).eff ⟨c, i⟩).isSome = true → isTmp i = false)
    (hsrc : ∀ i, ((loadTailsDone (w.popped later) jids n).eff ⟨c, i⟩).isSome = true →
      Sourced w .advance c i ∨ ∃ r ∈ w.rowsRead, r.2.key = ⟨c, i⟩ ∧ persistable r.2.msg = true) :
    Window stamp c (loadTailsDone (w.popped later) jids n) := by
  rw [HeadSafe, ht] at hh
  have hst' := hst.popped ht
  have heff : ∀ k, (w.popped later).eff k = w.eff k := fun k =>
    congrArg Slot.stored (slot_popped ht (fun _ _ => rfl) k)
  have hrows : Dated stamp (tailRows (w.popped later) n (w.popped later).nextRef jids).1 := by
    intro o ho
    obtain ⟨j, -, ref, hread⟩ := mem_tailRows jids _ ho
    have href : OneStamp stamp { w.popped later with nextRef := ref } := hst'.of_eq rfl rfl rfl rfl
    exact dated_read href j n none o hread
  have hs := slides_addHistoryMessages
    (w := { w.popped later with nextRef := (tailRows (w.popped later) n (w.popped later).nextRef jids).2 })
    (hst.resident c) hrows false
  refine Slides.window (hs.before (w := w) rfl id) hw hrec ?_ ?_
  · intro i hi
    rcases hsrc i hi with (hk | hk | hk) | ⟨r, hr, hkey, hp⟩
    · exact .inl hk
    · exact .inr (.inl hk)
    · rw [Step.inserts, ht] at hk
      cases hk
    · refine .inr (.inr (.inl (mem_idsIn.2 ?_)))
      rw [World.rowsRead, ht] at hr
      obtain ⟨o, ho, rfl⟩ := mem_map.1 hr
      refine mem_flatMap.2 ⟨o, ho, ?_⟩
      rw [brought_eq (blank_of_persistable hp)]
      exact mem_singleton.2 hkey.symm
  · intro i hi _ _ j hj hout
    refine above_tails hst' hh.1 (fun jid hjid job hjob => hh.2 jid hjid job (mem_jobs_popped ht hjob)) hi
      (heff _ ▸ hj.1) ?_
    rintro rfl
    exact hout hi

/-- **A move of the queue** keeps the window. -/
theorem window_advance (hinv : Inv w) (hses : w.SameSession) (hst : OneStamp stamp w) (hw : Window stamp c w)
    (hb : Brings (Stamped stamp) w .advance) (habove : Step.advance.Above stamp w) (hh : HeadSafe stamp w) :
    Window stamp c (advance w) := by
  have h := hinv.sound hses
  have hst' : OneStamp stamp (advance w) := holding_step (closedUnder_stamped stamp) hinv.wf hst hb
  have hrec : ∀ i, ((advance w).eff ⟨c, i⟩).isSome = true → i ≠ "" ∧ isTmp i = false := fun i hi =>
    hst'.record (inv_step hinv .advance).proper hi
  have hsrc : ∀ i, ((advance w).eff ⟨c, i⟩).isSome = true →
      Sourced w .advance c i ∨ ∃ r ∈ w.rowsRead, r.2.key = ⟨c, i⟩ ∧ persistable r.2.msg = true := fun i hi =>
    sourced_advance h (hrec i hi).1 (hh.queueSafe _) hi
  have hs : Dated stamp (messagesFor w c) := hst.resident c
  have hr := ran_advance w
  have habove := habove.idsIn c
  rw [World.step] at habove
  generalize advance w = v at hr hrec hsrc habove
  -- what is not a read slides the window
  have hslide : Slides stamp c (idsIn c (Step.advance.inserts w)) w v → w.rowsRead = [] → Window stamp c v := by
    intro hs hno
    refine hs.window hw (fun i hi => (hrec i hi).2) (fun i hi => ?_) habove
    rcases hsrc i hi with (hk | hk | hk) | ⟨r, hr, -⟩
    · exact .inl hk
    · exact .inr (.inl hk)
    · exact .inr (.inr (.inl hk))
    · rw [hno] at hr
      cases hr
  have hsame : Step.advance.inserts w = [] → messagesFor v c = messagesFor w c → v.exhausted c = w.exhausted c →
      w.rowsRead = [] → Window stamp c v := by
    intro hins hl he
    refine hslide ?_
    rw [hins]
    exact .of_same hs hl he
  cases hr with
  | idle => exact hw
  | flush tid started ops ch later ht =>
    obtain ⟨hby, -, -, -, he⟩ := flushSlice_frame w tid started ops later
    refine hsame (by rw [Step.inserts, ht]) ?_ (by rw [he]) (by rw [World.rowsRead, ht])
    rw [messagesFor, hby]
    rfl
  | patch tid started k₀ queued fn after ch later ht =>
    obtain ⟨msgs, he, -⟩ := patchRequests_eq w tid k₀ queued fn after later
    exact hsame (by rw [Step.inserts, ht]) (by rw [he]; rfl) (by rw [he]) (by rw [World.rowsRead, ht])
  | patched tid k₀ found after ch later ht =>
    refine hslide ?_ (by rw [World.rowsRead, ht])
    have hins : Step.advance.inserts w = planted k₀ found after := by rw [Step.inserts, ht]
    rw [hins]
    refine (slides_afterPatch (w := w.popped later) hs k₀ found after ?_).before rfl id
    rintro f rfl
    have hjob : (Job.patched k₀ found (.tombstone (some f))).Holds (Stamped stamp) (Filed stamp) :=
      hst.jobs _ (by rw [World.jobs, ht]; exact mem_cons_self)
    exact hjob
  | move tid started l p ch later ht =>
    exact hsame (by rw [Step.inserts, ht]) rfl rfl (by rw [World.rowsRead, ht])
  | page tid jid limit beforeTs ch later ht => exact window_page h hst hw hh ht hrec
  | tails tid jids n ch later ht => exact window_tails hst hw hh ht (fun i hi => (hrec i hi).2) hsrc
  | adopt tid fresh ch later ht =>
    refine hslide ?_ (by rw [World.rowsRead, ht])
    have hins : Step.advance.inserts w = [] := by rw [Step.inserts, ht]
    rw [hins]
    refine (slides_adoptStoredDone (w := w.popped later) hs fresh _ fun s hget => ?_).before rfl id
    exact ⟨congrArg Key.id (Table.get_key hget), (hst.msgs s (Table.get_mem hget)).1⟩
  | chats tid started ch later ht | account tid jid ch later ht | clear tid ch later ht =>
    exact hsame (by rw [Step.inserts, ht]) rfl rfl (by rw [World.rowsRead, ht])

/-! ## The other steps -/

theorem window_openNext (h : Sound w) (hw : Window stamp c w) : Window stamp c (openNext w) := by
  obtain ⟨-, -, -, hby, -, -, hex, -⟩ := openNext_spec h
  refine hw.of_same ?_ (by rw [hex]) fun i hi => ?_
  · rw [messagesFor, hby]
    rfl
  · have heff : (openNext w).eff ⟨c, i⟩ = w.eff ⟨c, i⟩ := congrArg Slot.stored (slot_openNext h _)
    exact heff ▸ hi

theorem window_flushFails {f : FlushFailure} (hw : Window stamp c w)
    (hd : ∀ x ∈ w.failing f, ∀ op ∈ x.2.rows, ∀ c i, op ≠ PendingOp.del c i) : Window stamp c (flushFails w f) := by
  have hl : SameLists w (flushFails w f) := by
    cases f <;> simp only [flushFails]
    all_goals repeat' split
    all_goals exact ⟨rfl, rfl⟩
  exact hw.of_same (hl.messagesFor c) (by rw [hl.2]) fun i hi => within_flushFails f hd _ hi

theorem window_wipe (hw : Window stamp c w) : Window stamp c (wipe w) := by
  have hl : SameLists w (wipe w) := by
    unfold wipe
    repeat' split
    all_goals exact ⟨rfl, rfl⟩
  exact hw.of_same (hl.messagesFor c) (by rw [hl.2]) fun i hi => within_wipe w _ hi

/-- A message is deleted: its record goes too. -/
theorem window_removeMessage (hwf : w.Wf) (hw : Window stamp c w) {id : MsgId}
    (hrec : ∀ i, ((removeMessage w jid id).eff ⟨c, i⟩).isSome = true → i ≠ "") :
    Window stamp c (removeMessage w jid id) := by
  obtain ⟨ht, hgone⟩ := removeMessage_spec hwf jid id
  have hl := messagesFor_removeMessage w jid id c
  intro i hi
  have hid := hrec i hi.1
  have hne : (⟨jid, id⟩ : Key) ≠ ⟨c, i⟩ := by
    intro hk
    have heff : (removeMessage w jid id).eff ⟨jid, id⟩ = none :=
      congrArg Slot.stored (hgone ((congrArg Key.id hk).trans_ne hid))
    rw [hk] at heff
    exact absurd hi.1 (by rw [heff]; simp)
  have heff : (removeMessage w jid id).eff ⟨c, i⟩ = w.eff ⟨c, i⟩ := (ht.keeps _ hid hne).1
  -- the list lacks the deleted message only
  have hold : Hidden w c i := by
    refine ⟨heff ▸ hi.1, Bool.eq_false_iff.2 fun hres => ?_⟩
    obtain ⟨x, hx, hxi⟩ := hasId_iff.1 hres
    have hin : x ∈ messagesFor (removeMessage w jid id) c := by
      rw [hl]
      split
      · rename_i hc
        subst hc
        refine mem_filter.2 ⟨hx, decide_eq_true fun hxid => hne ?_⟩
        rw [← hxid, hxi]
      · exact hx
    exact absurd (hasId_iff.2 ⟨x, hin, hxi⟩) (by rw [hi.2]; simp)
  obtain ⟨hroom, holder⟩ := hw i hold
  refine ⟨hroom, fun o ho => holder o ?_⟩
  rw [hl] at ho
  split at ho
  · rename_i hc
    subst hc
    exact mem_of_mem_filter ho
  · exact ho

/-! ## Merges -/

instance (stamp : MsgId → ℤ) (c : Jid) (w : World) (i : MsgId) : Decidable (Below stamp c w i) :=
  decidable_of_iff (w.exhausted c = false ∧ ∀ o ∈ messagesFor w c, stamp i ≤ stamp o.msg.id)
    ⟨fun h => ⟨h.1, h.2⟩, fun h => ⟨h.1, h.2⟩⟩

/-- A chat is not merged into itself, and what it has stored that is in no window is below both of them. -/
def Step.MergeSafe (stamp : MsgId → ℤ) (w : World) (e : Step) : Prop :=
  ∀ lp ∈ e.merge w, lp.1 ≠ lp.2 ∧
    ∀ j ∈ w.ids, (w.eff ⟨lp.1, j⟩).isSome = true ∨ (w.base ⟨lp.1, j⟩).isSome = true →
      hasId (messagesFor w lp.1) j = true ∨ hasId (messagesFor w lp.2) j = true ∨
        Below stamp lp.2 w j ∧ ∀ o ∈ messagesFor w lp.1, stamp j ≤ stamp o.msg.id

instance (stamp : MsgId → ℤ) (w : World) (e : Step) : Decidable (e.MergeSafe stamp w) := by
  unfold Step.MergeSafe
  infer_instance

/-- A record that comes with a merge is put into the window, or it is below it. -/
theorem Step.MergeSafe.moved (h : e.MergeSafe stamp w) (hs : Slides stamp c (idsIn c (e.inserts w)) w v)
    (hi : Moved w e c i) :
    hasId (messagesFor w c) i = true ∨ i ∈ idsIn c (e.inserts w) ∨ Below stamp c v i := by
  obtain ⟨l, hm, hknown⟩ := hi
  obtain ⟨-, hall⟩ := h (l, c) hm
  have hid : i ∈ w.ids := hknown.elim mem_ids_of_eff mem_ids_of_base
  rcases hall i hid hknown with hl | hc | ⟨hbelow, hl⟩
  · right; left
    rw [inserts_of_merge hm, idsIn_merges]
    obtain ⟨x, hx, hxi⟩ := hasId_iff.1 hl
    exact mem_map.2 ⟨x, hx, hxi⟩
  · exact .inl hc
  · right; right
    refine hbelow.of_slides hs fun j hj _ _ => ?_
    rw [inserts_of_merge hm, idsIn_merges] at hj
    obtain ⟨x, hx, rfl⟩ := mem_map.1 hj
    exact hl x hx

/-- **A call of a store function or an answer of the backend** keeps the windows. -/
theorem window_sync (hinv : Inv w) (hst : OneStamp stamp w) (hsort : w.Sorted) (hw : Window stamp c w)
    (he : e.sync = true) (hb : Brings (Stamped stamp) w e) (habove : e.Above stamp w) (hm : e.MergeSafe stamp w) :
    Window stamp c (w.step e) := by
  have hst' : OneStamp stamp (w.step e) := holding_step (closedUnder_stamped stamp) hinv.wf hst hb
  have hrec : ∀ i, ((w.step e).eff ⟨c, i⟩).isSome = true → i ≠ "" ∧ isTmp i = false := fun i hi =>
    hst'.record (inv_step hinv e).proper hi
  have hne : ∀ l p, e.merge w = some (l, p) → l ≠ p := fun l p hlp => (hm (l, p) hlp).1
  have hsrc : ∀ i, ((w.step e).eff ⟨c, i⟩).isSome = true → Sourced w e c i ∨ Moved w e c i := fun i hi =>
    sourced_step hinv.wf (hrec i hi).1 he hne hi
  by_cases hr : ∃ jid id, e = .removeMessage jid id
  · obtain ⟨jid, id, rfl⟩ := hr
    exact window_removeMessage hinv.wf hw fun i hi => (hrec i hi).1
  by_cases hc : ∃ p, e.merge w = some (c, p)
  · -- the chat goes
    obtain ⟨p, hcp⟩ := hc
    rcases unify_source (hst.resident c) hcp (hne c p hcp) with hs | ⟨hl, hx⟩
    · refine hs.window hw (fun i hi => (hrec i hi).2) (fun i hi => ?_) nofun
      rcases hsrc i hi with (hk | hk | hk) | ⟨l, hl, -⟩
      · exact .inl hk
      · exact .inr (.inl hk)
      · rw [inserts_of_merge hcp, idsIn_merges_of_ne (hne c p hcp).symm] at hk
        cases hk
      · rw [hcp] at hl
        exact absurd (congrArg Prod.snd (Option.some.inj hl)).symm (hne c p hcp)
    · exact .of_empty hl hx
  · have hs : Slides stamp c (idsIn c (e.inserts w)) w (w.step e) := by
      refine slides_step hst hsort hb he (fun jid id hj => hr ⟨jid, id, hj⟩) fun l p hlp hcl => hc ⟨p, ?_⟩
      rwa [hcl]
    refine hs.window hw (fun i hi => (hrec i hi).2) (fun i hi => ?_) (habove.idsIn c)
    rcases hsrc i hi with (hk | hk | hk) | hk
    · exact .inl hk
    · exact .inr (.inl hk)
    · exact .inr (.inr (.inl hk))
    · exact .inr (hm.moved hs hk)

/-! ## Runs -/

instance (w : World) (e : Step) : Decidable (Brings (Stamped stamp) w e) := by
  unfold Brings
  induction e using Step.casesOn <;> infer_instance

/-- The steps of the queue and of a reset. No outstanding write is of an older session, the transaction at the
head does what it stands for, and a flush that fails has no deletes. -/
def Step.TurnSafe (stamp : MsgId → ℤ) (w : World) : Step → Prop
  | .openNext => w.SameSession
  | .advance => w.SameSession ∧ HeadSafe stamp w
  | .flushFails f => ∀ x ∈ w.failing f, ∀ op ∈ x.2.rows, op.keeps = true
  | _ => True

instance (stamp : MsgId → ℤ) (w : World) (e : Step) : Decidable (e.TurnSafe stamp w) := by
  unfold Step.TurnSafe
  induction e using Step.casesOn <;> infer_instance

/-- A step that leaves no gap in a window: it brings each id with its one timestamp, puts nothing under what
stays hidden, merges no hidden messages over a window, and lets the queue work as it stands. -/
@[mk_iff]
structure WindowSafe (stamp : MsgId → ℤ) (w : World) (e : Step) : Prop where
  dated : Brings (Stamped stamp) w e
  above : e.Above stamp w
  merge : e.MergeSafe stamp w
  turn : e.TurnSafe stamp w

instance (w : World) (e : Step) : Decidable (WindowSafe stamp w e) :=
  decidable_of_iff _ (windowSafe_iff stamp w e).symm

/-- What holds in every state of such a run. -/
structure Windowed (stamp : MsgId → ℤ) (w : World) : Prop where
  inv : Inv w
  dated : OneStamp stamp w
  sorted : w.Sorted
  window : ∀ c, Window stamp c w

/-- **Every safe step** keeps the windows. -/
theorem window_step (h : Windowed stamp w) (hs : WindowSafe stamp w e) (c : Jid) : Window stamp c (w.step e) := by
  cases he : e.sync with
  | true => exact window_sync h.inv h.dated h.sorted (h.window c) he hs.dated hs.above hs.merge
  | false =>
    cases e with
    | openNext => exact window_openNext (h.inv.sound hs.turn) (h.window c)
    | advance => exact window_advance h.inv hs.turn.1 h.dated (h.window c) hs.dated hs.above hs.turn.2
    | flushFails =>
      refine window_flushFails (h.window c) fun x hx op hop c i hdel => ?_
      have hno := hs.turn x hx op hop
      rw [hdel] at hno
      cases hno
    | resetAll => exact .of_empty rfl rfl
    | wipe => exact window_wipe (h.window c)
    | _ => cases he

theorem windowed_step (h : Windowed stamp w) (hs : WindowSafe stamp w e) : Windowed stamp (w.step e) where
  inv := inv_step h.inv e
  dated := holding_step (closedUnder_stamped stamp) h.inv.wf h.dated hs.dated
  sorted := by
    refine sorted_step h.sorted ?_
    unfold OneTimestamp
    split
    · -- both copies carry the timestamp of the id
      rename_i original
      have hb : Stamped stamp original.msg := hs.dated
      intro x hx hid
      rw [(h.dated.resident _ x hx).2, hb.2, hid]
    · trivial
  window := window_step h hs

/-- The client has started on a database. -/
def World.opened (msgs : Table UiMessage.key) (chatRows : Table Chat.jid) (account : Option (Option Jid)) : World :=
  { World.init with msgs := msgs, chatRows := chatRows, account := account }

theorem windowed_opened {msgs : Table UiMessage.key} {chatRows : Table Chat.jid} {account : Option (Option Jid)}
    (hm : ∀ m ∈ msgs.rows, Filed stamp m) : Windowed stamp (World.opened msgs chatRows account) where
  inv := ⟨fun _ => .nil, fun _ h => (nomatch h), fun _ h => (nomatch h), fun _ h => (nomatch h)⟩
  dated := ⟨fun _ _ h => (nomatch h), fun _ h => (nomatch h), fun _ h => (nomatch h), hm⟩
  sorted _ := List.Pairwise.nil
  window _ := .of_empty rfl rfl

/-- **The window is the end of the history.** In a run of safe steps from a start on any database, a record
that is newer than a resident message of its chat is resident, and all records are where the client says that
there are no older messages. -/
theorem window_is_suffix (stamp : MsgId → ℤ) {msgs : Table UiMessage.key} (chatRows : Table Chat.jid)
    (account : Option (Option Jid)) (hm : ∀ m ∈ msgs.rows, Filed stamp m) {es : List Step}
    (hes : Along World.step (WindowSafe stamp) (World.opened msgs chatRows account) es) (c : Jid) :
    let w := (World.opened msgs chatRows account).run es
    (∀ i m, w.eff ⟨c, i⟩ = some m → ∀ o ∈ messagesFor w c, o.msg.timestamp < m.timestamp →
        hasId (messagesFor w c) i = true) ∧
      (hasOlder w c = false → ∀ i, (w.eff ⟨c, i⟩).isSome = true → hasId (messagesFor w c) i = true) := by
  intro w
  have h : Windowed stamp w :=
    Along.inv (fun w e h hs => windowed_step h hs) (windowed_opened hm) hes
  constructor
  · intro i m hi o ho hlt
    by_contra hres
    have hhid : Hidden w c i := ⟨by rw [hi]; rfl, Bool.eq_false_iff.2 hres⟩
    have hle := (h.window c i hhid).older o ho
    obtain ⟨hkey, hst, -⟩ := (h.dated.recorded (closedUnder_stamped stamp) h.inv.proper).2 _ m hi
    have hid : m.id = i := congrArg Key.id hkey
    rw [(h.dated.resident c o ho).2, hst.2, hid] at hlt
    exact absurd hle (not_le.2 hlt)
  · intro hold i hi
    by_contra hres
    have hroom := (h.window c i ⟨hi, Bool.eq_false_iff.2 hres⟩).room
    rw [hasOlder, hroom] at hold
    cases hold

/-- Two messages are stored. The newer one comes back with the boot tails and the other one with a page; after a
live message, a trim and another page the window is whole. -/
theorem window_is_suffix_paged :
    let es : List Step := [.loadTails [chatA] 1, .openNext, .advance, .loadOlder chatA 1, .openNext, .advance,
      .addMessage { msgX with id := "Z", timestamp := 7 }, .openNext, .advance, .trimChat chatA 1,
      .loadOlder chatA 5, .openNext, .advance]
    let w := (World.opened ((Table.empty.set msgX).set msgY) .empty none).run es
    hasOlder w chatA = false ∧ ∀ i, (w.eff ⟨chatA, i⟩).isSome = true → hasId (messagesFor w chatA) i = true := by
  intro es w
  let stamp : MsgId → ℤ := fun i => if i = "X" then 5 else if i = "Y" then 6 else 7
  have hold : hasOlder w chatA = false := by decide +kernel
  have hes : Along World.step (WindowSafe stamp) (World.opened ((Table.empty.set msgX).set msgY) .empty none) es := by
    decide +kernel
  exact ⟨hold, (window_is_suffix stamp .empty none (by decide +kernel) hes chatA).2 hold⟩

/-- **A late message splits the window**: after a trim, a message that is older than what was cut off is put in
above it. -/
theorem late_message_splits_window :
    ¬ ∀ (es : List Step) (c : Jid), let w := World.init.run es
      (∀ i m, w.eff ⟨c, i⟩ = some m → ∀ o ∈ messagesFor w c, o.msg.timestamp < m.timestamp →
          hasId (messagesFor w c) i = true) ∧
        (hasOlder w c = false → ∀ i, (w.eff ⟨c, i⟩).isSome = true → hasId (messagesFor w c) i = true) := by
  intro hall
  let es : List Step := [.enablePersistence, .addMessage msgX, .addMessage msgY, .trimChat chatA 1,
    .addMessage { msgX with id := "Z", timestamp := 3 }]
  have hts : ((World.init.run es).eff ⟨chatA, "X"⟩).map (·.timestamp) = some 5 := by decide +kernel
  obtain ⟨m, hm, hmt⟩ := Option.map_eq_some_iff.1 hts
  obtain ⟨o, ho, hot⟩ : ∃ o ∈ messagesFor (World.init.run es) chatA, o.msg.timestamp = 3 := by decide +kernel
  have hres := (hall es chatA).1 "X" m hm o ho (by rw [hot, hmt]; decide)
  have hno : hasId (messagesFor (World.init.run es) chatA) "X" = false := by decide +kernel
  exact absurd (hres.symm.trans hno) (by decide)

end Whatsvelte
