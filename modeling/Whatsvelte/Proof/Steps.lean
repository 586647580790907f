import Whatsvelte.Proof.Page

/-!
# Steps and the messages they are about

`Step.about w e k` says that the synchronous step `e` is about the message `k`: it
delivers, updates, removes or merges it. Every other synchronous step is quiet for `k`
(`quiet_step`), so a property of one message has to be checked for the few steps that
are about it.

`Sound` is the frame of a run without reset and without failure (`sound_step`): the
resident lists are well formed and no outstanding write belongs to an older epoch.
-/

namespace Whatsvelte

open List

variable {w v : World} {k : Key} {e : Step} {l p : Jid}
variable {P : Key → Prop} {r : Option ReceiptDto}

/-! ## Unification steps -/

/-- The chats that a step merges, when it merges any. -/
def Step.merge (w : World) : Step → Option (Jid × Jid)
  | .learnLidMapping lid pn =>
    if isLid (normalizeJid lid) ∧ w.lidToPn (normalizeJid lid) ≠ some (normalizeJid pn) then
      some (normalizeJid lid, normalizeJid pn)
    else none
  | .unifyLid jid _ => if isLid jid then (w.lidToPn jid).map (jid, ·) else none
  | .unifyLidDone jid (some pn) =>
    if w.resolving.has jid ∧ ¬ (pn = "" ∨ pn = jid) then some (jid, pn) else none
  | _ => none

/-- The receipt that waited for a unification step. -/
def Step.waited (w : World) : Step → Option ReceiptDto
  | .unifyLid _ receipt => receipt
  | .unifyLidDone jid _ => (w.resolving.get jid).bind (·.receipt)
  | _ => none

/-- The steps of LID→PN unification. -/
def Step.unifies : Step → Bool
  | .learnLidMapping .. => true
  | .unifyLid .. => true
  | .unifyLidDone .. => true
  | _ => false

/-- Only the LID map and the requests to the backend differ. -/
structure Twin (w v : World) : Prop extends Same w v where
  chats : v.chats = w.chats
  byChat : v.byChat = w.byChat

/-- The LID map and the requests to the backend are all that differs. -/
def Learnt (w v : World) : Prop := ∃ m r, v = { w with lidToPn := m, resolving := r }

theorem Learnt.refl (w : World) : Learnt w w := ⟨w.lidToPn, w.resolving, rfl⟩

theorem Learnt.learn (w : World) (l p : Jid) : Learnt w (w.learn l p) := ⟨_, w.resolving, rfl⟩

theorem Learnt.resolving (w : World) (r : Table Resolving.jid) : Learnt w { w with resolving := r } :=
  ⟨w.lidToPn, r, rfl⟩

theorem Learnt.twin (h : Learnt w v) : Twin w v := by
  obtain ⟨m, r, rfl⟩ := h
  exact ⟨⟨fun _ => rfl, rfl, rfl, rfl, rfl, rfl, rfl, rfl, rfl⟩, rfl, rfl⟩

/-- A waiting receipt, applied or not there. -/
def ReceiptApplied (r : Option ReceiptDto) (w v : World) : Prop :=
  v = w ∨ ∃ d, r = some d ∧
    v = applyReceipt w (canonicalJid w d.chatJid) d.messageIds d.status

theorem thenReceipt_cases (w : World) (r : Option ReceiptDto) : ReceiptApplied r w (thenReceipt w r) := by
  cases r with
  | none => exact .inl rfl
  | some d => exact .inr ⟨d, rfl, rfl⟩

def World.merged (w : World) : Option (Jid × Jid) → World
  | none => w
  | some (l, p) => applyMerge w l p

theorem unifies_of_merge {l p : Jid} (h : e.merge w = some (l, p)) : e.unifies = true := by
  cases e <;> first | rfl | cases h

/-- **A unification step** merges the chats it names, then applies the receipt that waited
for it. -/
theorem unify_learnt (he : e.unifies = true) :
    ∃ w₁ w₃, Learnt w w₁ ∧ Learnt (w₁.merged (e.merge w)) w₃ ∧
      ReceiptApplied (e.waited w) w₃ (w.step e) := by
  cases e with
  | learnLidMapping lid pn =>
    simp only [World.step, learnLidMapping]
    split
    · rename_i h
      have hm : (Step.learnLidMapping lid pn).merge w = none := by
        simp only [Bool.or_eq_true, Bool.not_eq_true', decide_eq_true_eq] at h
        exact if_neg fun hn => h.elim (fun h => by rw [h] at hn; cases hn.1) hn.2
      exact ⟨w, w, .refl w, by rw [hm]; exact .refl w, .inl rfl⟩
    · rename_i h
      simp only [Bool.or_eq_true, Bool.not_eq_true', decide_eq_true_eq, not_or] at h
      have hm : (Step.learnLidMapping lid pn).merge w =
          some (normalizeJid lid, normalizeJid pn) := by simp [Step.merge, h.1, h.2]
      rw [hm]
      exact ⟨_, _, Learnt.learn w (normalizeJid lid) (normalizeJid pn), .refl _, .inl rfl⟩
  | unifyLid jid receipt =>
    simp only [World.step, unifyLid]
    split
    · rename_i hl
      have hm : (Step.unifyLid jid receipt).merge w = none := if_neg (by simpa using hl)
      exact ⟨w, w, .refl w, by rw [hm]; exact .refl w, thenReceipt_cases w receipt⟩
    · rename_i hl
      have hl : isLid jid = true := by simpa using hl
      split
      · rename_i known hk
        have hm : (Step.unifyLid jid receipt).merge w = some (jid, known) := by
          simp [Step.merge, hl, hk]
        rw [hm]
        exact ⟨w, _, .refl w, .refl _, thenReceipt_cases _ receipt⟩
      · rename_i hk
        have hm : (Step.unifyLid jid receipt).merge w = none := by simp [Step.merge, hk]
        rw [hm]
        split
        · exact ⟨w, w, .refl w, .refl w, thenReceipt_cases w receipt⟩
        · exact ⟨w, _, .refl w, Learnt.resolving w _, .inl rfl⟩
  | unifyLidDone jid pn =>
    simp only [World.step, unifyLidDone]
    split
    · rename_i hr
      have hm : (Step.unifyLidDone jid pn).merge w = none := by
        cases pn with
        | none => rfl
        | some => exact if_neg fun h => by simp [Table.has, hr] at h
      exact ⟨w, w, .refl w, by rw [hm]; exact .refl w, .inl rfl⟩
    · rename_i r hr
      have hwait : (Step.unifyLidDone jid pn).waited w = r.receipt := by simp [Step.waited, hr]
      have hhas : w.resolving.has jid = true := by simp [Table.has, hr]
      rw [hwait]
      cases pn with
      | none => exact ⟨w, _, .refl w, Learnt.resolving w _, thenReceipt_cases _ _⟩
      | some pn =>
        dsimp only
        split
        · rename_i hpn
          have hm : (Step.unifyLidDone jid (some pn)).merge w = none := if_neg fun h => h.2 hpn
          rw [hm]
          exact ⟨w, _, .refl w, Learnt.resolving w _, thenReceipt_cases _ _⟩
        · rename_i hpn
          have hm : (Step.unifyLidDone jid (some pn)).merge w = some (jid, pn) := if_pos ⟨hhas, hpn⟩
          rw [hm]
          exact ⟨_, _, Learnt.learn w jid pn, Learnt.resolving _ _, thenReceipt_cases _ _⟩
  | _ => cases he

theorem unify_step (he : e.unifies = true) :
    ∃ w₁ w₃, Twin w w₁ ∧ Twin (w₁.merged (e.merge w)) w₃ ∧
      ReceiptApplied (e.waited w) w₃ (w.step e) := by
  obtain ⟨w₁, w₃, h1, h3, hr⟩ := unify_learnt he
  exact ⟨w₁, w₃, h1.twin, h3.twin, hr⟩

theorem unify_cases (he : e.unifies = true) :
    ∃ w₁ w₂ w₃, Same w w₁ ∧ (w₂ = w₁ ∨ ∃ l p, e.merge w = some (l, p) ∧ w₂ = applyMerge w₁ l p) ∧
      Same w₂ w₃ ∧ ReceiptApplied (e.waited w) w₃ (w.step e) := by
  obtain ⟨w₁, w₃, h1, h3, hr⟩ := unify_step he
  refine ⟨w₁, _, w₃, h1.toSame, ?_, h3.toSame, hr⟩
  rcases e.merge w with _ | ⟨l, p⟩
  · exact .inl rfl
  · exact .inr ⟨l, p, rfl, rfl⟩

/-! ## Synchronous steps -/

/-- The steps that are a call of a store function or an answer of the backend. -/
def Step.sync : Step → Bool
  | .openNext => false
  | .advance => false
  | .flushFails _ => false
  | .resetAll => false
  | .wipe => false
  | _ => true

/-- Whether a synchronous step is about the message `k`. -/
def Step.about (w : World) (k : Key) : Step → Bool
  | .addMessage m => m.key = k
  | .addHistoryMessages list => list.any (fun m => m.key = k)
  | .addOptimistic jid r .. => (⟨jid, tempId r⟩ : Key) = k
  | .addOptimisticMedia jid r .. => (⟨jid, tempId r⟩ : Key) = k
  | .confirmOptimistic jid _ realId => (⟨jid, realId⟩ : Key) = k
  | .failOptimistic jid r => (⟨jid, tempId r⟩ : Key) = k
  | .applyRevoke jid targetId _ => (⟨jid, targetId⟩ : Key) = k
  | .applyEdit jid targetId _ _ => (⟨jid, targetId⟩ : Key) = k
  | .applyReaction jid targetId _ _ => (⟨jid, targetId⟩ : Key) = k
  | .applyReceipt jid ids _ => k.chatJid = jid && k.id ∈ ids
  | .removeMessage jid targetId => (⟨jid, targetId⟩ : Key) = k
  | .restoreMessage original => original.key = k
  | e => (e.merge w).any (fun c => k.chatJid = c.1 || k.chatJid = c.2) ||
      (e.waited w).any (fun r => k.id ∈ r.messageIds)

theorem mem_key_objs {ref : ℕ} {list : List UiMessage} {o : Obj} (h : o ∈ objs ref list) :
    ∃ m ∈ list, m.key = o.key := ⟨o.msg, mem_objs h, rfl⟩

theorem ReceiptApplied.frame (h : w.Wf) (hr : ReceiptApplied r w v) : Sync w v ∧ v.Wf := by
  rcases hr with rfl | ⟨d, -, rfl⟩
  · exact ⟨.refl v, h⟩
  · obtain ⟨h1, h2, -⟩ := applyReceipt_spec h (canonicalJid w d.chatJid) d.messageIds d.status
    exact ⟨h1, h2⟩

/-- The receipt of a unification step updates the message, or leaves it alone. -/
theorem ReceiptApplied.slot (h : w.Wf) (hr : ReceiptApplied r w v) (hid : k.id ≠ "") :
    Slot.Keeps (w.slot k) (v.slot k) ∨
      ∃ d, r = some d ∧ k.id ∈ d.messageIds ∧ Updated (.receipt d.status) none k w v := by
  rcases hr with rfl | ⟨d, hd, rfl⟩
  · exact .inl (.refl _)
  · obtain ⟨-, -, hk⟩ := applyReceipt_spec h (canonicalJid w d.chatJid) d.messageIds d.status
    have hk := hk k hid
    split at hk
    · rename_i hm; exact .inr ⟨d, hd, hm.2, hk⟩
    · exact .inl hk

theorem merged_frame {Q : Jid → Jid → Prop} (h : w.Wf) (hm : v = w ∨ ∃ l p, Q l p ∧ v = applyMerge w l p) :
    Sync w v ∧ v.Wf := by
  rcases hm with rfl | ⟨l, p, -, rfl⟩
  · exact ⟨.refl _, h⟩
  · exact ⟨(applyMerge_frame h l p).1, (applyMerge_frame h l p).2.1⟩

theorem unify_frame (h : w.Wf) (he : e.unifies = true) : Sync w (w.step e) ∧ (w.step e).Wf := by
  obtain ⟨w₁, w₂, w₃, h1, hm, h3, hr⟩ := unify_cases he
  have h2 := merged_frame (h1.wf h) hm
  obtain ⟨h4, h5⟩ := hr.frame (h3.wf h2.2)
  exact ⟨((h1.sync.trans h2.1).trans h3.sync).trans h4, h5⟩

theorem unify_quiet (h : w.Wf) (hid : k.id ≠ "") (he : e.unifies = true)
    (hn : ((e.merge w).any (fun c => k.chatJid = c.1 || k.chatJid = c.2) ||
      (e.waited w).any (fun r => k.id ∈ r.messageIds)) = false) {P : Prop} : Quiet P k w (w.step e) := by
  obtain ⟨hs, hwf⟩ := unify_frame h he
  obtain ⟨w₁, w₂, w₃, h1, hm, h3, hr⟩ := unify_cases he
  rw [Bool.or_eq_false_iff] at hn
  have h2 : w₂.Wf ∧ w₂.slot k = w₁.slot k := by
    rcases hm with rfl | ⟨l, p, hlp, rfl⟩
    · exact ⟨h1.wf h, rfl⟩
    · obtain ⟨-, h4, h5⟩ := applyMerge_frame (h1.wf h) l p
      rw [hlp] at hn
      have hk : k.chatJid ≠ l ∧ k.chatJid ≠ p := by simpa using hn.1
      exact ⟨h4, h5 k hk.1 hk.2⟩
  have hslot : w₃.slot k = w.slot k := (h3.slot k).trans (h2.2.trans (h1.slot k))
  refine ⟨hwf, hs, .inl ?_⟩
  rw [← hslot]
  rcases hr.slot (h3.wf h2.1) hid with hk | ⟨d, hd, hm, -⟩
  · exact hk
  · rw [hd] at hn
    exact absurd hm (by simpa using hn.2)

/-- Whether a step may set the unread flags of the chat of `k`. -/
def Step.flags (k : Key) : Step → Bool
  | .addHistoryMessages list => list.any (fun m => m.chatJid = k.chatJid)
  | .markMessageRead jid _ => k.chatJid = jid
  | .markMessagesRead jid _ => k.chatJid = jid
  | .syncUnreadFlagForChat jid => k.chatJid = jid
  | .openChat jid => k.chatJid = jid
  | _ => false

theorem Touches.frame {k₀ : Key} (h : Touches k₀ w v) : Sync w v ∧ v.Wf := ⟨h.sync, h.wf⟩

/-- Code that is about the messages in `A` only, and may flag those in `P`. -/
structure Framed (A : Key → Bool) (P : Key → Prop) (w v : World) : Prop where
  sync : Sync w v
  wf : v.Wf
  quiet : ∀ k : Key, k.id ≠ "" → A k = false → Quiet (P k) k w v

theorem Touches.framed {k₀ : Key} (h : Touches k₀ w v) : Framed (fun k => decide (k₀ = k)) P w v :=
  ⟨h.sync, h.wf, fun _ hid hn => h.quiet hid (of_decide_eq_false hn)⟩

theorem framed_of_quiet {A : Key → Bool} (h : ∀ k : Key, k.id ≠ "" → Quiet (P k) k w v) : Framed A P w v :=
  have hq := h ⟨"", "0"⟩ (by decide)
  ⟨hq.sync, hq.wf, fun k hid _ => h k hid⟩

theorem framed_unify (h : w.Wf) (he : e.unifies = true) :
    Framed (fun k => (e.merge w).any (fun c => k.chatJid = c.1 || k.chatJid = c.2) ||
      (e.waited w).any (fun r => k.id ∈ r.messageIds)) P w (w.step e) :=
  ⟨(unify_frame h he).1, (unify_frame h he).2, fun _ hid hn => unify_quiet h hid he hn⟩

/-- **What a synchronous step is not about** it leaves alone. -/
theorem framed_step (h : w.Wf) (he : e.sync = true) :
    Framed (e.about w) (fun k => e.flags k = true) w (w.step e) := by
  cases e with
  | addMessage m => exact (addMessage_spec h m).1.framed
  | addHistoryMessages list =>
    have hr := Same.ref w (w.nextRef + list.length)
    obtain ⟨w₁, h1, h2, h3⟩ := addHistoryMessages_spec (hr.wf h) (objs w.nextRef list) true
    have h4 := (h3 ⟨"", "0"⟩ (by decide)).2
    refine ⟨(hr.sync.trans h1).trans h4.sync, h4.wf, fun k hid hn => ?_⟩
    refine hr.then_quiet h fun h' => (addHistoryMessages_quiet h' hid true fun o ho hk => ?_).mono ?_
    · obtain ⟨m, hm, hmk⟩ := mem_key_objs ho
      simp only [Step.about, any_eq_false, decide_eq_true_eq] at hn
      exact hn m hm (hmk.trans hk)
    · rintro ⟨o, ho, hc⟩
      exact any_eq_true.2 ⟨o.msg, mem_objs ho, decide_eq_true hc⟩
  | addOptimistic jid r now text quoted => exact (addMessage_spec h (textBubble jid r now text quoted)).1.framed
  | addOptimisticMedia jid r now kind text thumbnail =>
    exact (addMessage_spec h (mediaBubble jid r now kind text thumbnail)).1.framed
  | confirmOptimistic jid r realId => exact (confirmOptimistic_spec h jid (tempId r) realId).1.framed
  | failOptimistic jid r => exact (failOptimistic_spec h jid (tempId r)).framed
  | applyRevoke jid targetId fallback => exact (applyRevoke_spec h jid targetId fallback).1.framed
  | applyEdit jid targetId text editedAt => exact (updateMessage_spec h jid targetId (.edit text editedAt)).1.framed
  | applyReaction jid targetId reactor emoji =>
    exact (updateMessage_spec h jid targetId (.reaction reactor emoji)).1.framed
  | applyReceipt jid ids status =>
    obtain ⟨hs, hwf, hk⟩ := applyReceipt_spec h jid ids status
    refine ⟨hs, hwf, fun k hid hn => ⟨hwf, hs, .inl ?_⟩⟩
    have hk := hk k hid
    rwa [if_neg (by simpa [Step.about] using hn)] at hk
  | removeMessage jid targetId => exact (removeMessage_spec h jid targetId).1.framed
  | restoreMessage original => exact (restoreMessage_spec h original).1.framed
  | markMessageRead jid messageId =>
    exact framed_of_quiet fun _ hid => quiet_markMessageRead h hid jid messageId decide_eq_true
  | markMessagesRead jid messageIds =>
    exact framed_of_quiet fun _ hid => quiet_markMessagesRead h hid jid messageIds decide_eq_true
  | syncUnreadFlagForChat jid =>
    exact framed_of_quiet fun _ hid => quiet_syncUnreadFlagForChat h hid jid decide_eq_true
  | loadOlder jid count => exact framed_of_quiet fun _ _ => quiet_loadOlder h jid count
  | openChat jid => exact framed_of_quiet fun _ hid => quiet_openChat h hid jid decide_eq_true
  | closeChat jid => exact framed_of_quiet fun _ hid => quiet_closeChat h hid jid
  | trimChat jid keep => exact framed_of_quiet fun _ hid => quiet_trimChat h hid jid keep
  | selectChat jid => exact framed_of_quiet fun _ _ => (Same.selectChat w jid).quiet h
  | loadTails =>
    refine framed_of_quiet fun _ _ => ?_
    simp only [World.step]
    split
    · exact .refl h
    · exact quiet_enqueue h (fun _ => rfl) rfl rfl
  | chat op => exact framed_of_quiet fun _ _ => (Same.chat w op).quiet h
  | learnLidMapping | unifyLid | unifyLidDone => exact framed_unify h rfl
  | enablePersistence => exact framed_of_quiet fun _ _ => (Same.enablePersistence w).quiet h
  | flushPendingWrites => exact framed_of_quiet fun _ _ => quiet_flushPendingWrites h
  | msgTimer =>
    refine framed_of_quiet fun _ _ => ?_
    simp only [World.step]
    split
    · exact quiet_flushPendingWrites h
    · exact .refl h
  | chatsTimer =>
    refine framed_of_quiet fun _ _ => ?_
    simp only [World.step]
    split
    · exact (Same.chats w w.chats false w.activeJid).then_quiet h fun h' =>
        quiet_enqueue h' (fun _ => rfl) (by simp [Job.stale]) rfl
    · exact .refl h
  | setAccount => exact framed_of_quiet fun _ _ => quiet_enqueue h (fun _ => rfl) rfl rfl
  | _ => cases he

/-- **A synchronous step that is not about a message is quiet for it.** -/
theorem quiet_step (h : w.Wf) (hid : k.id ≠ "") (he : e.sync = true) (hn : e.about w k = false) :
    Quiet (e.flags k = true) k w (w.step e) := (framed_step h he).quiet k hid hn

/-- Every synchronous step keeps the lists well formed and only adds to the queue. -/
theorem sync_step (h : w.Wf) (he : e.sync = true) : Sync w (w.step e) ∧ (w.step e).Wf :=
  ⟨(framed_step h he).sync, (framed_step h he).wf⟩

/-! ## The frame of a run -/

/-- A state of a run without reset and without failure. -/
structure Sound (w : World) : Prop where
  wf : w.Wf
  fresh : ∀ t ∈ w.txq, t.job.stale w.epoch = false ∧ t.job.proper = true
  wiping : w.wiping = []

theorem sound_init : Sound World.init :=
  ⟨fun _ => .nil, by simp [World.init], rfl⟩

theorem Sync.sound (hs : Sync w v) (hwf : v.Wf) (h : Sound w) : Sound v := by
  obtain ⟨ts, ht, hts⟩ := hs.txq
  refine ⟨hwf, fun t hm => ?_, hs.wiping.trans h.wiping⟩
  rw [ht] at hm
  rw [hs.epoch]
  rcases mem_append.1 hm with hm | hm
  · exact h.fresh t hm
  · exact (hts t hm).2.2.2

/-! ## Opening a transaction -/

theorem openNext_cases (w : World) :
    openNext w = w ∨ (∃ before t later, w.txq = before ++ t :: later ∧ (∀ x ∈ before, x.opened = true) ∧
      ((t.job.stale w.epoch = false ∧
        openNext w = { w with txq := before ++ ⟨t.tid, true, t.job, w.chats.rows⟩ :: later }) ∨
      t.job.stale w.epoch = true ∧
        ((∃ s k q fn after, t.job = .patch s k q fn after ∧
            openNext w = afterPatch { w with txq := before ++ later } k false after) ∨
          (∀ s k q fn after, t.job ≠ .patch s k q fn after) ∧
            openNext w = { w with txq := before ++ later }))) := by
  unfold openNext
  split
  · exact .inl rfl
  · rename_i t later hd
    have hsplit := takeWhile_append_dropWhile (p := (·.opened)) (l := w.txq)
    rw [hd] at hsplit
    refine .inr ⟨w.txq.takeWhile (·.opened), t, later, hsplit.symm,
      fun x hx => (all_eq_true.1 (all_takeWhile)) x hx, ?_⟩
    cases hst : t.job.stale w.epoch with
    | false => exact .inl ⟨rfl, by simp⟩
    | true =>
      refine .inr ⟨rfl, ?_⟩
      cases hj : t.job with
      | patch s k q fn after => exact .inl ⟨s, k, q, fn, after, rfl, by simp⟩
      | _ => exact .inr ⟨by simp, by simp⟩

/-- A transaction of the current epoch is opened: it keeps its place, its identity and its job. -/
theorem openNext_fresh (h : ∀ t ∈ w.txq, t.job.stale w.epoch = false) :
    ∃ txq : List Txn, openNext w = { w with txq := txq } ∧ txq.map (·.job) = w.jobs ∧
      ∀ x ∈ txq, ∃ y ∈ w.txq, x.tid = y.tid ∧ x.job = y.job := by
  rcases openNext_cases w with he | ⟨before, t, later, ht, -, ⟨-, he⟩ | ⟨hst, -⟩⟩
  · exact ⟨w.txq, he, rfl, fun x hx => ⟨x, hx, rfl, rfl⟩⟩
  · refine ⟨_, he, by rw [World.jobs, ht]; simp, fun x hx => ?_⟩
    rw [ht]
    rcases mem_replaced hx with rfl | hx
    · exact ⟨t, by simp, rfl, rfl⟩
    · exact ⟨x, hx, rfl, rfl⟩
  · rw [h t (by rw [ht]; simp)] at hst
    cases hst

/-- Opening a transaction of the current epoch changes nothing that is observed. -/
theorem openNext_spec (h : Sound w) :
    Sound (openNext w) ∧ (openNext w).jobs = w.jobs ∧ (openNext w).msgs = w.msgs ∧
      (openNext w).byChat = w.byChat ∧ (openNext w).q = w.q ∧ (openNext w).epoch = w.epoch ∧
      (openNext w).exhausted = w.exhausted ∧ (openNext w).earlyReceipts = w.earlyReceipts := by
  obtain ⟨txq, he, hjobs, hmem⟩ := openNext_fresh fun t ht => (h.fresh t ht).1
  rw [he]
  refine ⟨⟨h.wf, fun x hx => ?_, h.wiping⟩, hjobs, rfl, rfl, rfl, rfl, rfl, rfl⟩
  obtain ⟨y, hy, -, hj⟩ := hmem x hx
  rw [hj]
  exact h.fresh y hy

end Whatsvelte
