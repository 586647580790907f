import Whatsvelte.Proof.Bubble

/-!
# Accepted sends

A send shows a bubble under a temporary id; when the server has accepted it,
`confirmOptimistic` gives the bubble its real id and writes the record. If it does not
find the bubble it returns silently: the bubble may have been trimmed, re-keyed by a
merge, or taken by the echo of another message (`confirm_finds_no_bubble`).

`confirmed_send_recorded`: from the send on, in every safe run, the confirm leaves a record and no bubble,
whether the echo came before it or comes after it, through trimming, flushing and merges.
-/

namespace Whatsvelte

variable {w v : World} {k : Key} {e : Step} {o : Obj} {m : UiMessage} {id : MsgId} {jid : Jid}

/-! ## A record that is known stays known -/

theorem known_writes {s : Slot} (hs : s.stored.isSome = true) (hw : Slot.Writes o s (v.slot k)) :
    (v.eff k).isSome = true := by
  have he : v.eff k = putEff o.msg s.stored := hw.1
  rw [he, putEff]
  split
  · rfl
  · exact hs

theorem known_calm {P : Prop} {s : Slot} (hs : s.stored.isSome = true)
    (hc : Slot.Calm P s (v.slot k)) : (v.eff k).isSome = true := by
  rcases hc with hc | ⟨-, x, o, b, -, -, hw⟩
  · have he : v.eff k = s.stored := hc.1
    rwa [he]
  · exact known_writes hs hw

theorem known_updated {fn : Patch} {f : Option Fallback} (hk : (w.eff k).isSome = true)
    (hu : Updated fn f k w v) : (v.eff k).isSome = true := by
  cases hu with
  | resident x o _ _ hw => exact known_writes hk hw
  | unchanged x _ _ hc => exact known_calm (P := False) hk (.inl hc)
  | stored _ hs =>
    have he : v.eff k = patchedEff fn (w.eff k) := congrArg Slot.stored hs
    rw [he, patchedEff, Option.isSome_or, hk, Bool.or_true]
  | tombstone f o _ _ _ _ hw => exact known_writes hk hw

/-- The adopted copy is written back, or not. -/
theorem known_adopted {P : Prop} [Decidable P] (hk : (w.eff k).isSome = true)
    (he : v.eff k = if P then putEff o.msg (w.eff k) else w.eff k) : (v.eff k).isSome = true := by
  rw [he, putEff]
  split
  · split
    · rfl
    · exact hk
  · exact hk

theorem known_insertEff (hk : (w.eff o.key).isSome = true) : (insertEff w o).isSome = true := by
  unfold insertEff
  split
  · split
    · exact hk
    · rw [Option.isSome_or]; exact Bool.or_true _
  · exact hk

theorem known_delivered (hk : (w.eff m.key).isSome = true) (hd : Delivered m w v) :
    (v.eff m.key).isSome = true := by
  cases hd with
  | known _ hs =>
    have he : v.eff m.key = w.eff m.key := congrArg Slot.stored hs
    rwa [he]
  | media x o _ _ _ hw | echo o _ _ _ _ hw => exact known_writes hk hw
  | new o _ _ ho hi =>
    have hkey : o.key = m.key := by rw [Obj.key, ho, startUnread_key]
    rw [← hkey] at hk ⊢
    cases hi with
    | plain _ _ _ he | waits _ _ _ he => rw [he]; exact known_insertEff hk
    | trimmed _ _ _ _ he => rwa [he]
    | adopts _ _ _ _ _ _ he => exact known_adopted hk he

/-- The step deletes the message `k`. -/
def Step.removes (k : Key) : Step → Bool
  | .removeMessage jid targetId => (⟨jid, targetId⟩ : Key) = k
  | _ => false

/-- The step neither deletes the record of `k` nor moves it away. -/
def KeepsRecord (k : Key) (w : World) (e : Step) : Prop :=
  e.removes k = false ∧ ∀ c ∈ e.merge w, c.1 ≠ k.chatJid

/-- A merge into the chat of a record keeps it. -/
theorem known_applyMerge {l p : Jid} (h : w.Wf) (hne : l ≠ k.chatJid)
    (hk : (w.eff k).isSome = true) : ((applyMerge w l p).eff k).isSome = true := by
  by_cases hp : k.chatJid = p
  · subst hp
    rcases applyMerge_spec h hne with ⟨he, -⟩ | ⟨-, hm⟩
    · rwa [he]
    · exact hm.known (.inl hk)
  · have he : (applyMerge w l p).eff k = w.eff k :=
      congrArg Slot.stored ((applyMerge_frame h l p).2.2 k (Ne.symm hne) hp)
    rwa [he]

/-- **A synchronous step** that neither deletes a record nor moves it away keeps it. -/
theorem known_sync (h : w.Wf) (hid : k.id ≠ "") (htmp : isTmp k.id = false) (he : e.sync = true)
    (hk : (w.eff k).isSome = true) (hs : KeepsRecord k w e) : ((w.step e).eff k).isSome = true := by
  cases happens h hid he with
  | quiet hq => exact known_calm hk hq
  | delivered m _ hm hd =>
    subst hm
    exact known_delivered hk hd
  | history list w₁ _ hp hq =>
    refine known_calm ?_ hq
    rcases hp with hp | ⟨-, o, -, -, -, hp⟩
    · rwa [hp]
    · rw [hp]
      simp only [if_true, putEff]
      split
      · rfl
      · exact hk
  | confirmed jid r x o _ _ _ _ _ hw => exact known_writes hk hw
  | failed jid r _ hi => rw [hi, isTmp_tempId] at htmp; cases htmp
  | updated fn _ hu => exact known_updated hk hu
  | removed he' =>
    have hrem := hs.1
    rw [he', Step.removes] at hrem
    simp at hrem
  | restored o _ _ hw => exact known_writes hk hw
  | unified w₁ w₂ w₃ _ h1 hm _ _ h3 hrec =>
    have hk1 : (w₁.eff k).isSome = true := by rwa [h1.eff]
    have hk2 : (w₂.eff k).isSome = true := by
      rcases hm with hm | ⟨l, p, hlp, -, rfl⟩
      · have he : w₂.eff k = w₁.eff k := congrArg Slot.stored hm
        rwa [he]
      · exact known_applyMerge (h1.wf h) (hs.2 (l, p) hlp) hk1
    have hk3 : (w₃.eff k).isSome = true := by rwa [h3.eff]
    rcases hrec with hrec | ⟨d, -, -, hu⟩
    · exact known_calm (P := False) hk3 (.inl hrec)
    · exact known_updated hk3 hu

theorem known_advance (h : Sound w) (hid : k.id ≠ "") (hk : (w.eff k).isSome = true)
    (hq : QueueSafe k w) : ((advance w).eff k).isSome = true := by
  cases advanced h hid hq with
  | quiet _ hc => exact known_calm hk hc
  | tombstone _ _ o _ _ _ _ _ hw => exact known_writes hk hw
  | loaded r _ _ _ hc => exact known_calm hk hc
  | adopted _ _ _ _ _ _ _ _ _ _ _ _ _ _ he => exact known_adopted hk he

/-! ## A bubble that is gone stays gone -/

/-- **A synchronous step** that brings no copy of a message leaves it out of memory. -/
theorem absent_sync (h : w.Wf) (hid : k.id ≠ "") (he : e.sync = true)
    (hk : (w.slot k).resident = none) (hn : e.copies w k = false)
    (hm : ∀ c ∈ e.merge w, (w.slot ⟨c.1, k.id⟩).resident = none ∧
      (w.slot ⟨c.2, k.id⟩).resident = none) : ((w.step e).slot k).resident = none := by
  obtain ⟨w₂, hv, hw⟩ := vacant_sync h hid he hn
  refine (hv ?_).1
  rcases hw with hw | ⟨w₁, l, p, h1, hlp, hc, rfl⟩
  · rwa [hw]
  · obtain ⟨hl, hp⟩ := hm (l, p) hlp
    exact resident_applyMerge (h1.wf h) hid (by rwa [h1.slot]) (by rwa [h1.slot]) hc

theorem absent_advance (h : Sound w) (hid : k.id ≠ "") (hk : (w.slot k).resident = none)
    (hq : QueueSafe k w) (hn : Step.advance.copies w k = false)
    (hr : ∀ r ∈ w.rowsRead, r.2.key ≠ k) : ((advance w).slot k).resident = none := by
  rcases vacant_advance h hid hq hn with hv | ⟨r, hrow, hrk⟩
  · exact (hv hk).1
  · exact absurd hrk (hr r hrow)

/-! ## The confirm -/

/-- The bubble is no longer there after a confirm. -/
theorem confirmOptimistic_takes (jid : Jid) {temp real : MsgId} (h : w.Wf) (ht : temp ≠ "") (hne : real ≠ temp) :
    ((confirmOptimistic w jid temp real).slot ⟨jid, temp⟩).resident = none := by
  rw [slot_resident]
  have hok := h jid
  rcases confirmOptimistic_cases w jid temp real with ⟨hx, hv⟩ | ⟨x, hx, ⟨hreal, hv⟩ | ⟨hn, hv⟩⟩
  · rwa [hv]
  · rw [hv, messagesFor_commit, if_pos rfl]
    refine findId_eq_none.2 fun o ho he => ?_
    have ho := (sortByTime_perm _).subset ((committed_sublist _ _ _).subset ho)
    obtain ⟨a, pre, post, hpre, ha, hsplit, herase⟩ := List.exists_of_eraseP
      (p := fun o : Obj => decide (o.msg.id = temp)) (findId_mem hx) (by simpa using findId_id hx)
    rw [herase] at ho
    have ha : a.msg.id = temp := by simpa using ha
    rcases List.mem_append.1 ho with ho | ho
    · exact hpre o ho (by simpa using he)
    · -- an id that is not empty occurs once
      rw [hsplit] at hok
      exact ht (ha ▸ hok.split.2 o ho (ha.trans he.symm))
  · rw [hv, confirmWith, messagesFor_commit, if_pos rfl]
    have hfit : FitsFor (messagesFor w jid) x (confirmed w x real) := Or.inr (.inr hn)
    have hok' := hok.replaceFirst hx
      (o := confirmed w x real) (hok.chat x (findId_mem hx)) hfit
    have hid : (confirmed w x real).msg.id ≠ temp := hne
    have hfind := findId_replaceFirst hok hx hfit ht
    rw [if_neg hid, if_pos (findId_id hx)] at hfind
    rcases findId_committed hok' ht with hc | hc
    · exact hc.trans hfind
    · exact hc

/-- A send that waits for its confirm: the bubble is in memory under the canonical key, and the
message is not, or is recorded. -/
structure Waiting (jid : Jid) (r : String) (realId : MsgId) (w : World) : Prop where
  canonical : canonicalJid w jid = jid
  bubble : ∃ x ∈ (w.slot ⟨jid, tempId r⟩).resident, x.msg.kind ≠ .other
  real : (w.slot ⟨jid, realId⟩).resident = none ∨ (w.eff ⟨jid, realId⟩).isSome = true

/-- The send is recorded under the canonical key of its chat, and no bubble is left. -/
structure Sent (jid : Jid) (r : String) (realId : MsgId) (w : World) : Prop where
  record : (w.eff ⟨canonicalJid w jid, realId⟩).isSome = true
  bubble : (w.slot ⟨jid, tempId r⟩).resident = none
  canonical : (w.slot ⟨canonicalJid w jid, tempId r⟩).resident = none

theorem tempId_ne (r : String) : tempId r ≠ "" := by
  intro h
  have := isTmp_tempId r
  rw [h] at this
  exact absurd this (by decide)

/-- A message that gets its real id is to be persisted. -/
theorem persistable_confirmed {realId : MsgId} {s : MessageStatus} (hid : realId ≠ "")
    (hc : m.chatJid ≠ "") (htmp : isTmp realId = false) (hs : s ≠ .sending) (hb : isBlankMessage m = false) :
    persistable { m with id := realId, status := some s } = true := by
  exact persistable_iff.2 ⟨hid, hc, htmp, by simpa using hs, hb⟩

theorem confirmOptimistic_of_none {temp real : MsgId} (h : (w.slot ⟨jid, temp⟩).resident = none) :
    confirmOptimistic w jid temp real = w := by
  rcases confirmOptimistic_cases w jid temp real with ⟨-, hv⟩ | ⟨x, hx, -⟩
  · exact hv
  · rw [slot_resident] at h
    rw [h] at hx
    cases hx

/-- **The confirm.** -/
theorem sent_confirmOptimistic {r : String} {realId : MsgId} (h : w.Wf) (hid : realId ≠ "")
    (htmp : isTmp realId = false) (hj : jid ≠ "") (hs : Waiting jid r realId w ∨ Sent jid r realId w) :
    Sent jid r realId (confirmOptimistic w jid (tempId r) realId) := by
  have hne : realId ≠ tempId r := by rintro rfl; rw [isTmp_tempId] at htmp; cases htmp
  have hcan : ∀ j, canonicalJid (confirmOptimistic w jid (tempId r) realId) j = canonicalJid w j :=
    canonicalJid_step (e := .confirmOptimistic jid r realId) nofun
  have htake := confirmOptimistic_takes jid h (tempId_ne r) hne
  have hreal := (confirmOptimistic_spec h jid (tempId r) realId).2 hid
  rcases hs with ⟨hc, ⟨x, hx, hb⟩, hrec⟩ | ⟨hrec, h1, h2⟩
  · refine ⟨?_, htake, by rwa [hcan, hc]⟩
    rw [hcan, hc]
    rcases hreal with ⟨hkeep, hor⟩ | ⟨y, hy, -, hw⟩
    · -- the message is there already, so it is recorded
      have hsome : (w.slot ⟨jid, realId⟩).resident.isSome = true := by
        rcases hor with hor | hor
        · rw [slot_resident, hor] at hx; cases hx
        · exact hor
      have hk : (w.eff ⟨jid, realId⟩).isSome = true := by
        rcases hrec with hrec | hrec
        · rw [hrec] at hsome; cases hsome
        · exact hrec
      exact known_calm (P := False) hk (.inl hkeep)
    · have hxy : y = x := Option.some.inj (hy.symm.trans hx)
      have hcj : x.msg.chatJid ≠ "" := by
        rwa [(h jid).chat x (findId_mem hx)]
      have hp : persistable (confirmed w y realId).msg = true :=
        persistable_confirmed hid (hxy ▸ hcj) htmp (earlyStatus_ne_sending w realId)
          (by simp [isBlankMessage, hxy ▸ hb])
      have he : (confirmOptimistic w jid (tempId r) realId).eff ⟨jid, realId⟩ =
        putEff (confirmed w y realId).msg (w.eff ⟨jid, realId⟩) := hw.1
      rw [he, putEff, if_pos hp]
      rfl
  · have he : confirmOptimistic w jid (tempId r) realId = w := confirmOptimistic_of_none h1
    refine ⟨?_, htake, ?_⟩ <;> rwa [hcan, he]

/-! ## The run after the confirm -/

variable {r : String} {realId : MsgId} {l p : Jid}

/-- The merge of `l` into `p` does not lose the record: another chat is merged, or the chat
is merged again, or it is merged for the first time, and then it is known in memory and no
delete of the message is queued under `p`. -/
def MergeKeeps (jid : Jid) (realId : MsgId) (w : World) (l p : Jid) : Prop :=
  if l = jid then
    isLid jid = true ∧ (p = canonicalJid w jid ∨ canonicalJid w jid = jid ∧
      (w.chats.has l = true ∨ (w.byChat l).isSome = true) ∧
      w.q.pending.get ⟨p, realId⟩ ≠ some (.del p realId))
  else l ≠ canonicalJid w jid

instance (jid : Jid) (realId : MsgId) (w : World) (l p : Jid) :
    Decidable (MergeKeeps jid realId w l p) := by
  unfold MergeKeeps
  infer_instance

/-- The step keeps an accepted send: the record is not deleted, its chat is not merged while
it is unknown in memory, and nothing brings the bubble back. -/
abbrev SendSafe (jid : Jid) (r : String) (realId : MsgId) (w : World) (e : Step) : Prop :=
  e.Guarded
    (QueueSafe ⟨canonicalJid w jid, realId⟩ w ∧ ∀ c ∈ [jid, canonicalJid w jid],
      QueueSafe ⟨c, tempId r⟩ w ∧ Step.advance.copies w ⟨c, tempId r⟩ = false ∧
        ∀ row ∈ w.rowsRead, row.2.key ≠ ⟨c, tempId r⟩)
    (e.removes ⟨canonicalJid w jid, realId⟩ = false ∧
      (∀ c ∈ [jid, canonicalJid w jid], e.copies w ⟨c, tempId r⟩ = false) ∧
      ∀ c ∈ e.merge w, MergeKeeps jid realId w c.1 c.2 ∧
        (w.slot ⟨c.1, tempId r⟩).resident = none ∧ (w.slot ⟨c.2, tempId r⟩).resident = none)

/-- The first merge of the chat takes the record along. -/
theorem known_first_merge (h : w.Wf) (hid : realId ≠ "") (hk : (w.eff ⟨l, realId⟩).isSome = true)
    (hmem : w.chats.has l = true ∨ (w.byChat l).isSome = true)
    (hdel : w.q.pending.get ⟨p, realId⟩ ≠ some (.del p realId)) :
    ((applyMerge w l p).eff ⟨p, realId⟩).isSome = true := by
  by_cases hlp : l = p
  · subst hlp
    rwa [(applyMerge_self h hid).1]
  · rcases applyMerge_spec h hlp with ⟨-, hb, hc⟩ | ⟨-, hm⟩
    · rw [hb, hc] at hmem
      simp at hmem
    · refine hm.known (.inr ⟨hk, fun c i hp => ?_⟩)
      have hkey := get_op_key hp
      simp only [PendingOp.key, Key.mk.injEq] at hkey
      obtain ⟨rfl, rfl⟩ := hkey
      exact hdel hp

/-- **A unification step** leaves the record that its merge leaves. -/
theorem known_merged (h : w.Wf) (hid : realId ≠ "") (he : e.unifies = true)
    (hm : e.merge w = some (l, p)) (hk : ∀ w₁, Same w w₁ → w₁.chats = w.chats →
      w₁.byChat = w.byChat → ((applyMerge w₁ l p).eff ⟨p, realId⟩).isSome = true) :
    ((w.step e).eff ⟨p, realId⟩).isSome = true := by
  obtain ⟨w₁, w₃, h1, h3, hr⟩ := unify_step he
  rw [hm] at h3
  have hk₃ : (w₃.eff ⟨p, realId⟩).isSome = true := by rw [h3.eff]; exact hk w₁ h1.toSame h1.chats h1.byChat
  have hwf₃ : w₃.Wf := h3.wf (applyMerge_frame (h1.wf h) l p).2.1
  rcases hr.slot hwf₃ (k := ⟨p, realId⟩) hid with hkeep | ⟨d, -, -, hu⟩
  · exact known_calm (P := False) hk₃ (.inl hkeep)
  · exact known_updated hk₃ hu

/-- The record is under the canonical key after the step. -/
theorem record_sync (h : w.Wf) (hid : realId ≠ "") (htmp : isTmp realId = false)
    (he : e.sync = true) (hk : (w.eff ⟨canonicalJid w jid, realId⟩).isSome = true)
    (hs : SendSafe jid r realId w e) :
    ((w.step e).eff ⟨canonicalJid (w.step e) jid, realId⟩).isSome = true := by
  obtain ⟨hrem, -, hmg⟩ := hs.sync he
  have hne : e ≠ .resetAll := by rintro rfl; cases he
  -- either the canonical key stays, or the step merges the chat for the first time
  have hcan := canonicalJid_step (w := w) hne jid
  cases hm : e.merge w with
  | none =>
    rw [hm] at hcan
    rw [hcan]
    exact known_sync h hid htmp he hk ⟨hrem, by rw [hm]; nofun⟩
  | some c =>
    obtain ⟨l, p⟩ := c
    have hkeep := (hmg (l, p) hm).1
    simp only [hm] at hcan
    unfold MergeKeeps at hkeep
    by_cases hl : l = jid
    · subst hl
      rw [if_pos rfl] at hkeep
      obtain ⟨hlid, hor⟩ := hkeep
      rw [if_pos ⟨rfl, hlid⟩] at hcan
      rw [hcan]
      rcases hor with hp | ⟨hc, hmem, hdel⟩
      · rw [← hp] at hk hrem
        by_cases hlp : l = p
        · subst hlp
          refine known_merged h hid (unifies_of_merge hm) hm fun w₁ h1 _ _ => ?_
          rwa [(applyMerge_self (h1.wf h) hid).1, h1.eff]
        · exact known_sync h hid htmp he hk ⟨hrem, by
            rw [hm]; rintro c hc; cases hc; exact hlp⟩
      · rw [hc] at hk
        refine known_merged h hid (unifies_of_merge hm) hm fun w₁ h1 hch hby => ?_
        exact known_first_merge (h1.wf h) hid (by rwa [h1.eff])
          (by rwa [hch, hby]) (by rwa [h1.pending])
    · rw [if_neg hl] at hkeep
      rw [if_neg (fun hh => hl hh.1)] at hcan
      rw [hcan]
      exact known_sync h hid htmp he hk ⟨hrem, by rw [hm]; rintro c hc; cases hc; exact hkeep⟩

/-- The bubble stays away under both keys. -/
theorem bubble_sync (h : w.Wf) (he : e.sync = true) (hs : SendSafe jid r realId w e)
    (hb : Sent jid r realId w) {c : Jid} (hc : c ∈ [jid, canonicalJid w jid]) :
    ((w.step e).slot ⟨c, tempId r⟩).resident = none := by
  obtain ⟨-, hcopy, hmg⟩ := hs.sync he
  have hnow : (w.slot ⟨c, tempId r⟩).resident = none := by
    simp only [List.mem_cons, List.not_mem_nil, or_false] at hc
    rcases hc with rfl | rfl
    · exact hb.bubble
    · exact hb.canonical
  exact absent_sync h (tempId_ne r) he hnow (hcopy c hc) fun m hm => (hmg m hm).2

/-- The key that a first merge makes canonical. -/
theorem canonical_sync (h : w.Wf) (he : e.sync = true) (hs : SendSafe jid r realId w e)
    (hb : Sent jid r realId w) :
    ((w.step e).slot ⟨canonicalJid (w.step e) jid, tempId r⟩).resident = none := by
  have hne : e ≠ .resetAll := by rintro rfl; cases he
  have hold := bubble_sync h he hs hb (c := canonicalJid w jid) (by simp)
  rw [canonicalJid_step hne jid]
  split
  · rename_i l p hm
    split
    · obtain ⟨-, hcopy, hmg⟩ := hs.sync he
      refine absent_sync h (tempId_ne r) he ((hmg (l, p) hm).2.2) ?_ fun m hm => (hmg m hm).2
      -- a unification step brings no copy of anything
      have hu := unifies_of_merge hm
      cases e <;> first | rfl | cases hu
    · exact hold
  · exact hold

theorem sent_sync (h : w.Wf) (hid : realId ≠ "") (htmp : isTmp realId = false) (he : e.sync = true)
    (hb : Sent jid r realId w) (hs : SendSafe jid r realId w e) : Sent jid r realId (w.step e) :=
  ⟨record_sync h hid htmp he hb.record hs, bubble_sync h he hs hb (by simp),
    canonical_sync h he hs hb⟩

theorem sent_advance (h : Sound w) (hid : realId ≠ "") (hb : Sent jid r realId w)
    (hs : SendSafe jid r realId w .advance) : Sent jid r realId (advance w) := by
  obtain ⟨hq, hc⟩ := hs
  have hcan : canonicalJid (advance w) jid = canonicalJid w jid := (Outside.advance w).canonicalJid jid
  refine ⟨?_, ?_, ?_⟩
  · rw [hcan]; exact known_advance h hid hb.record hq
  · obtain ⟨hq, hcopy, hrow⟩ := hc jid (by simp)
    exact absent_advance h (tempId_ne r) hb.bubble hq hcopy hrow
  · obtain ⟨hq, hcopy, hrow⟩ := hc (canonicalJid w jid) (by simp)
    rw [hcan]
    exact absent_advance h (tempId_ne r) hb.canonical hq hcopy hrow

/-- **One safe step** keeps an accepted send. -/
theorem sent_step (hid : realId ≠ "") (htmp : isTmp realId = false)
    (h : Sound w ∧ Sent jid r realId w) (hs : SendSafe jid r realId w e) :
    Sound (w.step e) ∧ Sent jid r realId (w.step e) := by
  refine ⟨sound_step h.1 hs.ordinary, ?_⟩
  rcases ordinary_cases h.1 hs.ordinary with he | rfl | rfl | hw
  · exact sent_sync h.1.wf hid htmp he h.2 hs
  · have hcan : canonicalJid (openNext w) jid = canonicalJid w jid := (Outside.openNext w).canonicalJid jid
    have hslot := slot_openNext h.1
    have hrec : (openNext w).eff ⟨canonicalJid w jid, realId⟩ = w.eff ⟨canonicalJid w jid, realId⟩ :=
      congrArg Slot.stored (hslot _)
    exact ⟨by rw [World.step, hcan, hrec]; exact h.2.record, by
      rw [World.step, hslot]; exact h.2.bubble, by rw [World.step, hcan, hslot]; exact h.2.canonical⟩
  · exact sent_advance h.1 hid h.2 hs
  · rw [hw]
    exact h.2

/-! ## The run before the confirm -/

/-- A delivery of a message that is not in memory and may be stored is recorded. -/
theorem known_arrival (hp : persistable m = true) (hn : (w.slot m.key).resident = none) (hd : Delivered m w v) :
    (v.eff m.key).isSome = true := by
  cases hd with
  | known h =>
    rcases h with h | h
    · simp [persistable, h] at hp
    · rw [hn] at h; cases h
  | media x o hx => rw [hn] at hx; cases hx
  | echo o _ _ _ ho hw =>
    have he : v.eff m.key = putEff o.msg (w.eff m.key) := hw.1
    rw [he, putEff, ho, if_pos (persistable_sent hp)]
    rfl
  | new o _ _ ho hi =>
    have hkey : o.key = m.key := by rw [Obj.key, ho, startUnread_key]
    rw [← hkey]
    have hins : ∀ n, w.q.pending.get o.key = some (.put n) → (w.eff o.key).isSome = true := fun n hq => by
      rw [eff_apply, hq]; rfl
    have hnew : (insertEff w o).isSome = true := by
      rw [insertEff, ho, if_pos ((persistable_startUnread m).trans hp)]
      split
      · exact hins _ ‹_›
      · rw [Option.isSome_or]; exact Bool.or_true _
    cases hi with
    | plain _ _ _ he | waits _ _ _ he => rwa [he]
    | trimmed n hq _ _ he => rw [he]; exact hins n hq
    | adopts n _ hq _ _ _ he => exact known_adopted (hins n hq) he

/-- What brings the message before its confirm, or finds it there, leaves it recorded. -/
abbrev ArrivesSafe (k : Key) (w : World) (e : Step) : Prop :=
  e.Guarded
    (QueueSafe k w ∧ ((w.eff k).isSome = true ∨ Step.advance.copies w k = false ∧ ∀ row ∈ w.rowsRead, row.2.key ≠ k))
    (KeepsRecord k w e ∧ ((w.eff k).isSome = true ∨ (∃ m ∈ e.delivers, m.key = k ∧ persistable m = true) ∨
      e.copies w k = false ∧ ∀ c ∈ e.merge w, (w.slot ⟨c.1, k.id⟩).resident = none ∧
        (w.slot ⟨c.2, k.id⟩).resident = none))

theorem arrived_step (h : Sound w) (hid : k.id ≠ "") (htmp : isTmp k.id = false)
    (hk : (w.slot k).resident = none ∨ (w.eff k).isSome = true) (hs : ArrivesSafe k w e) :
    ((w.step e).slot k).resident = none ∨ ((w.step e).eff k).isSome = true := by
  rcases ordinary_cases h hs.ordinary with he | rfl | rfl | hw
  · obtain ⟨hkeep, hs⟩ := hs.sync he
    by_cases hrec : (w.eff k).isSome = true
    · exact .inr (known_sync h.wf hid htmp he hrec hkeep)
    have hres := hk.resolve_right hrec
    rcases hs.resolve_left hrec with ⟨m, hm, rfl, hp⟩ | ⟨hcopy, hmg⟩
    · have hd := (addMessage_spec h.wf m).2 hid
      cases e <;> cases hm <;> exact .inr (known_arrival hp hres hd)
    · exact .inl (absent_sync h.wf hid he hres hcopy hmg)
  · have hslot := slot_openNext h k
    exact hk.imp (fun hr => by rwa [World.step, hslot]) fun hr => (congrArg (·.stored.isSome) hslot).trans hr
  · obtain ⟨hq, hor⟩ := hs
    by_cases hrec : (w.eff k).isSome = true
    · exact .inr (known_advance h hid hrec hq)
    · obtain ⟨hcopy, hrow⟩ := hor.resolve_left hrec
      exact .inl (absent_advance h hid (hk.resolve_right hrec) hq hcopy hrow)
  · rwa [hw]

/-- How many other messages of the list are as new as the bubble or handed in. -/
def Bubble.crowd (b : Bubble) (arr : List Obj) : ℕ :=
  arr.countP fun o => o.msg.id ≠ b.id ∧ (b.time ≤ o.msg.timestamp ∨ o.msg.id ∈ b.others)

theorem Bubble.Floats.hasId {b : Bubble} {arr : List Obj} (h : b.Floats arr) (hc : ∀ n ∈ b.limit, b.crowd arr < n) :
    hasId arr b.id = true := by
  refine h.kept.elim (fun hk => hk) fun ⟨n, hn, hlen, hall⟩ => ?_
  by_contra hk
  refine absurd (hc n hn) (not_lt.2 (hlen.trans_eq (List.countP_eq_length.2 fun o ho => ?_).symm))
  exact decide_eq_true ⟨fun hi => hk (hasId_iff.2 ⟨o, ho, hi⟩), hall o ho⟩

/-- The bubble `x` before the step `e`. -/
def Step.bubble (w : World) (x : Obj) (e : Step) : Bubble :=
  ⟨x.msg.chatJid, x.msg.id, x.msg.timestamp, e.handed w, e.limit w x.msg.chatJid⟩

/-- The step leaves the bubble in its list, or is the echo of its message. -/
def SparesBubble (realId : MsgId) (w : World) (x : Obj) (e : Step) : Prop :=
  x.msg.id ∉ e.handed w ∧
    (∀ m ∈ e.delivers, Takes w x.msg.id m → m.key = ⟨x.msg.chatJid, realId⟩ ∧ persistable m = true) ∧
    ∀ n ∈ (e.bubble w x).limit, ByTime (messagesFor w x.msg.chatJid) ∧
      (e.bubble w x).crowd (messagesFor (w.step e) x.msg.chatJid) < n

instance (arr : List Obj) : Decidable (ByTime arr) := by
  unfold ByTime
  infer_instance

instance (realId : MsgId) (w : World) (x : Obj) (e : Step) : Decidable (SparesBubble realId w x e) := by
  unfold SparesBubble
  infer_instance

/-- A bubble that nothing takes stays. -/
theorem spared_step {x : Obj} (h : Sound w) (hx : (w.slot ⟨jid, tempId r⟩).resident = some x)
    (hkind : x.msg.kind ≠ .other) (ho : e.ordinary = true) (hm : ∀ c ∈ e.merge w, c.1 ≠ jid)
    (hs : SparesBubble realId w x e) (he : ∀ m ∈ e.delivers, ¬ Takes w x.msg.id m) :
    ∃ y ∈ ((w.step e).slot ⟨jid, tempId r⟩).resident, y.msg.kind ≠ .other := by
  obtain ⟨hid, -, hroom⟩ := hs
  have hmem : x ∈ messagesFor w jid := findId_mem hx
  have hjid : x.msg.chatJid = jid := (h.wf jid).chat x hmem
  have htemp : x.msg.id = tempId r := findId_id hx
  have hk : hasId (messagesFor w jid) x.msg.id = true := hasId_iff.2 ⟨x, hmem, rfl⟩
  subst hjid
  have hf : (e.bubble w x).Floats (messagesFor w x.msg.chatJid) := by
    refine ⟨fun o ho hi => ?_, .inl hk⟩
    obtain rfl := (h.wf _).eq_of_id ho hmem hi (by rw [show o.msg.id = x.msg.id from hi, htemp]; exact tempId_ne r)
    exact ⟨rfl, hkind⟩
  have hc : w.activeJid ≠ some x.msg.chatJid → ∃ k ≤ RESIDENT_TAIL, e.limit w x.msg.chatJid = some k := fun ha => by
    unfold Step.limit
    split
    · exact ⟨_, min_le_right _ _, rfl⟩
    · exact ⟨_, le_rfl, if_neg ha⟩
  have hstay : (e.bubble w x).Floats (messagesFor (w.step e) x.msg.chatJid) →
      ∃ y ∈ ((w.step e).slot ⟨x.msg.chatJid, tempId r⟩).resident, y.msg.kind ≠ .other := fun hstay => by
    have hkeep := hstay.hasId fun n hn => (hroom n hn).2
    rw [show (e.bubble w x).id = tempId r from htemp, hasId_eq] at hkeep
    obtain ⟨y, hy⟩ := Option.isSome_iff_exists.1 hkeep
    exact ⟨y, hy, (hstay.same y (findId_mem hy) ((findId_id hy).trans htemp.symm)).2⟩
  rcases ordinary_cases h ho with hsync | rfl | rfl | hw
  · refine hstay (floats_sync hf hc hid hk rfl hsync rfl (fun hn => ?_) hm he)
    obtain ⟨n, hn⟩ := Option.ne_none_iff_exists'.1 hn
    exact (hroom n hn).1
  · exact ⟨x, by rwa [World.step, slot_openNext h], hkind⟩
  · exact hstay (floats_advance hf hc hid rfl)
  · exact ⟨x, by rwa [hw], hkind⟩

/-- The echo of the message takes the place of the bubble. -/
theorem echoed_bubble (h : w.Wf) (hid : m.id ≠ "") (hne : m.id ≠ tempId r) (hb : isBlankMessage m = false)
    (ht : Takes w (tempId r) m) : ((addMessage w m).slot ⟨m.chatJid, tempId r⟩).resident = none := by
  obtain ⟨hme, hnew, y, hy, hyr⟩ := ht
  have hany : ((startUnread m).fromMe && (messagesFor w m.chatJid).any (matchesEcho (startUnread m))) = true := by
    rw [fromMe_startUnread, hme, Bool.true_and, List.any_eq_true]
    exact ⟨y, List.mem_of_find?_eq_some hy, List.find?_some hy⟩
  have hmatch :
      (if (startUnread m).id ≠ "" then findId (messagesFor w m.chatJid) (startUnread m).id else none) = none := by
    rw [startUnread_id, if_pos hid]
    exact hnew hid
  unfold addMessage
  rw [if_neg (by simp [hb])]
  dsimp only
  rw [hmatch]
  rw [if_pos hany, slot_resident, messagesFor_commit, if_pos (startUnread_chatJid m).symm]
  generalize ho : (⟨_, { startUnread m with status := some .sent }⟩ : Obj) = o
  have hoid : o.msg.id = m.id := by rw [← ho]; exact startUnread_id m
  have hfit : FitsFor (messagesFor w m.chatJid) y o := .inr (.inr (hoid.symm ▸ hnew hid))
  have hfind := findId_replaceFirst (h m.chatJid) hy hfit (tempId_ne r)
  rw [hoid, if_neg hne, if_pos hyr] at hfind
  have hok : ListOK (startUnread m).chatJid
      (replaceFirst (matchesEcho (startUnread m)) o (messagesFor w m.chatJid)) := by
    rw [startUnread_chatJid]
    exact (h m.chatJid).replaceFirst hy (by rw [← ho]; exact startUnread_chatJid m) hfit
  exact (findId_committed hok (tempId_ne r)).elim (fun hc => hc.trans hfind) fun hc => hc

/-- The step is safe for a send: while its bubble waits it leaves the bubble in its list or is its echo, and what
brings the message leaves it recorded. -/
def RunSafe (jid : Jid) (r : String) (realId : MsgId) (w : World) (e : Step) : Prop :=
  match (w.slot ⟨jid, tempId r⟩).resident with
  | some x => SparesBubble realId w x e ∧ ArrivesSafe ⟨jid, realId⟩ w e
  | none => SendSafe jid r realId w e

instance (k : Key) (w : World) (e : Step) : Decidable (KeepsRecord k w e) := by
  unfold KeepsRecord
  infer_instance

instance (jid : Jid) (r : String) (realId : MsgId) (w : World) (e : Step) : Decidable (RunSafe jid r realId w e) := by
  unfold RunSafe
  cases (w.slot ⟨jid, tempId r⟩).resident <;> infer_instance

/-- **One safe step** before the confirm: the send still waits, or its echo has recorded it. -/
theorem waiting_step (hid : realId ≠ "") (htmp : isTmp realId = false) (h : Sound w)
    (hw : Waiting jid r realId w ∨ Sent jid r realId w) (hs : RunSafe jid r realId w e) :
    Sound (w.step e) ∧ (Waiting jid r realId (w.step e) ∨ Sent jid r realId (w.step e)) := by
  rcases hw with ⟨hcan, ⟨x, hx, hkind⟩, hreal⟩ | hsent
  · rw [RunSafe, hx] at hs
    obtain ⟨hspare, hs⟩ := hs
    refine ⟨sound_step h hs.ordinary, ?_⟩
    have hm : ∀ c ∈ e.merge w, c.1 ≠ jid := fun c hc => by
      cases e <;> first | exact hs.1.2 c hc | cases hc
    have hcan' : canonicalJid (w.step e) jid = jid := by
      rw [canonicalJid_step (by rintro rfl; exact hs)]
      split
      · rename_i l p hlp
        rw [if_neg fun hl => hm (l, p) hlp hl.1, hcan]
      · exact hcan
    have htemp : x.msg.id = tempId r := findId_id hx
    by_cases hecho : ∃ m ∈ e.delivers, Takes w x.msg.id m
    · -- the echo came first
      obtain ⟨m, hd, ht⟩ := hecho
      obtain ⟨hk, hp⟩ := hspare.2.1 m hd ht
      have hjid : x.msg.chatJid = jid := (h.wf jid).chat x (findId_mem hx)
      obtain ⟨rfl, rfl⟩ : m.chatJid = jid ∧ m.id = realId := by
        rw [hjid] at hk
        exact ⟨congrArg Key.chatJid hk, congrArg Key.id hk⟩
      have hstep : w.step e = addMessage w m := by cases e <;> cases hd <;> rfl
      have hne : m.id ≠ tempId r := fun hi => by rw [hi, isTmp_tempId] at htmp; cases htmp
      have hgone := echoed_bubble h.wf hid hne (blank_of_persistable hp) (htemp ▸ ht)
      rw [hstep] at hcan' ⊢
      refine .inr ⟨?_, hgone, by rwa [hcan']⟩
      rw [hcan']
      exact known_arrival hp (ht.2.1 hid) ((addMessage_spec h.wf m).2 hid)
    · exact .inl ⟨hcan', spared_step h hx hkind hs.ordinary hm hspare fun m hm ht => hecho ⟨m, hm, ht⟩,
        arrived_step h hid htmp hreal hs⟩
  · rw [RunSafe, hsent.bubble] at hs
    exact (sent_step hid htmp ⟨h, hsent⟩ hs).imp_right .inr

/-- **An accepted send is recorded exactly once**: from its confirm on there is a record of
the message under the canonical key of its chat and no bubble, and once everything is
flushed the store holds exactly one row of it there. -/
theorem confirmed_send_recorded (w : World) (hr : Reachable w) (hses : w.SameSession) (jid : Jid)
    (hj : jid ≠ "") (r : String) (realId : MsgId) (hid : realId ≠ "") (htmp : isTmp realId = false)
    (hw : Waiting jid r realId w) (pre post : List Step) (hpre : Along World.step (RunSafe jid r realId) w pre)
    (hpost : Along World.step (RunSafe jid r realId) ((w.run pre).step (.confirmOptimistic jid r realId)) post) :
    let v := w.run (pre ++ .confirmOptimistic jid r realId :: post)
    (v.eff ⟨canonicalJid v jid, realId⟩).isSome = true ∧
      (∀ c ∈ [jid, canonicalJid v jid], ∀ o ∈ messagesFor v c, o.msg.id ≠ tempId r) ∧
      (v.txq = [] → v.q.pending.rows = [] →
        ∃! m, m ∈ v.msgs.rows ∧ m.key = ⟨canonicalJid v jid, realId⟩) := by
  intro v
  have h0 := (inv_of_reachable hr).sound hses
  obtain ⟨h1, hw1⟩ : Sound (w.run pre) ∧ (Waiting jid r realId (w.run pre) ∨ Sent jid r realId (w.run pre)) :=
    Along.inv (I := fun w => Sound w ∧ (Waiting jid r realId w ∨ Sent jid r realId w))
      (fun w e h hs => waiting_step hid htmp h.1 h.2 hs) ⟨h0, .inl hw⟩ hpre
  have hsent : Sound v ∧ Sent jid r realId v := by
    have hv : v = ((w.run pre).step (.confirmOptimistic jid r realId)).run post := run_append
    rw [hv]
    refine Along.inv (I := fun w => Sound w ∧ Sent jid r realId w) (fun w e h hs => ?_)
      ⟨sound_step h1 rfl, sent_confirmOptimistic h1.wf hid htmp hj hw1⟩ hpost
    rw [RunSafe, h.2.bubble] at hs
    exact sent_step hid htmp h hs
  obtain ⟨-, hsent⟩ := hsent
  refine ⟨hsent.record, ?_, fun ht hp => ?_⟩
  · intro c hc o ho
    simp only [List.mem_cons, List.not_mem_nil, or_false] at hc
    rcases hc with rfl | rfl
    · exact findId_eq_none.1 hsent.bubble o ho
    · exact findId_eq_none.1 hsent.canonical o ho
  · have hrec := hsent.record
    rw [eff_of_idle ht, World.persisted, opsEff, Table.get_eq_none.2 (by simp [hp]), Option.elim,
      Table.get_isSome] at hrec
    obtain ⟨m, hm, hk⟩ := hrec
    refine ⟨m, ⟨hm, hk⟩, fun n hn => ?_⟩
    have hg : v.msgs.get (UiMessage.key m) = some m := Table.get_of_mem hm
    rw [hk, ← hn.2, Table.get_of_mem hn.1] at hg
    exact Option.some.inj hg

/-- An incoming message with the same text and a second send come before the confirm and the chat is closed, the
echo comes after it, then everything is flushed. -/
theorem confirmed_send_recorded_echoed :
    ∃! m, m ∈ (((World.init.run [.addOptimistic chatA "r" 5 "hi" none]).run ([.addMessage { msgX with id := "P" },
      .openNext, .advance, .addOptimistic chatA "s" 6 "ho" none, .closeChat chatA] ++
      .confirmOptimistic chatA "r" "R" :: [.addMessage { msgX with id := "R", fromMe := true }, .flushPendingWrites, .openNext, .advance, .openNext,
        .advance, .openNext, .advance])).msgs.rows) ∧ m.key = ⟨chatA, "R"⟩ :=
  (confirmed_send_recorded (World.init.run [.addOptimistic chatA "r" 5 "hi" none]) ⟨_, rfl⟩
    (by decide +kernel) chatA (by decide) "r" "R" (by decide) (by decide)
    ⟨by decide +kernel, by decide +kernel, by decide +kernel⟩ _ _ (by decide +kernel)
    (by decide +kernel)).2.2 (by decide +kernel) (by decide +kernel)

/-- An own message from the phone, with the same text, takes the bubble of the send; the
confirm then finds none and returns. -/
theorem confirm_finds_no_bubble :
    ¬ ∀ (w : World) (jid : Jid) (r : String) (realId : MsgId) (echo : UiMessage) (now : ℤ)
      (text : String), Reachable w → w.SameSession → realId ≠ "" → isTmp realId = false →
      echo.chatJid = jid → echo.fromMe = true → echo.id ≠ realId →
      let v := w.run [.addOptimistic jid r now text none, .addMessage echo,
        .confirmOptimistic jid r realId]
      (v.eff ⟨canonicalJid v jid, realId⟩).isSome = true := by
  intro hall
  have h := hall World.init chatA "r" "R" { msgX with id := "P", fromMe := true } 5 "hi" ⟨[], rfl⟩
    (by decide) (by decide) (by decide) rfl rfl (by decide)
  revert h
  decide +kernel

end Whatsvelte
