import Whatsvelte.Proof.Deliver

/-!
# Updates of one message

`confirmOptimistic`, `restoreMessage`, `removeMessage` and the four updates (revoke,
edit, reaction, receipt). An update has one specification, `Updated`: the resident copy
is rewritten on both sides, or, when there is none, the effective copy is patched,
either in the write queue or by a transaction that is now outstanding.
-/

namespace Whatsvelte

open List Table

variable {w v u : World} {k : Key} {jid : Jid} {id : MsgId} {o x : Obj} {fn : Patch}
  {after : AfterPatch}

theorem Slot.Calm.of_none {P : Prop} {s s' : Slot} (h : Slot.Calm P s s') (hn : s.resident = none) :
    s' = s := by
  rcases h with ⟨h1, h2⟩ | ⟨-, x, _, _, hx, _⟩
  · refine Slot.ext ?_ h1
    rcases h2 with h2 | h2
    · exact h2
    · rw [h2, hn]
  · rw [hn] at hx; cases hx

/-! ## Sends -/

theorem isTmp_tempId (r : String) : isTmp (tempId r) = true := by
  unfold isTmp tempId
  rw [String.toList_append, isPrefixOf_iff_prefix]
  exact prefix_append _ _

/-- The status that a confirm gives: that of an early receipt, if it is more than `sent`. -/
def earlyStatus (w : World) (realId : MsgId) : MessageStatus :=
  ((w.earlyReceipts.get realId).map (·.2)).elim .sent fun s =>
    if s.rank > MessageStatus.sent.rank then s else .sent

theorem earlyStatus_ne_sending (w : World) (realId : MsgId) : earlyStatus w realId ≠ .sending := by
  unfold earlyStatus
  cases (w.earlyReceipts.get realId).map (·.2) with
  | none => simp
  | some s => cases s <;> decide

/-- The bubble `x` under its real id. -/
def confirmed (w : World) (x : Obj) (realId : MsgId) : Obj :=
  ⟨w.nextRef, { x.msg with id := realId, status := some (earlyStatus w realId) }⟩

/-- The state after `x` has got its real id. -/
def confirmWith (w : World) (jid : Jid) (tempId realId : MsgId) (x : Obj) : World :=
  commit { w with
    earlyReceipts := w.earlyReceipts.erase realId
    q := persistMessage w.q (confirmed w x realId)
    nextRef := w.nextRef + 1 } jid (replaceId (messagesFor w jid) tempId (confirmed w x realId))

/-- A confirm finds no bubble, or drops it since the message is there, or gives it its id. -/
theorem confirmOptimistic_cases (w : World) (jid : Jid) (tempId realId : MsgId) :
    (findId (messagesFor w jid) tempId = none ∧ confirmOptimistic w jid tempId realId = w) ∨
    ∃ x, findId (messagesFor w jid) tempId = some x ∧
      ((findId (messagesFor w jid) realId).isSome = true ∧ confirmOptimistic w jid tempId realId =
          commit w jid ((messagesFor w jid).eraseP (fun o => o.msg.id = tempId)) ∨
        findId (messagesFor w jid) realId = none ∧
          confirmOptimistic w jid tempId realId = confirmWith w jid tempId realId x) := by
  unfold confirmOptimistic
  split
  · rename_i hb
    exact .inl ⟨by simp [messagesFor, hb, findId], rfl⟩
  · rename_i arr hb
    have harr := messagesFor_of_some hb
    subst harr
    split
    · rename_i hx
      exact .inl ⟨hx, rfl⟩
    · rename_i x hx
      refine .inr ⟨x, hx, ?_⟩
      split
      · rename_i hreal
        rw [hasId_eq] at hreal
        exact .inl ⟨hreal, rfl⟩
      · rename_i hreal
        rw [hasId_eq] at hreal
        exact .inr ⟨by simpa using hreal, rfl⟩

/-- **A confirm** drops the bubble, or gives it its real id and writes it. -/
theorem confirmOptimistic_spec (h : w.Wf) (jid : Jid) (tempId realId : MsgId) :
    Touches ⟨jid, realId⟩ w (confirmOptimistic w jid tempId realId) ∧
      (realId ≠ "" →
        Slot.Keeps (w.slot ⟨jid, realId⟩)
            ((confirmOptimistic w jid tempId realId).slot ⟨jid, realId⟩) ∧
          (findId (messagesFor w jid) tempId = none ∨
            (w.slot ⟨jid, realId⟩).resident.isSome = true) ∨
        ∃ x, findId (messagesFor w jid) tempId = some x ∧ (w.slot ⟨jid, realId⟩).resident = none ∧
          Slot.Writes (confirmed w x realId) (w.slot ⟨jid, realId⟩)
            ((confirmOptimistic w jid tempId realId).slot ⟨jid, realId⟩)) := by
  rcases confirmOptimistic_cases w jid tempId realId with ⟨hx, hv⟩ | ⟨x, hx, ⟨hreal, hv⟩ | ⟨hn, hv⟩⟩
  · rw [hv]
    exact ⟨.refl h, fun _ => .inl ⟨.refl _, .inl hx⟩⟩
  · -- the echo came first: the bubble only goes
    rw [hv]
    have hp : Publishes w (commit w jid ((messagesFor w jid).eraseP (fun o => o.msg.id = tempId)))
        jid ((messagesFor w jid).eraseP (fun o => o.msg.id = tempId)) := publishes_commit rfl
    have hok := (h jid).sublist (eraseP_sublist (p := fun o => o.msg.id = tempId))
    have hkeeps : ∀ k : Key, k.id ≠ "" → Slot.Keeps (w.slot k) ((commit w jid
        ((messagesFor w jid).eraseP (fun o => o.msg.id = tempId))).slot k) := fun k hid =>
      hp.keeps hok hid rfl fun _ => findId_sublist (h jid) hid eraseP_sublist
    exact ⟨⟨.of_same, hp.wf h hok, fun k hid _ => hkeeps k hid⟩, fun hid => .inl ⟨hkeeps _ hid, .inr hreal⟩⟩
  · rw [hv]
    have hc : (confirmed w x realId).msg.chatJid = jid := (h jid).chat x (findId_mem hx)
    have hk : (confirmed w x realId).key = ⟨jid, realId⟩ := by rw [Obj.key, UiMessage.key, hc]; rfl
    obtain ⟨ht, hw⟩ := echo_spec
      (v := confirmWith w jid tempId realId x) h hc
      (any_eq_true.2 ⟨x, findId_mem hx, by simpa using findId_id hx⟩) (.inr hn) rfl rfl
      (.of_same) (publishes_commit rfl)
    rw [hk] at ht hw
    exact ⟨ht, fun hid => .inr ⟨x, hx, hn, hw hid⟩⟩

theorem failOptimistic_spec (h : w.Wf) (jid : Jid) (tempId : MsgId) :
    Touches ⟨jid, tempId⟩ w (failOptimistic w jid tempId) := by
  unfold failOptimistic
  split
  · exact .refl h
  · rename_i arr harr
    have harr := messagesFor_of_some harr
    subst harr
    split
    · exact .refl h
    · rename_i x hx
      let o : Obj := ⟨w.nextRef, { x.msg with status := some .failed }⟩
      have hk : o.key = ⟨jid, tempId⟩ := key_of_find (x := x) h hx
      have hi : o.msg.id = tempId := findId_id (o := x) hx
      have hc : o.msg.chatJid = jid := (h jid).chat x (findId_mem hx)
      obtain ⟨hwf, hslot⟩ := replace_one (v := { w with nextRef := w.nextRef + 1 }.setList jid
          (replaceId (messagesFor w jid) tempId o)) h (by rwa [hi]) hc
        (by rw [hi]; exact publishes_setList rfl (.refl _))
      exact ⟨.of_same, hwf, fun k hid hne =>
        (hslot k hid).1 (hk ▸ hne) rfl⟩

/-- **Putting a message back** writes it on both sides. -/
theorem restoreMessage_spec (h : w.Wf) (o : Obj) :
    Touches o.key w (restoreMessage w o) ∧
      (o.msg.id ≠ "" → Slot.Writes o (w.slot o.key) ((restoreMessage w o).slot o.key)) := by
  unfold restoreMessage
  dsimp only
  split
  · rename_i hid
    rw [hasId_eq] at hid
    obtain ⟨x, hx⟩ := Option.isSome_iff_exists.1 hid
    exact write_one h hx rfl .of_same rfl rfl (publishes_setList rfl (.refl _)) fun hw => hw
  · rename_i hn
    have hn : findId (messagesFor w o.msg.chatJid) o.msg.id = none := by simpa [hasId_eq] using hn
    exact append_spec h (.inr hn) .of_same rfl rfl (publishes_commit rfl)

theorem messagesFor_removeMessage (w : World) (jid : Jid) (id : MsgId) (j : Jid) :
    messagesFor (removeMessage w jid id) j = if j = jid then
      (messagesFor w jid).filter (fun o => o.msg.id ≠ id) else messagesFor w j := by
  refine (messagesFor_update w.byChat _).trans ?_
  cases hb : w.byChat jid <;> simp [messagesFor, hb]

/-- **Removing a message** leaves neither copy. -/
theorem removeMessage_spec (h : w.Wf) (jid : Jid) (id : MsgId) :
    Touches ⟨jid, id⟩ w (removeMessage w jid id) ∧
      (id ≠ "" → (removeMessage w jid id).slot ⟨jid, id⟩ = ⟨none, none⟩) := by
  have hl := messagesFor_removeMessage w jid id
  have hp : Publishes w (removeMessage w jid id) jid (messagesFor w jid) :=
    ⟨_, _, .refl _, filter_sublist, hl⟩
  refine ⟨⟨.of_same, hp.wf h (h jid), fun k hid hne => ?_⟩,
    fun hid => Slot.ext ?_ ?_⟩
  · exact hp.keeps (h jid) hid (eff_congr (get_persistMessageDelete_of_ne hne) rfl) fun _ => .inl rfl
  · change findId (messagesFor _ jid) id = none
    rw [hl, if_pos rfl, findId_eq_none]
    intro o ho
    simpa using (mem_filter.1 ho).2
  · change (removeMessage w jid id).eff ⟨jid, id⟩ = none
    rw [eff_apply]
    change ((persistMessageDelete w.q jid id).pending.get ⟨jid, id⟩).elim _ _ = none
    rw [persistMessageDelete, if_neg hid, scheduleFlushMessages_pending, get_set]
    exact congrArg (fun p : Option PendingOp => p.elim _ _) (if_pos rfl)

/-! ## Patching a message that is not resident -/

/-- The effective copy after a patch. -/
def patchedEff (fn : Patch) (r : Option UiMessage) : Option UiMessage := (r.bind fn.apply).or r

theorem opsEff_patchEff (p : Option PendingOp) (r : Option UiMessage)
    (hp : p = none ∨ ∃ m, p = some (.add m)) :
    p.elim (patchEff (p.bind fun | .add m => some m | _ => none) fn r)
      (·.eff (patchEff (p.bind fun | .add m => some m | _ => none) fn r)) =
      patchedEff fn (p.elim r (·.eff r)) := by
  rcases hp with rfl | ⟨m, rfl⟩
  · simp [patchEff, patchedEff]
  · simp only [Option.bind_some, Option.elim_some, PendingOp.eff, patchEff, patchedEff,
      Option.map_some, toRecord_self]
    cases r with
    | none => cases fn.apply m.msg <;> simp
    | some r => cases fn.apply r <;> simp

/-- What `patchPersistedMessage` does: the copy is patched in the queue, there is none, or
the patch is now outstanding. -/
theorem patchPersistedMessage_spec (h : w.Wf) (k : Key) (fn : Patch) (after : AfterPatch) :
    Touches k w (patchPersistedMessage w k fn after).1 ∧
      ((patchPersistedMessage w k fn after).1.slot k).resident = (w.slot k).resident ∧
      (patchPersistedMessage w k fn after).1.eff k = patchedEff fn (w.eff k) ∧
      match (patchPersistedMessage w k fn after).2 with
      | some true => (w.eff k).isSome ∧ (patchPersistedMessage w k fn after).1.jobs = w.jobs
      | some false => w.eff k = none ∧ (patchPersistedMessage w k fn after).1 = w
      | none => ∃ queued, (patchPersistedMessage w k fn after).1.jobs =
          w.jobs ++ [.patch w.epoch k queued fn after] ∧
          (w.eff k = none → queued = none ∧ w.base k = none) := by
  unfold patchPersistedMessage
  cases hp : w.q.pending.get k with
  | none =>
    have he : ∀ k', (w.enqueue (.patch w.epoch k none fn after)).base k' =
        if k' = k then patchEff none fn (w.base k) else w.base k' := by
      intro k'; rw [base_enqueue]; exact Function.update_apply _ _ _ _
    refine ⟨⟨.enqueue _ (by simp [Job.stale]) rfl, h, fun k' _ hne => ⟨?_, .inl rfl⟩⟩, rfl, ?_,
      none, jobs_enqueue _ _, fun heff => ⟨rfl, ?_⟩⟩
    · exact eff_congr rfl (by rw [he, if_neg (Ne.symm hne)])
    · rw [eff_apply, eff_apply, he, if_pos rfl]
      change (w.q.pending.get k).elim _ _ = _
      rw [hp]; exact opsEff_patchEff none _ (.inl rfl)
    · rwa [eff_apply, hp] at heff
  | some op =>
    cases op with
    | put m =>
      have hmk : m.msg.key = k := get_put_key hp
      have heff : w.eff k = some m.msg := by rw [eff_apply, hp]; rfl
      dsimp only
      cases ha : fn.apply m.msg with
      | none =>
        refine ⟨.refl h, rfl, ?_, by rw [heff]; rfl, rfl⟩
        rw [heff]; simp [patchedEff, ha]
      | some next =>
        have hnk : next.key = k := (Patch.apply_key ha).1.trans hmk
        have hget : ∀ k', (w.q.pending.set (.put ⟨w.nextRef, next⟩)).get k' =
            if k = k' then some (.put ⟨w.nextRef, next⟩) else w.q.pending.get k' := by
          intro k'; rw [get_set]; rw [← hnk]; rfl
        refine ⟨⟨.of_same, h, fun k' _ hne => ⟨?_, .inl rfl⟩⟩, rfl,
          ?_, by rw [heff]; rfl, rfl⟩
        · exact eff_congr ((hget k').trans (if_neg hne)) rfl
        · rw [heff, eff_apply]
          rw [hget, if_pos rfl]
          simp [patchedEff, ha, PendingOp.eff]
    | del =>
      have heff : w.eff k = none := by rw [eff_apply, hp]; rfl
      exact ⟨.refl h, rfl, by rw [heff]; rfl, heff, rfl⟩
    | add m =>
      have hmk : (Job.patch w.epoch k (some m) fn after).proper = true := by
        have : m.key = k := get_op_key hp
        simp [Job.proper, this]
      have he : ∀ k', (w.enqueue (.patch w.epoch k (some m) fn after)).base k' =
          if k' = k then patchEff (some m) fn (w.base k) else w.base k' := by
        intro k'; rw [base_enqueue]; exact Function.update_apply _ _ _ _
      refine ⟨⟨.enqueue _ (by simp [Job.stale]) hmk, h, fun k' _ hne => ⟨?_, .inl rfl⟩⟩, rfl, ?_,
        some m, jobs_enqueue _ _, fun heff => ?_⟩
      · exact eff_congr rfl (by rw [he, if_neg (Ne.symm hne)])
      · rw [eff_apply, eff_apply, he, if_pos rfl]
        change (w.q.pending.get k).elim _ _ = _
        rw [hp]; exact opsEff_patchEff (some (.add m)) _ (.inr ⟨m, rfl⟩)
      · rw [eff_apply, hp] at heff
        simp [PendingOp.eff] at heff

/-- **A tombstone** goes where nothing is resident. -/
theorem insertTombstone_spec (h : w.Wf) (k : Key) (f : Fallback) :
    Touches k w (insertTombstone w k f) ∧ (insertTombstone w k f).jobs = w.jobs ∧
      (k.id ≠ "" →
        ((w.slot k).resident.isSome ∧ (insertTombstone w k f).slot k = w.slot k) ∨
        ((w.slot k).resident = none ∧ ∃ o : Obj, o.msg = tombstone k f ∧
          Slot.Writes o (w.slot k) ((insertTombstone w k f).slot k))) := by
  unfold insertTombstone
  dsimp only
  split
  · rename_i hid
    have hs := Same.setList w k.chatJid
    refine ⟨hs.touches h, hs.jobs, fun _ => .inl ⟨?_, hs.slot k⟩⟩
    rwa [hasId_eq] at hid
  · rename_i hid
    let o : Obj := ⟨w.nextRef, tombstone k f⟩
    have hn : findId (messagesFor w k.chatJid) k.id = none := by simpa [hasId_eq] using hid
    obtain ⟨ht, hw⟩ := append_spec (o := o) (v := commit { w with
        q := persistMessage w.q o, nextRef := w.nextRef + 1 } k.chatJid (messagesFor w k.chatJid ++ [o]))
      h (.inr hn) .of_same rfl rfl (publishes_commit rfl)
    exact ⟨ht, rfl, fun hid => .inr ⟨hn, o, rfl, hw hid⟩⟩

theorem rememberEarlyReceipt_eq (w : World) (id : MsgId) (status : MessageStatus) :
    ∃ t, rememberEarlyReceipt w id status = { w with earlyReceipts := t } := by
  unfold rememberEarlyReceipt
  repeat' split
  all_goals exact ⟨_, rfl⟩

/-- A receipt that is remembered changes nothing else. -/
theorem afterPatch_early (w : World) (k : Key) (found : Bool) (status : MessageStatus) :
    ∃ t, afterPatch w k found (.early status) = { w with earlyReceipts := t } := by
  rw [afterPatch]
  split
  · exact ⟨_, rfl⟩
  · exact rememberEarlyReceipt_eq w k.id status

theorem Same.rememberEarlyReceipt (w : World) (id : MsgId) (status : MessageStatus) :
    Same w (rememberEarlyReceipt w id status) := by
  obtain ⟨t, he⟩ := rememberEarlyReceipt_eq w id status
  rw [he]
  exact ⟨fun _ => rfl, rfl, rfl, rfl, rfl, rfl, rfl, rfl, rfl⟩

/-- **The continuation of a patch** matters for a revoke that found nothing. -/
theorem afterPatch_spec (h : w.Wf) (k : Key) (found : Bool) (after : AfterPatch) :
    Touches k w (afterPatch w k found after) ∧ (afterPatch w k found after).jobs = w.jobs ∧
      (k.id ≠ "" → (afterPatch w k found after).slot k = w.slot k ∨
        (w.slot k).resident = none ∧ found = false ∧ ∃ (f : Fallback) (o : Obj),
          after = .tombstone (some f) ∧ o.msg = tombstone k f ∧
          Slot.Writes o (w.slot k) ((afterPatch w k found after).slot k)) := by
  unfold afterPatch
  split
  · exact ⟨.refl h, rfl, fun _ => .inl rfl⟩
  · exact ⟨.refl h, rfl, fun _ => .inl rfl⟩
  · rename_i f
    split
    · exact ⟨.refl h, rfl, fun _ => .inl rfl⟩
    · rename_i hf
      obtain ⟨ht, hj, hs⟩ := insertTombstone_spec h k f
      refine ⟨ht, hj, fun hid => ?_⟩
      rcases hs hid with ⟨-, hs⟩ | ⟨hn, o, ho, hw⟩
      · exact .inl hs
      · exact .inr ⟨hn, by simpa using hf, f, o, rfl, ho, hw⟩
  · rename_i status
    split
    · exact ⟨.refl h, rfl, fun _ => .inl rfl⟩
    · have hs := Same.rememberEarlyReceipt w k.id status
      exact ⟨hs.touches h, hs.jobs, fun _ => .inl (hs.slot k)⟩

/-- What an update does to the slot of its message. -/
inductive Updated (fn : Patch) (fallback : Option Fallback) (k : Key) (w v : World) : Prop
  /-- The resident copy is rewritten on both sides. -/
  | resident (x o : Obj) (hx : (w.slot k).resident = some x) (ho : fn.apply x.msg = some o.msg)
      (hw : Slot.Writes o (w.slot k) (v.slot k))
  /-- The resident copy needs no change. -/
  | unchanged (x : Obj) (hx : (w.slot k).resident = some x) (ho : fn.apply x.msg = none)
      (hk : Slot.Keeps (w.slot k) (v.slot k))
  /-- Nothing is resident and the effective copy is patched. -/
  | stored (hx : (w.slot k).resident = none)
      (hs : v.slot k = ⟨none, patchedEff fn (w.eff k)⟩)
  /-- A revoke finds a queued delete and inserts a tombstone. -/
  | tombstone (f : Fallback) (o : Obj) (hx : (w.slot k).resident = none) (he : w.eff k = none)
      (hf : fallback = some f) (ho : o.msg = tombstone k f)
      (hw : Slot.Writes o (w.slot k) (v.slot k))

/-- The fallback data that a patch carries. -/
def AfterPatch.fallback : AfterPatch → Option Fallback
  | .tombstone f => f
  | _ => none

theorem patchThen_spec (h : w.Wf) (hid : k.id ≠ "") (hx : (w.slot k).resident = none) (fn : Patch)
    (after : AfterPatch) : Updated fn after.fallback k w (patchThen w k fn after) := by
  obtain ⟨ht, hres, heff, hans⟩ := patchPersistedMessage_spec h k fn after
  unfold patchThen
  generalize patchPersistedMessage w k fn after = r at *
  obtain ⟨w₁, ans⟩ := r
  have hslot : w₁.slot k = ⟨none, patchedEff fn (w.eff k)⟩ := Slot.ext (hres.trans hx) heff
  cases ans with
  | none => exact .stored hx hslot
  | some found =>
    obtain ⟨-, -, hs⟩ := afterPatch_spec ht.wf k found after
    rcases hs hid with hs | ⟨hn, rfl, f, o, hf, ho, hw⟩
    · exact .stored hx (hs.trans hslot)
    · obtain ⟨he, rfl⟩ := hans
      exact .tombstone f o hn he (by rw [hf]; rfl) ho hw

/-- A patch of another message of the chat. -/
theorem patchThen_touches (h : w.Wf) (k : Key) (fn : Patch) (after : AfterPatch) :
    Touches k w (patchThen w k fn after) := by
  obtain ⟨ht, -, -, -⟩ := patchPersistedMessage_spec h k fn after
  unfold patchThen
  split
  · rename_i w₁ found he
    rw [he] at ht
    exact ht.trans (afterPatch_spec ht.wf k found after).1
  · rename_i w₁ he
    rwa [he] at ht

theorem byChat_of_find (hx : findId (messagesFor w jid) id = some x) :
    w.byChat jid = some (messagesFor w jid) := by
  cases hb : w.byChat jid with
  | none => rw [messagesFor, hb] at hx; cases hx
  | some => rw [messagesFor_of_some hb]

/-- **A revoke.** -/
theorem applyRevoke_spec (h : w.Wf) (jid : Jid) (id : MsgId) (fallback : Option Fallback) :
    Touches ⟨jid, id⟩ w (applyRevoke w jid id fallback) ∧
      (id ≠ "" → Updated .revoke fallback ⟨jid, id⟩ w (applyRevoke w jid id fallback)) := by
  unfold applyRevoke
  cases hx : findId (messagesFor w jid) id with
  | none =>
    exact ⟨patchThen_touches h _ _ _, fun hid =>
      patchThen_spec (k := ⟨jid, id⟩) h hid hx .revoke (.tombstone fallback)⟩
  | some x =>
    rw [byChat_of_find hx]
    let o : Obj := ⟨w.nextRef, { x.msg with
      deleted := true, text := none, thumbnail := none, reactions := none }⟩
    exact write_one (o := o) h hx (key_of_find (x := x) h hx) .of_same rfl rfl (publishes_commit rfl)
      (.resident x o hx rfl)

/-- **An edit or a reaction.** -/
theorem updateMessage_spec (h : w.Wf) (jid : Jid) (id : MsgId) (fn : Patch) :
    Touches ⟨jid, id⟩ w (updateMessage w jid id fn) ∧
      (id ≠ "" → Updated fn none ⟨jid, id⟩ w (updateMessage w jid id fn)) := by
  unfold updateMessage
  cases hx : findId (messagesFor w jid) id with
  | none =>
    exact ⟨patchThen_touches h _ _ _, fun hid =>
      patchThen_spec (k := ⟨jid, id⟩) h hid hx fn .ignore⟩
  | some x =>
    rw [byChat_of_find hx]
    dsimp only
    cases ha : fn.apply x.msg with
    | none => exact ⟨.refl h, fun _ => .unchanged x hx ha (.refl _)⟩
    | some m =>
      let o : Obj := ⟨w.nextRef, m⟩
      have hk : o.key = ⟨jid, id⟩ := (Patch.apply_key ha).1.trans (key_of_find h hx)
      exact write_one (o := o) h hx hk .of_same rfl rfl (publishes_setList rfl (.refl _))
        (.resident x o hx ha)

/-! ## Receipts -/

theorem idSet_foldl (ids : List MsgId) : ∀ s : List MsgId, s.Nodup →
    (ids.foldl (fun s id => if id ∈ s then s else s ++ [id]) s).Nodup ∧
      ∀ id, id ∈ ids.foldl (fun s id => if id ∈ s then s else s ++ [id]) s ↔ id ∈ s ∨ id ∈ ids := by
  induction ids with
  | nil => intro s hs; simp [hs]
  | cons a ids ih =>
    intro s hs
    simp only [foldl_cons]
    split
    · rename_i ha
      obtain ⟨h1, h2⟩ := ih s hs
      refine ⟨h1, fun id => ?_⟩
      rw [h2, mem_cons]
      constructor
      · rintro (h | h)
        · exact .inl h
        · exact .inr (.inr h)
      · rintro (h | rfl | h)
        · exact .inl h
        · exact .inl ha
        · exact .inr h
    · rename_i ha
      obtain ⟨h1, h2⟩ := ih (s ++ [a]) (nodup_append.2 ⟨hs, by simp, by
        rintro x hx y hy rfl; rw [mem_singleton.1 hy] at hx; exact ha hx⟩)
      refine ⟨h1, fun id => ?_⟩
      rw [h2, mem_append, mem_singleton, mem_cons, or_assoc]

theorem nodup_idSet (ids : List MsgId) : (idSet ids).Nodup := (idSet_foldl ids [] nodup_nil).1

theorem mem_idSet {ids : List MsgId} : id ∈ idSet ids ↔ id ∈ ids := by
  exact ((idSet_foldl ids [] nodup_nil).2 id).trans (by simp)

/-- The ids that the loop of `applyReceipt` leaves are the ones that are not resident. -/
theorem missing_of_sweep (status : MessageStatus) (arr : List Obj) :
    ∀ (missing : List MsgId) (ref : ℕ), missing.Nodup →
      (sweep (upgrade status) missing ref arr).state.Nodup ∧
      ∀ id, id ∈ (sweep (upgrade status) missing ref arr).state ↔
        id ∈ missing ∧ findId arr id = none := by
  induction arr with
  | nil => intro missing ref hn; exact ⟨hn, fun id => by simp [sweep, findId]⟩
  | cons x arr ih =>
    intro missing ref hn
    -- both branches of the loop go on with the same ids
    have hstate : ∀ ref, ∃ ref', (sweep (upgrade status) missing ref (x :: arr)).state =
        (sweep (upgrade status) (upgrade status missing x.msg).1 ref' arr).state := by
      intro ref
      simp only [sweep]
      split
      · rename_i h; exact ⟨ref + 1, by rw [h]⟩
      · rename_i h; exact ⟨ref, by rw [h]⟩
    obtain ⟨ref', hs⟩ := hstate ref
    rw [hs]
    have hup : (upgrade status missing x.msg).1 =
        if x.msg.id ∈ missing then missing.erase x.msg.id else missing := by
      unfold upgrade; split <;> rfl
    rw [hup]
    split
    · obtain ⟨h1, h2⟩ := ih (missing.erase x.msg.id) ref' (hn.erase _)
      refine ⟨h1, fun id => ?_⟩
      rw [h2, hn.mem_erase_iff, findId_cons]
      by_cases hid : x.msg.id = id
      · simp [hid]
      · simp [hid, Ne.symm hid]
    · rename_i hm
      obtain ⟨h1, h2⟩ := ih missing ref' hn
      refine ⟨h1, fun id => ?_⟩
      rw [h2, findId_cons]
      by_cases hid : x.msg.id = id
      · simp [← hid, hm]
      · simp [hid]

/-- The loop of `applyReceipt` upgrades every resident message that the receipt names. -/
theorem upgraded_of_sweep (id : MsgId) (x : Obj) (status : MessageStatus) (arr : List Obj) :
    ∀ (missing : List MsgId) (ref : ℕ), id ∈ missing → findId arr id = some x →
      ((Patch.receipt status).apply x.msg).isSome →
      ∃ o ∈ (sweep (upgrade status) missing ref arr).written, o.msg.id = id := by
  induction arr with
  | nil => intro missing ref _ hx; cases hx
  | cons y arr ih =>
    intro missing ref hm hx ha
    rw [findId_cons] at hx
    simp only [sweep]
    by_cases hy : y.msg.id = id
    · rw [if_pos hy] at hx
      cases hx
      obtain ⟨m, hm'⟩ := Option.isSome_iff_exists.1 ha
      have hup : upgrade status missing x.msg = (missing.erase x.msg.id, some m) := by
        unfold upgrade; rw [if_pos (hy ▸ hm), hm']
      rw [hup]
      exact ⟨_, mem_cons_self, (congrArg Key.id (Patch.apply_key hm').1).trans hy⟩
    · rw [if_neg hy] at hx
      have hm' : id ∈ (upgrade status missing y.msg).1 := by
        unfold upgrade
        split
        · exact (mem_erase_of_ne (Ne.symm hy)).2 hm
        · exact hm
      split
      · rename_i s m he
        rw [he] at hm'
        obtain ⟨o, ho, hi⟩ := ih s (ref + 1) hm' hx ha
        exact ⟨o, mem_cons_of_mem _ ho, hi⟩
      · rename_i s he
        rw [he] at hm'
        exact ih s ref hm' hx ha

/-- The receipts of a chat leave the messages alone that they do not name. -/
theorem patchThen_fold (jid : Jid) (status : MessageStatus) :
    ∀ (ids : List MsgId) (w : World), w.Wf →
      let v := ids.foldl (fun w id => patchThen w ⟨jid, id⟩ (.receipt status) (.early status)) w
      Sync w v ∧ v.Wf ∧ ∀ k : Key, k.id ≠ "" → (k.chatJid = jid → k.id ∉ ids) →
        Slot.Keeps (w.slot k) (v.slot k) := by
  intro ids
  induction ids with
  | nil => exact fun w h => ⟨.refl w, h, fun _ _ _ => .refl _⟩
  | cons a ids ih =>
    intro w h
    have ht := patchThen_touches h ⟨jid, a⟩ (.receipt status) (.early status)
    obtain ⟨h1, h2, h3⟩ := ih _ ht.wf
    refine ⟨ht.sync.trans h1, h2, fun k hid hne => (ht.keeps k hid ?_).trans
      (h3 k hid fun hj hm => hne hj (mem_cons_of_mem _ hm))⟩
    rintro rfl
    exact hne rfl mem_cons_self

theorem Slot.Keeps.of_none {s s' : Slot} (h : Slot.Keeps s s') (hn : s.resident = none) : s' = s :=
  Slot.Calm.of_none (P := False) (.inl h) hn

theorem Updated.of_slot {f : Option Fallback} (hs : v.slot k = w.slot k) (h : Updated fn f k v u) :
    Updated fn f k w u := by
  have he : v.eff k = w.eff k := congrArg Slot.stored hs
  cases h with
  | resident x o hx ho hw => exact .resident x o (hs ▸ hx) ho (hs ▸ hw)
  | unchanged x hx ho hk => exact .unchanged x (hs ▸ hx) ho (hs ▸ hk)
  | stored hx hs' => exact .stored (hs ▸ hx) (he ▸ hs')
  | tombstone f o hx he' hf ho hw => exact .tombstone f o (hs ▸ hx) (he ▸ he') hf ho (hs ▸ hw)

theorem Updated.then_slot {f : Option Fallback} (h : Updated fn f k w v) (hs : u.slot k = v.slot k) :
    Updated fn f k w u := by
  cases h with
  | resident x o hx ho hw => exact .resident x o hx ho (hs ▸ hw)
  | unchanged x hx ho hk => exact .unchanged x hx ho (hs ▸ hk)
  | stored hx hs' => exact .stored hx (hs.trans hs')
  | tombstone g o hx he hf ho hw => exact .tombstone g o hx he hf ho (hs ▸ hw)

/-- The receipts of a chat, one of which is about `k`. -/
theorem patchThen_fold_updated (status : MessageStatus) (hid : k.id ≠ "") :
    ∀ (ids : List MsgId) (w : World), w.Wf → ids.Nodup → k.id ∈ ids → (w.slot k).resident = none →
      Updated (.receipt status) none k w
        (ids.foldl (fun w id => patchThen w ⟨k.chatJid, id⟩ (.receipt status) (.early status)) w) := by
  intro ids
  induction ids with
  | nil => intro w _ _ hm; simp at hm
  | cons a ids ih =>
    intro w h hn hm hx
    obtain ⟨hna, hn⟩ := nodup_cons.1 hn
    have ht := patchThen_touches h ⟨k.chatJid, a⟩ (.receipt status) (.early status)
    by_cases ha : a = k.id
    · subst ha
      have hu := patchThen_spec h hid hx (.receipt status) (.early status)
      have h3 := (patchThen_fold k.chatJid status ids _ ht.wf).2.2 k hid (fun _ => hna)
      cases hu with
      | resident x o hx' | unchanged x hx' => rw [hx] at hx'; cases hx'
      | stored _ hs =>
        have hn : ((patchThen w k (.receipt status) (.early status)).slot k).resident = none := by
          rw [hs]
        exact .stored hx ((h3.of_none hn).trans hs)
      | tombstone f o _ _ hf => cases hf
    · have hm : k.id ∈ ids := (mem_cons.1 hm).resolve_left (Ne.symm ha)
      have hs : (patchThen w ⟨k.chatJid, a⟩ (.receipt status) (.early status)).slot k = w.slot k :=
        (ht.keeps k hid (by rintro he; exact ha (congrArg Key.id he))).of_none hx
      exact (ih _ ht.wf hn hm (by rwa [hs])).of_slot hs

/-- One message that is not resident: its patch is started, or its queued operation answers. -/
theorem patchThen_early (w : World) (k : Key) (fn : Patch) (status : MessageStatus) :
    let v := patchThen w k fn (.early status)
    v.byChat = w.byChat ∧ v.msgs = w.msgs ∧ v.epoch = w.epoch ∧
      (∀ k', k ≠ k' → v.q.pending.get k' = w.q.pending.get k') ∧
      (v.jobs = w.jobs ∨ v.q.pending = w.q.pending ∧
        ∃ queued, v.jobs = w.jobs ++ [.patch w.epoch k queued fn (.early status)] ∧
          ∀ o, queued = some o → o.key = k ∧ w.q.pending.get k = some (.add o)) := by
  unfold patchThen patchPersistedMessage
  cases hp : w.q.pending.get k with
  | none =>
    exact ⟨rfl, rfl, rfl, fun _ _ => rfl,
      Or.inr ⟨rfl, none, jobs_enqueue _ _, fun o ho => absurd ho.symm (Option.some_ne_none o)⟩⟩
  | some op =>
    cases op with
    | add o =>
      have hkey : (PendingOp.add o).key = k := get_key hp
      refine ⟨rfl, rfl, rfl, fun _ _ => rfl, .inr ⟨rfl, some o, jobs_enqueue _ _, ?_⟩⟩
      intro o' ho
      obtain rfl := Option.some.inj ho
      exact ⟨hkey, rfl⟩
    | del =>
      obtain ⟨t, he⟩ := afterPatch_early w k false status
      dsimp only
      rw [he]
      exact ⟨rfl, rfl, rfl, fun _ _ => rfl, .inl rfl⟩
    | put o =>
      dsimp only
      have hkey : (PendingOp.put o).key = k := get_key hp
      cases hfn : fn.apply o.msg with
      | none => exact ⟨rfl, rfl, rfl, fun _ _ => rfl, .inl rfl⟩
      | some next =>
        refine ⟨rfl, rfl, rfl, fun k' hne => ?_, .inl rfl⟩
        have hnext : (PendingOp.put ⟨w.nextRef, next⟩).key = k := ((Patch.apply_key hfn).1).trans hkey
        show (w.q.pending.set (.put ⟨w.nextRef, next⟩)).get k' = _
        rw [get_set, hnext, if_neg hne]

/-- The loop of `applyReceipt` rewrites only messages that the receipt names and raises. -/
theorem sweeps_upgrade (status : MessageStatus) (ids : List MsgId) (arr : List Obj) (ref : ℕ) :
    Sweeps (fun m m' => m.id ∈ ids ∧ (Patch.receipt status).apply m = some m') arr
      (sweep (upgrade status) (idSet ids) ref arr).arr (sweep (upgrade status) (idSet ids) ref arr).written := by
  refine sweep_sweeps_inv (I := fun s => ∀ i ∈ s, i ∈ ids) (fun s m hs i hi => ?_) (fun s m m' hs hm => ?_)
    arr (idSet ids) ref (fun i hi => mem_idSet.1 hi)
  · unfold upgrade at hi
    split at hi
    · exact hs i (mem_of_mem_erase hi)
    · exact hs i hi
  · unfold upgrade at hm
    split at hm
    · rename_i hi
      exact ⟨hs _ hi, hm⟩
    · cases hm

/-- The resident half of `applyReceipt`; what is missing then are the ids not resident. -/
theorem applyReceipt_resident (h : w.Wf) (jid : Jid) (ids : List MsgId) (status : MessageStatus) :
    ∃ (w₁ : World) (missing : List MsgId), Sync w w₁ ∧ w₁.Wf ∧
      (w₁.earlyReceipts = w.earlyReceipts ∧ w₁.txq = w.txq) ∧ missing.Nodup ∧
      (∀ id, id ∈ missing ↔ id ∈ ids ∧ findId (messagesFor w jid) id = none) ∧
      (∀ k : Key, k.id ≠ "" →
        (Slot.Keeps (w.slot k) (w₁.slot k) ∧ (k.chatJid = jid → k.id ∈ ids →
          ∀ x, (w.slot k).resident = some x → (Patch.receipt status).apply x.msg = none)) ∨
        k.chatJid = jid ∧ k.id ∈ ids ∧ ∃ x o, (w.slot k).resident = some x ∧
          (Patch.receipt status).apply x.msg = some o.msg ∧ Slot.Writes o (w.slot k) (w₁.slot k)) ∧
      applyReceipt w jid ids status =
        missing.foldl (fun w id => patchThen w ⟨jid, id⟩ (.receipt status) (.early status)) w₁ := by
  have hsw := sweeps_upgrade status ids (messagesFor w jid) w.nextRef
  obtain ⟨hnd, hmiss⟩ := missing_of_sweep status (messagesFor w jid) (idSet ids) w.nextRef (nodup_idSet ids)
  have hup := fun id (x : Obj) => upgraded_of_sweep id x status (messagesFor w jid) (idSet ids) w.nextRef
  unfold applyReceipt
  dsimp only
  generalize hr : sweep (upgrade status) (idSet ids) w.nextRef (messagesFor w jid) = r at *
  generalize hw₁ : ({ w with
    q := persistAll w.q r.written
    nextRef := r.ref
    byChat := if r.written.isEmpty then w.byChat else Function.update w.byChat jid (some r.arr) }
      : World) = w₁
  have hp : Publishes w w₁ jid r.arr := by
    refine ⟨_, _, .refl _, .refl _, fun j => ?_⟩
    subst hw₁
    by_cases he : r.written = []
    · have : r.arr = messagesFor w jid := (by rw [he] at hsw; exact hsw.eq_of_nil)
      simp only [messagesFor, he, isEmpty_nil, if_true]
      split
      · rename_i hj; rw [this, hj]; rfl
      · rfl
    · refine Eq.trans ?_ (messagesFor_update w.byChat (some r.arr))
      simp [messagesFor, he]
  obtain ⟨hwf, hslot⟩ := write_swept h hsw
    (fun m m' hm => (Patch.apply_key hm.2).1) (.refl _) (by rw [← hw₁]) (by rw [← hw₁]; rfl) hp
  refine ⟨w₁, r.state, by rw [← hw₁]; exact .of_same, hwf,
    by rw [← hw₁]; exact ⟨rfl, rfl⟩, hnd, ?_, ?_, rfl⟩
  · intro id; rw [hmiss, mem_idSet]
  · intro k hid
    rcases hslot k hid with ⟨hk, hne⟩ | ⟨hj, x, o, hx, ⟨hm, ha⟩, hw⟩
    · refine .inl ⟨hk, fun hj hm x hx => ?_⟩
      by_contra hna
      obtain ⟨o, ho, hi⟩ := hup k.id x (mem_idSet.2 hm) (hj ▸ hx) (Option.ne_none_iff_isSome.1 hna)
      have hc : o.msg.chatJid = jid := (hsw.listOK (fun m m' hm => (Patch.apply_key hm.2).1)
        (h jid)).chat o (hsw.sublist.subset ho)
      exact hne o ho (by rw [Obj.key, UiMessage.key, hi, hc, ← hj])
    · have hi : x.msg.id = k.id := findId_id hx
      exact .inr ⟨hj, hi ▸ hm, x, o, hx, ha, hw⟩

/-- **A receipt** updates the messages it names. -/
theorem applyReceipt_spec (h : w.Wf) (jid : Jid) (ids : List MsgId) (status : MessageStatus) :
    Sync w (applyReceipt w jid ids status) ∧ (applyReceipt w jid ids status).Wf ∧
      ∀ k : Key, k.id ≠ "" →
        if k.chatJid = jid ∧ k.id ∈ ids then
          Updated (.receipt status) none k w (applyReceipt w jid ids status)
        else Slot.Keeps (w.slot k) ((applyReceipt w jid ids status).slot k) := by
  obtain ⟨w₁, missing, hs, hwf, -, hnd, hmiss, hslot, he⟩ := applyReceipt_resident h jid ids status
  rw [he]
  obtain ⟨hs', hwf', hrest⟩ := patchThen_fold jid status missing w₁ hwf
  refine ⟨hs.trans hs', hwf', fun k hid => ?_⟩
  by_cases hkey : k.chatJid = jid ∧ k.id ∈ ids
  · rw [if_pos hkey]
    obtain ⟨rfl, hm⟩ := hkey
    cases hx : (w.slot k).resident with
    | none =>
      have hk : w₁.slot k = w.slot k := by
        rcases hslot k hid with ⟨hk, -⟩ | ⟨-, -, x, o, hx', -⟩
        · exact hk.of_none hx
        · rw [hx] at hx'; cases hx'
      exact (patchThen_fold_updated status hid missing w₁ hwf hnd ((hmiss _).2 ⟨hm, hx⟩)
        (by rwa [hk])).of_slot hk
    | some x =>
      have hrest := hrest k hid fun _ hmem => by
        have := ((hmiss _).1 hmem).2
        rw [← slot_resident, hx] at this; cases this
      rcases hslot k hid with ⟨hk, hna⟩ | ⟨-, -, y, o, hy, ha, hw⟩
      · exact .unchanged x hx (hna rfl hm x hx) (hk.trans hrest)
      · exact .resident y o hy ha (hw.keeps hrest)
  · rw [if_neg hkey]
    have hrest := hrest k hid fun hj hmem => hkey ⟨hj, ((hmiss _).1 hmem).1⟩
    rcases hslot k hid with ⟨hk, -⟩ | ⟨hj, hm, -⟩
    · exact hk.trans hrest
    · exact absurd ⟨hj, hm⟩ hkey

end Whatsvelte
