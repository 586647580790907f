import Whatsvelte.Proof.Quiet

/-!
# Deliveries

What `addMessage` and `addHistoryMessages` do to the slot of the delivered message:

* `addMessage_spec`: nothing, a media refresh of the resident copy, the end of an
  optimistic bubble, or a new message (`insertNew_spec`) that may adopt a stored copy
  (`adoptStoredDone_spec`);
* `addHistoryMessages_spec`: a sequence of quiet pieces and full writes.

For every other key a delivery is quiet.
-/

namespace Whatsvelte

open List

variable {w v : World} {k : Key} {jid : Jid} {o x : Obj} {m : UiMessage}

/-! ## One new message -/

/-- `o` is appended to its chat and published. -/
theorem append_one (h : w.Wf) (hc : o.msg.chatJid = jid)
    (hn : o.msg.id = "" ∨ findId (messagesFor w jid) o.msg.id = none)
    (hp : Publishes w v jid (messagesFor w jid ++ [o])) :
    v.Wf ∧ ∀ k : Key, k.id ≠ "" →
      (o.key ≠ k → v.eff k = w.eff k → Slot.Keeps (w.slot k) (v.slot k)) ∧
      (o.key = k → (v.slot k).resident = some o ∨ (v.slot k).resident = none) := by
  have ha := (h jid).append hc hn
  refine ⟨hp.wf h ha, fun k hid => ⟨fun hk he => ?_, fun hk => ?_⟩⟩
  · refine hp.keeps ha hid he fun hj => .inl ?_
    rw [findId_append, findId_singleton, if_neg, Option.or_none]
    exact fun hi => hk (by rw [Obj.key, UiMessage.key, hi, hc, ← hj])
  · subst hk
    have hf : findId (messagesFor w jid ++ [o]) o.key.id = some o := by
      rw [findId_append, findId_singleton]
      change (findId (messagesFor w jid) o.msg.id).or (if o.msg.id = o.msg.id then _ else _) = _
      rw [hn.resolve_left hid, if_pos rfl, Option.none_or]
    rw [← hf]
    exact hp.resident ha hid hc

/-- **A message is put at the end** and persisted. -/
theorem append_spec (h : w.Wf) (hn : o.msg.id = "" ∨ findId (messagesFor w o.msg.chatJid) o.msg.id = none)
    (hs : Sync w v) (hq : v.q = persistMessage w.q o) (hb : v.base = w.base)
    (hp : Publishes w v o.msg.chatJid (messagesFor w o.msg.chatJid ++ [o])) :
    Touches o.key w v ∧ (o.msg.id ≠ "" → Slot.Writes o (w.slot o.key) (v.slot o.key)) := by
  obtain ⟨hwf, hslot⟩ := append_one h rfl hn hp
  have he := fun k => eff_persistMessage (k := k) hq hb
  exact ⟨⟨hs, hwf, fun k hid hne => (hslot k hid).1 hne ((he k).trans (if_neg hne))⟩,
    fun hid => ⟨(he o.key).trans (if_pos rfl), (hslot o.key hid).2 rfl⟩⟩

/-- The record that an insert-only write leaves under its key. -/
def insertEff (w : World) (o : Obj) : Option UiMessage :=
  if persistable o.msg then
    match w.q.pending.get o.key with
    | some (.put _) => w.eff o.key
    | _ => (w.base o.key).or (some o.msg)
  else w.eff o.key

theorem eff_persistMessageInsert (hq : v.q = persistMessageInsert w.q o) (hb : v.base = w.base) :
    v.eff o.key = insertEff w o := by
  rw [eff_apply, hq, hb]
  unfold persistMessageInsert insertEff
  split
  · cases hp : w.q.pending.get o.key with
    | none => simp [Table.get_set, PendingOp.key, PendingOp.eff]
    | some op => cases op <;> simp [Table.get_set, PendingOp.key, PendingOp.eff, eff_apply, hp]
  · rfl

theorem eff_persistMessageInsert_of_ne (hq : v.q = persistMessageInsert w.q o)
    (hb : v.base = w.base) (hk : o.key ≠ k) : v.eff k = w.eff k :=
  eff_congr (by rw [hq, get_persistMessageInsert_of_ne hk]) (by rw [hb])

/-! ## Adopting the stored copy -/

/-- The state after `fresh` has adopted the stored copy `s`. -/
def adoptWith (w : World) (fresh : Obj) (s : UiMessage) : World :=
  let o : Obj := ⟨w.nextRef, adopted s fresh.msg⟩
  commit { w with
    q := if o.msg.media ≠ s.media then persistMessage w.q o else w.q
    nextRef := w.nextRef + 1 } fresh.msg.chatJid
    (replaceId (messagesFor w fresh.msg.chatJid) fresh.msg.id o)

/-- Nothing is adopted unless `fresh` is still the resident object. -/
theorem adoptStoredDone_cases (w : World) (fresh : Obj) (stored : Option UiMessage) :
    (adoptStoredDone w fresh stored = w ∧
      (stored = none ∨ ∀ cur, (w.slot fresh.key).resident = some cur → cur.ref ≠ fresh.ref)) ∨
    ∃ s cur, stored = some s ∧ (w.slot fresh.key).resident = some cur ∧ cur.ref = fresh.ref ∧
      adoptStoredDone w fresh stored = adoptWith w fresh s := by
  have hslot : (w.slot fresh.key).resident = findId (messagesFor w fresh.msg.chatJid) fresh.msg.id := rfl
  rw [hslot]
  unfold adoptStoredDone
  split
  · rename_i s arr harr
    rw [messagesFor_of_some harr]
    split
    · rename_i hcur
      exact .inl ⟨rfl, .inr (by rw [hcur]; simp)⟩
    · rename_i cur hcur
      rw [hcur]
      split
      · rename_i href
        exact .inl ⟨rfl, .inr fun c hc => by cases hc; exact href⟩
      · rename_i href
        refine .inr ⟨s, cur, rfl, rfl, by simpa using href, ?_⟩
        unfold adoptWith; rw [messagesFor_of_some harr]
  · rename_i h
    refine .inl ⟨rfl, ?_⟩
    rename_i st _ _
    cases hs : st with
    | none => exact .inl rfl
    | some s =>
      cases hb : w.byChat fresh.msg.chatJid with
      | none => simp [messagesFor, hb, findId]
      | some arr => exact (h s arr hs hb).elim

/-- **Adoption**: the adopted copy takes the place of `fresh`; it is written only when its
media is news. -/
theorem adoptWith_spec {fresh cur : Obj} {s : UiMessage} (h : w.Wf) (hs : s.key = fresh.key)
    (hcur : (w.slot fresh.key).resident = some cur) :
    Touches fresh.key w (adoptWith w fresh s) ∧ (adoptWith w fresh s).txq = w.txq ∧
    (fresh.msg.id ≠ "" → ∃ o : Obj, o.msg = adopted s fresh.msg ∧
      (((adoptWith w fresh s).slot fresh.key).resident = some o ∨
        ((adoptWith w fresh s).slot fresh.key).resident = none) ∧
      (adoptWith w fresh s).eff fresh.key =
        if (adopted s fresh.msg).media ≠ s.media then putEff o.msg (w.eff fresh.key)
        else w.eff fresh.key) := by
  let o : Obj := ⟨w.nextRef, adopted s fresh.msg⟩
  have hk : o.key = fresh.key := hs
  have hid : o.msg.id = fresh.msg.id := congrArg Key.id hs
  have hc : o.msg.chatJid = fresh.msg.chatJid := congrArg Key.chatJid hs
  have hp : Publishes w (adoptWith w fresh s) fresh.msg.chatJid
      (replaceId (messagesFor w fresh.msg.chatJid) o.msg.id o) := by
    rw [hid]; exact publishes_commit rfl
  have heff : ∀ k, (adoptWith w fresh s).eff k =
      if fresh.key = k ∧ o.msg.media ≠ s.media then putEff o.msg (w.eff k) else w.eff k := by
    intro k
    by_cases hm : o.msg.media = s.media
    · rw [if_neg (fun h => h.2 hm)]
      refine eff_congr ?_ rfl
      change (if o.msg.media ≠ s.media then persistMessage w.q o else w.q).pending.get k = _
      rw [if_neg (not_not.2 hm)]
    · rw [eff_persistMessage (v := adoptWith w fresh s) (o := o) (if_pos hm) rfl, hk]
      simp [hm]
  have hsync : Sync w (adoptWith w fresh s) := .of_same
  obtain ⟨hwf, hres⟩ := replace_one h (by rwa [hid]) hc hp
  refine ⟨⟨hsync, hwf, fun k hkid hkne => ?_⟩, rfl, fun hfid => ⟨o, rfl, ?_, ?_⟩⟩
  · refine (hres k hkid).1 (fun he => hkne (hk.symm.trans he)) ?_
    rw [heff, if_neg]; exact fun h => hkne h.1
  · exact (hres fresh.key hfid).2 hk
  · rw [heff]; simp [o]

/-! ## `addMessage` -/

/-- What becomes of the slot of a message that was not resident. -/
inductive Inserted (o : Obj) (w v : World) : Prop
  /-- Queued as insert-only, without a look at the database. -/
  | plain (hex : w.exhausted o.msg.chatJid = true ∨ persistable o.msg = false)
      (hjobs : v.jobs = w.jobs)
      (hres : (v.slot o.key).resident = some o ∨ (v.slot o.key).resident = none)
      (heff : v.eff o.key = insertEff w o)
  /-- Queued as insert-only; the stored copy has been asked for. -/
  | waits (hput : ∀ n, w.q.pending.get o.key ≠ some (.put n)) (hjobs : v.jobs = w.jobs ++ [.adopt o])
      (hres : (v.slot o.key).resident = some o ∨ (v.slot o.key).resident = none)
      (heff : v.eff o.key = insertEff w o)
  /-- A full write of the message is queued, and the message is trimmed at once. -/
  | trimmed (n : Obj) (hput : w.q.pending.get o.key = some (.put n)) (hjobs : v.jobs = w.jobs)
      (hres : (v.slot o.key).resident = none) (heff : v.eff o.key = w.eff o.key)
  /-- A full write of the message is queued, and its record is adopted. -/
  | adopts (n o' : Obj) (hput : w.q.pending.get o.key = some (.put n))
      (ho : o'.msg = adopted n.msg o.msg) (hjobs : v.jobs = w.jobs)
      (hres : (v.slot o.key).resident = some o' ∨ (v.slot o.key).resident = none)
      (heff : v.eff o.key =
        if (adopted n.msg o.msg).media ≠ n.msg.media then putEff o'.msg (w.eff o.key)
        else w.eff o.key)

theorem insertEff_of_same (h : Same w v) : insertEff v o = insertEff w o := by
  unfold insertEff; rw [h.pending, h.eff, h.base]

theorem Inserted.of_same {w₁ : World} (h : Same w w₁) (he : w₁.exhausted = w.exhausted)
    (hi : Inserted o w₁ v) : Inserted o w v := by
  cases hi with
  | plain hex hjobs hres heff =>
    exact .plain (he ▸ hex) (hjobs.trans h.jobs) hres (heff.trans (insertEff_of_same h))
  | waits hput hjobs hres heff =>
    exact .waits (h.pending ▸ hput) (by rw [hjobs, h.jobs]) hres (heff.trans (insertEff_of_same h))
  | trimmed n hput hjobs hres heff =>
    exact .trimmed n (h.pending ▸ hput) (hjobs.trans h.jobs) hres (by rw [heff, h.eff])
  | adopts n o' hput ho hjobs hres heff =>
    exact .adopts n o' (h.pending ▸ hput) ho (hjobs.trans h.jobs) hres (by rw [heff, h.eff])

theorem insertEff_of_put {n : Obj} (h : w.q.pending.get o.key = some (.put n)) :
    insertEff w o = w.eff o.key := by
  unfold insertEff; rw [h]; simp

/-- `commit` never marks a chat as exhausted. -/
theorem exhausted_of_commit {arr : List Obj} (h : (commit w jid arr).exhausted jid = true) :
    w.exhausted jid = true := by
  unfold commit at h
  split at h
  · simp at h
  · exact h

theorem get_op_key {t : Table PendingOp.key} {op : PendingOp} (h : t.get k = some op) : op.key = k :=
  Table.get_key h

theorem get_put_key {t : Table PendingOp.key} {n : Obj} (h : t.get k = some (.put n)) :
    n.msg.key = k := get_op_key h

section

variable (h : w.Wf) (hn : o.msg.id = "" ∨ findId (messagesFor w o.msg.chatJid) o.msg.id = none)
include h hn

/-- The first half of `insertNew`. -/
theorem insertNew_commit {w₁ : World}
    (hw₁ : w₁ = commit { w with q := persistMessageInsert w.q o } o.msg.chatJid
      (messagesFor w o.msg.chatJid ++ [o])) :
    Touches o.key w w₁ ∧
      (o.msg.id ≠ "" → (w₁.slot o.key).resident = some o ∨ (w₁.slot o.key).resident = none) ∧
      w₁.eff o.key = insertEff w o := by
  subst hw₁
  obtain ⟨hwf, hk⟩ := append_one h rfl hn
    (publishes_commit (v := { w with q := persistMessageInsert w.q o }) rfl)
  refine ⟨⟨.of_same, hwf, fun k hid hne => ?_⟩,
    fun hid => (hk o.key hid).2 rfl, eff_persistMessageInsert rfl rfl⟩
  exact (hk k hid).1 hne (eff_persistMessageInsert_of_ne rfl rfl hne)

/-- **A new message.** -/
theorem insertNew_spec :
    Touches o.key w (insertNew w o (messagesFor w o.msg.chatJid)) ∧
      (o.msg.id ≠ "" → Inserted o w (insertNew w o (messagesFor w o.msg.chatJid))) := by
  unfold insertNew
  dsimp only
  generalize hw₁ : commit { w with q := persistMessageInsert w.q o } o.msg.chatJid
    (messagesFor w o.msg.chatJid ++ [o]) = w₁
  obtain ⟨ht, hres, heff⟩ := insertNew_commit h hn hw₁.symm
  have hjobs : w₁.jobs = w.jobs := by rw [← hw₁]; rfl
  have hpend : w₁.q.pending.get o.key = (persistMessageInsert w.q o).pending.get o.key := by
    rw [← hw₁]; rfl
  split
  · rename_i hadopt
    unfold adoptStored
    split
    · rename_i n hput
      have hput' : w.q.pending.get o.key = some (.put n) := get_insert_put.1 (hpend.symm.trans hput)
      have heff' : w₁.eff o.key = w.eff o.key := heff.trans (insertEff_of_put hput')
      rcases adoptStoredDone_cases w₁ o (some n.msg) with ⟨he, hno⟩ | ⟨s, cur, hs', hcur, -, he⟩
      · rw [he]
        refine ⟨ht, fun hid => .trimmed n hput' hjobs ?_ heff'⟩
        rcases hres hid with hres | hres
        · exact absurd rfl (hno.resolve_left (by simp) o hres)
        · exact hres
      · cases hs'
        rw [he]
        obtain ⟨h1, h2, h3⟩ := adoptWith_spec ht.wf (get_put_key hput) hcur
        refine ⟨ht.trans h1, fun hid => ?_⟩
        obtain ⟨o', ho', hr', he'⟩ := h3 hid
        refine .adopts n o' hput' ho' ?_ hr' (by rw [he', heff'])
        rwa [World.jobs, h2]
    · rename_i c i hdel
      refine ⟨ht, fun hid => .plain (.inr ?_) hjobs (hres hid) heff⟩
      rw [hpend, get_persistMessageInsert] at hdel
      split at hdel
      · unfold insertOver at hdel
        split at hdel <;> cases hdel
      · rename_i hp; simpa using hp
    · rename_i hnput _
      have hq : Touches o.key w₁ (w₁.enqueue (.adopt o)) :=
        ⟨.enqueue _ rfl (by simpa [Job.proper] using (Bool.and_eq_true_iff.1 hadopt).1), ht.wf,
          fun _ _ _ => keeps_enqueue fun _ => rfl⟩
      refine ⟨ht.trans hq, fun hid => .waits (fun n hput => hnput n ?_) ?_ (hres hid) ?_⟩
      · exact hpend.trans (get_insert_put.2 hput)
      · rw [jobs_enqueue, hjobs]
      · rw [← heff]
        exact eff_congr rfl (base_enqueue_of_inert fun _ => rfl)
  · rename_i hex
    refine ⟨ht, fun hid => .plain (.inl ?_) hjobs (hres hid) heff⟩
    rw [← hw₁] at hex
    exact exhausted_of_commit (w := { w with q := persistMessageInsert w.q o }) (by simpa [hid] using hex)

end

/-- What `addMessage` does to the slot of the message it delivers. -/
inductive Delivered (m : UiMessage) (w v : World) : Prop
  /-- Nothing to draw, or already resident. -/
  | known (h : isBlankMessage m = true ∨ (w.slot m.key).resident.isSome)
      (hslot : v.slot m.key = w.slot m.key) (hjobs : v.jobs = w.jobs)
  /-- Resident without media, which the redelivery brings. -/
  | media (x o : Obj) (hx : (w.slot m.key).resident = some x) (hm : m.media.isSome = true)
      (ho : o.msg = { x.msg with media := m.media, thumbnail := m.thumbnail.or x.msg.thumbnail })
      (hw : Slot.Writes o (w.slot m.key) (v.slot m.key)) (hjobs : v.jobs = w.jobs)
  /-- The echo of an own message takes the place of a bubble. -/
  | echo (o : Obj) (hx : (w.slot m.key).resident = none) (hme : m.fromMe = true)
      (hany : (messagesFor w m.chatJid).any (matchesEcho m) = true)
      (ho : o.msg = { startUnread m with status := some .sent })
      (hw : Slot.Writes o (w.slot m.key) (v.slot m.key)) (hjobs : v.jobs = w.jobs)
  /-- A message that is not resident. -/
  | new (o : Obj) (hx : (w.slot m.key).resident = none) (hb : isBlankMessage m = false)
      (ho : o.msg = startUnread m) (hi : Inserted o w v)

@[simp] theorem startUnread_key (m : UiMessage) : (startUnread m).key = m.key := by
  unfold startUnread; split <;> rfl

@[simp] theorem startUnread_id (m : UiMessage) : (startUnread m).id = m.id :=
  congrArg Key.id (startUnread_key m)

@[simp] theorem startUnread_chatJid (m : UiMessage) : (startUnread m).chatJid = m.chatJid :=
  congrArg Key.chatJid (startUnread_key m)

theorem startUnread_fields (m : UiMessage) : ∃ u, startUnread m = { m with unread := u } := by
  unfold startUnread
  split
  · exact ⟨_, rfl⟩
  · exact ⟨m.unread, rfl⟩

theorem fromMe_startUnread (m : UiMessage) : (startUnread m).fromMe = m.fromMe := by
  unfold startUnread
  split <;> rfl

theorem persistable_startUnread (m : UiMessage) : persistable (startUnread m) = persistable m := by
  obtain ⟨u, hu⟩ := startUnread_fields m
  rw [hu, Slot.persistable_unread]

theorem persistable_sent (h : persistable m = true) :
    persistable { startUnread m with status := some .sent } = true := by
  rw [← persistable_startUnread] at h
  obtain ⟨hid, hc, ht, -, hb⟩ := persistable_iff.1 h
  exact persistable_iff.2 ⟨hid, hc, ht, by simp, hb⟩

/-- The echo of an own message takes the place of the first bubble that matches. -/
theorem echo_spec (h : w.Wf) (hm : o.msg.chatJid = jid) {p : Obj → Bool}
    (ha : (messagesFor w jid).any p = true) (hn : o.msg.id = "" ∨ findId (messagesFor w jid) o.msg.id = none)
    (hq : v.q = persistMessage w.q o) (hb : v.base = w.base) (hs : Sync w v)
    (hp : Publishes w v jid (replaceFirst p o (messagesFor w jid))) :
    Touches o.key w v ∧ (o.msg.id ≠ "" → Slot.Writes o (w.slot o.key) (v.slot o.key)) := by
  have hf : ∃ x, (messagesFor w jid).find? p = some x := by
    rw [← Option.isSome_iff_exists, find?_isSome]
    simpa using ha
  obtain ⟨x, hx⟩ := hf
  have hok := (h jid).replaceFirst hx hm (.inr hn)
  have hfind : ∀ id, id ≠ "" → findId (replaceFirst p o (messagesFor w jid)) id =
      if o.msg.id = id then some o else if x.msg.id = id then none else findId (messagesFor w jid) id :=
    fun id hid => findId_replaceFirst (h jid) hx (.inr hn) hid
  have he := fun k => eff_persistMessage (k := k) hq hb
  refine ⟨⟨hs, hp.wf h hok, fun k hid hne => hp.keeps hok hid (by rw [he, if_neg hne]) ?_⟩, ?_⟩
  · intro hj
    rw [hfind k.id hid, if_neg fun hi => hne (by rw [Obj.key, UiMessage.key, hi, hm, ← hj])]
    split
    · exact .inr rfl
    · exact .inl rfl
  · intro hid
    refine hp.writes hok hid hm (by rw [he, if_pos rfl]) ?_
    rw [hfind o.key.id hid]
    exact if_pos rfl

/-- A redelivery refreshes the media of the resident copy. -/
theorem refreshMedia_spec (h : w.Wf) (hx : findId (messagesFor w m.chatJid) m.id = some x)
    (hv : v = refreshMedia w m (messagesFor w m.chatJid) x) :
    Touches m.key w v ∧ v.jobs = w.jobs ∧
      (m.id ≠ "" → v.slot m.key = w.slot m.key ∨ m.media.isSome = true ∧ ∃ o : Obj,
        o.msg = { x.msg with media := m.media, thumbnail := m.thumbnail.or x.msg.thumbnail } ∧
        Slot.Writes o (w.slot m.key) (v.slot m.key)) := by
  unfold refreshMedia at hv
  split at hv
  · rename_i hmedia
    let o : Obj := ⟨w.nextRef, { x.msg with
      media := m.media, thumbnail := m.thumbnail.or x.msg.thumbnail }⟩
    obtain ⟨ht, hw⟩ := write_one (o := o) (v := v) h hx (key_of_find (x := x) h hx)
      (by rw [hv]; exact .of_same) (by rw [hv]; rfl) (by rw [hv]; rfl) (by rw [hv]; exact publishes_commit rfl)
      fun hw => hw
    exact ⟨ht, by rw [hv]; rfl, fun hid => .inr ⟨(Bool.and_eq_true_iff.1 hmedia).1, o, rfl, hw hid⟩⟩
  · subst hv; exact ⟨.refl h, rfl, fun _ => .inl rfl⟩

/-- **A live delivery** is about the delivered message only. -/
theorem addMessage_spec (h : w.Wf) (m : UiMessage) :
    Touches m.key w (addMessage w m) ∧ (m.id ≠ "" → Delivered m w (addMessage w m)) := by
  unfold addMessage
  split
  · rename_i hb
    exact ⟨.refl h, fun _ => .known (.inl hb) rfl rfl⟩
  · rename_i hb
    have hsame := Same.setList w m.chatJid
    have h₁ := hsame.wf h
    dsimp only
    generalize hw₁ : w.setList m.chatJid (messagesFor w m.chatJid) = w₁ at *
    rw [← hsame.lists]
    have hc : (startUnread m).chatJid = m.chatJid := startUnread_chatJid m
    have hslot := hsame.slot m.key
    have hjobs := hsame.jobs
    have hres : (w.slot m.key).resident = findId (messagesFor w₁ m.chatJid) m.id := by
      rw [← hslot]; rfl
    split
    · rename_i x hx
      have hid : m.id ≠ "" := by
        rintro hid; simp [hid] at hx
      simp only [startUnread_id, ne_eq, hid, not_false_eq_true, if_true] at hx
      obtain ⟨ht, hj, hs⟩ := refreshMedia_spec h₁
        (by rwa [hc, startUnread_id]) rfl
      rw [hc, startUnread_key] at ht hs
      rw [hc] at hj
      refine ⟨(hsame.touches h).trans ht, fun _ => ?_⟩
      rcases hs (by simpa using hid) with hs | ⟨hm, o, ho, hs⟩
      · exact .known (.inr (by rw [hres, hx]; rfl)) (hs.trans hslot) (hj.trans hjobs)
      · rw [hslot] at hs
        obtain ⟨u, hu⟩ := startUnread_fields m
        exact .media x o (hres.trans hx) (by rwa [hu] at hm) (by rw [ho, hu]) hs (hj.trans hjobs)
    · rename_i hx
      have hn : m.id = "" ∨ findId (messagesFor w₁ m.chatJid) m.id = none := by
        by_cases hid : m.id = ""
        · exact .inl hid
        · simp only [startUnread_id, ne_eq, hid, not_false_eq_true, if_true] at hx
          exact .inr hx
      split
      · rename_i hecho
        simp only [Bool.and_eq_true] at hecho
        let o : Obj := ⟨w₁.nextRef, { startUnread m with status := some .sent }⟩
        have hk : o.key = m.key := startUnread_key m
        have hoid : o.msg.id = m.id := startUnread_id m
        obtain ⟨ht, hs⟩ := echo_spec (v := commit { w₁ with
            q := persistMessage w₁.q o, nextRef := w₁.nextRef + 1 } (startUnread m).chatJid
            (replaceFirst (matchesEcho (startUnread m)) o (messagesFor w₁ m.chatJid))) h₁ hc hecho.2
          (by rwa [hoid]) rfl rfl (.of_same)
          (by rw [hc]; exact publishes_commit rfl)
        rw [hk] at ht hs
        refine ⟨(hsame.touches h).trans ht, fun hid => ?_⟩
        have hs := hs (by rwa [hoid])
        rw [hslot] at hs
        obtain ⟨u, hu⟩ := startUnread_fields m
        refine .echo o (hres.trans (hn.resolve_left hid)) ?_ ?_ rfl hs hjobs
        · have := hecho.1
          rwa [hu] at this
        · have := hecho.2
          rwa [hu, hsame.lists] at this
      · let o : Obj := ⟨w₁.nextRef, startUnread m⟩
        have hk : o.key = m.key := startUnread_key m
        obtain ⟨ht, hi⟩ := insertNew_spec (w := { w₁ with nextRef := w₁.nextRef + 1 }) (o := o) h₁
          (by change (startUnread m).id = "" ∨ findId (messagesFor w₁ (startUnread m).chatJid) _ = none
              rwa [hc, startUnread_id])
        rw [hk] at ht
        have hlist : messagesFor { w₁ with nextRef := w₁.nextRef + 1 } o.msg.chatJid =
            messagesFor w₁ m.chatJid := congrArg (messagesFor w₁) hc
        rw [hlist] at ht hi
        have hsame' := hsame.trans (Same.ref w₁ (w₁.nextRef + 1))
        refine ⟨(hsame'.touches h).trans ht, fun hid => ?_⟩
        refine .new o (hres.trans (hn.resolve_left hid)) (by simpa using hb) rfl ?_
        exact (hi (by rwa [startUnread_id])).of_same hsame' (by rw [← hw₁]; rfl)

/-! ## `addHistoryMessages` -/

/-- What pushing messages of a batch does to the slot of `k`: nothing, or the first of
them with that key becomes resident (and is written, unless it came from the database). -/
def Pushed (persist : Bool) (P : Obj → Prop) (k : Key) (s s' : Slot) : Prop :=
  s' = s ∨ s.resident = none ∧ ∃ o, P o ∧ o.key = k ∧ isBlankMessage o.msg = false ∧
    s' = ⟨some o, if persist then putEff o.msg s.stored else s.stored⟩

theorem Pushed.mono {persist : Bool} {P P' : Obj → Prop} {s s' : Slot} (hP : ∀ o, P o → P' o)
    (h : Pushed persist P k s s') : Pushed persist P' k s s' := by
  rcases h with h | ⟨h, o, ho, h'⟩
  · exact .inl h
  · exact .inr ⟨h, o, hP o ho, h'⟩

theorem Pushed.trans {persist : Bool} {P : Obj → Prop} {s s' s'' : Slot}
    (h : Pushed persist P k s s') (h' : Pushed persist P k s' s'') : Pushed persist P k s s'' := by
  rcases h with rfl | ⟨hn, o, ho, hk, hb, hs⟩
  · exact h'
  · rcases h' with rfl | ⟨hn', -⟩
    · exact .inr ⟨hn, o, ho, hk, hb, hs⟩
    · rw [hs] at hn'; cases hn'

/-- Looking up `k` after a push. -/
theorem resident_push (hn : o.msg.id = "" ∨ findId (messagesFor w o.msg.chatJid) o.msg.id = none)
    (hl : ∀ j, messagesFor v j =
      if j = o.msg.chatJid then messagesFor w o.msg.chatJid ++ [o] else messagesFor w j) (hid : k.id ≠ "") :
    (v.slot k).resident = if o.key = k then some o else (w.slot k).resident := by
  change findId (messagesFor v k.chatJid) k.id = _
  rw [hl]
  by_cases hj : k.chatJid = o.msg.chatJid
  · rw [if_pos hj, findId_append, findId_singleton, ← hj]
    by_cases hi : o.msg.id = k.id
    · have hk : o.key = k := by rw [Obj.key, UiMessage.key, hi, ← hj]
      rw [if_pos hk, if_pos hi, hj, ← hi, hn.resolve_left (hi ▸ hid), Option.none_or]
    · have hk : o.key ≠ k := fun hk => hi (congrArg Key.id hk)
      rw [if_neg hk, if_neg hi, Option.or_none]; rfl
  · have hk : o.key ≠ k := fun hk => hj (congrArg Key.chatJid hk).symm
    rw [if_neg hj, if_neg hk]; rfl

theorem historyPush_spec (h : w.Wf) (persist : Bool) (touched : List Jid) (o : Obj) :
    Sync w (historyPush persist (w, touched) o).1 ∧ (historyPush persist (w, touched) o).1.Wf ∧
      ∀ k : Key, k.id ≠ "" →
        Pushed persist (· = o) k (w.slot k) ((historyPush persist (w, touched) o).1.slot k) := by
  unfold historyPush
  split
  · exact ⟨.refl w, h, fun _ _ => .inl rfl⟩
  · rename_i hb
    dsimp only
    split
    · have hs := Same.setList w o.msg.chatJid
      exact ⟨hs.sync, hs.wf h, fun k _ => .inl (hs.slot k)⟩
    · rename_i hn
      have hn' : o.msg.id = "" ∨ findId (messagesFor w o.msg.chatJid) o.msg.id = none := by
        by_cases hid : o.msg.id = ""
        · exact .inl hid
        · simpa [hid, hasId_eq] using hn
      generalize hv : ({ w.setList o.msg.chatJid (messagesFor w o.msg.chatJid ++ [o]) with
        q := if persist = true then persistMessage w.q o else w.q } : World) = v
      have hl : ∀ j, messagesFor v j =
          if j = o.msg.chatJid then messagesFor w o.msg.chatJid ++ [o] else messagesFor w j := by
        intro j; rw [← hv]; exact messagesFor_setList
      have hp : Publishes w v o.msg.chatJid (messagesFor w o.msg.chatJid ++ [o]) :=
        ⟨_, _, .refl _, .refl _, hl⟩
      refine ⟨by rw [← hv]; exact .of_same, hp.wf h ((h o.msg.chatJid).append rfl hn'), fun k hid => ?_⟩
      have hres := resident_push hn' hl hid
      have heff : v.eff k = if persist ∧ o.key = k then putEff o.msg (w.eff k) else w.eff k := by
        subst hv
        cases persist with
        | true => rw [eff_persistMessage (by rfl) (by rfl)]; simp
        | false => exact eff_congr rfl rfl
      by_cases hk : o.key = k
      · refine .inr ⟨?_, o, rfl, hk, by simpa using hb, Slot.ext (hres.trans (if_pos hk)) ?_⟩
        · subst hk; exact hn'.resolve_left hid
        · refine heff.trans ?_
          simp only [hk, and_true]; rfl
      · exact .inl (Slot.ext (hres.trans (if_neg hk)) (heff.trans (if_neg fun h => hk h.2)))

/-- Only chats of the batch are touched. -/
theorem historyPush_touched (persist : Bool) (list : List Obj) :
    ∀ st : World × List Jid, ∀ jid ∈ (list.foldl (historyPush persist) st).2,
      jid ∈ st.2 ∨ ∃ o ∈ list, o.msg.chatJid = jid := by
  induction list with
  | nil => exact fun st jid h => .inl h
  | cons o list ih =>
    intro st jid h
    rcases ih _ jid h with h | ⟨x, hx, hj⟩
    · have hpush : jid ∈ st.2 ∨ o.msg.chatJid = jid := by
        have htouch : jid ∈ (if o.msg.chatJid ∈ st.2 then st.2 else st.2 ++ [o.msg.chatJid]) →
            jid ∈ st.2 ∨ o.msg.chatJid = jid := by
          intro h
          split at h
          · exact .inl h
          · rcases mem_append.1 h with h | h
            · exact .inl h
            · exact .inr (mem_singleton.1 h).symm
        unfold historyPush at h
        dsimp only at h
        split at h
        · exact .inl h
        · split at h <;> exact htouch h
      exact hpush.imp_right fun hj => ⟨o, mem_cons_self, hj⟩
    · exact .inr ⟨x, mem_cons_of_mem _ hx, hj⟩

theorem historyPush_fold (persist : Bool) (list : List Obj) :
    ∀ (w : World) (touched : List Jid), w.Wf →
      Sync w (list.foldl (historyPush persist) (w, touched)).1 ∧
      (list.foldl (historyPush persist) (w, touched)).1.Wf ∧ ∀ k : Key, k.id ≠ "" →
        Pushed persist (· ∈ list) k (w.slot k)
          ((list.foldl (historyPush persist) (w, touched)).1.slot k) := by
  induction list with
  | nil => exact fun w touched h => ⟨.refl w, h, fun _ _ => .inl rfl⟩
  | cons o list ih =>
    intro w touched h
    obtain ⟨hs, hwf, hk⟩ := historyPush_spec h persist touched o
    obtain ⟨hs', hwf', hk'⟩ := ih _ (historyPush persist (w, touched) o).2 hwf
    refine ⟨hs.trans hs', hwf', fun k hid => ?_⟩
    have h1 : Pushed persist (· ∈ o :: list) k (w.slot k)
        ((historyPush persist (w, touched) o).1.slot k) :=
      (hk k hid).mono (by rintro x rfl; exact mem_cons_self)
    exact h1.trans ((hk' k hid).mono fun x hx => mem_cons_of_mem _ hx)

/-- **A bulk delivery**: the messages are pushed, then every touched chat is flagged and
trimmed, which is quiet. -/
theorem addHistoryMessages_spec (h : w.Wf) (list : List Obj) (persist : Bool) :
    ∃ w₁ : World, Sync w w₁ ∧ w₁.Wf ∧ ∀ k : Key, k.id ≠ "" →
      Pushed persist (· ∈ list) k (w.slot k) (w₁.slot k) ∧
      Quiet (∃ o ∈ list, o.msg.chatJid = k.chatJid) k w₁ (addHistoryMessages w list persist) := by
  obtain ⟨hs, hwf, hk⟩ := historyPush_fold persist list w [] h
  refine ⟨_, hs, hwf, fun k hid => ⟨hk k hid, ?_⟩⟩
  refine Quiet.foldl (fun _ jid hj h => quiet_historyFinish h hid jid fun hk => ?_) hwf
  rcases historyPush_touched persist list (w, []) jid hj with hj | hj
  · cases hj
  · exact hk ▸ hj

theorem addHistoryMessages_quiet (h : w.Wf) (hid : k.id ≠ "") {list : List Obj} (persist : Bool)
    (hne : ∀ o ∈ list, o.key ≠ k) :
    Quiet (∃ o ∈ list, o.msg.chatJid = k.chatJid) k w (addHistoryMessages w list persist) := by
  obtain ⟨w₁, hs, hwf, hk⟩ := addHistoryMessages_spec h list persist
  obtain ⟨hp, hq⟩ := hk k hid
  rcases hp with hp | ⟨-, o, ho, hok, -⟩
  · exact Quiet.trans ⟨hwf, hs, .inl (hp ▸ .refl _)⟩ hq
  · exact absurd hok (hne o ho)

end Whatsvelte
