import Whatsvelte.Proof.Queue

/-!
# Reading a page

`loadLatestMessages` returns stored rows, except that a queued write of a message takes
the place of its row (`mem_loadLatestMessages`); a queued delete does not hide a row. A
page only fills in what is not resident (`loadOlderDone_spec`), and so does a boot tail
(`loadTailsDone_spec`).
-/

namespace Whatsvelte

open List

variable {w v : World} {k : Key} {jid : Jid} {id : MsgId} {limit : ℕ} {beforeTs : Option ℤ} {o : Obj}

/-! ## Rows -/

theorem map_msg_objs (ref : ℕ) (l : List UiMessage) : (objs ref l).map (·.msg) = l := by
  induction l generalizing ref with
  | nil => rfl
  | cons m l ih => simp [objs, ih]

theorem mem_readLatest {msgs : Table UiMessage.key} {m : UiMessage}
    (h : m ∈ readLatest msgs jid limit beforeTs) :
    m ∈ msgs.rows ∧ m.chatJid = jid ∧ upTo beforeTs m.timestamp = true := by
  have h1 := (mem_insertionSort indexLe).1 (mem_of_mem_drop h)
  obtain ⟨h1, h2⟩ := mem_filter.1 h1
  simp only [Bool.and_eq_true, decide_eq_true_eq] at h2
  exact ⟨h1, h2⟩

theorem nodup_readLatest (msgs : Table UiMessage.key) (jid : Jid) (limit : ℕ) (beforeTs : Option ℤ) :
    ((readLatest msgs jid limit beforeTs).map UiMessage.key).Nodup := by
  have h1 := msgs.nodup.sublist ((filter_sublist (p := fun m : UiMessage =>
    m.chatJid = jid && upTo beforeTs m.timestamp)).map UiMessage.key)
  have h2 := (((perm_insertionSort indexLe (msgs.rows.filter (fun m : UiMessage =>
    m.chatJid = jid && upTo beforeTs m.timestamp))).map UiMessage.key).nodup_iff).2 h1
  exact h2.sublist ((drop_sublist _ _).map UiMessage.key)

theorem mem_objs {ref : ℕ} {l : List UiMessage} (h : o ∈ objs ref l) : o.msg ∈ l := by
  rw [← map_msg_objs ref l]; exact mem_map_of_mem h

/-- The rows of a page are a list that a chat may hold. -/
theorem listOK_of_nodup {arr : List Obj} (hc : ∀ o ∈ arr, o.msg.chatJid = jid)
    (hn : (arr.map (fun o => o.msg.id)).Nodup) : ListOK jid arr := by
  refine ⟨hc, ?_⟩
  have := pairwise_map.1 hn
  exact this.imp fun hab he => absurd he hab

theorem nodup_ids_readLatest (msgs : Table UiMessage.key) (jid : Jid) (limit : ℕ) (beforeTs : Option ℤ) :
    ((readLatest msgs jid limit beforeTs).map (·.id)).Nodup := by
  have hc : ∀ m ∈ readLatest msgs jid limit beforeTs, m.chatJid = jid := fun m hm => (mem_readLatest hm).2.1
  have hn := pairwise_map.1 (nodup_readLatest msgs jid limit beforeTs)
  refine pairwise_map.2 (hn.imp_of_mem ?_)
  intro a b ha hb hab he
  exact hab (by rw [UiMessage.key, UiMessage.key, hc a ha, hc b hb, he])

theorem map_id_objs (ref : ℕ) (l : List UiMessage) : (objs ref l).map (fun o => o.msg.id) = l.map (·.id) := by
  conv_rhs => rw [← map_msg_objs ref l]
  rw [map_map]
  rfl

/-! ## Queued writes -/

theorem mem_pendingFor {q : Queue} : o ∈ pendingFor q jid beforeTs ↔
    (q.pending.get o.key = some (.put o) ∨ q.pending.get o.key = some (.add o)) ∧
      o.msg.chatJid = jid ∧ upTo beforeTs o.msg.timestamp = true := by
  unfold pendingFor
  rw [mem_filterMap]
  constructor
  · rintro ⟨op, hop, he⟩
    cases op with
    | put =>
      simp only [Option.ite_none_right_eq_some, Bool.and_eq_true, decide_eq_true_eq] at he
      obtain ⟨he, hm⟩ := he
      cases hm
      exact ⟨.inl (Table.get_of_mem hop), he⟩
    | add =>
      simp only [Option.ite_none_right_eq_some, Bool.and_eq_true, decide_eq_true_eq] at he
      obtain ⟨he, hm⟩ := he
      cases hm
      exact ⟨.inr (Table.get_of_mem hop), he⟩
    | del => cases he
  · rintro ⟨h, hc, ht⟩
    rcases h with h | h
    · exact ⟨.put o, Table.get_mem h, by simp [hc, ht]⟩
    · exact ⟨.add o, Table.get_mem h, by simp [hc, ht]⟩

/-- The last of several sets wins. -/
theorem get_foldl_set {α κ : Type} [DecidableEq κ] {key : α → κ} (l : List α) :
    ∀ (t : Table key) (i : κ),
      (l.foldl Table.set t).get i = (l.reverse.find? (fun a => key a = i)).or (t.get i) := by
  induction l with
  | nil => intro t i; rfl
  | cons a l ih =>
    intro t i
    rw [foldl_cons, ih, Table.get_set, reverse_cons, find?_append]
    by_cases h : key a = i <;> simp [h]

/-- **What a read returns**: a queued write of the message, or its row. -/
theorem mem_loadLatestMessages (h : o ∈ loadLatestMessages w jid limit beforeTs) :
    o.msg.chatJid = jid ∧
      (((w.q.pending.get o.key = some (.put o) ∨ w.q.pending.get o.key = some (.add o)) ∧
          upTo beforeTs o.msg.timestamp = true) ∨
        w.msgs.get o.key = some o.msg ∧ ∀ m : Obj, m ∈ pendingFor w.q jid beforeTs → m.key ≠ o.key) := by
  have hrow : ∀ o ∈ objs w.nextRef (readLatest w.msgs jid limit beforeTs),
      o.msg.chatJid = jid ∧ w.msgs.get o.key = some o.msg := by
    intro o ho
    obtain ⟨h1, h2, -⟩ := mem_readLatest (mem_objs ho)
    exact ⟨h2, Table.get_of_mem h1⟩
  unfold loadLatestMessages mergePending at h
  split at h
  · rename_i hempty
    obtain ⟨h1, h2⟩ := hrow o h
    refine ⟨h1, .inr ⟨h2, fun m hm => ?_⟩⟩
    rw [List.isEmpty_iff.1 hempty] at hm
    simp at hm
  · have h1 := mem_of_mem_drop h
    rw [sortByTime, mem_insertionSort] at h1
    have h2 := Table.get_of_mem h1
    rw [get_foldl_set, reverse_append, find?_append] at h2
    cases he : (pendingFor w.q jid beforeTs).reverse.find? (fun a => a.msg.id = o.msg.id) with
    | some =>
      rw [he] at h2
      cases h2
      have hx := mem_pendingFor.1 (mem_reverse.1 (mem_of_find?_eq_some he))
      exact ⟨hx.2.1, .inl ⟨hx.1, hx.2.2⟩⟩
    | none =>
      rw [he, Option.none_or, Table.get_empty, Option.or_none] at h2
      obtain ⟨h3, h4⟩ := hrow o (mem_reverse.1 (mem_of_find?_eq_some h2))
      refine ⟨h3, .inr ⟨h4, fun m hm hk => ?_⟩⟩
      rw [find?_eq_none] at he
      exact he m (mem_reverse.2 hm) (decide_eq_true (congrArg Key.id hk : m.msg.id = o.msg.id))

/-- A read returns a message once. -/
theorem nodup_loadLatest (w : World) (jid : Jid) (limit : ℕ) (beforeTs : Option ℤ) :
    ((loadLatestMessages w jid limit beforeTs).map (fun o => o.msg.id)).Nodup := by
  unfold loadLatestMessages mergePending
  split
  · rw [map_id_objs]
    exact nodup_ids_readLatest w.msgs jid limit beforeTs
  · generalize (objs w.nextRef (readLatest w.msgs jid limit beforeTs) ++
      pendingFor w.q jid beforeTs).foldl Table.set
        (Table.empty : Table (fun o : Obj => o.msg.id)) = byId
    have := (((perm_insertionSort (fun a b : Obj => a.msg.timestamp ≤ b.msg.timestamp)
      byId.rows).map (fun o : Obj => o.msg.id)).nodup_iff).2 byId.nodup
    exact this.sublist ((drop_sublist _ _).map _)

theorem listOK_loadLatest (w : World) (jid : Jid) (limit : ℕ) (beforeTs : Option ℤ) :
    ListOK jid (loadLatestMessages w jid limit beforeTs) :=
  listOK_of_nodup (fun _ ho => (mem_loadLatestMessages ho).1) (nodup_loadLatest w jid limit beforeTs)

/-! ## Paging in -/

/-- The lists after a page. -/
theorem messagesFor_loadOlderDone (w : World) (jid : Jid) (limit : ℕ) (beforeTs : Option ℤ) :
    ∃ l, l.Perm ((loadLatestMessages w jid limit beforeTs).filter
        (fun o => !hasId (messagesFor w jid) o.msg.id) ++ messagesFor w jid) ∧
      ∀ j, messagesFor (loadOlderDone w jid limit beforeTs) j = if j = jid then l else messagesFor w j := by
  unfold loadOlderDone
  dsimp only
  generalize (loadLatestMessages w jid limit beforeTs).filter
    (fun o => !hasId (messagesFor w jid) o.msg.id) = fresh
  cases hf : fresh.isEmpty with
  | true =>
    rw [List.isEmpty_iff.1 hf]
    refine ⟨messagesFor w jid, .refl _, fun j => ?_⟩
    change messagesFor w j = _
    by_cases hj : j = jid
    · rw [if_pos hj, hj]
    · rw [if_neg hj]
  | false =>
    exact ⟨_, sortByTime_perm _, fun j => messagesFor_update w.byChat _⟩

theorem listOK_page (h : w.Wf) (jid : Jid) (limit : ℕ) (beforeTs : Option ℤ) :
    ListOK jid ((loadLatestMessages w jid limit beforeTs).filter
      (fun o => !hasId (messagesFor w jid) o.msg.id) ++ messagesFor w jid) := by
  have h1 := (listOK_loadLatest w jid limit beforeTs).sublist
    (filter_sublist (p := fun o => !hasId (messagesFor w jid) o.msg.id))
  refine ⟨fun o ho => ?_, pairwise_append.2 ⟨h1.ids, (h jid).ids, fun a ha b hb he => ?_⟩⟩
  · rcases mem_append.1 ho with ho | ho
    · exact h1.chat o ho
    · exact (h jid).chat o ho
  · have := (mem_filter.1 ha).2
    rw [hasId_eq, Bool.not_eq_true', Option.isSome_eq_false_iff, Option.isNone_iff_eq_none] at this
    exact absurd he.symm (findId_eq_none.1 this b hb)

/-- What filling in messages from the database does to a slot. -/
def Loaded (P : Obj → Prop) (k : Key) (s s' : Slot) : Prop :=
  s' = s ∨ s.resident = none ∧ ∃ o, P o ∧ o.key = k ∧ s' = ⟨some o, s.stored⟩

/-- **A page** fills in rows that are not resident. -/
theorem loadOlderDone_spec (h : w.Wf) (jid : Jid) (limit : ℕ) (beforeTs : Option ℤ) :
    Sync w (loadOlderDone w jid limit beforeTs) ∧ (loadOlderDone w jid limit beforeTs).Wf ∧
      ∀ k : Key, k.id ≠ "" → Loaded (· ∈ loadLatestMessages w jid limit beforeTs) k (w.slot k)
        ((loadOlderDone w jid limit beforeTs).slot k) := by
  obtain ⟨l, hl, hm⟩ := messagesFor_loadOlderDone w jid limit beforeTs
  have hok := listOK_page h jid limit beforeTs
  have hp : Publishes w (loadOlderDone w jid limit beforeTs) jid
      ((loadLatestMessages w jid limit beforeTs).filter
        (fun o => !hasId (messagesFor w jid) o.msg.id) ++ messagesFor w jid) :=
    ⟨l, l, hl, .refl _, hm⟩
  refine ⟨.of_same, hp.wf h hok, fun k hid => ?_⟩
  by_cases hj : k.chatJid = jid
  · have hres : ((loadOlderDone w jid limit beforeTs).slot k).resident =
        findId ((loadLatestMessages w jid limit beforeTs).filter
          (fun o => !hasId (messagesFor w jid) o.msg.id) ++ messagesFor w jid) k.id := by
      rw [slot_resident, hm, if_pos hj, findId_perm hok hid hl.symm]
    rw [findId_append] at hres
    have hw : (w.slot k).resident = findId (messagesFor w jid) k.id := by rw [slot_resident, hj]
    cases hf : findId ((loadLatestMessages w jid limit beforeTs).filter
        (fun o => !hasId (messagesFor w jid) o.msg.id)) k.id with
    | none =>
      rw [hf, Option.none_or, ← hw] at hres
      exact .inl (Slot.ext hres rfl)
    | some o =>
      obtain ⟨ho, hn⟩ := mem_filter.1 (findId_mem hf)
      have hi := findId_id hf
      have hc := (mem_loadLatestMessages ho).1
      rw [hf] at hres
      refine .inr ⟨?_, o, ho, by rw [Obj.key, UiMessage.key, hi, hc, ← hj], Slot.ext hres rfl⟩
      rw [hw, ← hi]
      simpa [hasId_eq] using hn
  · exact .inl (Slot.ext (hp.resident_of_ne hj) rfl)

/-! ## Boot tails -/

theorem mem_tailRows {n : ℕ} : ∀ (jids : List Jid) (ref : ℕ), o ∈ (tailRows w n ref jids).1 →
    ∃ jid ∈ jids, ∃ ref', o ∈ loadLatestMessages { w with nextRef := ref' } jid n none := by
  intro jids
  induction jids with
  | nil => intro ref h; simp [tailRows] at h
  | cons jid jids ih =>
    intro ref h
    simp only [tailRows, mem_append] at h
    rcases h with h | h
    · exact ⟨jid, mem_cons_self, ref, h⟩
    · obtain ⟨j, hj, ref', h'⟩ := ih _ h
      exact ⟨j, mem_cons_of_mem _ hj, ref', h'⟩

/-- **Boot tails** fill in rows that are not resident, then flag unread messages. -/
theorem loadTailsDone_spec (h : w.Wf) (jids : List Jid) (n : ℕ) :
    ∃ w₁ : World, Sync w w₁ ∧ w₁.Wf ∧ ∀ k : Key, k.id ≠ "" →
      Loaded (· ∈ (tailRows w n w.nextRef jids).1) k (w.slot k) (w₁.slot k) ∧
      Quiet (k.chatJid ∈ jids) k w₁ (loadTailsDone w jids n) := by
  have hsame := Same.ref w (tailRows w n w.nextRef jids).2
  obtain ⟨w₁, hs, hwf, hk⟩ := addHistoryMessages_spec (hsame.wf h) (tailRows w n w.nextRef jids).1 false
  refine ⟨w₁, hsame.sync.trans hs, hwf, fun k hid => ⟨?_, (hk k hid).2.mono ?_⟩⟩
  swap
  · rintro ⟨o, ho, hc⟩
    obtain ⟨jid, hj, ref, ho⟩ := mem_tailRows jids _ ho
    have hjid : o.msg.chatJid = jid := (mem_loadLatestMessages ho).1
    rwa [← hc, hjid]
  have hp := (hk k hid).1
  rw [hsame.slot] at hp
  rcases hp with hp | ⟨hn, o, ho, hok, -, hs⟩
  · exact .inl hp
  · exact .inr ⟨hn, o, ho, hok, hs⟩

/-! ## Where a row comes from -/

/-- A row that a read returns is a queued write in its range, or else the stored record. -/
def Row (w : World) (beforeTs : Option ℤ) (o : Obj) : Prop :=
  ((w.q.pending.get o.key = some (.put o) ∨ w.q.pending.get o.key = some (.add o)) ∧
      upTo beforeTs o.msg.timestamp = true) ∨
    w.msgs.get o.key = some o.msg ∧ ∀ m : Obj, (w.q.pending.get o.key = some (.put m) ∨
      w.q.pending.get o.key = some (.add m)) → upTo beforeTs m.msg.timestamp = false

theorem row_of_load (h : o ∈ loadLatestMessages w jid limit beforeTs) : Row w beforeTs o := by
  obtain ⟨hc, h | ⟨h, hn⟩⟩ := mem_loadLatestMessages h
  · exact .inl h
  · refine .inr ⟨h, fun m hm => ?_⟩
    have hk : m.key = o.key := by
      rcases hm with hm | hm <;> exact get_op_key hm
    by_contra ht
    refine hn m (mem_pendingFor.2 ⟨hk ▸ hm, ?_, by simpa using ht⟩) hk
    exact (congrArg Key.chatJid hk).trans hc

theorem row_of_tail {n : ℕ} (jids : List Jid) (ref : ℕ) (h : o ∈ (tailRows w n ref jids).1) :
    Row w none o := by
  obtain ⟨jid, -, ref', h⟩ := mem_tailRows jids ref h
  have hrow := row_of_load h
  exact hrow

end Whatsvelte
