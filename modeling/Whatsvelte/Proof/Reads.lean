import Whatsvelte.Lib.Pages
import Whatsvelte.Proof.Sorted

/-!
# Reads of the history

`loadLatestMessages` and `loadTails` look into the database and then into the write queue. A
write that a flush has taken out of the queue and not yet committed is in neither. So a read is
complete (`reads_complete`) when, up to its cursor, no outstanding transaction is about the chat
and the queued operations of the chat do not move what the database counts: no delete of a stored
message, no write that changes a timestamp. What a read answers is a page of the stored and the
queued records together, whatever is outstanding (`isPage_merged`).
-/

namespace Whatsvelte

open List Table

variable {w : World} {k : Key} {jid : Jid} {id : MsgId} {limit : ℕ} {beforeTs : Option ℤ} {o : Obj}
  {m : UiMessage}
variable {ops : Table PendingOp.key} {c : Call}

/-- The record of the message is one of the newest `limit` of its chat up to `beforeTs`: at most
`limit` are as new as it. -/
def Newest (H : History) (jid : Jid) (limit : ℕ) (beforeTs : Option ℤ) (id : MsgId) : Prop :=
  ∀ m, H ⟨jid, id⟩ = some m → upTo beforeTs m.timestamp = true ∧
    {i : MsgId | ∃ r, H ⟨jid, i⟩ = some r ∧ upTo beforeTs r.timestamp = true ∧
      m.timestamp ≤ r.timestamp}.encard ≤ limit

/-- A queued operation that leaves the place of a stored record in the history. -/
def PendingOp.agrees (stored : Option UiMessage) : PendingOp → Bool
  | .put o => stored.all (fun r => r.timestamp = o.msg.timestamp)
  | .add o => stored.all (fun r => r.timestamp = o.msg.timestamp)
  | .del _ _ => stored.isNone

/-- No outstanding transaction is about the message, and its queued operation leaves its place. -/
structure InPlace (w : World) (k : Key) : Prop where
  settled : ∀ job ∈ w.jobs, job.touches k = false
  agrees : ∀ op, w.q.pending.get k = some op → op.agrees (w.msgs.get k) = true

/-- The queue writes `m`. -/
def World.queues (w : World) (k : Key) (m : UiMessage) : Prop :=
  ∃ o : Obj, (w.q.pending.get k = some (.put o) ∨ w.q.pending.get k = some (.add o)) ∧ o.msg = m

/-- A read of the chat up to `beforeTs` sees all of it: every message that is, or will be, in its
range is in place. -/
def ReadSafe (w : World) (jid : Jid) (beforeTs : Option ℤ) : Prop :=
  ∀ id m, w.msgs.get ⟨jid, id⟩ = some m ∨ w.queues ⟨jid, id⟩ m ∨ w.eff ⟨jid, id⟩ = some m →
    upTo beforeTs m.timestamp = true → InPlace w ⟨jid, id⟩

/-! ## What the history holds -/

namespace InPlace

theorem base (h : InPlace w k) : w.base k = w.msgs.get k := jobsEff_inert h.settled

/-- A stored record is in the history at its time. -/
theorem stored (h : InPlace w k) (hm : w.msgs.get k = some m) :
    ∃ r, w.eff k = some r ∧ r.timestamp = m.timestamp := by
  rw [eff_apply, h.base, hm]
  cases hop : w.q.pending.get k with
  | none => exact ⟨m, rfl, rfl⟩
  | some op =>
    have hag := h.agrees op hop
    rw [hm] at hag
    cases op with
    | put => exact ⟨_, rfl, (of_decide_eq_true hag).symm⟩
    | add => exact ⟨m, rfl, rfl⟩
    | del => cases hag

/-- So is a queued write. -/
theorem queued (h : InPlace w k) (hm : w.queues k m) : ∃ r, w.eff k = some r ∧ r.timestamp = m.timestamp := by
  obtain ⟨o, ho | ho, rfl⟩ := hm
  · rw [eff_apply, ho]
    exact ⟨_, rfl, rfl⟩
  · have hag := h.agrees _ ho
    rw [eff_apply, h.base, ho]
    cases hm : w.msgs.get k with
    | none => exact ⟨_, rfl, rfl⟩
    | some r =>
      rw [hm] at hag
      exact ⟨r, rfl, of_decide_eq_true hag⟩

/-- What the history holds is queued, or it is stored and nothing about it is queued. -/
theorem found (h : InPlace w k) (hm : w.eff k = some m) :
    (∃ r, w.queues k r ∧ r.timestamp = m.timestamp) ∨ w.q.pending.get k = none ∧ w.msgs.get k = some m := by
  rw [eff_apply, h.base] at hm
  cases hop : w.q.pending.get k with
  | none =>
    rw [hop] at hm
    exact .inr ⟨rfl, hm⟩
  | some op =>
    have hag := h.agrees op hop
    rw [hop] at hm
    cases op with
    | put o => cases hm; exact .inl ⟨_, ⟨o, .inl hop, rfl⟩, rfl⟩
    | add o =>
      refine .inl ⟨_, ⟨o, .inr hop, rfl⟩, ?_⟩
      cases hs : w.msgs.get k with
      | none => rw [hs] at hm; cases hm; rfl
      | some =>
        rw [hs] at hm hag
        cases hm
        exact (of_decide_eq_true hag).symm
    | del => cases hm

end InPlace

/-! ## The rows of a read -/

/-- The index is sorted by time and id. -/
theorem pairwise_index (l : List UiMessage) : (l.insertionSort indexLe).Pairwise indexLe := by
  have htotal : Std.Total indexLe := by
    refine ⟨fun a b => ?_⟩
    rcases lt_trichotomy a.timestamp b.timestamp with h | h | h
    · exact .inl (.inl h)
    · rcases String.le_total a.id b.id with hid | hid
      · exact .inl (.inr ⟨h, String.not_lt.2 hid⟩)
      · exact .inr (.inr ⟨h.symm, String.not_lt.2 hid⟩)
    · exact .inr (.inl h)
  have htrans : IsTrans UiMessage indexLe := by
    refine ⟨fun a b c hab hbc => ?_⟩
    rcases hab with hab | ⟨hab, hid⟩
    · rcases hbc with hbc | ⟨hbc, -⟩
      · exact .inl (hab.trans hbc)
      · exact .inl (hab.trans_eq hbc)
    · rcases hbc with hbc | ⟨hbc, hid'⟩
      · exact .inl (hab.trans_lt hbc)
      · exact .inr ⟨hab.trans hbc,
          String.not_lt.2 (String.le_trans (String.not_lt.1 hid) (String.not_lt.1 hid'))⟩
  exact pairwise_insertionSort indexLe l

theorem le_of_indexLe {a b : UiMessage} (h : indexLe a b) : a.timestamp ≤ b.timestamp := by
  rcases h with h | ⟨h, -⟩ <;> exact h.le

theorem sorted_index (l : List UiMessage) :
    (l.insertionSort indexLe).Pairwise (fun a b => a.timestamp ≤ b.timestamp) :=
  (pairwise_index l).imp le_of_indexLe

/-- What `loadLatestMessages` returns. -/
def readAnswer (w : World) (jid : Jid) (limit : ℕ) (beforeTs : Option ℤ) : List UiMessage :=
  (loadLatestMessages w jid limit beforeTs).map (·.msg)

/-- The rows of a chat up to a time, in the order of the index. -/
def rowsUpTo (msgs : Table UiMessage.key) (jid : Jid) (beforeTs : Option ℤ) : List UiMessage :=
  (msgs.rows.filter (fun m => m.chatJid = jid && upTo beforeTs m.timestamp)).insertionSort indexLe

/-- The queued writes of a chat up to a time. -/
def queuedWrites (w : World) (jid : Jid) (beforeTs : Option ℤ) : List UiMessage :=
  (pendingFor w.q jid beforeTs).map (·.msg)

theorem readLatest_eq (msgs : Table UiMessage.key) :
    readLatest msgs jid limit beforeTs = lastN limit (rowsUpTo msgs jid beforeTs) := rfl

/-- The rows and the writes that a read merges. -/
def merged (w : World) (jid : Jid) (limit : ℕ) (beforeTs : Option ℤ) : List UiMessage :=
  (readLatest w.msgs jid limit beforeTs).filter
      (fun m => !(queuedWrites w jid beforeTs).any (fun x => x.id = m.id)) ++
    queuedWrites w jid beforeTs

/-- A chat has one row for an id. -/
theorem eq_of_mem_rows {r : UiMessage} (hm : m ∈ w.msgs.rows) (hr : r ∈ w.msgs.rows) (hc : r.chatJid = m.chatJid)
    (hid : r.id = m.id) : r = m := by
  have hkey : r.key = m.key := by rw [UiMessage.key, UiMessage.key, hc, hid]
  have hget := Table.get_of_mem hr
  rw [hkey, Table.get_of_mem hm] at hget
  exact (Option.some.inj hget).symm

/-- A chat has one queued write for an id. -/
theorem eq_of_mem_pendingFor {x : Obj} (hx : x ∈ pendingFor w.q jid beforeTs)
    (ho : o ∈ pendingFor w.q jid beforeTs) (hid : x.msg.id = o.msg.id) : x = o := by
  obtain ⟨hx, hxc, -⟩ := mem_pendingFor.1 hx
  obtain ⟨ho, hoc, -⟩ := mem_pendingFor.1 ho
  have hkey : x.key = o.key := by
    rw [Obj.key, Obj.key, UiMessage.key, UiMessage.key, hxc, hoc, hid]
  rw [hkey] at hx
  rcases hx with hx | hx <;> rcases ho with ho | ho <;> rw [hx] at ho <;> cases ho <;> rfl

theorem mem_queuedWrites : m ∈ queuedWrites w jid beforeTs ↔ ∃ o ∈ pendingFor w.q jid beforeTs, o.msg = m :=
  mem_map

/-- What `merged` holds. -/
theorem mem_merged : m ∈ merged w jid limit beforeTs ↔ m ∈ queuedWrites w jid beforeTs ∨
    m ∈ readLatest w.msgs jid limit beforeTs ∧ ∀ x ∈ queuedWrites w jid beforeTs, x.id ≠ m.id := by
  simp [merged, or_comm]

theorem nodup_queuedWrites (w : World) : ((queuedWrites w jid beforeTs).map (·.id)).Nodup := by
  rw [queuedWrites, map_map, List.Nodup, pairwise_map]
  have hops : w.q.pending.rows.Pairwise (fun a b => a.key ≠ b.key) := pairwise_map.1 w.q.pending.nodup
  refine pairwise_filterMap.2 (hops.imp fun {a b} hab x hx y hy hid => hab ?_)
  -- the operation of a write has its key, and both are writes of this chat
  have hkey : ∀ {op : PendingOp} {z : Obj}, (match op with
      | .put m => if m.msg.chatJid = jid && upTo beforeTs m.msg.timestamp then some m else none
      | .add m => if m.msg.chatJid = jid && upTo beforeTs m.msg.timestamp then some m else none
      | .del _ _ => none) = some z → op.key = ⟨jid, z.msg.id⟩ := by
    intro op z h
    cases op with
    | put | add =>
      simp only [Option.ite_none_right_eq_some, Bool.and_eq_true, decide_eq_true_eq] at h
      obtain ⟨⟨hc, -⟩, hz⟩ := h
      cases hz
      rw [← hc]
      rfl
    | del => cases h
  rw [hkey hx, hkey hy]
  exact congrArg (Key.mk jid) hid

theorem nodup_merged : (merged w jid limit beforeTs).Nodup := by
  refine nodup_append.2 ⟨?_, (nodup_queuedWrites w).of_map _, ?_⟩
  · exact ((nodup_readLatest w.msgs jid limit beforeTs).of_map _).filter _
  · intro a ha b hb hab
    subst hab
    have hno := (mem_filter.1 ha).2
    simp only [Bool.not_eq_true', any_eq_false, decide_eq_true_eq] at hno
    exact hno a hb rfl

/-- The rows of the table by id are the rows and writes that a read merges. -/
theorem mem_byId_iff (ref : ℕ) :
    (∃ o ∈ ((objs ref (readLatest w.msgs jid limit beforeTs) ++ pendingFor w.q jid beforeTs).foldl Table.set
      (Table.empty : Table (fun o : Obj => o.msg.id))).rows, o.msg = m) ↔ m ∈ merged w jid limit beforeTs := by
  generalize htable : (objs ref (readLatest w.msgs jid limit beforeTs) ++ pendingFor w.q jid beforeTs).foldl
    Table.set (Table.empty : Table (fun o : Obj => o.msg.id)) = byId
  have hget : ∀ i, byId.get i = ((pendingFor w.q jid beforeTs).reverse.find? (fun o => o.msg.id = i)).or
      ((objs ref (readLatest w.msgs jid limit beforeTs)).reverse.find? (fun o => o.msg.id = i)) := by
    intro i
    rw [← htable, get_foldl_set, reverse_append, find?_append, get_empty, Option.or_none]
  rw [mem_merged]
  constructor
  · rintro ⟨o, ho, rfl⟩
    have hsome := Table.get_of_mem ho
    rw [hget] at hsome
    rcases Option.or_eq_some_iff.1 hsome with h | ⟨hnone, h⟩
    · exact .inl (mem_queuedWrites.2 ⟨o, mem_reverse.1 (mem_of_find?_eq_some h), rfl⟩)
    · refine .inr ⟨mem_objs (mem_reverse.1 (mem_of_find?_eq_some h)), fun x hx hid => ?_⟩
      obtain ⟨y, hy, rfl⟩ := mem_queuedWrites.1 hx
      exact List.find?_eq_none.1 hnone y (mem_reverse.2 hy) (decide_eq_true hid)
  · rintro (hm | ⟨hm, hno⟩)
    · obtain ⟨o, ho, rfl⟩ := mem_queuedWrites.1 hm
      cases hf : (pendingFor w.q jid beforeTs).reverse.find? (fun x => x.msg.id = o.msg.id) with
      | none => exact absurd (decide_eq_true rfl) (List.find?_eq_none.1 hf o (mem_reverse.2 ho))
      | some =>
        have hx := eq_of_mem_pendingFor (mem_reverse.1 (mem_of_find?_eq_some hf)) ho
          (by simpa using find?_some hf)
        have hsome : byId.get o.msg.id = some o := by rw [hget, hf, hx]; rfl
        exact ⟨o, Table.get_mem hsome, rfl⟩
    · have hnone : (pendingFor w.q jid beforeTs).reverse.find? (fun x => x.msg.id = m.id) = none := by
        refine List.find?_eq_none.2 fun x hx hid => ?_
        exact hno x.msg (mem_queuedWrites.2 ⟨x, mem_reverse.1 hx, rfl⟩) (of_decide_eq_true hid)
      obtain ⟨o, ho, hmsg⟩ : ∃ o ∈ objs ref (readLatest w.msgs jid limit beforeTs), o.msg = m := by
        rw [← map_msg_objs ref (readLatest w.msgs jid limit beforeTs)] at hm
        exact mem_map.1 hm
      cases hf : (objs ref (readLatest w.msgs jid limit beforeTs)).reverse.find?
          (fun x => x.msg.id = m.id) with
      | none =>
        exact absurd (decide_eq_true (congrArg UiMessage.id hmsg))
          (List.find?_eq_none.1 hf o (mem_reverse.2 ho))
      | some x =>
        have hx := mem_readLatest (mem_objs (mem_reverse.1 (mem_of_find?_eq_some hf)))
        have hrow := mem_readLatest hm
        have hsome : byId.get m.id = some x := by rw [hget, hnone, hf]; rfl
        refine ⟨x, Table.get_mem hsome, ?_⟩
        exact eq_of_mem_rows hrow.1 hx.1 (hx.2.1.trans hrow.2.1.symm) (by simpa using find?_some hf)

/-- **A read answers with a page of what it merges.** -/
theorem isPage_merged (w : World) (jid : Jid) (limit : ℕ) (beforeTs : Option ℤ) :
    IsPage UiMessage.timestamp limit {m | m ∈ merged w jid limit beforeTs} (readAnswer w jid limit beforeTs) := by
  unfold readAnswer loadLatestMessages mergePending
  split
  · -- nothing is queued: the rows of the page are the answer
    rename_i hempty
    have hnone : queuedWrites w jid beforeTs = [] := by
      rw [queuedWrites, List.isEmpty_iff.1 hempty]
      rfl
    have hmem : ∀ m, m ∈ merged w jid limit beforeTs ↔ m ∈ readLatest w.msgs jid limit beforeTs := by
      intro m
      rw [mem_merged, hnone]
      simp
    rw [map_msg_objs]
    refine ⟨(sorted_index _).sublist (lastN_sublist limit _),
      (nodup_readLatest w.msgs jid limit beforeTs).of_map _, fun m hm => (hmem m).2 hm, ?_,
      fun m hm hout => absurd ((hmem m).1 hm) hout⟩
    rw [readLatest_eq, length_lastN]
    exact Nat.min_le_left _ _
  · generalize hall : ((objs w.nextRef (readLatest w.msgs jid limit beforeTs) ++
      pendingFor w.q jid beforeTs).foldl Table.set (Table.empty : Table (fun o : Obj => o.msg.id))) = byId
    have hids : ((sortByTime byId.rows).map (fun o => o.msg.id)).Nodup :=
      ((sortByTime_perm byId.rows).map _).nodup_iff.2 byId.nodup
    have hnodup : ((sortByTime byId.rows).map (·.msg)).Nodup := by
      refine List.Nodup.of_map UiMessage.id ?_
      rwa [map_map]
    have hsorted : ((sortByTime byId.rows).map (·.msg)).Pairwise
        (fun a b => a.timestamp ≤ b.timestamp) := pairwise_map.2 (byTime_sortByTime byId.rows)
    have hpage := isPage_lastN (n := limit) hsorted hnodup
    rw [lastN, length_map, ← map_drop] at hpage
    refine hpage.of_eq fun m => ?_
    rw [Set.mem_ofPred_eq, Set.mem_ofPred_eq, ← mem_byId_iff w.nextRef, hall, mem_map]
    simp only [sortByTime, mem_insertionSort]

theorem mem_rowsUpTo : m ∈ rowsUpTo w.msgs jid beforeTs ↔
    m ∈ w.msgs.rows ∧ m.chatJid = jid ∧ upTo beforeTs m.timestamp = true := by
  simp [rowsUpTo]

theorem nodup_rowsUpTo (w : World) (jid : Jid) (beforeTs : Option ℤ) : (rowsUpTo w.msgs jid beforeTs).Nodup := by
  have hall := nodup_readLatest w.msgs jid (rowsUpTo w.msgs jid beforeTs).length beforeTs
  rw [readLatest_eq, lastN, Nat.sub_self, List.drop_zero] at hall
  exact hall.of_map _

/-- What a read merges: a record of the chat, in range, that the history holds at its time. -/
def Counted (w : World) (jid : Jid) (beforeTs : Option ℤ) (m : UiMessage) : Prop :=
  m.chatJid = jid ∧ upTo beforeTs m.timestamp = true ∧
    ∃ r, w.eff ⟨jid, m.id⟩ = some r ∧ r.timestamp = m.timestamp

theorem counted_row (h : ReadSafe w jid beforeTs) (hm : m ∈ rowsUpTo w.msgs jid beforeTs) :
    Counted w jid beforeTs m := by
  obtain ⟨hm, hc, ht⟩ := mem_rowsUpTo.1 hm
  have hget : w.msgs.get ⟨jid, m.id⟩ = some m := by
    rw [← hc]
    exact Table.get_of_mem hm
  exact ⟨hc, ht, (h _ m (.inl hget) ht).stored hget⟩

theorem counted_merged (h : ReadSafe w jid beforeTs) (hm : m ∈ merged w jid limit beforeTs) :
    Counted w jid beforeTs m := by
  rcases mem_merged.1 hm with hm | ⟨hm, -⟩
  · obtain ⟨o, ho, rfl⟩ := mem_queuedWrites.1 hm
    obtain ⟨hop, hc, ht⟩ := mem_pendingFor.1 ho
    have hq : w.queues ⟨jid, o.msg.id⟩ o.msg := by
      rw [← hc]
      exact ⟨o, hop, rfl⟩
    exact ⟨hc, ht, (h _ _ (.inr (.inl hq)) ht).queued hq⟩
  · exact counted_row h (mem_of_mem_lastN hm)

/-- **A read is complete**: one of the newest messages is in the result. -/
theorem mem_loadLatest_of_newest (h : ReadSafe w jid beforeTs) (hm : w.eff ⟨jid, id⟩ = some m)
    (hn : Newest w.eff jid limit beforeTs id) :
    ∃ o ∈ loadLatestMessages w jid limit beforeTs, o.key = ⟨jid, id⟩ := by
  obtain ⟨hup, hcard⟩ := hn m hm
  have hS : ∀ r, Counted w jid beforeTs r → m.timestamp ≤ r.timestamp →
      r.id ∈ {i : MsgId | ∃ r, w.eff ⟨jid, i⟩ = some r ∧ upTo beforeTs r.timestamp = true ∧
        m.timestamp ≤ r.timestamp} := by
    rintro r ⟨-, ht, r', hr', hrt⟩ hle
    exact ⟨r', hr', hrt ▸ ht, hrt ▸ hle⟩
  -- a queued write of the message is merged, or its row
  obtain ⟨x, hx, hid, ht⟩ : ∃ x ∈ merged w jid limit beforeTs, x.id = id ∧ x.timestamp = m.timestamp := by
    rcases (h id m (.inr (.inr hm)) hup).found hm with ⟨_, ⟨o, hop, rfl⟩, ht⟩ | ⟨hq, hstored⟩
    · have hk : o.key = ⟨jid, id⟩ := by
        rcases hop with hop | hop <;> exact get_op_key hop
      have ho : o ∈ pendingFor w.q jid beforeTs :=
        mem_pendingFor.2 ⟨hk ▸ hop, congrArg Key.chatJid hk, by rwa [ht]⟩
      exact ⟨o.msg, mem_merged.2 (.inl (mem_queuedWrites.2 ⟨o, ho, rfl⟩)), congrArg Key.id hk, ht⟩
    · have hk : m.key = ⟨jid, id⟩ := get_key hstored
      have hrow := mem_rowsUpTo.2 ⟨Table.get_mem hstored, congrArg Key.chatJid hk, hup⟩
      obtain ⟨r, hr, hrm⟩ := (isPage_lastN (sorted_index _)
        (nodup_rowsUpTo w jid beforeTs)).exists_of_encard hrow (nodup_ids_readLatest w.msgs jid limit beforeTs)
        (fun r hr => hS r (counted_row h hr)) hcard
      obtain ⟨hr', hrc, -⟩ := mem_readLatest hr
      obtain rfl := eq_of_mem_rows (Table.get_mem hstored) hr' (hrc.trans (congrArg Key.chatJid hk).symm) hrm
      refine ⟨r, mem_merged.2 (.inr ⟨hr, fun x hx hxr => ?_⟩), congrArg Key.id hk, rfl⟩
      obtain ⟨o, ho, rfl⟩ := mem_queuedWrites.1 hx
      obtain ⟨hop, hc, -⟩ := mem_pendingFor.1 ho
      rw [Obj.key, UiMessage.key, hc, hxr, show r.id = id from congrArg Key.id hk, hq] at hop
      rcases hop with hop | hop <;> cases hop
  have hnodup : ((readAnswer w jid limit beforeTs).map (·.id)).Nodup := by
    rw [readAnswer, map_map]
    exact nodup_loadLatest w jid limit beforeTs
  obtain ⟨y, hy, hyx⟩ := (isPage_merged w jid limit beforeTs).exists_of_encard hx hnodup
    (fun r hr hle => hS r (counted_merged h hr) (ht ▸ hle)) hcard
  obtain ⟨o, ho, rfl⟩ := mem_map.1 hy
  refine ⟨o, ho, ?_⟩
  rw [Obj.key, UiMessage.key, (mem_loadLatestMessages ho).1, hyx, hid]

/-! ## Calls of `persist.ts` -/

/-- A call of `persist.ts`, or a move of the transaction queue. -/
inductive Call
  | persistMessage (m : Obj)
  | persistMessageInsert (m : Obj)
  | persistMessageDelete (chatJid : Jid) (id : MsgId)
  | flushMessages
  | loadLatestMessages (jid : Jid) (limit : ℕ) (beforeTs : Option ℤ)
  | loadTails (jids : List Jid) (n : ℕ)
  | openNext
  | advance
  deriving DecidableEq

/-- The state of `persist.ts` after a call. An answer goes to the caller of the read. -/
def World.call (w : World) : Call → World
  | .persistMessage m => { w with q := Whatsvelte.persistMessage w.q m }
  | .persistMessageInsert m => { w with q := Whatsvelte.persistMessageInsert w.q m }
  | .persistMessageDelete chatJid id =>
    { w with q := Whatsvelte.persistMessageDelete w.q chatJid id }
  | .flushMessages => Whatsvelte.flushMessages w
  | .loadLatestMessages jid limit beforeTs => w.enqueue (.page jid limit beforeTs)
  | .loadTails jids n => if jids.isEmpty || n = 0 then w else w.enqueue (.tails jids n)
  | .openNext => Whatsvelte.openNext w
  | .advance =>
    match w.txq with
    | ⟨_, true, .page _ _ _, _⟩ :: later => { w with txq := later }
    | ⟨_, true, .tails _ _, _⟩ :: later => { w with txq := later }
    | _ => Whatsvelte.advance w

/-- A read is about to answer, with these rows for the chat. -/
inductive Answers (w : World) : Jid → ℕ → Option ℤ → List Obj → Prop
  | page {tid : ℕ} {jid : Jid} {limit : ℕ} {beforeTs : Option ℤ} {c : List Chat} {later : List Txn}
      (h : w.txq = ⟨tid, true, .page jid limit beforeTs, c⟩ :: later) :
      Answers w jid limit beforeTs (loadLatestMessages w jid limit beforeTs)
  | tails {tid n : ℕ} {jid : Jid} {jids : List Jid} {c : List Chat} {later : List Txn}
      (h : w.txq = ⟨tid, true, .tails jids n, c⟩ :: later) (hj : jid ∈ jids) :
      Answers w jid n none (tailRows w n w.nextRef jids).1

/-- The call queues a write of the message. -/
def Call.writes (k : Key) : Call → Bool
  | .persistMessage m => persistable m.msg && m.key = k
  | .persistMessageInsert m => persistable m.msg && m.key = k
  | _ => false

def Call.deletes (k : Key) : Call → Bool
  | .persistMessageDelete chatJid id => (⟨chatJid, id⟩ : Key) = k
  | _ => false

/-- An operation that leaves a record under its key. -/
def PendingOp.keeps : PendingOp → Bool
  | .del _ _ => false
  | _ => true

/-- A read, or a flush of this epoch that does not delete the message. -/
def Job.spares (epoch : ℕ) (k : Key) : Job → Prop
  | .flush started ops => started = epoch ∧ ∀ op, ops.get k = some op → op.keeps = true
  | .page _ _ _ => True
  | .tails _ _ => True
  | _ => False

/-- Nothing outstanding deletes the message. -/
structure Spared (k : Key) (w : World) : Prop where
  jobs : ∀ job ∈ w.jobs, job.spares w.epoch k
  queue : ∀ op, w.q.pending.get k = some op → op.keeps = true

/-- The message is queued, in flight or stored. -/
def Present (k : Key) (w : World) : Prop :=
  w.q.pending.has k = true ∨ (∃ job ∈ w.jobs, job.touches k = true) ∨ (w.msgs.get k).isSome

theorem isSome_opsEff {H : History}
    (hk : ∀ op, ops.get k = some op → op.keeps = true) (h : ops.has k = true ∨ (H k).isSome) :
    (opsEff ops H k).isSome := by
  unfold opsEff
  cases hop : ops.get k with
  | none =>
    rw [Table.has, hop] at h
    exact h.resolve_left Bool.false_ne_true
  | some op =>
    have hkeep := hk op hop
    cases op with
    | put => rfl
    | add => exact Option.isSome_or.trans (Bool.or_true _)
    | del => cases hkeep

/-! ### Nothing deletes the message -/

theorem Spared.of_queue (h : Spared k w) {q : Queue}
    (hq : ∀ op, q.pending.get k = some op → op.keeps = true) : Spared k { w with q := q } :=
  ⟨h.jobs, hq⟩

theorem Spared.enqueue (h : Spared k w) {job : Job} (hj : job.spares w.epoch k) :
    Spared k (w.enqueue job) := by
  refine ⟨fun job' hjob => ?_, h.queue⟩
  rw [jobs_enqueue] at hjob
  rcases mem_append.1 hjob with hjob | hjob
  · exact h.jobs job' hjob
  · rwa [mem_singleton.1 hjob]

theorem Spared.fewer (h : Spared k w) {v : World} (hq : v.q.pending = w.q.pending)
    (he : v.epoch = w.epoch) (hj : ∀ t ∈ v.txq, t.job.spares w.epoch k) : Spared k v := by
  refine ⟨fun job hjob => ?_, fun op hop => h.queue op (hq ▸ hop)⟩
  obtain ⟨t, ht, rfl⟩ := mem_map.1 hjob
  rw [he]
  exact hj t ht

theorem Spared.txn (h : Spared k w) {t : Txn} (ht : t ∈ w.txq) : t.job.spares w.epoch k :=
  h.jobs t.job (mem_map_of_mem ht)

theorem Job.spares.not_stale {job : Job} {epoch : ℕ} (h : job.spares epoch k) : job.stale epoch = false := by
  cases job with
  | flush => simp [Job.stale, h.1]
  | page | tails => rfl
  | _ => exact h.elim

/-- `openNext` only marks a transaction as open. -/
theorem openNext_of_spared (h : Spared k w) : (openNext w).jobs = w.jobs ∧
    (openNext w).q = w.q ∧ (openNext w).epoch = w.epoch ∧ (openNext w).msgs = w.msgs := by
  obtain ⟨txq, he, hjobs, -⟩ := openNext_fresh fun t ht => (h.txn ht).not_stale
  rw [he]
  exact ⟨hjobs, rfl, rfl, rfl⟩

/-- The head of the queue answers a read, or it is a slice of a flush. -/
theorem advance_of_spared (h : Spared k w) : w.call .advance = w ∨
    (∃ t later, w.txq = t :: later ∧ t.job.touches k = false ∧
      w.call .advance = { w with txq := later }) ∨
    ∃ tid ops c later, w.txq = ⟨tid, true, .flush w.epoch ops, c⟩ :: later ∧
      w.call .advance = flushSlice w tid w.epoch ops later := by
  simp only [World.call]
  split
  · rename_i later ht
    exact .inr (.inl ⟨_, later, ht, rfl, rfl⟩)
  · rename_i later ht
    exact .inr (.inl ⟨_, later, ht, rfl, rfl⟩)
  · rename_i hpage htails
    have hr := ran_advance w
    have hsp : ∀ {t : Txn} {later : List Txn}, w.txq = t :: later → t.job.spares w.epoch k :=
      fun ht => h.txn (by rw [ht]; exact mem_cons_self)
    generalize advance w = v at hr ⊢
    cases hr with
    | idle => exact .inl rfl
    | flush tid started ops c later ht =>
      obtain ⟨rfl, -⟩ := hsp ht
      exact .inr (.inr ⟨tid, ops, c, later, ht, rfl⟩)
    | page tid jid limit beforeTs c later ht => exact absurd ht (hpage _ _ _ _ _ _)
    | tails tid jids n c later ht => exact absurd ht (htails _ _ _ _ _)
    | patch tid s k₀ queued fn after c later ht | patched tid k₀ found after c later ht
    | move tid s l p c later ht | adopt tid fresh c later ht | chats tid s c later ht
    | account tid jid c later ht | clear tid c later ht => exact (hsp ht).elim

theorem keeps_take_drop (n : ℕ) (h : ∀ op, ops.get k = some op → op.keeps = true) :
    (∀ op, (ops.take n).get k = some op → op.keeps = true) ∧
      ∀ op, (ops.drop n).get k = some op → op.keeps = true := by
  have hsplit := ops.get_take_drop n k
  refine ⟨fun op hop => h op ?_, fun op hop => h op ?_⟩
  · rw [hsplit, hop]
    rfl
  · rwa [hsplit, get_take_of_drop (by rw [hop]; rfl), Option.none_or]

theorem spared_flushSlice (h : Spared k w) {tid : ℕ} {c : List Chat}
    {later : List Txn} (ht : w.txq = ⟨tid, true, .flush w.epoch ops, c⟩ :: later) :
    Spared k (flushSlice w tid w.epoch ops later) := by
  obtain ⟨-, he, -, hq, -⟩ := flushSlice_frame w tid w.epoch ops later
  have hlater : ∀ t ∈ later, t.job.spares w.epoch k :=
    fun t ht' => h.txn (by rw [ht]; exact mem_cons_of_mem _ ht')
  obtain ⟨-, hops⟩ : (Job.flush w.epoch ops).spares w.epoch k :=
    h.txn (by rw [ht]; exact mem_cons_self)
  refine h.fewer hq he fun t ht' => ?_
  rcases (flushSlice_txq tid ops later rfl).2 with ⟨-, htx⟩ | htx
  · rw [htx] at ht'
    exact hlater t ht'
  · rw [htx] at ht'
    rcases mem_append.1 ht' with ht' | ht'
    · exact hlater t ht'
    · rw [mem_singleton.1 ht']
      exact ⟨rfl, (keeps_take_drop FLUSH_SLICE hops).2⟩

/-- **A call that does not delete the message** leaves nothing that does. -/
theorem spared_call (h : Spared k w) (hc : c.deletes k = false) : Spared k (w.call c) := by
  cases c with
  | persistMessage =>
    refine h.of_queue fun op hop => ?_
    rw [get_persistMessage] at hop
    split at hop
    · cases hop; rfl
    · exact h.queue op hop
  | persistMessageInsert =>
    refine h.of_queue fun op hop => ?_
    rcases get_insert_cases hop with hop | rfl
    · exact h.queue op hop
    · rfl
  | persistMessageDelete =>
    refine h.of_queue fun op hop => ?_
    rw [get_persistMessageDelete_of_ne (of_decide_eq_false hc)] at hop
    exact h.queue op hop
  | flushMessages =>
    have hq : Spared k { w with q := { w.q with pending := .empty } } := h.of_queue fun op hop => by cases hop
    exact hq.enqueue ⟨rfl, h.queue⟩
  | loadLatestMessages => exact h.enqueue trivial
  | loadTails =>
    simp only [World.call]
    split
    · exact h
    · exact h.enqueue trivial
  | openNext =>
    obtain ⟨hj, hq, he, -⟩ := openNext_of_spared h
    refine ⟨fun job hjob => ?_, fun op hop => h.queue op (hq ▸ hop)⟩
    rw [World.call, he]
    exact h.jobs job (hj ▸ hjob)
  | advance =>
    rcases advance_of_spared h with he | ⟨t, later, ht, -, he⟩ | ⟨tid, ops, c, later, ht, he⟩
    · rwa [he]
    · rw [he]
      exact h.fewer rfl rfl fun t' ht' => h.txn (by rw [ht]; exact mem_cons_of_mem _ ht')
    · rw [he]
      exact spared_flushSlice h ht

/-! ### The message stays present -/

theorem Present.enqueue (h : Present k w) (job : Job) : Present k (w.enqueue job) := by
  rcases h with h | ⟨job', hj, h⟩ | h
  · exact .inl h
  · refine .inr (.inl ⟨job', ?_, h⟩)
    rw [jobs_enqueue]
    exact mem_append_left _ hj
  · exact .inr (.inr h)

theorem Present.of_queue (h : Present k w) {q : Queue}
    (hq : w.q.pending.has k = true → q.pending.has k = true) : Present k { w with q := q } :=
  h.imp_left hq

/-- A slice writes the message, or leaves it to the next one. -/
theorem present_flushSlice (h : Spared k w) (hp : Present k w) {tid : ℕ}
    {c : List Chat} {later : List Txn} (ht : w.txq = ⟨tid, true, .flush w.epoch ops, c⟩ :: later) :
    Present k (flushSlice w tid w.epoch ops later) := by
  obtain ⟨-, -, -, hq, -⟩ := flushSlice_frame w tid w.epoch ops later
  obtain ⟨hmsgs, htx⟩ := flushSlice_txq tid ops later rfl
  obtain ⟨-, hops⟩ : (Job.flush w.epoch ops).spares w.epoch k :=
    h.txn (by rw [ht]; exact mem_cons_self)
  have hstored : (ops.take FLUSH_SLICE).has k = true ∨ (w.msgs.get k).isSome →
      Present k (flushSlice w tid w.epoch ops later) := by
    intro hs
    refine .inr (.inr ?_)
    rw [hmsgs, get_applyOps]
    exact isSome_opsEff (keeps_take_drop FLUSH_SLICE hops).1 hs
  have hlater : ∀ t ∈ later, t ∈ (flushSlice w tid w.epoch ops later).txq := by
    intro t ht'
    rcases htx with ⟨-, htx⟩ | htx
    · rwa [htx]
    · rw [htx]
      exact mem_append_left _ ht'
  rcases hp with hp | ⟨job, hj, hp⟩ | hp
  · exact .inl (hq ▸ hp)
  · rw [World.jobs, ht, map_cons] at hj
    rcases mem_cons.1 hj with rfl | hj
    · -- the operation is in this slice or in the rest
      have hhas : ((ops.take FLUSH_SLICE).get k).isSome ∨ ((ops.drop FLUSH_SLICE).get k).isSome := by
        have hp' : (ops.get k).isSome := hp
        rwa [ops.get_take_drop FLUSH_SLICE k, Option.isSome_or, Bool.or_eq_true] at hp'
      rcases hhas with hhas | hhas
      · exact hstored (.inl hhas)
      · rcases htx with ⟨hnil, -⟩ | htx
        · rw [hnil] at hhas
          cases hhas
        · refine .inr (.inl ⟨.flush w.epoch (ops.drop FLUSH_SLICE), ?_, hhas⟩)
          rw [World.jobs, htx, map_append]
          exact mem_append_right _ mem_cons_self
    · obtain ⟨t, ht', rfl⟩ := mem_map.1 hj
      exact .inr (.inl ⟨t.job, mem_map_of_mem (hlater t ht'), hp⟩)
  · exact hstored (.inr hp)

/-- **A call that does not delete the message** keeps it. -/
theorem present_call (h : Spared k w) (hp : Present k w) (hc : c.deletes k = false) :
    Present k (w.call c) := by
  cases c with
  | persistMessage =>
    refine hp.of_queue fun hq => ?_
    rw [Table.has, get_persistMessage]
    split
    · rfl
    · exact hq
  | persistMessageInsert m =>
    refine hp.of_queue fun hq => ?_
    rw [Table.has, get_persistMessageInsert]
    split
    · exact isSome_insertOver m _
    · exact hq
  | persistMessageDelete =>
    refine hp.of_queue fun hq => ?_
    rwa [Table.has, get_persistMessageDelete_of_ne (of_decide_eq_false hc)]
  | flushMessages =>
    rcases hp with hp | ⟨job, hj, hp⟩ | hp
    · refine .inr (.inl ⟨.flush w.epoch w.q.pending, ?_, hp⟩)
      exact mem_map_of_mem (mem_append_right _ mem_cons_self)
    · refine .inr (.inl ⟨job, ?_, hp⟩)
      obtain ⟨t, ht, rfl⟩ := mem_map.1 hj
      exact mem_map_of_mem (mem_append_left _ ht)
    · exact .inr (.inr hp)
  | loadLatestMessages => exact hp.enqueue _
  | loadTails =>
    simp only [World.call]
    split
    · exact hp
    · exact hp.enqueue _
  | openNext =>
    obtain ⟨hj, hq, -, hm⟩ := openNext_of_spared h
    unfold Present World.call
    rwa [hj, hq, hm]
  | advance =>
    rcases advance_of_spared h with he | ⟨t, later, ht, hread, he⟩ | ⟨tid, ops, c, later, ht, he⟩
    · rwa [he]
    · rw [he]
      rcases hp with hp | ⟨job, hj, hp⟩ | hp
      · exact .inl hp
      · rw [World.jobs, ht, map_cons] at hj
        rcases mem_cons.1 hj with rfl | hj
        · exact absurd (hread.symm.trans hp) Bool.false_ne_true
        · exact .inr (.inl ⟨job, hj, hp⟩)
      · exact .inr (.inr hp)
    · rw [he]
      exact present_flushSlice h hp ht

theorem present_of_write (hc : c.writes k = true) : Present k (w.call c) := by
  cases c with
  | persistMessage =>
    simp only [Call.writes, Bool.and_eq_true, decide_eq_true_eq] at hc
    refine .inl ?_
    rw [Table.has, World.call, get_persistMessage, if_pos hc]
    rfl
  | persistMessageInsert m =>
    simp only [Call.writes, Bool.and_eq_true, decide_eq_true_eq] at hc
    refine .inl ?_
    rw [Table.has, World.call, get_persistMessageInsert, if_pos hc]
    exact isSome_insertOver m _
  | _ => cases hc

/-- **A message that was written and not deleted** is present at the end of every run. -/
theorem present_run {es : List Call} (hw : ∃ c ∈ es, c.writes k = true) (hd : ∀ c ∈ es, c.deletes k = false) :
    Spared k (run World.call World.init es) ∧ Present k (run World.call World.init es) := by
  obtain ⟨c, hc, hwrite⟩ := hw
  obtain ⟨pre, post, rfl⟩ := append_of_mem hc
  have hinit : Spared k World.init := ⟨fun job hj => (nomatch hj), fun op hop => (nomatch hop)⟩
  have hpre : Spared k (run World.call World.init pre) :=
    Along.inv (fun w c h hc => spared_call h hc) hinit
      (along_of_forall (fun c hc _ => hd c (mem_append_left _ hc)) _)
  have hcall : Spared k ((run World.call World.init pre).call c) := spared_call hpre (hd c hc)
  rw [run_append, run_cons]
  exact Along.inv (I := fun w => Spared k w ∧ Present k w)
    (fun w c h hc => ⟨spared_call h.1 hc, present_call h.1 h.2 hc⟩) ⟨hcall, present_of_write hwrite⟩
    (along_of_forall
      (fun c hc _ => hd c (mem_append_right _ (mem_cons_of_mem _ hc))) _)

theorem Job.spares.isSome_eff {job : Job} {epoch : ℕ} {H : History} (h : job.spares epoch k)
    (hp : job.touches k = true ∨ (H k).isSome) : (job.eff H k).isSome := by
  cases job with
  | flush => exact isSome_opsEff h.2 hp
  | page | tails => exact hp.resolve_left Bool.false_ne_true
  | _ => exact h.elim

theorem isSome_jobsEff {jobs : List Job} {epoch : ℕ} {H : History} (h : ∀ job ∈ jobs, job.spares epoch k)
    (hp : (∃ job ∈ jobs, job.touches k = true) ∨ (H k).isSome) : (jobsEff jobs H k).isSome := by
  induction jobs generalizing H with
  | nil => exact hp.resolve_left fun ⟨job, hj, _⟩ => (nomatch hj)
  | cons job jobs ih =>
    refine ih (fun job hj => h job (mem_cons_of_mem _ hj)) ?_
    rcases hp with ⟨job', hj, ht⟩ | hH
    · rcases mem_cons.1 hj with rfl | hj
      · exact .inr ((h job' mem_cons_self).isSome_eff (.inl ht))
      · exact .inl ⟨job', hj, ht⟩
    · exact .inr ((h job mem_cons_self).isSome_eff (.inr hH))

/-- The history holds it. -/
theorem eff_of_present (hs : Spared k w) (hp : Present k w) : (w.eff k).isSome :=
  isSome_opsEff hs.queue (hp.imp_right (isSome_jobsEff hs.jobs))

/-! ### Answers -/

theorem mem_tailRows_of_mem {n : ℕ} {jids : List Jid} (hj : jid ∈ jids)
    (h : ∀ ref, ∃ o ∈ mergePending (objs ref (readLatest w.msgs jid n none)) (pendingFor w.q jid none) n,
      o.key = k) : ∀ ref, ∃ o ∈ (tailRows w n ref jids).1, o.key = k := by
  induction jids with
  | nil => cases hj
  | cons j jids ih =>
    intro ref
    simp only [tailRows, mem_append]
    rcases mem_cons.1 hj with rfl | hj
    · obtain ⟨o, ho, hk⟩ := h ref
      exact ⟨o, .inl ho, hk⟩
    · obtain ⟨o, ho, hk⟩ := ih hj (ref + (readLatest w.msgs j n none).length)
      exact ⟨o, .inr ho, hk⟩

theorem answers_of_newest (h : ReadSafe w jid beforeTs) (hm : w.eff ⟨jid, id⟩ = some m)
    (hn : Newest w.eff jid limit beforeTs id) {r : List Obj} (ha : Answers w jid limit beforeTs r) :
    ∃ o ∈ r, o.key = ⟨jid, id⟩ := by
  cases ha with
  | page => exact mem_loadLatest_of_newest h hm hn
  | tails _ hj =>
    exact mem_tailRows_of_mem hj (fun ref =>
      mem_loadLatest_of_newest (w := { w with nextRef := ref })
        (fun id m hm ht => ⟨(h id m hm ht).settled, (h id m hm ht).agrees⟩) hm hn) w.nextRef

/-- **Reads are complete.** In every interleaving of the calls, a message whose write was queued
and that was not deleted is in the answer of a read that finds its range settled. -/
theorem reads_complete (es : List Call) (k : Key) (hw : ∃ c ∈ es, c.writes k = true)
    (hd : ∀ c ∈ es, c.deletes k = false) (limit : ℕ) (beforeTs : Option ℤ) (r : List Obj)
    (ha : Answers (run World.call World.init es) k.chatJid limit beforeTs r)
    (hr : ReadSafe (run World.call World.init es) k.chatJid beforeTs)
    (hn : Newest (run World.call World.init es).eff k.chatJid limit beforeTs k.id) :
    ∃ o ∈ r, o.key = k := by
  obtain ⟨hs, hp⟩ := present_run hw hd
  obtain ⟨m, hm⟩ := Option.isSome_iff_exists.1 (eff_of_present hs hp)
  exact answers_of_newest hr hm hn ha

theorem newest_of_alone {H : History} (hm : H ⟨jid, id⟩ = some m)
    (ht : upTo beforeTs m.timestamp = true) (ha : ∀ i, i ≠ id → H ⟨jid, i⟩ = none) (hl : 0 < limit) :
    Newest H jid limit beforeTs id := by
  intro m' hm'
  cases hm.symm.trans hm'
  refine ⟨ht, ?_⟩
  have hsub : {i : MsgId | ∃ r, H ⟨jid, i⟩ = some r ∧ upTo beforeTs r.timestamp = true ∧
      m.timestamp ≤ r.timestamp} ⊆ {id} := by
    rintro i ⟨r, hr, -⟩
    by_contra hi
    rw [ha i hi] at hr
    cases hr
  refine (Set.encard_le_encard hsub).trans ?_
  rw [Set.encard_singleton]
  exact_mod_cast hl

/-- A message is written and flushed, and then read. -/
def flushedRead : List Call :=
  [.persistMessage ⟨0, msgX⟩, .flushMessages, .openNext, .advance, .loadLatestMessages chatA 50 none,
    .openNext]

theorem reads_complete_flushed :
    ∃ r, Answers (run World.call World.init flushedRead) chatA 50 none r ∧ ∃ o ∈ r, o.key = msgX.key := by
  have hq : (run World.call World.init flushedRead).txq = [⟨1, true, .page chatA 50 none, []⟩] := by
    decide +kernel
  have hp : (run World.call World.init flushedRead).q.pending = .empty := by decide +kernel
  have hm : (run World.call World.init flushedRead).msgs.rows = [msgX] := by decide +kernel
  have heff : ∀ i, (run World.call World.init flushedRead).eff ⟨chatA, i⟩ =
      [msgX].find? (fun a => a.key = ⟨chatA, i⟩) := by
    intro i
    rw [eff_apply, hp, World.base, World.jobs, hq, ← hm]
    rfl
  have hwrites : ∃ c ∈ flushedRead, c.writes msgX.key = true :=
    ⟨_, List.mem_cons_self, by decide +kernel⟩
  refine ⟨_, .page hq, reads_complete flushedRead msgX.key hwrites (by decide +kernel) 50 none _
    (.page hq) (fun _ _ _ _ => ⟨fun job hj => ?_, fun op hop => ?_⟩) ?_⟩
  · rw [World.jobs, hq] at hj
    rw [List.mem_singleton.1 hj]
    rfl
  · rw [hp] at hop
    cases hop
  · refine newest_of_alone (m := msgX) ?_ rfl (fun i hi => ?_) (by decide)
    · exact (heff "X").trans (by decide +kernel)
    · refine (heff i).trans (List.find?_eq_none.2 fun a ha hk => ?_)
      rw [List.mem_singleton.1 ha] at hk
      exact hi (congrArg Key.id (of_decide_eq_true hk)).symm

/-- A message is written, and flushed while a read waits for its transaction. -/
def flushingRead : List Call :=
  [.persistMessage ⟨0, msgX⟩, .loadLatestMessages chatA 50 none, .openNext, .flushMessages]

/-- A message that is being flushed is neither in the queue nor in the database. -/
theorem read_misses_flushing :
    ¬ ∀ (es₁ es₂ : List Call) (k : Key) (limit : ℕ) (beforeTs : Option ℤ) (r : List Obj),
      (∃ c ∈ es₁, c.writes k = true) → (∀ c ∈ es₁ ++ es₂, c.deletes k = false) →
      Answers (run World.call World.init (es₁ ++ .loadLatestMessages k.chatJid limit beforeTs :: es₂))
        k.chatJid limit beforeTs r →
      Newest (run World.call World.init
        (es₁ ++ .loadLatestMessages k.chatJid limit beforeTs :: es₂)).eff k.chatJid limit beforeTs k.id →
      ∃ o ∈ r, o.key = k := by
  intro hall
  have hq : (run World.call World.init flushingRead).txq = [⟨0, true, .page chatA 50 none, []⟩,
      ⟨1, false, .flush 0 ((Table.empty).set (.put ⟨0, msgX⟩)), []⟩] := by
    decide +kernel
  have hp : (run World.call World.init flushingRead).q.pending = .empty := by decide +kernel
  have heff : ∀ i, (run World.call World.init flushingRead).eff ⟨chatA, i⟩ =
      opsEff ((Table.empty).set (.put ⟨0, msgX⟩)) (fun _ => none) ⟨chatA, i⟩ := by
    intro i
    rw [eff_apply, hp, World.base, World.jobs, hq]
    rfl
  have hnewest : Newest (run World.call World.init flushingRead).eff chatA 50 none "X" := by
    refine newest_of_alone (m := msgX) ((heff "X").trans (by decide +kernel)) rfl (fun i hi => ?_)
      (by decide)
    refine (heff i).trans ?_
    unfold opsEff
    rw [Table.get_set, if_neg fun hk => hi (congrArg Key.id hk).symm]
    rfl
  have hnil : loadLatestMessages (run World.call World.init flushingRead) chatA 50 none = [] := by
    decide +kernel
  obtain ⟨o, ho, -⟩ := hall [.persistMessage ⟨0, msgX⟩] [.openNext, .flushMessages] msgX.key 50 none _
    ⟨_, List.mem_cons_self, by decide +kernel⟩ (by decide +kernel) (.page hq) hnewest
  cases (congrArg (o ∈ ·) hnil).mp ho

end Whatsvelte
