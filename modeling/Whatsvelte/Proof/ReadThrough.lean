import Whatsvelte.Proof.Alone
import Whatsvelte.Proof.Reads

/-!
# Reads and the queue

`loadLatestMessages` takes the newest rows of a chat from the store and lays the queued writes over them. A
flush writes the queue to the store, so a read before it should answer as one after it: with the newest
messages of the effective history.

`reads_through_iff`: **all reads of a chat answer from the effective history**, before a flush as after it, if
and only if no queued operation changes what the rows of the page stand for (`ReadsThrough`). A queued delete
of a stored message is not seen, a queued insert is shown in place of the stored record, and a write that
makes a message newer or older leaves its row in the page, or a gap below the page.
-/

namespace Whatsvelte

open List Table

variable {w : World} {jid : Jid} {limit : ℕ} {beforeTs : Option ℤ} {m : UiMessage} {o : Obj}

/-- The messages of a chat up to a time. -/
def chatRecords (H : History) (jid : Jid) (beforeTs : Option ℤ) : Set UiMessage :=
  {m | H ⟨jid, m.id⟩ = some m ∧ upTo beforeTs m.timestamp = true}

/-! ## Rows and records -/

/-- A queued operation leaves the record of a stored row where the read looks for it. -/
def PendingOp.shows (stored : UiMessage) : PendingOp → Prop
  | .put o => o.msg.timestamp ≤ stored.timestamp
  | .add o => o.msg = stored
  | .del _ _ => False

/-- The queue shows through every read of the chat. -/
structure ReadsThrough (w : World) (jid : Jid) : Prop where
  shows : ∀ op ∈ w.q.pending.rows, op.key.chatJid = jid → ∀ r, w.msgs.get op.key = some r → op.shows r
  /-- For every row `s` without a queued operation: as many queued writes lie between `s` and the end of the
  range as there are rows above `s` that have one. -/
  gaps : ∀ beforeTs, ∀ s ∈ rowsUpTo w.msgs jid beforeTs, w.q.pending.get s.key = none →
    (rowsUpTo w.msgs jid beforeTs).countP
        (fun r => s ≠ r ∧ indexLe s r ∧ (w.q.pending.get r.key).isSome = true) ≤
      (queuedWrites w jid beforeTs).countP (fun x => s.timestamp ≤ x.timestamp)

theorem mem_queuedWrites_iff : m ∈ queuedWrites w jid beforeTs ↔ m.chatJid = jid ∧
    upTo beforeTs m.timestamp = true ∧
    ∃ o : Obj, o.msg = m ∧ (w.q.pending.get m.key = some (.put o) ∨ w.q.pending.get m.key = some (.add o)) := by
  rw [mem_queuedWrites]
  constructor
  · rintro ⟨o, ho, rfl⟩
    obtain ⟨hop, hc, hts⟩ := mem_pendingFor.1 ho
    exact ⟨hc, hts, o, rfl, hop⟩
  · rintro ⟨hc, hts, o, rfl, hop⟩
    exact ⟨o, mem_pendingFor.2 ⟨hop, hc, hts⟩, rfl⟩

section Shows

variable (hs : ∀ op ∈ w.q.pending.rows, op.key.chatJid = jid → ∀ r, w.msgs.get op.key = some r → op.shows r)

include hs

/-- The record of a chat is a queued write, or a row that nothing is queued for. -/
theorem mem_chatRecords_iff : m ∈ chatRecords w.persisted jid beforeTs ↔
    m ∈ queuedWrites w jid beforeTs ∨
      m ∈ rowsUpTo w.msgs jid beforeTs ∧ w.q.pending.get m.key = none := by
  rw [mem_queuedWrites_iff, mem_rowsUpTo]
  constructor
  · rintro ⟨hH, hts⟩
    cases hq : w.q.pending.get ⟨jid, m.id⟩ with
    | none =>
      have hget : w.msgs.get ⟨jid, m.id⟩ = some m := by simpa [World.persisted, opsEff, hq] using hH
      have hkey : m.key = ⟨jid, m.id⟩ := get_key hget
      exact .inr ⟨⟨Table.get_mem hget, congrArg Key.chatJid hkey, hts⟩, by rw [hkey, hq]⟩
    | some op =>
      have hopk : op.key = ⟨jid, m.id⟩ := get_key hq
      have hshow := hs op (Table.get_mem hq) (congrArg Key.chatJid hopk)
      rw [hopk] at hshow
      have hH : op.eff (w.msgs.get ⟨jid, m.id⟩) = some m := by simpa [World.persisted, opsEff, hq] using hH
      left
      cases op with
      | put o =>
        have hmo : o.msg = m := Option.some.inj hH
        have hkey : m.key = ⟨jid, m.id⟩ := hmo ▸ hopk
        exact ⟨congrArg Key.chatJid hkey, hts, o, hmo, .inl (hkey ▸ hq)⟩
      | add o =>
        have hmo : o.msg = m := by
          cases hr : w.msgs.get ⟨jid, m.id⟩ with
          | none => rw [hr] at hH; exact Option.some.inj hH
          | some r =>
            rw [hr] at hH
            have hr' : o.msg = r := hshow r hr
            exact hr'.trans (Option.some.inj hH)
        have hkey : m.key = ⟨jid, m.id⟩ := hmo ▸ hopk
        exact ⟨congrArg Key.chatJid hkey, hts, o, hmo, .inr (hkey ▸ hq)⟩
      | del => cases hH
  · rintro (⟨hc, hts, o, rfl, hop⟩ | ⟨⟨hm, hc, hts⟩, hq⟩)
    · have hkey : o.msg.key = ⟨jid, o.msg.id⟩ := by rw [UiMessage.key, hc]
      refine ⟨?_, hts⟩
      rw [hkey] at hop
      rcases hop with hop | hop
      · simp [World.persisted, opsEff, hop, PendingOp.eff]
      · cases hr : w.msgs.get ⟨jid, o.msg.id⟩ with
        | none => simp [World.persisted, opsEff, hop, PendingOp.eff, hr]
        | some r =>
          have hr' : o.msg = r := hs _ (Table.get_mem hop) hc r (by
            rwa [show (PendingOp.add o).key = ⟨jid, o.msg.id⟩ from hkey])
          simp [World.persisted, opsEff, hop, PendingOp.eff, hr]
          exact hr'.symm
    · have hkey : m.key = ⟨jid, m.id⟩ := by rw [UiMessage.key, hc]
      have hget := Table.get_of_mem hm
      rw [hkey] at hq hget
      exact ⟨by simp [World.persisted, opsEff, hq, hget], hts⟩

/-- A row of the page is not replaced if and only if nothing is queued for it. -/
theorem unqueued_iff (hm : m ∈ readLatest w.msgs jid limit beforeTs) :
    (∀ x ∈ queuedWrites w jid beforeTs, x.id ≠ m.id) ↔ w.q.pending.get m.key = none := by
  obtain ⟨hrow, hc, hts⟩ := mem_readLatest hm
  constructor
  · intro hno
    cases hq : w.q.pending.get m.key with
    | none => rfl
    | some op =>
      have hopk : op.key = m.key := get_key hq
      have hshow := hs op (Table.get_mem hq) ((congrArg Key.chatJid hopk).trans hc) m
        (by rw [hopk]; exact Table.get_of_mem hrow)
      cases op with
      | put o =>
        have hok : o.msg.key = m.key := hopk
        have hrange : upTo beforeTs o.msg.timestamp = true := by
          cases beforeTs with
          | none => rfl
          | some b =>
            have hle : m.timestamp ≤ b := of_decide_eq_true hts
            exact decide_eq_true ((show o.msg.timestamp ≤ m.timestamp from hshow).trans hle)
        exact absurd (congrArg Key.id hok) (hno o.msg (mem_queuedWrites_iff.2
          ⟨(congrArg Key.chatJid hok).trans hc, hrange, o, rfl, .inl (hok ▸ hq)⟩))
      | add o =>
        have hom : o.msg = m := hshow
        exact absurd rfl (hno m (mem_queuedWrites_iff.2 ⟨hc, hts, o, hom, .inr hq⟩))
      | del => cases hshow
  · intro hq x hx hid
    obtain ⟨hxc, -, o, -, hop⟩ := mem_queuedWrites_iff.1 hx
    have hkey : x.key = m.key := by rw [UiMessage.key, UiMessage.key, hxc, hc, hid]
    rw [hkey, hq] at hop
    rcases hop with h | h <;> cases h

/-- A row of the page is merged unless an operation is queued for it. -/
theorem mem_merged_iff : m ∈ merged w jid limit beforeTs ↔ m ∈ queuedWrites w jid beforeTs ∨
    m ∈ readLatest w.msgs jid limit beforeTs ∧ w.q.pending.get m.key = none := by
  rw [mem_merged]
  exact or_congr Iff.rfl (and_congr_right fun hm => unqueued_iff hs hm)

/-- A row below a full page: enough of what is merged is as new as it, if the queued writes make up for the
rows of the page that they replace. -/
theorem count_merged_iff {r : UiMessage} (hr : r ∈ rowsUpTo w.msgs jid beforeTs)
    (hout : r ∉ readLatest w.msgs jid limit beforeTs) :
    limit ≤ (merged w jid limit beforeTs).countP (fun a => r.timestamp ≤ a.timestamp) ↔
      (readLatest w.msgs jid limit beforeTs).countP (fun a => (w.q.pending.get a.key).isSome) ≤
        (queuedWrites w jid beforeTs).countP (fun a => r.timestamp ≤ a.timestamp) := by
  obtain ⟨hlen, hnew⟩ := (isPage_lastN (sorted_index _) (nodup_rowsUpTo w jid beforeTs)).rest r hr hout
  have hfilter : (readLatest w.msgs jid limit beforeTs).filter
      (fun m => !(queuedWrites w jid beforeTs).any (fun x => x.id = m.id)) =
      (readLatest w.msgs jid limit beforeTs).filter (fun a => !(w.q.pending.get a.key).isSome) := by
    refine filter_congr fun a ha => Bool.eq_iff_iff.2 ?_
    have hun := unqueued_iff hs ha
    simpa using hun
  have hcount : ((readLatest w.msgs jid limit beforeTs).filter
      (fun a => !(w.q.pending.get a.key).isSome)).countP (fun a => r.timestamp ≤ a.timestamp) =
      (readLatest w.msgs jid limit beforeTs).countP (fun a => ¬ (w.q.pending.get a.key).isSome = true) := by
    rw [countP_eq_length.2, countP_eq_length_filter]
    · refine congrArg List.length (filter_congr fun a _ => ?_)
      cases w.q.pending.get a.key <;> rfl
    · intro a ha
      exact decide_eq_true (hnew a (mem_of_mem_filter ha))
  have htotal := length_eq_countP_add_countP (fun a => (w.q.pending.get a.key).isSome)
    (l := readLatest w.msgs jid limit beforeTs)
  have hlen : (readLatest w.msgs jid limit beforeTs).length = limit := hlen
  rw [merged, countP_append, hfilter, hcount]
  omega

/-- **One read** answers from the history, if and only if there is no gap below its page. -/
theorem isPage_chatRecords_iff :
    IsPage UiMessage.timestamp limit (chatRecords w.persisted jid beforeTs) (readAnswer w jid limit beforeTs) ↔
      ∀ r ∈ rowsUpTo w.msgs jid beforeTs, w.q.pending.get r.key = none →
        r ∉ readLatest w.msgs jid limit beforeTs →
        (readLatest w.msgs jid limit beforeTs).countP (fun a => (w.q.pending.get a.key).isSome) ≤
          (queuedWrites w jid beforeTs).countP (fun a => r.timestamp ≤ a.timestamp) := by
  have hsub : ∀ a ∈ merged w jid limit beforeTs, a ∈ chatRecords w.persisted jid beforeTs := by
    intro a ha
    refine (mem_chatRecords_iff hs).2 (((mem_merged_iff hs).1 ha).imp_right fun h => ⟨?_, h.2⟩)
    exact mem_of_mem_lastN h.1
  rw [isPage_iff_count (isPage_merged w jid limit beforeTs) nodup_merged hsub]
  constructor
  · intro h r hr hq hout
    refine (count_merged_iff hs hr hout).1 (h r ((mem_chatRecords_iff hs).2 (.inr ⟨hr, hq⟩)) fun hm => ?_)
    rcases (mem_merged_iff hs).1 hm with hm | hm
    · obtain ⟨-, -, o, -, hop⟩ := mem_queuedWrites_iff.1 hm
      rw [hq] at hop
      rcases hop with hop | hop <;> cases hop
    · exact hout hm.1
  · intro h s hs' hout
    rcases (mem_chatRecords_iff hs).1 hs' with hm | ⟨hr, hq⟩
    · exact absurd ((mem_merged_iff hs).2 (.inl hm)) hout
    · have hpage : s ∉ readLatest w.msgs jid limit beforeTs :=
        fun hm => hout ((mem_merged_iff hs).2 (.inr ⟨hm, hq⟩))
      exact (count_merged_iff hs hr hpage).2 (h s hr hq hpage)

end Shows

/-! ## All reads of a chat -/

theorem eq_of_indexLe {a b : UiMessage} (hab : indexLe a b) (hba : indexLe b a) : a.id = b.id := by
  rcases hab with hab | ⟨hts, hab⟩
  · have hle := le_of_indexLe hba
    omega
  · rcases hba with hba | ⟨-, hba⟩
    · omega
    · exact String.le_antisymm (String.not_lt.1 hab) (String.not_lt.1 hba)

/-- The rows above a row are those that come after it in the index. -/
theorem countP_above {pre post : List UiMessage} {r : UiMessage} (p : UiMessage → Bool)
    (h : rowsUpTo w.msgs jid beforeTs = pre ++ r :: post) :
    (rowsUpTo w.msgs jid beforeTs).countP (fun a => r ≠ a ∧ indexLe r a ∧ p a = true) = post.countP p := by
  have hindex : (pre ++ r :: post).Pairwise indexLe := h ▸ pairwise_index _
  have hnodup : (pre ++ r :: post).Nodup := h ▸ nodup_rowsUpTo w jid beforeTs
  obtain ⟨-, hright, hacross⟩ := pairwise_append.1 hindex
  have hpre : pre.countP (fun a => r ≠ a ∧ indexLe r a ∧ p a = true) = 0 := by
    refine countP_eq_zero.2 fun a ha hdec => ?_
    obtain ⟨hne, hle, -⟩ := of_decide_eq_true hdec
    have hid := eq_of_indexLe hle (hacross a ha r mem_cons_self)
    have hrow : ∀ b ∈ pre ++ r :: post, b ∈ w.msgs.rows ∧ b.chatJid = jid := by
      intro b hb
      rw [← h] at hb
      exact ⟨(mem_rowsUpTo.1 hb).1, (mem_rowsUpTo.1 hb).2.1⟩
    have hra := hrow a (mem_append_left _ ha)
    have hrr := hrow r (mem_append_right _ mem_cons_self)
    exact hne (eq_of_mem_rows hra.1 hrr.1 (hrr.2.trans hra.2.symm) hid)
  have hpost : post.countP (fun a => r ≠ a ∧ indexLe r a ∧ p a = true) = post.countP p := by
    refine countP_congr fun a ha => ?_
    have hle := (pairwise_cons.1 hright).1 a ha
    have hne : r ≠ a := by
      rintro rfl
      exact (nodup_cons.1 (nodup_append.1 hnodup).2.1).1 ha
    simp [hne, hle]
  rw [h, countP_append, countP_cons_of_neg (by simp), hpre, hpost, Nat.zero_add]

/-- A read of any page answers from the history. -/
theorem ReadsThrough.isPage (h : ReadsThrough w jid) (limit : ℕ) (beforeTs : Option ℤ) :
    IsPage UiMessage.timestamp limit (chatRecords w.persisted jid beforeTs)
      (readAnswer w jid limit beforeTs) := by
  refine (isPage_chatRecords_iff h.shows).2 fun r hr hq hout => ?_
  refine le_trans ?_ (h.gaps beforeTs r hr hq)
  obtain ⟨pre, post, hsplit⟩ := append_of_mem hr
  rw [countP_above (fun a => (w.q.pending.get a.key).isSome) hsplit]
  -- the page ends after `r`
  have hsub : (readLatest w.msgs jid limit beforeTs).Sublist post := by
    rw [readLatest_eq, hsplit] at hout ⊢
    exact (lastN_suffix_of_not_mem hout).sublist
  exact hsub.countP_le

/-- With a large limit, a read merges and answers all rows and writes of its range. -/
theorem mem_chatRecords_of_isPage
    (h : ∀ limit, 1 ≤ limit → IsPage UiMessage.timestamp limit (chatRecords w.persisted jid beforeTs)
      (readAnswer w jid limit beforeTs))
    (hm : m ∈ queuedWrites w jid beforeTs ∨
      m ∈ rowsUpTo w.msgs jid beforeTs ∧ ∀ x ∈ queuedWrites w jid beforeTs, x.id ≠ m.id) :
    w.persisted ⟨jid, m.id⟩ = some m := by
  generalize hlimit : (rowsUpTo w.msgs jid beforeTs).length + (queuedWrites w jid beforeTs).length + 1 = limit
  have hall : readLatest w.msgs jid limit beforeTs = rowsUpTo w.msgs jid beforeTs := by
    rw [readLatest_eq, lastN, Nat.sub_eq_zero_of_le (by omega), List.drop_zero]
  have hpage := isPage_merged w jid limit beforeTs
  have hshort : (readAnswer w jid limit beforeTs).length < limit := by
    have hsub := subperm_of_subset hpage.nodup fun a ha => hpage.mem a ha
    have hle := hsub.length_le
    have hmerged : (merged w jid limit beforeTs).length ≤
        (rowsUpTo w.msgs jid beforeTs).length + (queuedWrites w jid beforeTs).length := by
      rw [merged, length_append, hall]
      exact Nat.add_le_add_right (length_filter_le _ _) _
    omega
  have hmem : m ∈ merged w jid limit beforeTs := by
    rwa [mem_merged, hall]
  exact ((h limit (by omega)).mem m (hpage.mem_of_length_lt hshort hmem)).1

/-- If all reads answer from the history, no operation hides or misplaces a stored row. -/
theorem shows_of_isPage
    (h : ∀ limit beforeTs, 1 ≤ limit → IsPage UiMessage.timestamp limit
      (chatRecords w.persisted jid beforeTs) (readAnswer w jid limit beforeTs)) :
    ∀ op ∈ w.q.pending.rows, op.key.chatJid = jid → ∀ r, w.msgs.get op.key = some r → op.shows r := by
  intro op hop hc r hr
  have hq := Table.get_of_mem hop
  have hrk : r.key = op.key := get_key hr
  have hrc : r.chatJid = jid := (congrArg Key.chatJid hrk).trans hc
  have hkey : op.key = ⟨jid, r.id⟩ := by rw [← hrk, UiMessage.key, hrc]
  have hH : w.persisted ⟨jid, r.id⟩ = op.eff (some r) := by
    rw [← hkey, World.persisted, opsEff, hq, Option.elim_some, hr]
  have hrow : ∀ beforeTs, upTo beforeTs r.timestamp = true → r ∈ rowsUpTo w.msgs jid beforeTs :=
    fun _ hts => mem_rowsUpTo.2 ⟨Table.get_mem hr, hrc, hts⟩
  cases op with
  | put o =>
    -- otherwise a read up to the time of the row finds the row and not the write
    by_contra hnew
    have hlt : r.timestamp < o.msg.timestamp := not_le.1 hnew
    have hnone : ∀ x ∈ queuedWrites w jid (some r.timestamp), x.id ≠ r.id := by
      intro x hx hid
      obtain ⟨hxc, hts, o', rfl, hop'⟩ := mem_queuedWrites_iff.1 hx
      have hxk : o'.msg.key = (PendingOp.put o).key := by rw [hkey, UiMessage.key, hxc, hid]
      rw [hxk, hq] at hop'
      have hoo : o = o' := by rcases hop' with h | h <;> cases h; rfl
      rw [← hoo] at hts
      exact absurd (of_decide_eq_true hts) (not_le.2 hlt)
    have hfound := mem_chatRecords_of_isPage (fun limit => h limit (some r.timestamp))
      (.inr ⟨hrow _ (decide_eq_true le_rfl), hnone⟩)
    rw [hH] at hfound
    have hro : o.msg = r := Option.some.inj hfound
    rw [hro] at hlt
    exact lt_irrefl _ hlt
  | add o =>
    have hok : o.msg.key = ⟨jid, r.id⟩ := hkey
    have hid : o.msg.id = r.id := congrArg Key.id hok
    have hwrite : o.msg ∈ queuedWrites w jid none :=
      mem_queuedWrites_iff.2 ⟨congrArg Key.chatJid hok, rfl, o, rfl, .inr hq⟩
    have hfound := mem_chatRecords_of_isPage (fun limit => h limit none) (.inl hwrite)
    rw [hid, hH] at hfound
    exact (Option.some.inj hfound).symm
  | del c i =>
    have hnone : ∀ x ∈ queuedWrites w jid none, x.id ≠ r.id := by
      intro x hx hid
      obtain ⟨hxc, -, o', rfl, hop'⟩ := mem_queuedWrites_iff.1 hx
      have hxk : o'.msg.key = (PendingOp.del c i).key := by rw [hkey, UiMessage.key, hxc, hid]
      rw [hxk, hq] at hop'
      rcases hop' with h | h <;> cases h
    have hfound := mem_chatRecords_of_isPage (fun limit => h limit none) (.inr ⟨hrow none rfl, hnone⟩)
    rw [hH] at hfound
    cases hfound

/-- If all reads answer from the history, the queued writes make up for the rows that they replace. -/
theorem gaps_of_isPage
    (h : ∀ limit beforeTs, 1 ≤ limit → IsPage UiMessage.timestamp limit
      (chatRecords w.persisted jid beforeTs) (readAnswer w jid limit beforeTs)) (beforeTs : Option ℤ)
    {r : UiMessage} (hr : r ∈ rowsUpTo w.msgs jid beforeTs) (hq : w.q.pending.get r.key = none) :
    (rowsUpTo w.msgs jid beforeTs).countP
        (fun a => r ≠ a ∧ indexLe r a ∧ (w.q.pending.get a.key).isSome = true) ≤
      (queuedWrites w jid beforeTs).countP (fun x => r.timestamp ≤ x.timestamp) := by
  obtain ⟨pre, post, hsplit⟩ := append_of_mem hr
  rw [countP_above (fun a => (w.q.pending.get a.key).isSome) hsplit]
  rcases Nat.eq_zero_or_pos post.length with hzero | hpos
  · rw [eq_nil_of_length_eq_zero hzero]
    exact Nat.zero_le _
  · -- the page that ends right above the row
    have hpage : readLatest w.msgs jid post.length beforeTs = post := by
      rw [readLatest_eq, hsplit, lastN, length_append, length_cons,
        show pre.length + (post.length + 1) - post.length = pre.length + 1 by omega]
      simp
    have hout : r ∉ readLatest w.msgs jid post.length beforeTs := by
      rw [hpage]
      have hnodup := nodup_rowsUpTo w jid beforeTs
      rw [hsplit] at hnodup
      exact (nodup_cons.1 (nodup_append.1 hnodup).2.1).1
    have hcount := (isPage_chatRecords_iff (shows_of_isPage h)).1 (h post.length beforeTs hpos) r hr hq hout
    rwa [hpage] at hcount

/-- **Reads do not depend on the flush.** All reads of a chat, before a complete flush and after it, answer with
the newest messages of the effective history, if and only if `ReadsThrough`. -/
theorem reads_through_iff (w : World) (jid : Jid) (ht : w.txq = []) :
    (∀ limit beforeTs, 1 ≤ limit →
      IsPage UiMessage.timestamp limit (chatRecords w.persisted jid beforeTs)
          (readAnswer w jid limit beforeTs) ∧
        IsPage UiMessage.timestamp limit (chatRecords w.persisted jid beforeTs)
          (readAnswer (flushed w) jid limit beforeTs)) ↔
      ReadsThrough w jid := by
  obtain ⟨-, hmsgs, hpend, -⟩ := flushed_get ht
  constructor
  · intro h
    have hbefore : ∀ limit beforeTs, 1 ≤ limit → IsPage UiMessage.timestamp limit
        (chatRecords w.persisted jid beforeTs) (readAnswer w jid limit beforeTs) :=
      fun limit beforeTs hl => (h limit beforeTs hl).1
    exact ⟨shows_of_isPage hbefore, fun beforeTs r hr hq => gaps_of_isPage hbefore beforeTs hr hq⟩
  · intro h limit beforeTs _
    refine ⟨h.isPage limit beforeTs, ?_⟩
    -- after the flush nothing is queued, and the store holds the history
    have hhistory : (flushed w).persisted = w.persisted := by
      rw [World.persisted, hpend, hmsgs]
      rfl
    have hafter : ReadsThrough (flushed w) jid := by
      refine ⟨fun op hop => ?_, fun beforeTs r _ _ => ?_⟩
      · rw [hpend] at hop
        cases hop
      · simp [hpend]
    rw [← hhistory]
    exact hafter.isPage limit beforeTs

/-- A stored message and a write of a new one. -/
theorem reads_through_iff_new :
    let w : World := { World.init with
      msgs := Table.empty.set msgX
      q := { World.init.q with pending := Table.empty.set (.put ⟨0, msgY⟩) } }
    IsPage UiMessage.timestamp 2 (chatRecords w.persisted chatA none) (readAnswer w chatA 2 none) := by
  intro w
  have hun : ∀ r ∈ w.msgs.rows, (w.q.pending.get r.key).isSome = false := by decide
  have hthrough : ReadsThrough w chatA := by
    constructor
    · intro op hop hc r hr
      have hnone : ∀ op ∈ w.q.pending.rows, w.msgs.get op.key = none := by decide
      rw [hnone op hop] at hr
      exact absurd hr.symm (Option.some_ne_none r)
    · intro beforeTs r hr hq
      refine le_trans (le_of_eq (List.countP_eq_zero.2 fun a ha hdec => ?_)) (Nat.zero_le _)
      have hsome := (of_decide_eq_true hdec).2.2
      rw [hun a (mem_rowsUpTo.1 ha).1] at hsome
      cases hsome
  exact ((reads_through_iff w chatA rfl).2 hthrough 2 none (by decide)).1

/-- The delete of a stored message is queued: a read still answers with it, and not after the flush. -/
theorem read_returns_deleted :
    let w : World := { World.init with
      msgs := Table.empty.set msgX
      q := { World.init.q with pending := Table.empty.set (.del chatA "X") } }
    readAnswer w chatA 1 none = [msgX] ∧ readAnswer (flushed w) chatA 1 none = [] ∧
      ¬ IsPage UiMessage.timestamp 1 (chatRecords w.persisted chatA none) (readAnswer w chatA 1 none) := by
  intro w
  have hread : readAnswer w chatA 1 none = [msgX] := by decide +kernel
  refine ⟨hread, by decide +kernel, fun h => ?_⟩
  have hmem := h.mem msgX (by rw [hread]; exact List.mem_singleton.2 rfl)
  exact absurd hmem.1 (by decide)

end Whatsvelte
