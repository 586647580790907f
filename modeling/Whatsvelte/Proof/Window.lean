import Whatsvelte.Proof.MessageSteps
import Whatsvelte.Proof.ReadThrough
import Whatsvelte.Proof.Records
import Whatsvelte.Proof.SlidingWindow

/-!
# What the window of a chat hides

A record of a chat is `Hidden` if it is not resident, and `Window` says that all hidden records are no newer
than the resident messages and that `hasOlder` admits them.

* **Slides.window**: code that slides the window keeps this, if nothing is put in, and left in, that is older than
  what stays hidden.
* **window_loadOlderDone**: a page keeps it, if its time is not below what is hidden and nothing else writes
  to the chat, since a read answers with the newest of what it looks at (`below_of_not_read`).
* **above_tails**: the one row that boot reads for a chat is its newest.
-/

namespace Whatsvelte

open List

variable {stamp : MsgId → ℤ} {w v : World} {c jid : Jid} {i : MsgId} {ins : List MsgId} {k : Key} {e : Step}
  {limit : ℕ} {beforeTs : Option ℤ} {o : Obj} {m : UiMessage}

/-! ## One timestamp for an id -/

/-- A copy that the store may hold. -/
def Filed (stamp : MsgId → ℤ) (m : UiMessage) : Prop := Stamped stamp m ∧ isTmp m.id = false

instance (m : UiMessage) : Decidable (Filed stamp m) := inferInstanceAs (Decidable (_ ∧ _))

theorem closedUnder_stamped (stamp : MsgId → ℤ) : ClosedUnder (Stamped stamp) (Filed stamp) where
  load m h := h.1
  persist m h hp := ⟨h, isTmp_of_persistable hp⟩
  patch fn m m' hfn := by
    obtain ⟨hk, ht⟩ := Patch.apply_key hfn
    have hid : m'.id = m.id := congrArg Key.id hk
    have hst : Stamped stamp m → Stamped stamp m' := by
      intro h
      rwa [Stamped, hid, ht]
    refine ⟨hst, fun h => ⟨hst h.1, ?_⟩⟩
    rw [hid]
    exact h.2
  unread m b h := h
  media m media thumbnail h := h
  rekey m p := ⟨fun h => h, fun h => h⟩

/-- Every copy that the client holds carries the timestamp of its id. -/
abbrev OneStamp (stamp : MsgId → ℤ) (w : World) : Prop := Holding (Stamped stamp) (Filed stamp) w

/-! ## What is not in the window -/

/-- The history has a record of the id, and the window does not show it. -/
def Hidden (w : World) (c : Jid) (i : MsgId) : Prop :=
  (w.eff ⟨c, i⟩).isSome = true ∧ hasId (messagesFor w c) i = false

instance (w : World) (c : Jid) (i : MsgId) : Decidable (Hidden w c i) := inferInstanceAs (Decidable (_ ∧ _))

/-- Whatever is hidden is below the window: there is no gap in it, and none is claimed to be whole that is not. -/
def Window (stamp : MsgId → ℤ) (c : Jid) (w : World) : Prop := ∀ i, Hidden w c i → Below stamp c w i

/-- A chat that is not in memory. -/
theorem Window.of_empty (hl : messagesFor w c = []) (he : w.exhausted c = false) : Window stamp c w := by
  intro i _
  refine ⟨he, fun o ho => ?_⟩
  rw [hl] at ho
  cases ho

/-- Nothing changes for the chat, except that records may go. -/
theorem Window.of_same (h : Window stamp c w) (hl : messagesFor v c = messagesFor w c)
    (he : v.exhausted c = w.exhausted c)
    (hr : ∀ i, (v.eff ⟨c, i⟩).isSome = true → (w.eff ⟨c, i⟩).isSome = true) : Window stamp c v := by
  intro i hi
  obtain ⟨hroom, holder⟩ := h i ⟨hr i hi.1, hl ▸ hi.2⟩
  exact ⟨he.trans hroom, hl ▸ holder⟩

theorem Below.of_slides {j : MsgId} (hs : Slides stamp c ins w v) (h : Below stamp c w j)
    (habove : ∀ i ∈ ins, hasId (messagesFor w c) i = false → hasId (messagesFor v c) i = true →
      stamp j ≤ stamp i) : Below stamp c v j := by
  refine ⟨Bool.eq_false_iff.2 fun hv => ?_, fun o ho => ?_⟩
  · exact absurd ((hs.exhausted hv).symm.trans h.room) (by simp)
  · cases hres : hasId (messagesFor w c) o.msg.id with
    | true =>
      obtain ⟨x, hx, hxo⟩ := hasId_iff.1 hres
      rw [← hxo]
      exact h.older x hx
    | false => exact habove _ ((hs.origin o ho).resolve_left (by rw [hres]; simp)) hres (hasId_of_mem ho)

/-- **Sliding the window**: what is put in, and not cut off again, is newer than all that stays hidden. -/
theorem Slides.window (hs : Slides stamp c ins w v) (h : Window stamp c w)
    (hrec : ∀ i, (v.eff ⟨c, i⟩).isSome = true → isTmp i = false)
    (hnew : ∀ i, (v.eff ⟨c, i⟩).isSome = true → (w.eff ⟨c, i⟩).isSome = true ∨
      hasId (messagesFor w c) i = true ∨ i ∈ ins ∨ Below stamp c v i)
    (habove : ∀ i ∈ ins, hasId (messagesFor w c) i = false → hasId (messagesFor v c) i = true →
      ∀ j, Hidden w c j → j ∉ ins → stamp j ≤ stamp i) : Window stamp c v := by
  intro i hi
  have ht := hrec i hi.1
  by_cases hin : i ∈ ins
  · exact hs.cut i ht (.inr hin) hi.2
  cases hold : hasId (messagesFor w c) i with
  | true => exact hs.cut i ht (.inl hold) hi.2
  | false =>
    rcases hnew i hi.1 with hw | hw | hw | hw
    · -- it was hidden before
      exact (h i ⟨hw, hold⟩).of_slides hs fun j hj hjn hjv => habove j hj hjn hjv i ⟨hw, hold⟩ hin
    · rw [hold] at hw
      cases hw
    · exact absurd hw hin
    · exact hw

/-! ## Reads -/

/-- What a read of the chat looks at: the queued writes, and the rows that no queued write replaces. -/
def seen (w : World) (jid : Jid) (beforeTs : Option ℤ) : Set UiMessage :=
  {m | m ∈ queuedWrites w jid beforeTs ∨
    m ∈ rowsUpTo w.msgs jid beforeTs ∧ ∀ x ∈ queuedWrites w jid beforeTs, x.id ≠ m.id}

theorem stamped_queuedWrites (h : OneStamp stamp w) (hm : m ∈ queuedWrites w jid beforeTs) :
    m.timestamp = stamp m.id := by
  obtain ⟨o, ho, rfl⟩ := mem_queuedWrites.1 hm
  rcases (mem_pendingFor.1 ho).1 with hop | hop
  · have hold : Filed stamp o.msg := h.pending _ (Table.get_mem hop)
    exact hold.1.2
  · have hold : Filed stamp o.msg := h.pending _ (Table.get_mem hop)
    exact hold.1.2

theorem stamped_rowsUpTo (h : OneStamp stamp w) (hm : m ∈ rowsUpTo w.msgs jid beforeTs) :
    m.timestamp = stamp m.id := (h.msgs m (mem_rowsUpTo.1 hm).1).1.2

/-- **A read answers with the newest of what it looks at**, if the copies of an id have one timestamp. -/
theorem isPage_seen (h : OneStamp stamp w) (jid : Jid) (limit : ℕ) (beforeTs : Option ℤ) :
    IsPage UiMessage.timestamp limit (seen w jid beforeTs) (readAnswer w jid limit beforeTs) := by
  have hsub : ∀ m ∈ merged w jid limit beforeTs, m ∈ seen w jid beforeTs := by
    intro m hm
    rcases mem_merged.1 hm with hq | ⟨hr, hno⟩
    · exact .inl hq
    · exact .inr ⟨(lastN_sublist limit _).subset hr, hno⟩
  rw [isPage_iff_count (isPage_merged w jid limit beforeTs) nodup_merged hsub]
  intro s hs hout
  rcases hs with hq | ⟨hrow, hno⟩
  · exact absurd (mem_merged.2 (.inl hq)) hout
  have hbelow : s ∉ readLatest w.msgs jid limit beforeTs := fun hin => hout (mem_merged.2 (.inr ⟨hin, hno⟩))
  obtain ⟨hlen, hle⟩ :=
    (isPage_lastN (sorted_index _) (nodup_rowsUpTo w jid beforeTs)).rest s hrow hbelow
  -- a row of the page is merged, or a queued write with its timestamp is
  have hids : (readLatest w.msgs jid limit beforeTs).map (·.id) ⊆
      ((merged w jid limit beforeTs).filter (fun m => s.timestamp ≤ m.timestamp)).map (·.id) := by
    intro i hi
    obtain ⟨r, hr, rfl⟩ := mem_map.1 hi
    have hrs := stamped_rowsUpTo h ((lastN_sublist limit _).subset hr)
    by_cases hq : ∃ x ∈ queuedWrites w jid beforeTs, x.id = r.id
    · obtain ⟨x, hx, hxr⟩ := hq
      refine mem_map.2 ⟨x, mem_filter.2 ⟨mem_merged.2 (.inl hx), decide_eq_true ?_⟩, hxr⟩
      have hxs := stamped_queuedWrites h hx
      rw [hxs, hxr, ← hrs]
      exact hle r hr
    · have hno' : ∀ x ∈ queuedWrites w jid beforeTs, x.id ≠ r.id := fun x hx hxr => hq ⟨x, hx, hxr⟩
      exact mem_map.2 ⟨r, mem_filter.2 ⟨mem_merged.2 (.inr ⟨hr, hno'⟩), decide_eq_true (hle r hr)⟩, rfl⟩
  have hcount := (subperm_of_subset (nodup_ids_readLatest w.msgs jid limit beforeTs) hids).length_le
  rw [length_map, length_map, ← countP_eq_length_filter] at hcount
  exact le_of_eq_of_le hlen.symm hcount

/-- A job that writes records of the chat. -/
def Job.writes (c : Jid) : Job → Bool
  | .flush _ ops => ops.rows.any (fun op => op.key.chatJid = c)
  | .patch _ k _ _ _ => k.chatJid = c
  | .move _ l p => c = l || c = p
  | .clear => true
  | _ => false

theorem Job.inert_of_not_writes {job : Job} (h : job.writes c = false) (i : MsgId) : job.Inert ⟨c, i⟩ := by
  cases job with
  | flush =>
    refine Job.inert_of_not_touches (Bool.eq_false_iff.2 fun hhas => ?_)
    obtain ⟨op, hop, hk⟩ := Table.get_isSome.1 hhas
    exact any_eq_false.1 h op hop (decide_eq_true (by rw [hk]))
  | patch =>
    refine Job.inert_of_not_touches (decide_eq_false fun hk => ?_)
    exact of_decide_eq_false h (by rw [hk])
  | move => exact Job.inert_of_not_touches h
  | clear => cases h
  | _ => exact fun _ => rfl

theorem base_of_not_writes (h : ∀ job ∈ w.jobs, job.writes c = false) (i : MsgId) :
    w.base ⟨c, i⟩ = w.msgs.get ⟨c, i⟩ :=
  jobsEff_of_inert fun job hj => Job.inert_of_not_writes (h job hj) i

/-- A read looks at every record up to its time, if no outstanding transaction writes to the chat. -/
theorem exists_seen (h : OneStamp stamp w) (hj : ∀ job ∈ w.jobs, job.writes c = false)
    (hi : (w.eff ⟨c, i⟩).isSome = true) (ht : upTo beforeTs (stamp i) = true) :
    ∃ m ∈ seen w c beforeTs, m.id = i ∧ m.timestamp = stamp i := by
  have hqueued : ∀ o : Obj, (w.q.pending.get ⟨c, i⟩ = some (.put o) ∨ w.q.pending.get ⟨c, i⟩ = some (.add o)) →
      Filed stamp o.msg → o.key = ⟨c, i⟩ → ∃ m ∈ seen w c beforeTs, m.id = i ∧ m.timestamp = stamp i := by
    intro o ho hf hk
    have hid : o.msg.id = i := congrArg Key.id hk
    have hc : o.msg.chatJid = c := congrArg Key.chatJid hk
    have hts : o.msg.timestamp = stamp i := by rw [hf.1.2, hid]
    refine ⟨o.msg, .inl (mem_queuedWrites.2 ⟨o, mem_pendingFor.2 ⟨hk ▸ ho, hc, ?_⟩, rfl⟩), hid, hts⟩
    rwa [hts]
  cases hop : w.q.pending.get ⟨c, i⟩ with
  | some op =>
    have hkey : op.key = ⟨c, i⟩ := Table.get_key hop
    have hold := h.pending op (Table.get_mem hop)
    cases op with
    | put o => exact hqueued o (.inl hop) hold hkey
    | add o => exact hqueued o (.inr hop) hold hkey
    | del =>
      rw [eff_apply, hop] at hi
      cases hi
  | none =>
    rw [eff_apply, hop, Option.elim_none, base_of_not_writes hj] at hi
    obtain ⟨m, hm⟩ := Option.isSome_iff_exists.1 hi
    have hkey : m.key = ⟨c, i⟩ := Table.get_key hm
    have hid : m.id = i := congrArg Key.id hkey
    have hts : m.timestamp = stamp i := by rw [(h.msgs m (Table.get_mem hm)).1.2, hid]
    have hrow : m ∈ rowsUpTo w.msgs c beforeTs :=
      mem_rowsUpTo.2 ⟨Table.get_mem hm, congrArg Key.chatJid hkey, by rwa [hts]⟩
    refine ⟨m, .inr ⟨hrow, fun x hx hxm => ?_⟩, hid, hts⟩
    obtain ⟨o, ho, rfl⟩ := mem_queuedWrites.1 hx
    obtain ⟨hput, hc, -⟩ := mem_pendingFor.1 ho
    have hok : o.key = ⟨c, i⟩ := by rw [Obj.key, UiMessage.key, hc, hxm, hid]
    rw [hok, hop] at hput
    rcases hput with hput | hput <;> exact absurd hput.symm (Option.some_ne_none _)

/-- **What a read leaves out** is no newer than what it returns, and the answer is full. -/
theorem below_of_not_read (h : OneStamp stamp w) (hj : ∀ job ∈ w.jobs, job.writes c = false)
    (hi : (w.eff ⟨c, i⟩).isSome = true) (ht : upTo beforeTs (stamp i) = true)
    (hout : ∀ o ∈ loadLatestMessages w c limit beforeTs, o.msg.id ≠ i) :
    (loadLatestMessages w c limit beforeTs).length = limit ∧
      ∀ o ∈ loadLatestMessages w c limit beforeTs, stamp i ≤ o.msg.timestamp := by
  obtain ⟨m, hm, hid, hts⟩ := exists_seen h hj hi ht
  have hnot : m ∉ readAnswer w c limit beforeTs := by
    intro hmem
    obtain ⟨o, ho, rfl⟩ := mem_map.1 hmem
    exact hout o ho hid
  obtain ⟨hlen, hle⟩ := (isPage_seen h c limit beforeTs).rest m hm hnot
  rw [readAnswer, length_map] at hlen
  refine ⟨hlen, fun o ho => ?_⟩
  rw [← hts]
  exact hle o.msg (mem_map_of_mem ho)

/-! ## Pages and tails -/

theorem dated_read (h : OneStamp stamp w) (jid : Jid) (limit : ℕ) (beforeTs : Option ℤ) :
    Dated stamp (loadLatestMessages w jid limit beforeTs) := fun _ ho => Holding.row (closedUnder_stamped stamp) h ho

/-- **A page** continues the window: what is hidden was up to its time, and what it leaves out is below it. -/
theorem window_loadOlderDone (h : OneStamp stamp w) (hw : Window stamp c w)
    (hrec : ∀ i, (w.eff ⟨c, i⟩).isSome = true → isTmp i = false)
    (hj : ∀ job ∈ w.jobs, job.writes c = false) (hcur : ∀ i, Hidden w c i → upTo beforeTs (stamp i) = true) :
    Window stamp c (loadOlderDone w c limit beforeTs) := by
  have hrows := dated_read h c limit beforeTs
  have hr := reshaped_loadOlderDone (h.resident c) limit beforeTs hrows
  intro i hi
  have hieff : (w.eff ⟨c, i⟩).isSome = true := hi.1
  have hold : hasId (messagesFor w c) i = false := by
    refine Bool.eq_false_iff.2 fun hres => ?_
    exact absurd ((hr.kept i (hrec i hieff) (.inl hres)).symm.trans hi.2) (by simp)
  have hout : ∀ o ∈ loadLatestMessages w c limit beforeTs, o.msg.id ≠ i := by
    rintro o ho rfl
    exact absurd ((hr.kept _ (hrec _ hieff) (.inr (mem_map_of_mem ho))).symm.trans hi.2) (by simp)
  obtain ⟨hlen, hle⟩ := below_of_not_read h hj hieff (hcur i ⟨hieff, hold⟩) hout
  obtain ⟨hroom, holder⟩ := hw i ⟨hieff, hold⟩
  refine ⟨?_, fun o ho => ?_⟩
  · -- the answer is full, so the mark stays
    unfold loadOlderDone
    dsimp only
    rwa [if_neg (by rw [hlen]; exact lt_irrefl _)]
  · rcases hr.origin o ho with hres | hrow
    · obtain ⟨x, hx, hxo⟩ := hasId_iff.1 hres
      rw [← hxo]
      exact holder x hx
    · obtain ⟨x, hx, hxo⟩ := mem_map.1 hrow
      rw [← hxo, ← (hrows x hx).2]
      exact hle x hx

theorem mem_brought (h : k ∈ brought m) : m.key = k := by
  unfold brought at h
  split at h
  · cases h
  · exact (mem_singleton.1 h).symm

/-- The tail of a chat is its newest message: nothing else of the chat is newer. -/
theorem above_tails {jids : List Jid} {n : ℕ} {j : MsgId} (h : OneStamp stamp w) (hn : n ≤ 1)
    (hj : ∀ jid ∈ jids, ∀ job ∈ w.jobs, job.writes jid = false)
    (hi : i ∈ idsIn c ((tailRows w n w.nextRef jids).1.flatMap (fun o => brought o.msg)))
    (hk : (w.eff ⟨c, j⟩).isSome = true) (hne : j ≠ i) : stamp j ≤ stamp i := by
  obtain ⟨o, ho, hb⟩ := mem_flatMap.1 (mem_idsIn.1 hi)
  have hkey : o.msg.key = ⟨c, i⟩ := mem_brought hb
  have hid : o.msg.id = i := congrArg Key.id hkey
  obtain ⟨jid, hjid, ref, hread⟩ := mem_tailRows jids _ ho
  have hc : jid = c := (mem_loadLatestMessages hread).1.symm.trans (congrArg Key.chatJid hkey)
  rw [hc] at hread hjid
  have h' : OneStamp stamp { w with nextRef := ref } := h.of_eq rfl rfl rfl rfl
  have hout : ∀ x ∈ loadLatestMessages { w with nextRef := ref } c n none, x.msg.id ≠ j := by
    intro x hx hxj
    -- the answer has one row
    have hlen := (isPage_seen h' c n none).length_le
    rw [readAnswer, length_map] at hlen
    obtain ⟨a, ha⟩ : ∃ a, loadLatestMessages { w with nextRef := ref } c n none = [a] :=
      length_eq_one_iff.1 (le_antisymm (hlen.trans hn) (length_pos_of_mem hx))
    rw [ha] at hx hread
    rw [mem_singleton.1 hx, ← mem_singleton.1 hread, hid] at hxj
    exact hne hxj.symm
  have hall : upTo none (stamp j) = true := rfl
  obtain ⟨-, hle⟩ := below_of_not_read h' (hj c hjid) hk hall hout
  rw [← hid, ← (dated_read h' c n none o hread).2]
  exact hle o hread

end Whatsvelte
