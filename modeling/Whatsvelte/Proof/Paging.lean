import Whatsvelte.Proof.ReadThrough

/-!
# Paging is complete

A chat is paged in from its newest messages down. The read includes the second of the oldest resident message, since
others of that second may be missing, and so it asks for as many messages more as are resident there.

* `page_progress`: a page brings as many missing messages as were asked for, or else all that are missing.
* `paging_complete`: **the pages of a chat come to an end**, with every stored message resident once, and
  `loadUntil` finds every stored message.
-/

namespace Whatsvelte

open List

variable {w v : World} {jid : Jid} {count : ℕ} {r : UiMessage} {o : Obj}

/-! ## A page when nothing else runs -/

/-- Nothing is queued or in flight, and nobody waits for a page of the chat. -/
structure ReadsAlone (w : World) (jid : Jid) : Prop where
  txq : w.txq = []
  pending : w.q.pending.rows = []
  loading : w.loadingOlder jid = false
  opening : w.opening jid = false

/-- `await loadOlder(jid, count)`. -/
def World.page (w : World) (jid : Jid) (count : ℕ) : World := w.run [.loadOlder jid count, .openNext, .advance]

/-- One page after the other. -/
def World.pages (w : World) (jid : Jid) (counts : List ℕ) : World := counts.foldl (fun w c => w.page jid c) w

/-- `loadUntil`: page older history in until message `id` is resident. -/
def loadUntil (w : World) (jid : Jid) (id : MsgId) : ℕ → World × Bool
  | 0 => (w, hasId (messagesFor w jid) id)
  | maxPages + 1 =>
    if hasId (messagesFor w jid) id then (w, true)
    else if w.exhausted jid then (w, false)
    else loadUntil (w.page jid PAGE) jid id maxPages

/-- The time that a page goes up to. -/
def World.oldestTs (w : World) (jid : Jid) : Option ℤ := (messagesFor w jid).head?.map (·.msg.timestamp)

/-- How many messages a page asks for. -/
def World.pageLimit (w : World) (jid : Jid) (count : ℕ) : ℕ :=
  count + ((messagesFor w jid).filter (fun o => some o.msg.timestamp = w.oldestTs jid)).length

/-- The rows of a page. -/
def World.pageRows (w : World) (jid : Jid) (count : ℕ) : List UiMessage :=
  readLatest w.msgs jid (w.pageLimit jid count) (w.oldestTs jid)

/-- A page of a chat that may have older messages reads once. -/
theorem page_eq (hi : ReadsAlone w jid) (hx : w.exhausted jid = false) (count : ℕ) :
    ∃ u : World, u.byChat = w.byChat ∧ u.q = w.q ∧ u.msgs = w.msgs ∧ u.txq = [] ∧ u.exhausted = w.exhausted ∧
      u.opening = w.opening ∧
      w.page jid count = loadOlderDone u jid (w.pageLimit jid count) (w.oldestTs jid) := by
  have hcall : loadOlder w jid count =
      { w with loadingOlder := Function.update w.loadingOlder jid true }.enqueue
        (.page jid (w.pageLimit jid count) (w.oldestTs jid)) := by
    unfold loadOlder
    rw [if_neg (by simp [hi.loading, hx])]
    rfl
  refine ⟨{ w with loadingOlder := Function.update w.loadingOlder jid true, nextTid := w.nextTid + 1 }, rfl, rfl,
    rfl, hi.txq, rfl, rfl, ?_⟩
  show advance (openNext (loadOlder w jid count)) = _
  rw [hcall]
  simp only [openNext, World.enqueue, hi.txq, nil_append, dropWhile_cons, takeWhile_cons,
    Bool.false_eq_true, if_false, Job.stale, advance, openChatDone]
  rw [if_neg (by simp [loadOlderDone, hi.opening])]

/-- With nothing queued, a read returns rows. -/
theorem loadLatestMessages_rows (h : w.q.pending.rows = []) (limit : ℕ) (beforeTs : Option ℤ) :
    loadLatestMessages w jid limit beforeTs = objs w.nextRef (readLatest w.msgs jid limit beforeTs) := by
  have hnone : pendingFor w.q jid beforeTs = [] := by
    unfold pendingFor
    rw [h]
    rfl
  unfold loadLatestMessages
  rw [hnone]
  rfl

/-- What a page does: the rows that are not resident join the list. -/
structure Paged (w : World) (jid : Jid) (count : ℕ) (v : World) : Prop where
  list : ∃ fresh : List Obj,
    fresh.map (·.msg) = (w.pageRows jid count).filter (fun m => !hasId (messagesFor w jid) m.id) ∧
      (messagesFor v jid).Perm (fresh ++ messagesFor w jid)
  sorted : ByTime (messagesFor v jid)
  msgs : v.msgs = w.msgs
  exhausted : v.exhausted jid = decide ((w.pageRows jid count).length < w.pageLimit jid count)
  alone : ReadsAlone v jid

theorem paged_page (hi : ReadsAlone w jid) (hx : w.exhausted jid = false) (hs : ByTime (messagesFor w jid))
    (count : ℕ) : Paged w jid count (w.page jid count) := by
  obtain ⟨u, hb, hq, hm, ht, hex, hop, he⟩ := page_eq hi hx count
  have hlist : ∀ j, messagesFor u j = messagesFor w j := fun j => by rw [messagesFor, hb]; rfl
  have hrows : loadLatestMessages u jid (w.pageLimit jid count) (w.oldestTs jid) =
      objs u.nextRef (w.pageRows jid count) := by
    rw [loadLatestMessages_rows (by rw [hq]; exact hi.pending), hm]
    rfl
  have hlen : (objs u.nextRef (w.pageRows jid count)).length = (w.pageRows jid count).length := by
    conv_rhs => rw [← map_msg_objs u.nextRef (w.pageRows jid count)]
    rw [length_map]
  have hfresh : ((objs u.nextRef (w.pageRows jid count)).filter
        (fun o => !hasId (messagesFor w jid) o.msg.id)).map (·.msg) =
      (w.pageRows jid count).filter (fun m => !hasId (messagesFor w jid) m.id) := by
    conv_rhs => rw [← map_msg_objs u.nextRef (w.pageRows jid count)]
    rw [filter_map]
    rfl
  rw [he]
  refine ⟨?_, ?_, hm, ?_, ⟨ht, by rw [show (loadOlderDone u jid _ _).q = u.q from rfl, hq]; exact hi.pending,
    Function.update_self ..,
    by rw [show (loadOlderDone u jid _ _).opening = u.opening from rfl, hop]; exact hi.opening⟩⟩
  · obtain ⟨l, hperm, hl⟩ := messagesFor_loadOlderDone u jid (w.pageLimit jid count) (w.oldestTs jid)
    rw [hrows, hlist] at hperm
    refine ⟨_, hfresh, ?_⟩
    rwa [hl, if_pos rfl]
  · unfold loadOlderDone messagesFor
    dsimp only
    split
    · rwa [hb]
    · rw [Function.update_self]
      exact byTime_sortByTime _
  · unfold loadOlderDone
    dsimp only
    rw [hrows, hlen]
    split
    · rename_i hlt
      rw [Function.update_self, decide_eq_true hlt]
    · rename_i hlt
      rw [hex, hx, decide_eq_false hlt]

/-! ## A chat that is resident from its newest message down -/

/-- The stored messages of a chat that are not resident. -/
def World.missing (w : World) (jid : Jid) : List UiMessage :=
  w.msgs.rows.filter (fun r => r.chatJid = jid && !hasId (messagesFor w jid) r.id)

/-- The resident list is sorted and holds an id once. A resident message that is stored is stored at its time, and
what is stored and newer than the oldest resident message is resident. -/
structure TopDown (w : World) (jid : Jid) : Prop where
  sorted : ByTime (messagesFor w jid)
  ids : ((messagesFor w jid).map (·.msg.id)).Nodup
  copies : ∀ o ∈ messagesFor w jid, ∀ r ∈ w.msgs.rows, r.chatJid = jid → r.id = o.msg.id →
    r.timestamp = o.msg.timestamp
  newer : ∀ oldest ∈ (messagesFor w jid).head?, ∀ r ∈ w.msgs.rows, r.chatJid = jid →
    oldest.msg.timestamp < r.timestamp → hasId (messagesFor w jid) r.id = true

theorem mem_missing : r ∈ w.missing jid ↔
    r ∈ w.msgs.rows ∧ r.chatJid = jid ∧ hasId (messagesFor w jid) r.id = false := by
  simp [World.missing, mem_filter]

/-- The head of the list is the oldest. -/
theorem le_of_oldestTs (hs : ByTime (messagesFor w jid)) (ho : o ∈ messagesFor w jid) :
    ∃ b, w.oldestTs jid = some b ∧ b ≤ o.msg.timestamp := by
  unfold World.oldestTs
  cases hr : messagesFor w jid with
  | nil =>
    rw [hr] at ho
    cases ho
  | cons =>
    rw [hr] at ho hs
    refine ⟨_, rfl, ?_⟩
    rcases mem_cons.1 ho with rfl | ho
    · exact le_rfl
    · exact (pairwise_cons.1 hs).1 o ho

/-- A missing message is as old as every resident one. -/
theorem TopDown.le (h : TopDown w jid) (hr : r ∈ w.missing jid) (ho : o ∈ messagesFor w jid) :
    r.timestamp ≤ o.msg.timestamp := by
  obtain ⟨hmem, hc, hno⟩ := mem_missing.1 hr
  cases hl : messagesFor w jid with
  | nil =>
    rw [hl] at ho
    cases ho
  | cons a =>
    have ha : r.timestamp ≤ a.msg.timestamp := by
      by_contra hlt
      have := h.newer a (by rw [hl]; rfl) r hmem hc (not_le.1 hlt)
      rw [hno] at this
      cases this
    have hs := h.sorted
    rw [hl] at ho hs
    rcases mem_cons.1 ho with rfl | ho
    · exact ha
    · exact ha.trans ((pairwise_cons.1 hs).1 o ho)

theorem upTo_of_missing (h : TopDown w jid) (hr : r ∈ w.missing jid) :
    upTo (w.oldestTs jid) r.timestamp = true := by
  unfold World.oldestTs
  cases hl : messagesFor w jid with
  | nil => rfl
  | cons =>
    have := h.le hr (by rw [hl]; exact mem_cons_self)
    exact decide_eq_true this

/-! ## One page -/

/-- The rows of a page are a page of what is stored up to the oldest resident message. -/
theorem isPage_pageRows (w : World) (jid : Jid) (count : ℕ) :
    IsPage UiMessage.timestamp (w.pageLimit jid count)
      {r | r ∈ w.msgs.rows ∧ r.chatJid = jid ∧ upTo (w.oldestTs jid) r.timestamp = true}
      (w.pageRows jid count) := by
  have hsorted : (rowsUpTo w.msgs jid (w.oldestTs jid)).Pairwise (fun a b => a.timestamp ≤ b.timestamp) :=
    sorted_index _
  have hpage := isPage_lastN (n := w.pageLimit jid count) hsorted (nodup_rowsUpTo w jid _)
  rw [World.pageRows, readLatest_eq]
  exact hpage.of_eq fun r => mem_rowsUpTo

theorem nodup_ids_pageRows (w : World) (jid : Jid) (count : ℕ) : ((w.pageRows jid count).map (·.id)).Nodup := by
  have hkeys := nodup_readLatest w.msgs jid (w.pageLimit jid count) (w.oldestTs jid)
  have heq : (w.pageRows jid count).map UiMessage.key =
      ((w.pageRows jid count).map (·.id)).map (fun id => (⟨jid, id⟩ : Key)) := by
    rw [map_map]
    refine map_congr_left fun r hr => ?_
    obtain ⟨-, hc, -⟩ := (isPage_pageRows w jid count).mem r hr
    simp [UiMessage.key, hc]
  rw [← World.pageRows, heq] at hkeys
  exact hkeys.of_map _

/-- The rows that are resident already are of the oldest resident second. -/
theorem length_known_le (h : TopDown w jid) (count : ℕ) :
    ((w.pageRows jid count).filter (fun r => hasId (messagesFor w jid) r.id)).length ≤
      ((messagesFor w jid).filter (fun o => some o.msg.timestamp = w.oldestTs jid)).length := by
  have hsub : ((w.pageRows jid count).filter (fun r => hasId (messagesFor w jid) r.id)).map (·.id) ⊆
      ((messagesFor w jid).filter (fun o => some o.msg.timestamp = w.oldestTs jid)).map (·.msg.id) := by
    intro id hid
    obtain ⟨r, hr, rfl⟩ := mem_map.1 hid
    obtain ⟨hrow, hres⟩ := mem_filter.1 hr
    obtain ⟨o, ho, hoid⟩ := hasId_iff.1 hres
    obtain ⟨hmem, hc, hup⟩ := (isPage_pageRows w jid count).mem r hrow
    obtain ⟨b, hb, hle⟩ := le_of_oldestTs h.sorted ho
    -- the copy in the store has the time of the resident one
    have htime := h.copies o ho r hmem hc hoid.symm
    rw [hb] at hup
    have hup : r.timestamp ≤ b := of_decide_eq_true hup
    have heq : o.msg.timestamp = b := by omega
    refine mem_map.2 ⟨o, mem_filter.2 ⟨ho, ?_⟩, hoid⟩
    rw [hb, heq]
    exact decide_eq_true rfl
  have hnodup := (nodup_ids_pageRows w jid count).sublist
    ((filter_sublist (p := fun r : UiMessage => hasId (messagesFor w jid) r.id)).map (·.id))
  have hle := (subperm_of_subset hnodup hsub).length_le
  rwa [length_map, length_map] at hle

/-- The rows of a page that are not resident are missing. -/
theorem mem_missing_of_fresh (hr : r ∈ (w.pageRows jid count).filter (fun m => !hasId (messagesFor w jid) m.id)) :
    r ∈ w.missing jid := by
  obtain ⟨hrow, hno⟩ := mem_filter.1 hr
  obtain ⟨hmem, hc, -⟩ := (isPage_pageRows w jid count).mem r hrow
  exact mem_missing.2 ⟨hmem, hc, by simpa using hno⟩

/-- A message is resident after a page if it was before, or it is one of the rows. -/
theorem hasId_paged (hp : Paged w jid count v) (hr : r ∈ w.msgs.rows) (hc : r.chatJid = jid) :
    hasId (messagesFor v jid) r.id = true ↔ hasId (messagesFor w jid) r.id = true ∨ r ∈ w.pageRows jid count := by
  obtain ⟨fresh, hfresh, hperm⟩ := hp.list
  constructor
  · intro h
    obtain ⟨o, ho, hid⟩ := hasId_iff.1 h
    rcases mem_append.1 (hperm.mem_iff.1 ho) with ho | ho
    · have hrow : o.msg ∈ (w.pageRows jid count).filter (fun m => !hasId (messagesFor w jid) m.id) := by
        rw [← hfresh]
        exact mem_map_of_mem ho
      obtain ⟨hmem, hoc, -⟩ := mem_missing.1 (mem_missing_of_fresh hrow)
      have heq : o.msg = r := eq_of_mem_rows hr hmem (hoc.trans hc.symm) hid
      exact .inr (heq ▸ (mem_filter.1 hrow).1)
    · exact .inl (hasId_iff.2 ⟨o, ho, hid⟩)
  · rintro (h | h)
    · obtain ⟨o, ho, hid⟩ := hasId_iff.1 h
      exact hasId_iff.2 ⟨o, hperm.mem_iff.2 (mem_append_right _ ho), hid⟩
    · cases hres : hasId (messagesFor w jid) r.id with
      | true =>
        obtain ⟨o, ho, hid⟩ := hasId_iff.1 hres
        exact hasId_iff.2 ⟨o, hperm.mem_iff.2 (mem_append_right _ ho), hid⟩
      | false =>
        have hrow : r ∈ fresh.map (·.msg) := by
          rw [hfresh]
          exact mem_filter.2 ⟨h, by rw [hres]; rfl⟩
        obtain ⟨o, ho, rfl⟩ := mem_map.1 hrow
        exact hasId_iff.2 ⟨o, hperm.mem_iff.2 (mem_append_left _ ho), rfl⟩

theorem missing_paged (hp : Paged w jid count v) :
    v.missing jid = (w.missing jid).filter (fun r => r ∉ w.pageRows jid count) := by
  unfold World.missing
  rw [hp.msgs, filter_filter]
  refine filter_congr fun r hr => ?_
  by_cases hc : r.chatJid = jid
  · have hiff := hasId_paged hp hr hc
    cases hv : hasId (messagesFor v jid) r.id with
    | true =>
      rcases hiff.1 hv with h | h <;> simp [h]
    | false =>
      have h1 : hasId (messagesFor w jid) r.id = false := by
        rw [← Bool.not_eq_true]
        intro h
        rw [hiff.2 (.inl h)] at hv
        cases hv
      have h2 : r ∉ w.pageRows jid count := by
        intro h
        rw [hiff.2 (.inr h)] at hv
        cases hv
      simp [h1, h2]
  · simp [hc]

/-- **A page makes progress**: it brings as many missing messages as were asked for, or it is the last one and
nothing is missing. -/
theorem page_progress (h : TopDown w jid) (hp : Paged w jid count v) :
    ((v.missing jid).length + count ≤ (w.missing jid).length ∨ v.exhausted jid = true) ∧
      (v.exhausted jid = true → v.missing jid = []) := by
  have hpage := isPage_pageRows w jid count
  have hall : (∀ r ∈ w.missing jid, r ∈ w.pageRows jid count) → v.missing jid = [] := by
    intro hmem
    rw [missing_paged hp, filter_eq_nil_iff]
    intro r hr
    simpa using hmem r hr
  constructor
  · by_cases hlen : (w.pageRows jid count).length < w.pageLimit jid count
    · exact .inr (by rw [hp.exhausted, decide_eq_true hlen])
    · -- the page is full, and it holds at most as many resident rows as it was made longer for
      left
      have hknown := length_known_le h count
      have hsum := length_eq_length_filter_add (l := w.pageRows jid count)
        (fun r => hasId (messagesFor w jid) r.id)
      have hfresh : ((w.pageRows jid count).filter (fun r => !hasId (messagesFor w jid) r.id)).length ≤
          ((w.missing jid).filter (fun r => r ∈ w.pageRows jid count)).length := by
        refine (subperm_of_subset (hpage.nodup.sublist filter_sublist) fun r hr => ?_).length_le
        exact mem_filter.2 ⟨mem_missing_of_fresh hr, decide_eq_true (mem_filter.1 hr).1⟩
      have hsplit := length_eq_length_filter_add (l := w.missing jid) (fun r => r ∈ w.pageRows jid count)
      have hleft : (v.missing jid).length =
          ((w.missing jid).filter (fun r => !decide (r ∈ w.pageRows jid count))).length := by
        rw [missing_paged hp]
        simp
      unfold World.pageLimit at hlen
      omega
  · intro hex
    rw [hp.exhausted] at hex
    refine hall fun r hr => hpage.mem_of_length_lt (of_decide_eq_true hex) ?_
    obtain ⟨hmem, hc, -⟩ := mem_missing.1 hr
    exact ⟨hmem, hc, upTo_of_missing h hr⟩

/-- A page keeps what is needed for the next one. -/
theorem TopDown.paged (h : TopDown w jid) (hp : Paged w jid count v) : TopDown v jid := by
  obtain ⟨fresh, hfresh, hperm⟩ := hp.list
  have hrow : ∀ o ∈ fresh, o.msg ∈ (w.pageRows jid count).filter (fun m => !hasId (messagesFor w jid) m.id) := by
    intro o ho
    rw [← hfresh]
    exact mem_map_of_mem ho
  refine ⟨hp.sorted, ?_, fun o ho r hr hc hid => ?_, fun oldest ho r hr hc hlt => ?_⟩
  · have hids : ((fresh ++ messagesFor w jid).map (·.msg.id)).Nodup := by
      rw [map_append, nodup_append]
      refine ⟨?_, h.ids, ?_⟩
      · have hnodup := (nodup_ids_pageRows w jid count).sublist
          ((filter_sublist (p := fun r : UiMessage => !hasId (messagesFor w jid) r.id)).map (·.id))
        rwa [← hfresh, map_map] at hnodup
      · rintro id hid id' hid' rfl
        obtain ⟨o, ho, rfl⟩ := mem_map.1 hid
        obtain ⟨x, hx, heq⟩ := mem_map.1 hid'
        have hno := (mem_missing.1 (mem_missing_of_fresh (hrow o ho))).2.2
        rw [hasId_iff.2 ⟨x, hx, heq⟩] at hno
        cases hno
    exact (hperm.map _).nodup_iff.2 hids
  · rw [hp.msgs] at hr
    rcases mem_append.1 (hperm.mem_iff.1 ho) with ho | ho
    · obtain ⟨hmem, hoc, -⟩ := mem_missing.1 (mem_missing_of_fresh (hrow o ho))
      rw [eq_of_mem_rows hmem hr (hc.trans hoc.symm) hid]
    · exact h.copies o ho r hr hc hid
  · -- a message that is still missing was missing before, and is below the page
    by_contra hno
    rw [Bool.not_eq_true] at hno
    have hmiss : r ∈ v.missing jid := mem_missing.2 ⟨hr, hc, hno⟩
    rw [missing_paged hp] at hmiss
    obtain ⟨hmiss, hout⟩ := mem_filter.1 hmiss
    have ho : oldest ∈ messagesFor v jid := mem_of_mem_head? ho
    have hle : r.timestamp ≤ oldest.msg.timestamp := by
      rcases mem_append.1 (hperm.mem_iff.1 ho) with ho | ho
      · obtain ⟨hmem, -, -⟩ := mem_missing.1 hmiss
        exact ((isPage_pageRows w jid count).rest r ⟨hmem, hc, upTo_of_missing h hmiss⟩
          (of_decide_eq_true hout)).2 _ (mem_filter.1 (hrow oldest ho)).1
      · exact h.le hmiss ho
    omega

/-! ## Every page -/

theorem page_exhausted (hi : ReadsAlone w jid) (hx : w.exhausted jid = true) (count : ℕ) : w.page jid count = w := by
  have hcall : loadOlder w jid count = w := by
    unfold loadOlder
    rw [if_pos (by simp [hx])]
  show advance (openNext (loadOlder w jid count)) = w
  rw [hcall]
  simp [openNext, advance, hi.txq]

/-- What holds between pages: a chat has no older messages only if none is missing. -/
structure Between (w : World) (jid : Jid) : Prop where
  alone : ReadsAlone w jid
  topDown : TopDown w jid
  complete : w.exhausted jid = true → w.missing jid = []

theorem Between.page (h : Between w jid) (count : ℕ) :
    Between (w.page jid count) jid ∧ (w.page jid count).msgs = w.msgs ∧
      (w.exhausted jid = true ∧ w.page jid count = w ∨
        ((w.page jid count).missing jid).length + count ≤ (w.missing jid).length ∨
        (w.page jid count).exhausted jid = true) := by
  cases hx : w.exhausted jid with
  | true =>
    rw [page_exhausted h.alone hx]
    exact ⟨h, rfl, .inl ⟨rfl, rfl⟩⟩
  | false =>
    have hp := paged_page h.alone hx h.topDown.sorted count
    obtain ⟨hprogress, hcomplete⟩ := page_progress h.topDown hp
    exact ⟨⟨hp.alone, h.topDown.paged hp, hcomplete⟩, hp.msgs, .inr hprogress⟩

theorem Between.pages (h : Between w jid) (counts : List ℕ) :
    Between (w.pages jid counts) jid ∧ (w.pages jid counts).msgs = w.msgs := by
  induction counts generalizing w with
  | nil => exact ⟨h, rfl⟩
  | cons c counts ih =>
    obtain ⟨h1, h2, -⟩ := h.page c
    obtain ⟨h3, h4⟩ := ih h1
    exact ⟨h3, h4.trans h2⟩

theorem pages_exhausted (hi : ReadsAlone w jid) (hx : w.exhausted jid = true) (counts : List ℕ) :
    w.pages jid counts = w := by
  induction counts with
  | nil => rfl
  | cons c counts =>
    show (w.page jid c).pages jid counts = w
    rwa [page_exhausted hi hx]

/-- **The pages come to an end.** -/
theorem Between.exhausted (h : Between w jid) (counts : List ℕ) (hpos : ∀ c ∈ counts, 1 ≤ c)
    (hlen : (w.missing jid).length < counts.length) : (w.pages jid counts).exhausted jid = true := by
  induction counts generalizing w with
  | nil => cases hlen
  | cons c counts ih =>
    have hc := hpos c mem_cons_self
    obtain ⟨hbetween, -, hpage⟩ := h.page c
    show ((w.page jid c).pages jid counts).exhausted jid = true
    cases hx : (w.page jid c).exhausted jid with
    | true =>
      rwa [pages_exhausted hbetween.alone hx]
    | false =>
      refine ih hbetween (fun c hc => hpos c (mem_cons_of_mem _ hc)) ?_
      rw [length_cons] at hlen
      rcases hpage with ⟨hex, heq⟩ | hless | hex
      · rw [heq, hex] at hx
        cases hx
      · omega
      · rw [hex] at hx
        cases hx

/-- A stored message of a chat with nothing missing is resident once. -/
theorem Between.once (h : Between w jid) (hx : w.exhausted jid = true) (hr : r ∈ w.msgs.rows) (hc : r.chatJid = jid) :
    (messagesFor w jid).countP (fun o => o.msg.id = r.id) = 1 := by
  have hres : r.id ∈ (messagesFor w jid).map (·.msg.id) := by
    by_contra hout
    have hno : hasId (messagesFor w jid) r.id = false := by
      rw [← Bool.not_eq_true]
      intro hyes
      obtain ⟨o, ho, hid⟩ := hasId_iff.1 hyes
      exact hout (mem_map.2 ⟨o, ho, hid⟩)
    have hmiss : r ∈ w.missing jid := mem_missing.2 ⟨hr, hc, hno⟩
    rw [h.complete hx] at hmiss
    cases hmiss
  have hcount := count_eq_one_of_mem h.topDown.ids hres
  rw [count_eq_countP, countP_map] at hcount
  rw [← hcount]
  exact countP_congr fun o _ => by simp

/-- **`loadUntil` finds** every stored message, given a page for each one that is missing. -/
theorem Between.loadUntil (h : Between w jid) (hr : r ∈ w.msgs.rows) (hc : r.chatJid = jid) (maxPages : ℕ)
    (hn : (w.missing jid).length ≤ maxPages) : (loadUntil w jid r.id maxPages).2 = true := by
  -- a stored message that is not resident is missing
  have hmiss : ∀ {v : World}, v.msgs = w.msgs → hasId (messagesFor v jid) r.id ≠ true → r ∈ v.missing jid := by
    intro v hm hno
    exact mem_missing.2 ⟨hm ▸ hr, hc, Bool.not_eq_true _ ▸ hno⟩
  induction maxPages generalizing w with
  | zero =>
    by_contra hno
    have hmem := hmiss rfl hno
    rw [eq_nil_of_length_eq_zero (Nat.le_zero.1 hn)] at hmem
    cases hmem
  | succ n ih =>
    unfold Whatsvelte.loadUntil
    split
    · rfl
    · rename_i hno
      have hmem := hmiss rfl hno
      split
      · rename_i hx
        rw [h.complete hx] at hmem
        cases hmem
      · rename_i hx
        obtain ⟨hbetween, hmsgs, hpage⟩ := h.page PAGE
        refine ih hbetween (hmsgs ▸ hr) ?_ fun hm hno => hmiss (hm.trans hmsgs) hno
        rcases hpage with ⟨hex, -⟩ | hless | hex
        · exact absurd hex hx
        · have hone : 1 ≤ PAGE := by decide
          omega
        · rw [hbetween.complete hex]
          exact Nat.zero_le n

/-- **Paging makes progress and is complete.** The resident list may hold messages that are not stored. -/
theorem paging_complete (w : World) (jid : Jid) (hi : ReadsAlone w jid) (ht : TopDown w jid)
    (hx : w.exhausted jid = false) :
    (∀ count, 1 ≤ count → ReadsAlone (w.page jid count) jid ∧ TopDown (w.page jid count) jid ∧
      (∀ o ∈ messagesFor w jid, o ∈ messagesFor (w.page jid count) jid) ∧
      (((w.page jid count).missing jid).length + count ≤ (w.missing jid).length ∨
        (w.page jid count).exhausted jid = true)) ∧
    (∀ counts : List ℕ, (∀ c ∈ counts, 1 ≤ c) →
      ReadsAlone (w.pages jid counts) jid ∧ TopDown (w.pages jid counts) jid ∧
      ((w.missing jid).length < counts.length → (w.pages jid counts).exhausted jid = true) ∧
      ((w.pages jid counts).exhausted jid = true → ∀ r ∈ w.msgs.rows, r.chatJid = jid →
        (messagesFor (w.pages jid counts) jid).countP (fun o => o.msg.id = r.id) = 1)) ∧
    ∀ r ∈ w.msgs.rows, r.chatJid = jid → ∀ maxPages, (w.missing jid).length ≤ maxPages →
      (loadUntil w jid r.id maxPages).2 = true := by
  have h : Between w jid := ⟨hi, ht, fun hex => by rw [hx] at hex; cases hex⟩
  refine ⟨fun count _ => ?_, fun counts hpos => ?_, fun r hr hc maxPages hn => h.loadUntil hr hc maxPages hn⟩
  · have hp := paged_page hi hx ht.sorted count
    obtain ⟨fresh, -, hperm⟩ := hp.list
    exact ⟨hp.alone, ht.paged hp, fun o ho => hperm.mem_iff.2 (List.mem_append_right _ ho),
      (page_progress ht hp).1⟩
  · obtain ⟨hbetween, hmsgs⟩ := h.pages counts
    exact ⟨hbetween.alone, hbetween.topDown, h.exhausted counts hpos,
      fun hex r hr hc => hbetween.once hex (hmsgs ▸ hr) hc⟩

/-- The newer of two stored messages is resident, with a bubble of the same second. -/
theorem paging_complete_bubble :
    let w : World := { World.init with
      msgs := (Table.empty.set msgX).set msgY
      byChat := fun jid => if jid = chatA then some [⟨0, msgY⟩, ⟨1, { msgY with id := tempId "t" }⟩] else none }
    (loadUntil w chatA "X" 0).2 = false ∧ (loadUntil w chatA "X" 1).2 = true := by
  intro w
  have hlist : messagesFor w chatA = [⟨0, msgY⟩, ⟨1, { msgY with id := tempId "t" }⟩] := rfl
  have hrows : w.msgs.rows = [msgX, msgY] := by decide +kernel
  have htop : TopDown w chatA := by
    refine ⟨?_, ?_, ?_, ?_⟩
    · rw [hlist, ByTime]
      decide +kernel
    · rw [hlist]
      decide +kernel
    · rw [hlist, hrows]
      decide +kernel
    · rw [hlist, hrows]
      decide +kernel
  have hx : w.exhausted chatA = false := rfl
  obtain ⟨-, -, hfinds⟩ := paging_complete w chatA ⟨rfl, rfl, rfl, rfl⟩ htop hx
  exact ⟨by decide +kernel, hfinds msgX (by rw [hrows]; exact List.mem_cons_self) rfl 1 (by decide +kernel)⟩

end Whatsvelte
