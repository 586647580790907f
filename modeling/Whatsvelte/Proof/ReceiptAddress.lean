import Whatsvelte.Proof.Albums
import Whatsvelte.Proof.ReadReceipts

/-!
# Where read receipts go

Albums are grouped by the canonical sender, receipts are addressed by the JIDs that the server used.
A row is tracked with the address of its last item, so that the receipts of an album whose items came
under different addresses all go to that of the last one.

`receipts_addressed_iff`: **every id is sent to the address of its message if and only if** the rows
that share a group of a flush hold only messages with the address of either row's last item
(`AddressedAlike`). For distinct ids and JIDs without `|` this says that the items of every row are
addressed as its last item is (`addressedAlike_iff_rows`).
-/

namespace Whatsvelte.ReadReceipts

open Albums
open List

variable {s : State} {p q : Pending} {g : Group} {l batch : List Pending} {chat : Jid} {list : List UiMessage}
  {r r' : Albums.Row} {m last : UiMessage}

/-! ## The entries of a row -/

/-- The sender that a receipt for the message names. -/
def receiptSender (m : UiMessage) : Option Jid :=
  if isGroup m.chatJid then some (protoSenderJid m) else none

/-- The entry with the address of `last`. -/
def entryFor (last : UiMessage) (id : MsgId) : Pending :=
  ⟨last.chatJid, protoChatJid last, receiptSender last, id⟩

/-- The row whose last item is `last` is tracked. -/
def Tracked (last : UiMessage) : Prop := last.fromMe = false ∧ last.id ≠ ""

theorem trackRead_bubbleParams (last : UiMessage) (album : Option (List UiMessage)) (p : Pending) :
    p ∈ trackRead (bubbleParams last album) ↔ Tracked last ∧
      ∃ id ∈ (match album.map fun items => items.map (·.id) with
        | some (i :: ids) => i :: ids
        | _ => [last.id]), p = entryFor last id := by
  unfold trackRead Tracked
  by_cases h : (!last.fromMe && last.id ≠ "") = true
  · rw [if_pos (by exact h), mem_map]
    simp only [Bool.and_eq_true, Bool.not_eq_true', decide_eq_true_eq] at h
    simp only [h, ne_eq, not_false_eq_true, and_self, true_and]
    simp only [eq_comm]
    rfl
  · rw [if_neg (by exact h)]
    simp only [Bool.and_eq_true, Bool.not_eq_true', decide_eq_true_eq] at h
    simp [h]

/-- **The last item of a row stands for all of them.** -/
theorem mem_rowEntries : p ∈ rowEntries r ↔
    ∃ last ∈ r.items.getLast?, Tracked last ∧ ∃ m ∈ r.items, p = entryFor last m.id := by
  cases r with
  | msg =>
    simp only [rowEntries, trackRead_bubbleParams, Albums.Row.items]
    simp
  | album k items =>
    simp only [rowEntries, Albums.Row.items]
    cases hl : items.getLast? with
    | none => simp
    | some =>
      simp only [Option.elim_some, trackRead_bubbleParams, Option.map_some, Option.mem_def,
        Option.some.injEq, exists_eq_left']
      cases items with
      | nil => cases hl
      | cons => simp

/-! ## Rows that are seen -/

/-- A row becomes visible, or something else happens to the module. -/
def seen (v : Albums.Row ⊕ Step) : List Step :=
  v.elim (fun r => (rowEntries r).map .enqueue) fun e => [e]

/-- The rows of the list are seen in any order, any number of times, with toggles of the setting,
timers and answers in between. -/
def Shown (list : List UiMessage) (vs : List (Albums.Row ⊕ Step)) : Prop :=
  (∀ r, .inl r ∈ vs → r ∈ groupAlbums list) ∧ ∀ p, .inr (.enqueue p) ∉ vs

/-- A call with this address is addressed as the message was. -/
def Addressed (m : UiMessage) (chatJid : Jid) (senderJid : Option Jid) : Prop :=
  protoChatJid m = chatJid ∧ (isGroup m.chatJid = true → senderJid = some (protoSenderJid m))

/-- Every id that is sent belongs to a message of the list with the address of the call. -/
def ReceiptsAddressed (list : List UiMessage) : Prop :=
  ∀ vs, Shown list vs → ∀ f ∈ ((State.init true).run (vs.flatMap seen)).flushes, ∀ g ∈ f.sent, ∀ id ∈ g.ids,
    ∃ m ∈ list, m.id = id ∧ Addressed m g.chatJid g.senderJid

/-- Rows that share a group hold messages with the address of either row's last item. -/
def AddressedAlike (list : List UiMessage) : Prop :=
  ∀ r ∈ groupAlbums list, ∀ r' ∈ groupAlbums list, ∀ last ∈ r.items.getLast?, ∀ last' ∈ r'.items.getLast?,
    Tracked last → Tracked last' →
      groupKey (protoChatJid last) (receiptSender last) = groupKey (protoChatJid last') (receiptSender last') →
        ∀ m ∈ r'.items, ∃ m' ∈ list, m'.id = m.id ∧ Addressed m' (protoChatJid last) (receiptSender last)

theorem enqueued_append (es es' : List Step) : enqueued (es ++ es') = enqueued es ++ enqueued es' := by
  induction es with
  | nil => rfl
  | cons e es ih => cases e <;> simp [enqueued, ih]

theorem enqueued_map (l : List Pending) : enqueued (l.map .enqueue) = l := by
  induction l with
  | nil => rfl
  | cons p l ih => simp [enqueued, ih]

theorem mem_enqueued_seen {vs : List (Albums.Row ⊕ Step)} (h : Shown list vs) (hp : p ∈ enqueued (vs.flatMap seen)) :
    ∃ r ∈ groupAlbums list, p ∈ rowEntries r := by
  induction vs with
  | nil => cases hp
  | cons v vs ih =>
    rw [flatMap_cons, enqueued_append, mem_append] at hp
    rcases hp with hp | hp
    · cases v with
      | inl r =>
        refine ⟨r, h.1 r mem_cons_self, ?_⟩
        rwa [seen, Sum.elim_inl, enqueued_map] at hp
      | inr e =>
        cases e with
        | enqueue q => exact absurd mem_cons_self (h.2 q)
        | _ => cases hp
    · exact ih ⟨fun r hr => h.1 r (mem_cons_of_mem _ hr), fun q hq => h.2 q (mem_cons_of_mem _ hq)⟩ hp

theorem calls_run {es : List Step} (h : ∀ f ∈ s.flushes, f.sent ++ f.due = (groupsOf f.batch).rows) :
    ∀ f ∈ (s.run es).flushes, f.sent ++ f.due = (groupsOf f.batch).rows :=
  run_inv (I := fun s : State => ∀ f ∈ s.flushes, f.sent ++ f.due = (groupsOf f.batch).rows)
    (fun _ e h => calls_step h e) h es

/-- The address of a call is that of an entry with its key, and its ids are those of such entries. -/
theorem addressed_of_alike (h : AddressedAlike list) : ReceiptsAddressed list := by
  intro vs hvs f hf g hg id hid
  have hbatch : ∀ p ∈ f.batch, ∃ r ∈ groupAlbums list, p ∈ rowEntries r := by
    intro p hp
    refine mem_enqueued_seen hvs (log_subset (State.init true) _ ?_)
    exact mem_append_left _ (mem_flatMap.2 ⟨f, hf, hp⟩)
  have hrow : g ∈ (groupsOf f.batch).rows := by
    rw [← calls_run (s := State.init true) (fun _ h => (nomatch h)) f hf]
    exact mem_append_left _ hg
  obtain ⟨⟨p, hp, hpk, hc, hs⟩, hids⟩ := gather_first (gather_of_mem hrow)
  rw [hids] at hid
  obtain ⟨q, hq, rfl⟩ := mem_map.1 hid
  obtain ⟨hq, hqk⟩ := mem_filter.1 hq
  obtain ⟨r, hr, hpr⟩ := hbatch p hp
  obtain ⟨r', hr', hqr⟩ := hbatch q hq
  obtain ⟨last, hlast, ht, m, -, rfl⟩ := mem_rowEntries.1 hpr
  obtain ⟨last', hlast', ht', m', hm', rfl⟩ := mem_rowEntries.1 hqr
  rw [hc, hs]
  exact h r hr r' hr' last hlast last' hlast' ht ht' (hpk.trans (of_decide_eq_true hqk).symm) m' hm'

/-! ## A flush of two rows -/

/-- What is enqueued without a flush in between is on the queue, itself or an entry with its key. -/
structure Filled (s₀ s : State) (l : List Pending) : Prop where
  on : s.sendReadReceipts = true
  flushes : s.flushes = s₀.flushes
  timer : s.queue ≠ [] → s.timer = true
  acked : ∀ k ∈ s.acked, ∃ p ∈ s.queue, p.ackedKey = k
  queue : ∃ t, s.queue = s₀.queue ++ t ∧ t ⊆ l
  all : ∀ q ∈ l, ∃ p ∈ s.queue, p.ackedKey = q.ackedKey

theorem mem_addAcked {acked : List String} {k k' : String} (h : k' ∈ addAcked acked k) : k' ∈ acked ∨ k' = k := by
  unfold addAcked at h
  split at h
  · exact (mem_append.1 (mem_of_mem_drop h)).imp_right mem_singleton.1
  · exact (mem_append.1 h).imp_right mem_singleton.1

theorem filled_enqueue (h : Filled s s []) (p : Pending) : Filled s (s.step (.enqueue p)) [p] := by
  have hstep : s.step (.enqueue p) = if p.ackedKey ∈ s.acked then s else
      { s with acked := addAcked s.acked p.ackedKey, queue := s.queue ++ [p], timer := true } := by
    simp [State.step, enqueue, h.on]
  rw [hstep]
  split
  · rename_i hk
    refine ⟨h.on, rfl, h.timer, h.acked, ⟨[], (append_nil _).symm, nil_subset _⟩, ?_⟩
    exact forall_mem_singleton.2 (h.acked _ hk)
  · refine ⟨h.on, rfl, fun _ => rfl, fun k hk => ?_, ⟨[p], rfl, List.Subset.refl _⟩, ?_⟩
    · rcases mem_addAcked hk with hk | rfl
      · obtain ⟨q, hq, hqk⟩ := h.acked k hk
        exact ⟨q, mem_append_left _ hq, hqk⟩
      · exact ⟨p, mem_append_right _ mem_cons_self, rfl⟩
    · exact forall_mem_singleton.2 ⟨p, mem_append_right _ mem_cons_self, rfl⟩

theorem Filled.again {s₀ : State} (h : Filled s₀ s l) : Filled s s [] :=
  ⟨h.on, rfl, h.timer, h.acked, ⟨[], (append_nil _).symm, nil_subset _⟩, fun _ h => (nomatch h)⟩

theorem filled_run (h : Filled s s []) (l : List Pending) : Filled s (s.run (l.map .enqueue)) l := by
  induction l generalizing s with
  | nil => exact h
  | cons p l ih =>
    have h1 := filled_enqueue h p
    obtain ⟨t, ht, hsub⟩ := h1.queue
    have h2 := ih h1.again
    obtain ⟨t', ht', hsub'⟩ := h2.queue
    refine ⟨h2.on, h2.flushes.trans h1.flushes, h2.timer, h2.acked, ⟨t ++ t', ?_, ?_⟩, ?_⟩
    · rwa [← append_assoc, ← ht]
    · exact append_subset.2 ⟨fun q hq => (mem_singleton.1 (hsub hq)) ▸ mem_cons_self,
        fun q hq => mem_cons_of_mem _ (hsub' hq)⟩
    · refine forall_mem_cons.2 ⟨?_, h2.all⟩
      obtain ⟨q, hq, hk⟩ := h1.all p mem_cons_self
      refine ⟨q, ?_, hk⟩
      change q ∈ ((s.step (.enqueue p)).run (l.map .enqueue)).queue
      rw [ht']
      exact mem_append_left _ hq

/-- A queue whose entries share a key is sent in one call, to the address of the first. -/
theorem flush_of_one_key {rest : List Pending} (hq : s.queue = p :: rest) (ht : s.timer = true)
    (hk : ∀ q ∈ s.queue, q.groupKey = p.groupKey) :
    ∃ f ∈ (s.step .timerFires).flushes, ∃ g ∈ f.sent,
      g.chatJid = p.wireChatJid ∧ g.senderJid = p.senderJid ∧ g.ids = s.queue.map (·.id) := by
  have hgather : gather p.groupKey s.queue = some ⟨p.wireChatJid, p.senderJid, s.queue.map (·.id)⟩ := by
    unfold gather
    rw [filter_eq_self.2 fun q hq => decide_eq_true (hk q hq), hq]
  have hstep : (s.step .timerFires).flushes = s.flushes ++
      [⟨s.queue, (groupsOf s.queue).rows.take 1, (groupsOf s.queue).rows.drop 1⟩] := by
    simp [State.step, flush, ht, hq]
  have hmem := mem_of_gather hgather
  cases hrows : (groupsOf s.queue).rows with
  | nil => rw [hrows] at hmem; cases hmem
  | cons g rows =>
    have hg : g ∈ (groupsOf s.queue).rows := hrows ▸ mem_cons_self
    have hfirst := gather_of_mem hg
    obtain ⟨⟨q, hq', hqk, -⟩, -⟩ := gather_first hfirst
    rw [← hqk, hk q hq', hgather] at hfirst
    obtain rfl := Option.some.inj hfirst
    refine ⟨⟨s.queue, (groupsOf s.queue).rows.take 1, (groupsOf s.queue).rows.drop 1⟩, ?_,
      ⟨p.wireChatJid, p.senderJid, s.queue.map (·.id)⟩, ?_, rfl, rfl, rfl⟩
    · rw [hstep]
      exact mem_append_right _ mem_cons_self
    · rw [hrows]
      exact mem_cons_self

theorem filled_init : Filled (State.init true) (State.init true) [] :=
  ⟨rfl, rfl, fun h => absurd rfl h, fun _ h => (nomatch h), ⟨[], rfl, nil_subset _⟩, fun _ h => (nomatch h)⟩

/-- Two rows that share a group are sent together, to the address of the row seen first. -/
theorem flush_of_two {l₁ l₂ : List Pending} {k : String} (hne : l₁ ≠ [])
    (hk : ∀ p ∈ l₁ ++ l₂, p.groupKey = k) (hchat : ∀ p ∈ l₁ ++ l₂, p.chatJid = chat) :
    ∃ f ∈ ((State.init true).run (l₁.map .enqueue ++ (l₂.map .enqueue ++ [.timerFires]))).flushes, ∃ g ∈ f.sent,
      (∃ p ∈ l₁, g.chatJid = p.wireChatJid ∧ g.senderJid = p.senderJid) ∧ ∀ q ∈ l₂, q.id ∈ g.ids := by
  have happend : ∀ (s : State) (es es' : List Step), s.run (es ++ es') = (s.run es).run es' :=
    fun _ _ _ => run_append
  rw [happend, happend]
  have h1 := filled_run filled_init l₁
  generalize (State.init true).run (l₁.map .enqueue) = s₁ at h1 ⊢
  have h2 := filled_run h1.again l₂
  generalize s₁.run (l₂.map .enqueue) = s₂ at h2 ⊢
  obtain ⟨t₁, hq₁, ht₁⟩ := h1.queue
  obtain ⟨t₂, hq₂, ht₂⟩ := h2.queue
  obtain ⟨p, rest, hqueue⟩ : ∃ p rest, s₁.queue = p :: rest := by
    refine exists_cons_of_ne_nil fun hnil => ?_
    obtain ⟨a, l, rfl⟩ := exists_cons_of_ne_nil hne
    obtain ⟨b, hb, -⟩ := h1.all a mem_cons_self
    rw [hnil] at hb
    cases hb
  have hp : p ∈ l₁ := ht₁ (by rw [← nil_append t₁, ← show s₁.queue = [] ++ t₁ from hq₁, hqueue]; simp)
  have hsub : ∀ q ∈ s₂.queue, q ∈ l₁ ++ l₂ := by
    intro q hq
    rw [hq₂, hq₁, mem_append] at hq
    rcases hq with hq | hq
    · exact mem_append_left _ (ht₁ hq)
    · exact mem_append_right _ (ht₂ hq)
  have hcons : s₂.queue = p :: (rest ++ t₂) := by rw [hq₂, hqueue]; rfl
  obtain ⟨f, hf, g, hg, hc, hs, hids⟩ := flush_of_one_key hcons (h2.timer (by rw [hcons]; simp)) fun q hq => by
    rw [hk q (hsub q hq), hk p (mem_append_left _ hp)]
  refine ⟨f, hf, g, hg, ⟨p, hp, hc, hs⟩, fun q hq => ?_⟩
  -- an entry with the key of `q` has its id, since the chat is the same
  obtain ⟨q', hq', hkey⟩ := h2.all q hq
  have hid : q'.id = q.id := by
    rw [Pending.ackedKey, Pending.ackedKey, hchat q' (hsub q' hq'), hchat q (mem_append_right _ hq)] at hkey
    simpa using hkey
  rw [hids, ← hid]
  exact mem_map_of_mem hq'

theorem alike_of_addressed (hchat : ∀ m ∈ list, m.chatJid = chat) (h : ReceiptsAddressed list) :
    AddressedAlike list := by
  intro r hr r' hr' last hlast last' hlast' ht ht' hkey m hm
  have hp : entryFor last last.id ∈ rowEntries r :=
    mem_rowEntries.2 ⟨last, hlast, ht, last, mem_of_getLast? hlast, rfl⟩
  have hq : entryFor last' m.id ∈ rowEntries r' := mem_rowEntries.2 ⟨last', hlast', ht', m, hm, rfl⟩
  have hentries : ∀ p ∈ rowEntries r ++ rowEntries r',
      p.groupKey = groupKey (protoChatJid last) (receiptSender last) ∧ p.chatJid = chat := by
    intro p hp
    rcases mem_append.1 hp with hp | hp
    · obtain ⟨x, hx, -, y, -, rfl⟩ := mem_rowEntries.1 hp
      obtain rfl := Option.mem_unique hx hlast
      exact ⟨rfl, hchat x (mem_of_mem_items hr (mem_of_getLast? hx))⟩
    · obtain ⟨x, hx, -, y, -, rfl⟩ := mem_rowEntries.1 hp
      obtain rfl := Option.mem_unique hx hlast'
      exact ⟨hkey.symm, hchat x (mem_of_mem_items hr' (mem_of_getLast? hx))⟩
  -- the two rows are seen one after the other, and then the timer fires
  obtain ⟨f, hf, g, hg, ⟨p, hp', hc, hs⟩, hids⟩ := flush_of_two (ne_nil_of_mem hp)
    (fun p hp => (hentries p hp).1) fun p hp => (hentries p hp).2
  have hshown : Shown list [.inl r, .inl r', .inr .timerFires] := by
    refine ⟨fun x hx => ?_, fun q hq => by simp at hq⟩
    simp only [mem_cons, Sum.inl.injEq, reduceCtorEq, not_mem_nil, or_false] at hx
    rcases hx with rfl | rfl
    · exact hr
    · exact hr'
  obtain ⟨m', hm', hid, hadr⟩ := h _ hshown f hf g hg m.id (hids _ hq)
  obtain ⟨x, hx, -, y, -, rfl⟩ := mem_rowEntries.1 hp'
  obtain rfl := Option.mem_unique hx hlast
  rw [hc, hs] at hadr
  exact ⟨m', hm', hid, hadr⟩

/-- For distinct ids and JIDs without `|`, the items of a row are to be addressed as its last item is. -/
theorem addressedAlike_iff_rows (hchat : ∀ m ∈ list, m.chatJid = chat) (hid : (list.map (·.id)).Nodup)
    (hbar : ∀ m ∈ list, '|' ∉ (protoChatJid m).toList) :
    AddressedAlike list ↔ ∀ r ∈ groupAlbums list, ∀ last ∈ r.items.getLast?, Tracked last →
      ∀ m ∈ r.items, Addressed m (protoChatJid last) (receiptSender last) := by
  constructor
  · intro h r hr last hlast ht m hm
    obtain ⟨m', hm', heq, hadr⟩ := h r hr r hr last hlast last hlast ht ht rfl m hm
    rwa [← inj_on_of_nodup_map hid hm' (mem_of_mem_items hr hm) heq]
  · intro h r hr r' hr' last hlast last' hlast' ht ht' hkey m hm
    have hl := mem_of_mem_items hr (mem_of_getLast? hlast)
    have hl' := mem_of_mem_items hr' (mem_of_getLast? hlast')
    have hlists := congrArg String.toList hkey
    simp only [groupKey, String.toList_append, append_assoc] at hlists
    obtain ⟨hc, hs⟩ := append_cons_inj_left (hbar last hl) (hbar last' hl') hlists
    have hsender : receiptSender last = receiptSender last' := by
      have hs' := String.toList_inj.1 (List.cons.inj hs).2
      unfold receiptSender at hs' ⊢
      rw [hchat last hl, hchat last' hl'] at hs' ⊢
      split
      · rename_i hg
        rw [if_pos hg, if_pos hg] at hs'
        exact congrArg some hs'
      · rfl
    rw [String.toList_inj.1 hc, hsender]
    exact ⟨m, mem_of_mem_items hr' hm, rfl, h r' hr' last' hlast' ht' m hm⟩

/-- **Every read receipt is addressed as its own message was**, if and only if the rows that share a
group of a flush are addressed alike. -/
theorem receipts_addressed_iff (chat : Jid) (list : List UiMessage) (hchat : ∀ m ∈ list, m.chatJid = chat) :
    ReceiptsAddressed list ↔ AddressedAlike list :=
  ⟨alike_of_addressed hchat, addressed_of_alike⟩

/-- An album whose items came under one address. -/
theorem receipts_addressed_iff_album :
    (∀ m ∈ [photo "X", photo "Y"], m.chatJid = chatA) ∧ ReceiptsAddressed [photo "X", photo "Y"] := by
  have hchat : ∀ m ∈ [photo "X", photo "Y"], m.chatJid = chatA := by decide
  refine ⟨hchat, (receipts_addressed_iff chatA _ hchat).2 ?_⟩
  rw [addressedAlike_iff_rows hchat (by decide) (by decide)]
  have hrows : groupAlbums [photo "X", photo "Y"] = [.album (albumKey (photo "X")) [photo "X", photo "Y"]] := by
    rw [groupAlbums_eq]
    decide +kernel
  rw [hrows]
  intro r hr last hlast _ m hm
  obtain rfl := List.mem_singleton.1 hr
  cases hlast
  have hall : ∀ m ∈ [photo "X", photo "Y"], protoChatJid m = chatA ∧ isGroup m.chatJid = false := by decide
  refine ⟨(hall m hm).1, fun hg => ?_⟩
  rw [(hall m hm).2] at hg
  cases hg

/-- The first photo was received under the LID, before the chat was unified. -/
def lidPhoto : UiMessage := { photo "X" with wireChatJid := some "5@lid" }

/-- The receipt of the first photo goes to the address of the second. -/
theorem album_receipt_misaddressed :
    protoChatJid lidPhoto = "5@lid" ∧ ¬ ReceiptsAddressed [lidPhoto, photo "Y"] := by
  refine ⟨rfl, fun h => ?_⟩
  have hrow : .album "album:X" [lidPhoto, photo "Y"] ∈ groupAlbums [lidPhoto, photo "Y"] := by
    rw [groupAlbums_eq]
    decide +kernel
  have hshown : Shown [lidPhoto, photo "Y"] [.inl (.album "album:X" [lidPhoto, photo "Y"]), .inr .timerFires] := by
    refine ⟨fun r hr => ?_, fun p hp => by simp at hp⟩
    simp only [List.mem_cons, Sum.inl.injEq, reduceCtorEq, List.not_mem_nil, or_false] at hr
    rwa [hr]
  obtain ⟨m, hm, hid, hadr, -⟩ := h _ hshown
    ⟨[⟨chatA, chatA, none, "X"⟩, ⟨chatA, chatA, none, "Y"⟩], [⟨chatA, none, ["X", "Y"]⟩], []⟩
    (by decide +kernel) ⟨chatA, none, ["X", "Y"]⟩ List.mem_cons_self "X" List.mem_cons_self
  revert hadr hid
  revert m
  decide

end Whatsvelte.ReadReceipts
