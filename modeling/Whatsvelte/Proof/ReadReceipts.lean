import Mathlib.Data.Finset.Card
import Whatsvelte.Lib.Names
import Whatsvelte.Spec.ReadReceipts

/-!
# Read receipts are sent exactly once

`State.log` are the entries that passed the test against `acked`, in order: those of the batches that
were flushed, and those that still wait. As long as `acked` forgets nothing it is the list of their
keys (`Inv`), so that no message gets into the log twice, and a flush moves the queue as a whole.

`receipts_exactly_once`: **when nothing is left to do, every message that was enqueued with receipts
on is in exactly one call**, and every flush made one call per chat and sender.
-/

namespace Whatsvelte.ReadReceipts

open List

variable {s : State} {e : Step} {es : List Step} {p q : Pending} {g : Group} {f : Flush}
  {batch : List Pending} {k : String} {on : Bool}

/-! ## The groups of a batch -/

/-- The group of the entries with a key, addressed as the first of them. -/
def gather (k : String) (batch : List Pending) : Option Group :=
  match batch.filter fun p => p.groupKey = k with
  | [] => none
  | p :: ps => some ⟨p.wireChatJid, p.senderJid, (p :: ps).map (·.id)⟩

theorem gather_append (k : String) (batch : List Pending) (p : Pending) :
    gather k (batch ++ [p]) =
      if p.groupKey = k then
        some ((gather k batch).elim ⟨p.wireChatJid, p.senderJid, [p.id]⟩ fun g => { g with ids := g.ids ++ [p.id] })
      else gather k batch := by
  unfold gather
  rw [filter_append]
  by_cases h : p.groupKey = k
  · rw [if_pos h]
    cases batch.filter fun p => p.groupKey = k <;> simp [h]
  · simp [h]

theorem key_of_gather (h : gather k batch = some g) : g.key = k := by
  unfold gather at h
  split at h
  · cases h
  · rename_i q qs hf
    cases h
    have hq : q ∈ batch.filter fun p => p.groupKey = k := hf ▸ mem_cons_self
    exact of_decide_eq_true (mem_filter.1 hq).2

/-- The loop builds the groups. -/
theorem get_groupsOf (batch : List Pending) (k : String) : (groupsOf batch).get k = gather k batch := by
  induction batch using List.reverseRecOn generalizing k with
  | nil => rfl
  | append_singleton batch p ih =>
    have hstep : groupsOf (batch ++ [p]) = addToGroups (groupsOf batch) p := by
      simp [groupsOf]
    rw [hstep, addToGroups, gather_append, ih p.groupKey]
    cases hg : gather p.groupKey batch with
    | none =>
      have hkey : Group.key ⟨p.wireChatJid, p.senderJid, [p.id]⟩ = p.groupKey := rfl
      rw [Table.get_set, hkey, ih k]
      by_cases h : p.groupKey = k
      · rw [if_pos h, if_pos h, ← h, hg]
        rfl
      · rw [if_neg h, if_neg h]
    | some g =>
      have hkey : Group.key { g with ids := g.ids ++ [p.id] } = p.groupKey :=
        (show _ = g.key from rfl).trans (key_of_gather hg)
      rw [Table.get_set, hkey, ih k]
      by_cases h : p.groupKey = k
      · rw [if_pos h, if_pos h, ← h, hg]
        rfl
      · rw [if_neg h, if_neg h]

theorem gather_of_mem (h : g ∈ (groupsOf batch).rows) : gather g.key batch = some g := by
  rw [← get_groupsOf]
  exact Table.get_of_mem h

theorem mem_of_gather (h : gather k batch = some g) : g ∈ (groupsOf batch).rows := by
  rw [← get_groupsOf] at h
  exact Table.get_mem h

theorem gather_isSome (h : p ∈ batch) : ∃ g, gather p.groupKey batch = some g := by
  have hp : p ∈ batch.filter fun q => q.groupKey = p.groupKey := mem_filter.2 ⟨h, by simp⟩
  unfold gather
  cases hf : batch.filter fun q => q.groupKey = p.groupKey with
  | nil => rw [hf] at hp; cases hp
  | cons => exact ⟨_, rfl⟩

theorem gather_first (h : gather k batch = some g) :
    (∃ p ∈ batch, p.groupKey = k ∧ g.chatJid = p.wireChatJid ∧ g.senderJid = p.senderJid) ∧
      g.ids = (batch.filter fun p => p.groupKey = k).map (·.id) := by
  unfold gather at h
  split at h
  · cases h
  · rename_i q qs hf
    cases h
    have hq : q ∈ batch.filter fun p => p.groupKey = k := hf ▸ mem_cons_self
    rw [mem_filter] at hq
    exact ⟨⟨q, hq.1, of_decide_eq_true hq.2, rfl, rfl⟩, by rw [hf]⟩

/-! ## Addresses -/

/-- Where the receipt of an entry is to go. -/
def Pending.address (p : Pending) : Jid × Option Jid := (p.wireChatJid, p.senderJid)

def Group.address (g : Group) : Jid × Option Jid := (g.chatJid, g.senderJid)

/-- The message of an entry. -/
def Pending.message (p : Pending) : Jid × MsgId := (p.chatJid, p.id)

/-- No JID contains `|`, and the sender is not empty. -/
structure Pending.Clean (p : Pending) : Prop where
  chat : '|' ∉ p.chatJid.toList
  wire : '|' ∉ p.wireChatJid.toList
  sender : ∀ j ∈ p.senderJid, j ≠ "" ∧ '|' ∉ j.toList

theorem message_of_ackedKey (hp : p.Clean) (hq : q.Clean) (h : p.ackedKey = q.ackedKey) :
    p.message = q.message := by
  have hlist := congrArg String.toList h
  simp only [Pending.ackedKey, String.toList_append, append_assoc] at hlist
  obtain ⟨hc, hi⟩ := append_cons_inj_left hp.chat hq.chat hlist
  exact Prod.ext (String.toList_inj.1 hc) (String.toList_inj.1 hi)

theorem address_of_groupKey (hp : p.Clean) (hq : q.Clean) (h : p.groupKey = q.groupKey) :
    p.address = q.address := by
  have hlist := congrArg String.toList h
  simp only [Pending.groupKey, groupKey, String.toList_append, append_assoc] at hlist
  obtain ⟨hc, hs⟩ := append_cons_inj_left hp.wire hq.wire hlist
  have hs' : p.senderJid.getD "" = q.senderJid.getD "" := String.toList_inj.1 (List.cons.inj hs).2
  refine Prod.ext (String.toList_inj.1 hc) ?_
  change p.senderJid = q.senderJid
  cases hps : p.senderJid with
  | none =>
    cases hqs : q.senderJid with
    | none => rfl
    | some b =>
      rw [hps, hqs] at hs'
      exact absurd hs'.symm (hq.sender b hqs).1
  | some a =>
    cases hqs : q.senderJid with
    | none =>
      rw [hps, hqs] at hs'
      exact absurd hs' (hp.sender a hps).1
    | some b =>
      rw [hps, hqs] at hs'
      rw [show a = b from hs']

/-- **One call per chat and sender**, with the ids in their order. -/
theorem groups_of_clean (hclean : ∀ p ∈ batch, p.Clean) :
    ((groupsOf batch).rows.map Group.address).Nodup ∧
      (∀ a, a ∈ (groupsOf batch).rows.map Group.address ↔ a ∈ batch.map Pending.address) ∧
        ∀ g ∈ (groupsOf batch).rows, g.ids = (batch.filter fun p => p.address = g.address).map (·.id) := by
  have hrow : ∀ g ∈ (groupsOf batch).rows, ∃ p ∈ batch, p.groupKey = g.key ∧ g.address = p.address := by
    intro g hg
    obtain ⟨⟨p, hp, hk, hc, hs⟩, -⟩ := gather_first (gather_of_mem hg)
    exact ⟨p, hp, hk, Prod.ext hc hs⟩
  refine ⟨?_, fun a => ⟨fun ha => ?_, fun ha => ?_⟩, fun g hg => ?_⟩
  · -- the keys of the map differ, and a key is made of the address
    refine List.Nodup.of_map (fun a : Jid × Option Jid => groupKey a.1 a.2) ?_
    rw [map_map]
    exact (groupsOf batch).nodup
  · obtain ⟨g, hg, rfl⟩ := mem_map.1 ha
    obtain ⟨p, hp, -, hadr⟩ := hrow g hg
    rw [hadr]
    exact mem_map_of_mem hp
  · obtain ⟨p, hp, rfl⟩ := mem_map.1 ha
    obtain ⟨g, hg⟩ := gather_isSome hp
    obtain ⟨q, hq, hk, hadr⟩ := hrow g (mem_of_gather hg)
    rw [key_of_gather hg] at hk
    rw [← address_of_groupKey (hclean q hq) (hclean p hp) hk, ← hadr]
    exact mem_map_of_mem (mem_of_gather hg)
  · obtain ⟨p, hp, hk, hadr⟩ := hrow g hg
    rw [(gather_first (gather_of_mem hg)).2]
    congr 1
    refine filter_congr fun q hq => ?_
    rw [← hk, hadr, decide_eq_decide]
    constructor
    · exact address_of_groupKey (hclean q hq) (hclean p hp)
    · intro h
      obtain ⟨hc, hs⟩ := Prod.ext_iff.1 h
      rw [Pending.groupKey, show q.wireChatJid = p.wireChatJid from hc, show q.senderJid = p.senderJid from hs]
      rfl

/-! ## One step -/

/-- The entries that were accepted: flushed or waiting. -/
def State.log (s : State) : List Pending := s.flushes.flatMap (·.batch) ++ s.queue

/-- `acked` are the keys of the log, a queue that is not empty has a timer, and a flush makes the
calls of its batch. -/
structure Inv (s : State) : Prop where
  acked : s.acked = s.log.map Pending.ackedKey
  nodup : s.acked.Nodup
  timer : s.queue ≠ [] → s.timer = true
  calls : ∀ f ∈ s.flushes, f.sent ++ f.due = (groupsOf f.batch).rows

theorem inv_init (on : Bool) : Inv (State.init on) :=
  ⟨rfl, nodup_nil, fun h => absurd rfl h, fun _ h => (nomatch h)⟩

theorem next_batch (f : Flush) : f.next.batch = f.batch := by
  unfold Flush.next
  split <;> rfl

theorem next_calls (f : Flush) : f.next.sent ++ f.next.due = f.sent ++ f.due := by
  unfold Flush.next
  split
  · rfl
  · rename_i g due h
    simp [h]

theorem flatMap_batch_modify (l : List Flush) (i : ℕ) :
    (l.modify i Flush.next).flatMap (·.batch) = l.flatMap (·.batch) := by
  induction l generalizing i with
  | nil => simp
  | cons f l ih =>
    cases i with
    | zero => simp [next_batch]
    | succ => simp [ih]

theorem mem_modify {l : List Flush} {i : ℕ} (h : f ∈ l.modify i Flush.next) : f ∈ l ∨ ∃ f' ∈ l, f = f'.next := by
  induction l generalizing i with
  | nil => simp at h
  | cons f' l ih =>
    cases i with
    | zero =>
      rw [modify_zero_cons] at h
      rcases mem_cons.1 h with h | h
      · exact .inr ⟨f', mem_cons_self, h⟩
      · exact .inl (mem_cons_of_mem _ h)
    | succ =>
      rw [modify_succ_cons] at h
      rcases mem_cons.1 h with h | h
      · exact .inl (h ▸ mem_cons_self)
      · rcases ih h with h | ⟨f'', hf, h⟩
        · exact .inl (mem_cons_of_mem _ h)
        · exact .inr ⟨f'', mem_cons_of_mem _ hf, h⟩

/-- The entry that a step offers to the queue. -/
def Step.offers (on : Bool) : Step → List Pending
  | .enqueue p => if on then [p] else []
  | _ => []

/-- The setting after a step. -/
def Step.setting (on : Bool) : Step → Bool
  | .setSendReadReceipts value => value
  | _ => on

/-- An offer is appended to the log if it is new. -/
theorem log_step (s : State) (e : Step) :
    (s.step e).log = s.log ++ (e.offers s.sendReadReceipts).filter fun p => p.ackedKey ∉ s.acked := by
  cases e with
  | enqueue p =>
    simp only [State.step, enqueue, Step.offers]
    cases s.sendReadReceipts with
    | false => simp
    | true =>
      by_cases h : p.ackedKey ∈ s.acked
      · simp [h]
      · simp [h, State.log]
  | setSendReadReceipts => simp [State.step, Step.offers, State.log]
  | timerFires =>
    simp only [State.step, flush, Step.offers, State.log]
    split
    · split <;> simp
    · simp
  | answered => simp [State.step, Step.offers, State.log, flatMap_batch_modify]

theorem setting_step (s : State) (e : Step) : (s.step e).sendReadReceipts = e.setting s.sendReadReceipts := by
  cases e with
  | enqueue =>
    simp only [State.step, enqueue, Step.setting]
    repeat' split
    all_goals rfl
  | setSendReadReceipts => rfl
  | timerFires =>
    simp only [State.step, flush, Step.setting]
    repeat' split
    all_goals rfl
  | answered => rfl

/-- A flush makes the calls of its batch, in any state. -/
theorem calls_step (h : ∀ f ∈ s.flushes, f.sent ++ f.due = (groupsOf f.batch).rows) (e : Step) :
    ∀ f ∈ (s.step e).flushes, f.sent ++ f.due = (groupsOf f.batch).rows := by
  cases e with
  | enqueue =>
    simp only [State.step, enqueue]
    repeat' split
    all_goals exact h
  | setSendReadReceipts => exact h
  | timerFires =>
    simp only [State.step, flush]
    split
    · split
      · exact h
      · intro f hf
        rcases mem_append.1 hf with hf | hf
        · exact h f hf
        · rw [mem_singleton.1 hf]
          exact take_append_drop 1 _
    · exact h
  | answered =>
    intro f hf
    rcases mem_modify hf with hf' | ⟨f', hf', rfl⟩
    · exact h f hf'
    · rw [next_calls, next_batch]
      exact h f' hf'

/-- A step keeps the invariant as long as the log is not longer than `acked` may be. -/
theorem inv_step (h : Inv s) (hlen : (s.step e).log.length ≤ ACKED_MAX) : Inv (s.step e) := by
  have hcalls := calls_step h.calls e
  cases e with
  | enqueue p =>
    have hlog := log_step s (.enqueue p)
    simp only [State.step, enqueue] at hlen hlog ⊢
    split
    · exact h
    · rename_i hon
      rw [if_neg hon] at hlen hlog
      split
      · exact h
      · rename_i hnew
        rw [if_neg hnew] at hlen hlog
        have hlog' : (s.log ++ [p]).map Pending.ackedKey = s.acked ++ [p.ackedKey] := by
          rw [map_append, h.acked]
          rfl
        -- the bound leaves room for the key, so no older one is forgotten
        have hkeep : addAcked s.acked p.ackedKey = s.acked ++ [p.ackedKey] := by
          refine if_neg (not_lt.2 ?_)
          rw [← hlog', length_map]
          simpa [State.log] using hlen
        refine ⟨?_, ?_, fun _ => rfl, h.calls⟩
        · simp only [State.log, hkeep]
          rw [← append_assoc, ← hlog']
          rfl
        · simp only [hkeep]
          exact nodup_append_comm.1 (nodup_cons.2 ⟨hnew, h.nodup⟩)
  | setSendReadReceipts => exact ⟨h.acked, h.nodup, h.timer, h.calls⟩
  | timerFires =>
    -- a flush moves the queue within the log
    have hlog := log_step s .timerFires
    simp only [Step.offers, filter_nil, append_nil] at hlog
    have hacked : (s.step .timerFires).acked = s.acked := by
      simp only [State.step, flush]
      repeat' split
      all_goals rfl
    refine ⟨by rw [hacked, hlog, h.acked], by rw [hacked]; exact h.nodup, ?_, hcalls⟩
    simp only [State.step, flush]
    split
    · split
      · rename_i hq
        exact fun hne => absurd (List.isEmpty_iff.1 hq) hne
      · exact fun hne => absurd rfl hne
    · exact h.timer
  | answered i =>
    have hlog := log_step s (.answered i)
    simp only [Step.offers, filter_nil, append_nil] at hlog
    exact ⟨by rw [hlog]; exact h.acked, h.nodup, h.timer, hcalls⟩

/-! ## Runs -/

/-- The entries that were enqueued. -/
def enqueued : List Step → List Pending
  | [] => []
  | .enqueue p :: es => p :: enqueued es
  | _ :: es => enqueued es

/-- The entries that were enqueued while receipts were on. -/
def enqueuedOn : Bool → List Step → List Pending
  | _, [] => []
  | on, e :: es => e.offers on ++ enqueuedOn (e.setting on) es

theorem enqueuedOn_sublist (on : Bool) (es : List Step) : (enqueuedOn on es).Sublist (enqueued es) := by
  induction es generalizing on with
  | nil => exact List.Sublist.refl _
  | cons e es ih =>
    cases e with
    | enqueue p =>
      simp only [enqueuedOn, Step.offers, Step.setting, enqueued]
      split
      · exact (ih on).cons_cons p
      · exact (ih on).cons p
    | setSendReadReceipts value => exact ih value
    | _ => exact ih on

theorem offers_subset (on : Bool) (e : Step) : e.offers on ⊆ enqueued [e] := by
  cases e with
  | enqueue =>
    rw [Step.offers]
    split
    · exact List.Subset.refl _
    · exact nil_subset _
  | _ => exact nil_subset _

/-- The log has no other entries than those enqueued. -/
theorem log_subset (s : State) (es : List Step) : (s.run es).log ⊆ s.log ++ enqueued es := by
  induction es generalizing s with
  | nil => exact subset_append_left _ _
  | cons e es ih =>
    have hcons : enqueued (e :: es) = enqueued [e] ++ enqueued es := by cases e <;> rfl
    refine List.Subset.trans (ih (s.step e)) ?_
    rw [log_step, hcons, ← append_assoc]
    refine append_subset.2 ⟨append_subset.2 ⟨?_, ?_⟩, subset_append_right _ _⟩
    · exact List.Subset.trans (subset_append_left _ _) (subset_append_left _ _)
    · exact fun p hp => mem_append_left _ (mem_append_right _ (offers_subset _ e (mem_of_mem_filter hp)))

/-- How many keys the entries have. -/
def distinct (l : List Pending) : ℕ := (l.map Pending.ackedKey).toFinset.card

theorem distinct_le {l l' : List Pending} (h : l ⊆ l') : distinct l ≤ distinct l' := by
  refine Finset.card_le_card fun k hk => ?_
  rw [mem_toFinset] at hk ⊢
  obtain ⟨p, hp, rfl⟩ := mem_map.1 hk
  exact mem_map_of_mem (h hp)

theorem length_eq_distinct {l : List Pending} (h : (l.map Pending.ackedKey).Nodup) : l.length = distinct l := by
  rw [distinct, toFinset_card_of_nodup h, length_map]

/-- The keys are no more than the messages. -/
theorem distinct_le_messages (l : List Pending) : distinct l ≤ (l.map Pending.message).toFinset.card := by
  have himage : (l.map Pending.ackedKey).toFinset =
      (l.map Pending.message).toFinset.image fun m => m.1 ++ "|" ++ m.2 := by
    ext k
    simp [Pending.ackedKey, Pending.message]
  rw [distinct, himage]
  exact Finset.card_image_le

/-- The keys of the log stay distinct. -/
theorem nodup_step (h : Inv s) (e : Step) : ((s.step e).log.map Pending.ackedKey).Nodup := by
  rw [log_step, map_append, ← h.acked, nodup_append]
  refine ⟨h.nodup, ?_, ?_⟩
  · cases e with
    | enqueue p =>
      rw [Step.offers]
      split
      · exact (nodup_singleton p.ackedKey).sublist (filter_sublist.map _)
      · exact nodup_nil
    | _ => simp [Step.offers]
  · rintro k hk k' hk' rfl
    obtain ⟨p, hp, rfl⟩ := mem_map.1 hk'
    exact of_decide_eq_true (mem_filter.1 hp).2 hk

/-- The log after a run: new entries in their order, one for every message that was offered. -/
theorem run_log (h : Inv s) (hmax : distinct (s.log ++ enqueuedOn s.sendReadReceipts es) ≤ ACKED_MAX) :
    Inv (s.run es) ∧
      (∃ t, (s.run es).log = s.log ++ t ∧ t.Sublist (enqueuedOn s.sendReadReceipts es)) ∧
        ∀ p ∈ enqueuedOn s.sendReadReceipts es, p.ackedKey ∈ (s.run es).acked := by
  induction es generalizing s with
  | nil => exact ⟨h, ⟨[], (append_nil _).symm, List.Sublist.refl _⟩, fun _ hp => (nomatch hp)⟩
  | cons e es ih =>
    have hlog := log_step s e
    have hset := setting_step s e
    have hnew : ((e.offers s.sendReadReceipts).filter fun p => p.ackedKey ∉ s.acked).Sublist
        (e.offers s.sendReadReceipts) := filter_sublist
    have hsub : (s.step e).log ++ enqueuedOn (s.step e).sendReadReceipts es ⊆
        s.log ++ enqueuedOn s.sendReadReceipts (e :: es) := by
      rw [hlog, hset, enqueuedOn, append_assoc]
      exact ((List.Sublist.refl _).append (hnew.append (List.Sublist.refl _))).subset
    -- the keys of the log are distinct, so that the log is no longer than there are messages
    have hlen : (s.step e).log.length ≤ ACKED_MAX := by
      rw [length_eq_distinct (nodup_step h e)]
      exact (distinct_le (List.Subset.trans (subset_append_left _ _) hsub)).trans hmax
    obtain ⟨hinv, ⟨t, ht, hts⟩, hall⟩ := ih (inv_step h hlen) ((distinct_le hsub).trans hmax)
    refine ⟨hinv, ⟨_ ++ t, by rwa [← append_assoc, ← hlog], ?_⟩, fun p hp => ?_⟩
    · rw [hset] at hts
      exact hnew.append hts
    · rcases mem_append.1 hp with hp | hp
      · have hacked : p.ackedKey ∈ (s.step e).log.map Pending.ackedKey := by
          rw [hlog, map_append, mem_append, ← h.acked]
          by_cases hk : p.ackedKey ∈ s.acked
          · exact .inl hk
          · exact .inr (mem_map_of_mem (mem_filter.2 ⟨hp, decide_eq_true hk⟩))
        change p.ackedKey ∈ ((s.step e).run es).acked
        rw [hinv.acked]
        rw [ht, map_append]
        exact mem_append_left _ hacked
      · exact hall p (by rwa [hset])

/-- No timer is set, and every flush has made its calls. -/
def State.Settled (s : State) : Prop := s.timer = false ∧ ∀ f ∈ s.flushes, f.due = []

instance (s : State) : Decidable s.Settled := inferInstanceAs (Decidable (_ ∧ _))

/-- The `j`-th call of the `i`-th flush carries the message. -/
def State.Carries (s : State) (c : ℕ × ℕ) (m : Jid × MsgId) : Prop :=
  ∃ f g, s.flushes[c.1]? = some f ∧ f.sent[c.2]? = some g ∧
    ∃ p ∈ f.batch, p.message = m ∧ p.address = g.address ∧ p.id ∈ g.ids

/-- The calls that are still to be made. -/
def State.left (s : State) : ℕ := (s.flushes.map fun f => f.due.length).sum

theorem left_answered {i : ℕ} (hi : s.flushes[i]? = some f) (hf : f.due ≠ []) :
    (s.step (.answered i)).left < s.left := by
  have hnext : ∀ l : List Flush, ∀ i, l[i]? = some f →
      ((l.modify i Flush.next).map fun f => f.due.length).sum < (l.map fun f => f.due.length).sum := by
    intro l
    induction l with
    | nil => intro i hi; simp at hi
    | cons f' l ih =>
      intro i hi
      cases i with
      | zero =>
        obtain rfl : f' = f := by simpa using hi
        obtain ⟨g, due, hdue⟩ := exists_cons_of_ne_nil hf
        simp [Flush.next, hdue]
      | succ i => simpa using ih i (by simpa using hi)
  exact hnext s.flushes i hi

/-- Whatever happened, the timer and the answers settle the module. -/
theorem settles (s : State) :
    ∃ es, (∀ e ∈ es, e = .timerFires ∨ ∃ i, e = .answered i) ∧ (s.run es).Settled := by
  have hanswers : ∀ n, ∀ s : State, s.left = n → s.timer = false →
      ∃ es, (∀ e ∈ es, e = .timerFires ∨ ∃ i, e = .answered i) ∧ (s.run es).Settled := by
    intro n
    induction n using Nat.strong_induction_on with
    | _ n ih =>
      rintro s rfl ht
      by_cases hall : ∀ f ∈ s.flushes, f.due = []
      · exact ⟨[], fun _ h => (nomatch h), ht, hall⟩
      · push Not at hall
        obtain ⟨f, hf, hdue⟩ := hall
        obtain ⟨i, hi⟩ := mem_iff_getElem?.1 hf
        obtain ⟨es, hes, hdone⟩ := ih _ (left_answered hi hdue) (s.step (.answered i)) rfl ht
        exact ⟨.answered i :: es, forall_mem_cons.2 ⟨.inr ⟨i, rfl⟩, hes⟩, hdone⟩
  have hfired : (s.step .timerFires).timer = false := by
    simp only [State.step, flush]
    split
    · split <;> rfl
    · rename_i ht
      simpa using ht
  obtain ⟨es, hes, hdone⟩ := hanswers _ (s.step .timerFires) rfl hfired
  exact ⟨.timerFires :: es, forall_mem_cons.2 ⟨.inl rfl, hes⟩, hdone⟩

/-- Entries of one message are in one flush. -/
theorem flush_unique {l : List Flush} {i j : ℕ} {f f' : Flush}
    (h : ((l.flatMap (·.batch)).map Pending.ackedKey).Nodup) (hi : l[i]? = some f) (hj : l[j]? = some f')
    (hp : p ∈ f.batch) (hq : q ∈ f'.batch) (hk : p.ackedKey = q.ackedKey) : i = j := by
  rw [map_flatMap, nodup_flatMap] at h
  obtain ⟨hil, rfl⟩ := List.getElem?_eq_some_iff.1 hi
  obtain ⟨hjl, rfl⟩ := List.getElem?_eq_some_iff.1 hj
  have hdis := pairwise_iff_getElem.1 h.2
  rcases lt_trichotomy i j with hlt | heq | hlt
  · exact absurd (mem_map_of_mem hq) (hk ▸ hdis i j hil hjl hlt (mem_map_of_mem hp))
  · exact heq
  · exact absurd (mem_map_of_mem hp) (hk ▸ hdis j i hjl hil hlt (mem_map_of_mem hq))

theorem ackedKey_of_message (h : p.message = q.message) : p.ackedKey = q.ackedKey := by
  obtain ⟨hc, hi⟩ := Prod.ext_iff.1 h
  rw [Pending.ackedKey, show p.chatJid = q.chatJid from hc, show p.id = q.id from hi]
  rfl

theorem log_of_settled (h : Inv s) (hd : s.Settled) : s.log = s.flushes.flatMap (·.batch) := by
  have hqueue : s.queue = [] := by
    by_contra hne
    have ht := h.timer hne
    rw [hd.1] at ht
    cases ht
  rw [State.log, hqueue, append_nil]

theorem sent_of_settled (h : Inv s) (hd : s.Settled) (hf : f ∈ s.flushes) :
    f.sent = (groupsOf f.batch).rows := by
  have hcalls := h.calls f hf
  rwa [hd.2 f hf, append_nil] at hcalls

/-- An entry of the log is in exactly one call. -/
theorem carried_once (h : Inv s) (hd : s.Settled) (hclean : ∀ p ∈ s.log, p.Clean) (hp : p ∈ s.log) :
    ∃! c : ℕ × ℕ, s.Carries c p.message := by
  have hlog := log_of_settled h hd
  have hnodup : ((s.flushes.flatMap (·.batch)).map Pending.ackedKey).Nodup := by
    rw [← hlog, ← h.acked]
    exact h.nodup
  rw [hlog] at hclean hp
  obtain ⟨f, hf, hpf⟩ := mem_flatMap.1 hp
  obtain ⟨hone, haddr, hids⟩ := groups_of_clean fun q hq => hclean q (mem_flatMap.2 ⟨f, hf, hq⟩)
  rw [← sent_of_settled h hd hf] at hone haddr hids
  obtain ⟨g, hg, hgp⟩ := mem_map.1 ((haddr p.address).2 (mem_map_of_mem hpf))
  obtain ⟨i, hi⟩ := mem_iff_getElem?.1 hf
  obtain ⟨j, hj⟩ := mem_iff_getElem?.1 hg
  refine ⟨(i, j), ⟨f, g, hi, hj, p, hpf, rfl, hgp.symm, ?_⟩, ?_⟩
  · rw [hids g hg]
    exact mem_map_of_mem (mem_filter.2 ⟨hpf, decide_eq_true hgp.symm⟩)
  · rintro ⟨i', j'⟩ ⟨f', g', hi', hj', q, hq, hm, hqg, -⟩
    have hkey := ackedKey_of_message hm
    obtain rfl : i' = i := flush_unique hnodup hi' hi hq hpf hkey
    obtain rfl : f = f' := Option.some.inj (hi.symm.trans hi')
    -- the flush has one entry of the message, and one call with its address
    obtain rfl : q = p := inj_on_of_nodup_map hnodup (mem_flatMap.2 ⟨f, hf, hq⟩) hp hkey
    have hplace : (f.sent.map Group.address)[j']? = (f.sent.map Group.address)[j]? := by
      rw [getElem?_map, getElem?_map, hj, hj', Option.map_some, Option.map_some, ← hqg, hgp]
    have hlt : j' < (f.sent.map Group.address).length := by
      rw [length_map]
      exact (List.getElem?_eq_some_iff.1 hj').1
    rw [(getElem?_inj hlt hone).1 hplace]

/-- **Read receipts are sent exactly once.** -/
theorem receipts_exactly_once (on : Bool) (es : List Step) (hclean : ∀ p ∈ enqueued es, p.Clean)
    (hmax : ((enqueued es).map Pending.message).toFinset.card ≤ ACKED_MAX)
    (hdone : ((State.init on).run es).Settled) :
    let s := (State.init on).run es
    (∀ m ∈ (enqueuedOn on es).map Pending.message, ∃! c : ℕ × ℕ, s.Carries c m) ∧
    (∀ f ∈ s.flushes, ∀ g ∈ f.sent, ∀ id ∈ g.ids, ∃ p ∈ f.batch, p.id = id ∧ p.address = g.address ∧
      p ∈ enqueuedOn on es) ∧
    (s.flushes.flatMap (·.batch)).Sublist (enqueuedOn on es) ∧
    ∀ f ∈ s.flushes, (f.sent.map Group.address).Nodup ∧
      (∀ a, a ∈ f.sent.map Group.address ↔ a ∈ f.batch.map Pending.address) ∧
      ∀ g ∈ f.sent, g.ids = (f.batch.filter fun p => p.address = g.address).map (·.id) := by
  intro s
  have hsubset := (enqueuedOn_sublist on es).subset
  have hcard : distinct ((State.init on).log ++ enqueuedOn on es) ≤ ACKED_MAX :=
    (distinct_le hsubset).trans ((distinct_le_messages _).trans hmax)
  obtain ⟨hinv, ⟨t, ht, hsub⟩, hall⟩ := run_log (inv_init on) hcard
  have hlog : s.log.Sublist (enqueuedOn on es) := ht ▸ hsub
  have hflushed : (s.flushes.flatMap (·.batch)).Sublist (enqueuedOn on es) :=
    log_of_settled hinv hdone ▸ hlog
  have hcleanLog : ∀ p ∈ s.log, p.Clean := fun p hp => hclean p (hsubset (hlog.subset hp))
  have hgroups : ∀ f ∈ s.flushes, (f.sent.map Group.address).Nodup ∧
      (∀ a, a ∈ f.sent.map Group.address ↔ a ∈ f.batch.map Pending.address) ∧
      ∀ g ∈ f.sent, g.ids = (f.batch.filter fun p => p.address = g.address).map (·.id) := by
    intro f hf
    rw [sent_of_settled hinv hdone hf]
    refine groups_of_clean fun q hq => hclean q (hsubset (hflushed.subset ?_))
    exact List.mem_flatMap.2 ⟨f, hf, hq⟩
  refine ⟨fun m hm => ?_, fun f hf g hg id hid => ?_, hflushed, hgroups⟩
  · -- the entry was accepted, or dropped for an earlier one of the same message
    obtain ⟨p, hp, rfl⟩ := List.mem_map.1 hm
    have hacked := hall p hp
    rw [hinv.acked] at hacked
    obtain ⟨q, hq, hk⟩ := List.mem_map.1 hacked
    rw [← message_of_ackedKey (hcleanLog q hq) (hclean p (hsubset hp)) hk]
    exact carried_once hinv hdone hcleanLog hq
  · rw [(hgroups f hf).2.2 g hg] at hid
    obtain ⟨p, hp, rfl⟩ := List.mem_map.1 hid
    rw [List.mem_filter, decide_eq_true_eq] at hp
    exact ⟨p, hp.1, rfl, hp.2, hflushed.subset (List.mem_flatMap.2 ⟨f, hf, hp.1⟩)⟩

/-- Two messages of a group, from two senders. -/
def entry (id : MsgId) (sender : Jid) : Pending := ⟨"g@g.us", "g@g.us", some sender, id⟩

theorem clean_entry (id : MsgId) {sender : Jid} (h : sender ≠ "" ∧ '|' ∉ sender.toList) :
    (entry id sender).Clean := by
  have hgroup : '|' ∉ "g@g.us".toList := by decide
  refine ⟨hgroup, hgroup, fun j hj => ?_⟩
  cases hj
  exact h

/-- One message is seen twice, and another one while the first flush awaits its call. -/
theorem receipts_exactly_once_twice :
    let es : List Step := [.enqueue (entry "X" "a@lid"), .enqueue (entry "Y" "b@lid"), .timerFires,
      .enqueue (entry "X" "a@lid"), .answered 0]
    ∃! c : ℕ × ℕ, ((State.init true).run es).Carries c ("g@g.us", "X") := by
  intro es
  have hclean : ∀ p ∈ enqueued es, p.Clean := by
    intro p hp
    simp only [es, enqueued, List.mem_cons, List.not_mem_nil, or_false] at hp
    rcases hp with rfl | rfl | rfl
    · exact clean_entry "X" (by decide)
    · exact clean_entry "Y" (by decide)
    · exact clean_entry "X" (by decide)
  have honce := receipts_exactly_once true es hclean (by decide +kernel) (by decide +kernel)
  exact honce.1 ("g@g.us", "X") (by decide +kernel)

end Whatsvelte.ReadReceipts
