import Whatsvelte.Proof.Queue

/-!
# Coalescing the write queue

The write queue holds one operation per key. `Write.now` is what a call would do to the `msgs` store
if it went there at once, and `flushed` is what the store holds when the queue is written instead, in
as many slices as it takes.

A full write and a delete settle what the calls before them did to their key, on both sides. An
insert-only write does not: the queue keeps the last insert where the store keeps the first, and it
forgets the delete that came before. `coalescing_invisible_iff` says when neither shows.
-/

namespace Whatsvelte

variable {w v : World} {k : Key} {q : Queue} {t : Table UiMessage.key} {ws : List Write}
  {r : Option UiMessage}
variable {ops : Table PendingOp.key} {tr : Trail} {op : Option PendingOp}

/-! ## Calls -/

/-- A call that queues a write. -/
inductive Write
  | persistMessage (m : Obj)
  | persistMessageInsert (m : Obj)
  | persistMessageDelete (chatJid : Jid) (id : MsgId)
  deriving DecidableEq

/-- The write queue after the call. -/
def Write.queue (q : Queue) : Write → Queue
  | .persistMessage m => Whatsvelte.persistMessage q m
  | .persistMessageInsert m => Whatsvelte.persistMessageInsert q m
  | .persistMessageDelete chatJid id => Whatsvelte.persistMessageDelete q chatJid id

/-- The store after the call, if it were written at once. -/
def Write.now (t : Table UiMessage.key) : Write → Table UiMessage.key
  | .persistMessage m => if persistable m.msg then t.set (toRecord m.msg m.msg.chatJid) else t
  | .persistMessageInsert m => if persistable m.msg then t.add (toRecord m.msg m.msg.chatJid) else t
  | .persistMessageDelete chatJid id => if id = "" then t else t.erase ⟨chatJid, id⟩

/-- The state after the calls. -/
def World.write (w : World) (ws : List Write) : World := { w with q := ws.foldl Write.queue w.q }

/-- The number of transactions that a flush of the queue takes. -/
def World.slices (w : World) : ℕ := w.q.pending.rows.length / FLUSH_SLICE + 1

/-- `flushMessages` with nothing else going on: `openDb` resolves and the slices run. -/
def flushed (w : World) : World := advance^[w.slices] (openNext (flushMessages w))

/-! ## One key -/

/-- What the calls did to one key: the last full write, or a delete, or the first and the last of
the inserts that came after neither (`inserted`) or after a delete (`renewed`). -/
inductive Trail
  | untouched
  | written (m : UiMessage)
  | deleted
  | inserted (first last : UiMessage)
  | renewed (first last : UiMessage)
  deriving DecidableEq

def Trail.insert (m : UiMessage) : Trail → Trail
  | .untouched => .inserted m m
  | .written x => .written x
  | .deleted => .renewed m m
  | .inserted first _ => .inserted first m
  | .renewed first _ => .renewed first m

def Trail.next (k : Key) (tr : Trail) : Write → Trail
  | .persistMessage m => if persistable m.msg ∧ m.key = k then .written m.msg else tr
  | .persistMessageInsert m => if persistable m.msg ∧ m.key = k then tr.insert m.msg else tr
  | .persistMessageDelete chatJid id => if id ≠ "" ∧ (⟨chatJid, id⟩ : Key) = k then .deleted else tr

/-- What a sequence of calls did to the key. -/
def trail (k : Key) (ws : List Write) : Trail := ws.foldl (Trail.next k) .untouched

/-- The record that the calls leave, if `r` was stored and they are written at once. -/
def Trail.immediate (r : Option UiMessage) : Trail → Option UiMessage
  | .untouched => r
  | .written m => some m
  | .deleted => none
  | .inserted first _ => r.or (some first)
  | .renewed first _ => some first

/-- The record that the queue leaves. -/
def Trail.coalesced (r : Option UiMessage) : Trail → Option UiMessage
  | .untouched => r
  | .written m => some m
  | .deleted => none
  | .inserted _ last => r.or (some last)
  | .renewed _ last => r.or (some last)

/-- The operation that the queue holds for the key. -/
def Trail.Queued : Trail → Option PendingOp → Prop
  | .untouched, op => op = none
  | .written m, op => ∃ o : Obj, op = some (.put o) ∧ o.msg = m
  | .deleted, op => ∃ c i, op = some (.del c i)
  | .inserted _ last, op => ∃ o : Obj, op = some (.add o) ∧ o.msg = last
  | .renewed _ last, op => ∃ o : Obj, op = some (.add o) ∧ o.msg = last

theorem Trail.Queued.eff (h : tr.Queued op) : op.elim r (·.eff r) = tr.coalesced r := by
  cases tr with
  | untouched => rw [show op = none from h]; rfl
  | written => obtain ⟨o, rfl, rfl⟩ := h; rfl
  | deleted => obtain ⟨c, i, rfl⟩ := h; rfl
  | _ => obtain ⟨o, rfl, rfl⟩ := h; rfl

/-! ## One call -/

theorem trail_insert (hq : tr.Queued op) (m : Obj) :
    (tr.insert m.msg).Queued (insertOver m op) ∧
      (tr.immediate r).or (some (toRecord m.msg m.msg.chatJid)) = (tr.insert m.msg).immediate r := by
  cases tr with
  | untouched =>
    rw [show op = none from hq]
    exact ⟨⟨m, rfl, rfl⟩, rfl⟩
  | written =>
    obtain ⟨o, rfl, rfl⟩ := hq
    exact ⟨⟨o, rfl, rfl⟩, rfl⟩
  | deleted =>
    obtain ⟨c, i, rfl⟩ := hq
    exact ⟨⟨m, rfl, rfl⟩, rfl⟩
  | inserted first =>
    obtain ⟨o, rfl, rfl⟩ := hq
    refine ⟨⟨m, rfl, rfl⟩, ?_⟩
    -- the first insert is there already
    cases r <;> rfl
  | renewed =>
    obtain ⟨o, rfl, rfl⟩ := hq
    exact ⟨⟨m, rfl, rfl⟩, rfl⟩

/-- **One call**, seen from both sides. -/
theorem trail_next (hq : tr.Queued (q.pending.get k)) (ht : t.get k = tr.immediate r)
    (c : Write) : (tr.next k c).Queued ((c.queue q).pending.get k) ∧
      (c.now t).get k = (tr.next k c).immediate r := by
  cases c with
  | persistMessage m =>
    simp only [Write.queue, Write.now, Trail.next, get_persistMessage]
    by_cases hp : persistable m.msg = true
    · have hs : (t.set (toRecord m.msg m.msg.chatJid)).get k =
          if m.key = k then some m.msg else t.get k := Table.get_set t m.msg k
      rw [if_pos hp, hs]
      by_cases hk : m.key = k
      · rw [if_pos ⟨hp, hk⟩, if_pos ⟨hp, hk⟩, if_pos hk]
        exact ⟨⟨m, rfl, rfl⟩, rfl⟩
      · rw [if_neg fun h => hk h.2, if_neg fun h => hk h.2, if_neg hk]
        exact ⟨hq, ht⟩
    · rw [if_neg fun h => hp h.1, if_neg fun h => hp h.1, if_neg hp]
      exact ⟨hq, ht⟩
  | persistMessageInsert m =>
    simp only [Write.queue, Write.now, Trail.next, get_persistMessageInsert]
    by_cases hp : persistable m.msg = true
    · have hs : (t.add (toRecord m.msg m.msg.chatJid)).get k =
          if m.key = k then (t.get k).or (some m.msg) else t.get k := Table.get_add t m.msg k
      rw [if_pos hp, hs]
      by_cases hk : m.key = k
      · rw [if_pos ⟨hp, hk⟩, if_pos ⟨hp, hk⟩, if_pos hk, ht]
        exact trail_insert hq m
      · rw [if_neg fun h => hk h.2, if_neg fun h => hk h.2, if_neg hk]
        exact ⟨hq, ht⟩
    · rw [if_neg fun h => hp h.1, if_neg fun h => hp h.1, if_neg hp]
      exact ⟨hq, ht⟩
  | persistMessageDelete chatJid id =>
    simp only [Write.queue, Write.now, Trail.next, get_persistMessageDelete]
    by_cases hid : id = ""
    · rw [if_neg fun h => h.1 hid, if_neg fun h => h.1 hid, if_pos hid]
      exact ⟨hq, ht⟩
    · have hs := Table.get_erase t ⟨chatJid, id⟩ k
      rw [if_neg hid, hs]
      by_cases hk : (⟨chatJid, id⟩ : Key) = k
      · rw [if_pos ⟨hid, hk⟩, if_pos ⟨hid, hk⟩, if_pos hk]
        exact ⟨⟨chatJid, id, rfl⟩, rfl⟩
      · rw [if_neg fun h => hk h.2, if_neg fun h => hk h.2, if_neg hk]
        exact ⟨hq, ht⟩

/-- **All calls.** -/
theorem trail_foldl (ws : List Write) : ∀ (tr : Trail) (q : Queue) (t : Table UiMessage.key),
    tr.Queued (q.pending.get k) → t.get k = tr.immediate r →
    (ws.foldl (Trail.next k) tr).Queued ((ws.foldl Write.queue q).pending.get k) ∧
      (ws.foldl Write.now t).get k = (ws.foldl (Trail.next k) tr).immediate r := by
  induction ws with
  | nil => exact fun tr q t hq ht => ⟨hq, ht⟩
  | cons c ws ih =>
    intro tr q t hq ht
    obtain ⟨hq', ht'⟩ := trail_next hq ht c
    exact ih _ _ _ hq' ht'

/-! ## The flush -/

theorem advance_idle (h : w.txq = []) (n : ℕ) : advance^[n] w = w := by
  have h1 : advance w = w := by
    unfold advance
    rw [h]
  exact Function.iterate_fixed h1 n

/-- One slice, with nothing else in the queue. -/
theorem advance_slice {tid : ℕ} {c : List Chat} (h : w.txq = [⟨tid, true, .flush w.epoch ops, c⟩]) :
    (advance w).msgs.get = opsEff (ops.take FLUSH_SLICE) w.msgs.get ∧ (advance w).epoch = w.epoch ∧
      ((advance w).txq = if (ops.drop FLUSH_SLICE).rows.isEmpty then []
        else [⟨tid, true, .flush w.epoch (ops.drop FLUSH_SLICE), []⟩]) ∧
      (advance w).q.pending = w.q.pending ∧ (advance w).chatRows = w.chatRows := by
  have he : advance w = flushSlice w tid w.epoch ops [] := by
    unfold advance
    rw [h]
  rw [he]
  unfold flushSlice
  dsimp only
  split
  · exact ⟨get_applyOps _ _, rfl, rfl, rfl, rfl⟩
  · rw [if_neg (by simp)]
    exact ⟨get_applyOps _ _, rfl, rfl, rfl, rfl⟩

theorem opsEff_of_nil (h : ops.rows = []) (H : History) : opsEff ops H = H := by
  funext k
  have hnone : ops.get k = none := by
    rw [Table.get, h]
    rfl
  rw [opsEff, hnone]
  rfl

/-- The flush writes its operations slice by slice. -/
theorem advance_flush (tid n : ℕ) : ∀ (w : World) (ops : Table PendingOp.key) (c : List Chat),
    w.txq = [⟨tid, true, .flush w.epoch ops, c⟩] → ops.rows.length / FLUSH_SLICE ≤ n →
    (advance^[n + 1] w).txq = [] ∧ (advance^[n + 1] w).msgs.get = opsEff ops w.msgs.get ∧
      (advance^[n + 1] w).q.pending = w.q.pending ∧ (advance^[n + 1] w).chatRows = w.chatRows := by
  induction n with
  | zero =>
    intro w ops c ht hn
    obtain ⟨hm, -, hq, hp, hr⟩ := advance_slice ht
    have hlen : ops.rows.length < FLUSH_SLICE := by
      have : (0 : ℕ) < FLUSH_SLICE := by decide
      exact (Nat.div_eq_zero_iff_lt this).1 (Nat.le_zero.1 hn)
    have hmore : (ops.drop FLUSH_SLICE).rows = [] := List.drop_eq_nil_of_le hlen.le
    rw [hmore] at hq
    refine ⟨hq, ?_, hp, hr⟩
    show (advance w).msgs.get = _
    rw [hm, ← opsEff_take_drop ops FLUSH_SLICE, opsEff_of_nil hmore]
  | succ n ih =>
    intro w ops c ht hn
    obtain ⟨hm, he, hq, hp, hr⟩ := advance_slice ht
    rw [Function.iterate_succ_apply, ← opsEff_take_drop ops FLUSH_SLICE, ← hm, ← hp, ← hr]
    by_cases hmore : (ops.drop FLUSH_SLICE).rows.isEmpty = true
    · rw [if_pos hmore] at hq
      rw [advance_idle hq, opsEff_of_nil (List.isEmpty_iff.1 hmore)]
      exact ⟨hq, rfl, rfl, rfl⟩
    · rw [if_neg hmore, ← he] at hq
      refine ih _ _ _ hq ?_
      have hlen : (ops.drop FLUSH_SLICE).rows.length = ops.rows.length - FLUSH_SLICE := List.length_drop
      rw [hlen, show FLUSH_SLICE = 1000 from rfl]
      rw [show FLUSH_SLICE = 1000 from rfl] at hn
      omega

/-- **The queue is written**, in any number of slices. -/
theorem flushed_get (ht : w.txq = []) :
    (flushed w).txq = [] ∧ (flushed w).msgs.get = opsEff w.q.pending w.msgs.get ∧
      (flushed w).q.pending = .empty ∧ (flushed w).chatRows = w.chatRows := by
  have hopen : (openNext (flushMessages w)).txq =
        [⟨w.nextTid, true, .flush w.epoch w.q.pending, w.chats.rows⟩] ∧
      (openNext (flushMessages w)).epoch = w.epoch ∧ (openNext (flushMessages w)).msgs = w.msgs ∧
      (openNext (flushMessages w)).q.pending = .empty ∧
      (openNext (flushMessages w)).chatRows = w.chatRows := by
    unfold openNext flushMessages World.enqueue
    simp [ht, Job.stale]
  obtain ⟨h1, h2, h3, h4, h5⟩ := hopen
  rw [← h2] at h1
  have hrun := advance_flush _ (w.q.pending.rows.length / FLUSH_SLICE) _ _ _ h1 le_rfl
  rwa [h3, h4, h5] at hrun

/-- The queue and the store at once agree about the key. -/
def Trail.Agrees (r : Option UiMessage) : Trail → Prop
  | .inserted first last => r.isSome ∨ first = last
  | .renewed first last => r = some first ∨ r = none ∧ first = last
  | _ => True

theorem Trail.agrees_iff (tr : Trail) : tr.coalesced r = tr.immediate r ↔ tr.Agrees r := by
  cases tr with
  | untouched | written | deleted => exact ⟨fun _ => trivial, fun _ => rfl⟩
  | inserted | renewed =>
    cases r with
    | none => simp [Trail.coalesced, Trail.immediate, Trail.Agrees, eq_comm]
    | some => simp [Trail.coalesced, Trail.immediate, Trail.Agrees]

/-- **Coalescing is invisible** exactly where no insert-only write is dropped for another. -/
theorem coalescing_invisible_iff (w : World) (hq : w.q.pending = .empty) (ht : w.txq = [])
    (ws : List Write) :
    (flushed (w.write ws)).txq = [] ∧
      ((flushed (w.write ws)).msgs.get = (ws.foldl Write.now w.msgs).get ↔
        ∀ k, (trail k ws).Agrees (w.msgs.get k)) := by
  obtain ⟨hidle, hmsgs, -⟩ := flushed_get (w := w.write ws) ht
  refine ⟨hidle, ?_⟩
  have hkey : ∀ k, (flushed (w.write ws)).msgs.get k = (ws.foldl Write.now w.msgs).get k ↔
      (trail k ws).Agrees (w.msgs.get k) := by
    intro k
    have hstart : Trail.untouched.Queued (w.q.pending.get k) := by
      rw [hq]
      exact Table.get_empty k
    obtain ⟨h1, h2⟩ := trail_foldl ws .untouched w.q w.msgs hstart rfl
    rw [hmsgs, h2, ← Trail.agrees_iff]
    have h3 : opsEff (w.write ws).q.pending (w.write ws).msgs.get k =
        (trail k ws).coalesced (w.msgs.get k) := h1.eff
    rw [h3]
    rfl
  rw [funext_iff]
  exact forall_congr' hkey

/-- Two inserts of one message that is stored, and a delete of another one. -/
theorem coalescing_invisible_stored :
    (flushed ({ World.init with msgs := Table.empty.set msgX }.write
        [.persistMessageInsert ⟨0, msgX⟩, .persistMessageDelete chatA "Y",
          .persistMessageInsert ⟨1, { msgX with text := some "old" }⟩])).msgs.get msgX.key = some msgX := by
  refine (congrFun ((coalescing_invisible_iff _ rfl rfl _).2.2 fun k => ?_) msgX.key).trans (by decide)
  by_cases hx : msgX.key = k
  · subst hx
    exact Or.inl rfl
  · have ht : trail k [.persistMessageInsert ⟨0, msgX⟩, .persistMessageDelete chatA "Y",
        .persistMessageInsert ⟨1, { msgX with text := some "old" }⟩] =
        if (⟨chatA, "Y"⟩ : Key) = k then .deleted else .untouched := by
      have h1 : ¬ (⟨0, msgX⟩ : Obj).key = k := hx
      have h2 : ¬ (⟨1, { msgX with text := some "old" }⟩ : Obj).key = k := hx
      simp [trail, Trail.next, h1, h2]
    rw [ht]
    split <;> trivial

/-- A deleted message that is delivered again is stored as it was before the delete. -/
theorem reinsert_keeps_deleted :
    ¬ ∀ (w : World) (ws : List Write), w.q.pending = .empty → w.txq = [] →
      (flushed (w.write ws)).msgs.get = (ws.foldl Write.now w.msgs).get := by
  intro h
  have hx := congrFun (h { World.init with msgs := Table.empty.set msgX }
    [.persistMessageDelete chatA "X", .persistMessageInsert ⟨0, { msgX with text := some "new" }⟩] rfl rfl)
    msgX.key
  revert hx
  decide +kernel

end Whatsvelte
