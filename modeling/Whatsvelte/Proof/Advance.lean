import Whatsvelte.Proof.Steps

/-!
# One move of the transaction queue

`Ran w v` lists what `advance` can run. Every case keeps the state `Sound`
(`sound_advance`), and with it every step of a run without reset and failure does
(`sound_step`). `Failed w f v` says what a flush that fails leaves behind.
-/

namespace Whatsvelte

open List

variable {w v : World} {k : Key} {e : Step}
variable {later : List Txn} {t : Txn}

/-- The state when the transaction at the head has left the queue. -/
def World.popped (w : World) (later : List Txn) : World := { w with txq := later }

/-- What runs when the queue moves on. -/
inductive Ran (w : World) : World → Prop
  | idle : Ran w w
  | flush (tid started : ℕ) (ops : Table PendingOp.key) (c : List Chat) (later : List Txn)
      (ht : w.txq = ⟨tid, true, .flush started ops, c⟩ :: later) :
      Ran w (flushSlice w tid started ops later)
  | patch (tid started : ℕ) (k₀ : Key) (queued : Option Obj) (fn : Patch) (after : AfterPatch)
      (c : List Chat) (later : List Txn)
      (ht : w.txq = ⟨tid, true, .patch started k₀ queued fn after, c⟩ :: later) :
      Ran w (patchRequests w tid k₀ queued fn after later)
  | patched (tid : ℕ) (k₀ : Key) (found : Bool) (after : AfterPatch) (c : List Chat)
      (later : List Txn) (ht : w.txq = ⟨tid, true, .patched k₀ found after, c⟩ :: later) :
      Ran w (afterPatch (w.popped later) k₀ found after)
  | move (tid started : ℕ) (l p : Jid) (c : List Chat) (later : List Txn)
      (ht : w.txq = ⟨tid, true, .move started l p, c⟩ :: later) :
      Ran w { w with txq := later, msgs := moveRows w.msgs l p, chatRows := w.chatRows.erase l }
  | page (tid : ℕ) (jid : Jid) (limit : ℕ) (beforeTs : Option ℤ) (c : List Chat) (later : List Txn)
      (ht : w.txq = ⟨tid, true, .page jid limit beforeTs, c⟩ :: later) :
      Ran w (openChatDone (loadOlderDone (w.popped later) jid limit beforeTs) jid)
  | tails (tid : ℕ) (jids : List Jid) (n : ℕ) (c : List Chat) (later : List Txn)
      (ht : w.txq = ⟨tid, true, .tails jids n, c⟩ :: later) :
      Ran w (loadTailsDone (w.popped later) jids n)
  | adopt (tid : ℕ) (fresh : Obj) (c : List Chat) (later : List Txn)
      (ht : w.txq = ⟨tid, true, .adopt fresh, c⟩ :: later) :
      Ran w (adoptStoredDone (w.popped later) fresh (w.msgs.get fresh.key))
  | chats (tid started : ℕ) (c : List Chat) (later : List Txn)
      (ht : w.txq = ⟨tid, true, .chats started, c⟩ :: later) :
      Ran w { w with txq := later, chatRows := c.foldl Table.set w.chatRows }
  | account (tid : ℕ) (jid : Option Jid) (c : List Chat) (later : List Txn)
      (ht : w.txq = ⟨tid, true, .account jid, c⟩ :: later) :
      Ran w { w with txq := later, account := some jid }
  | clear (tid : ℕ) (c : List Chat) (later : List Txn)
      (ht : w.txq = ⟨tid, true, .clear, c⟩ :: later) :
      Ran w { w with txq := later, msgs := .empty, chatRows := .empty, account := none }

theorem ran_advance (w : World) : Ran w (advance w) := by
  unfold advance
  split
  · rename_i tid job c later ht
    cases job with
    | flush started ops => exact .flush tid started ops c later ht
    | patch started k₀ queued fn after => exact .patch tid started k₀ queued fn after c later ht
    | patched k₀ found after => exact .patched tid k₀ found after c later ht
    | move started l p => exact .move tid started l p c later ht
    | page jid limit beforeTs => exact .page tid jid limit beforeTs c later ht
    | tails jids n => exact .tails tid jids n c later ht
    | adopt fresh => exact .adopt tid fresh c later ht
    | chats started => exact .chats tid started c later ht
    | account jid => exact .account tid jid c later ht
    | clear => exact .clear tid c later ht
  · exact .idle

/-! ## What the move does to the layer -/

/-- A job that only reads. -/
def Job.loads : Job → Bool
  | .page .. => true
  | .tails .. => true
  | .adopt .. => true
  | _ => false

/-- The operations whose answer the stores go on with. -/
def Job.answers : Job → Bool
  | .patched .. => true
  | j => j.loads

theorem adoptStoredDone_touches (h : w.Wf) (fresh : Obj) {stored : Option UiMessage}
    (hs : ∀ s, stored = some s → s.key = fresh.key) :
    Touches fresh.key w (adoptStoredDone w fresh stored) := by
  rcases adoptStoredDone_cases w fresh stored with ⟨he, -⟩ | ⟨s, cur, hst, hcur, -, he⟩
  · rw [he]; exact .refl h
  · rw [he]; exact (adoptWith_spec h (hs s hst) hcur).1

/-- The code that goes on with an answer is synchronous. -/
theorem sync_answered (hwf : w.Wf) (ht : w.txq = t :: later) (ho : t.opened = true)
    (hans : t.job.answers = true) : Sync (w.popped later) (advance w) ∧ (advance w).Wf := by
  obtain ⟨tid, opened, job, chats⟩ := t
  obtain rfl : opened = true := ho
  unfold advance
  rw [ht]
  cases job with
  | patched k found after => exact (afterPatch_spec (w := w.popped later) hwf k found after).1.frame
  | page jid limit beforeTs =>
    obtain ⟨h1, h2, -⟩ := loadOlderDone_spec (w := w.popped later) hwf jid limit beforeTs
    have hq := quiet_openChatDone (k := ⟨"", "0"⟩) h2 (by decide) jid fun _ => trivial
    exact ⟨h1.trans hq.sync, hq.wf⟩
  | tails jids n =>
    obtain ⟨w₁, h1, h2, h3⟩ := loadTailsDone_spec (w := w.popped later) hwf jids n
    have hq := (h3 ⟨"", "0"⟩ (by decide)).2
    exact ⟨h1.trans hq.sync, hq.wf⟩
  | adopt fresh =>
    exact (adoptStoredDone_touches (w := w.popped later) hwf fresh fun s hs => Table.get_key hs).frame
  | _ => cases hans

/-- What a move does to the layer: a write goes on, the stores go on with an answer, or a transaction of the layer
itself is done. -/
inductive Shifted (w : World) : World → Prop
  | idle : Shifted w w
  | flush (tid started : ℕ) (ops : Table PendingOp.key) (c : List Chat) (later : List Txn)
      (ht : w.txq = ⟨tid, true, .flush started ops, c⟩ :: later) :
      Shifted w (flushSlice w tid started ops later)
  | patch (tid started : ℕ) (k₀ : Key) (queued : Option Obj) (fn : Patch) (after : AfterPatch)
      (c : List Chat) (later : List Txn)
      (ht : w.txq = ⟨tid, true, .patch started k₀ queued fn after, c⟩ :: later) :
      Shifted w (patchRequests w tid k₀ queued fn after later)
  | answered (t : Txn) (later : List Txn) (v : World) (ht : w.txq = t :: later) (ho : t.opened = true)
      (hi : ∀ H, t.job.eff H = H) (hs : Sync (w.popped later) v) (hwf : v.Wf) : Shifted w v
  | stored (t : Txn) (later : List Txn) (msgs : Table UiMessage.key) (chatRows : Table Chat.jid)
      (account : Option (Option Jid)) (ht : w.txq = t :: later) (ho : t.opened = true)
      (hm : t.job.proper = true → msgs.get = t.job.eff w.msgs.get) :
      Shifted w { w with txq := later, msgs := msgs, chatRows := chatRows, account := account }

theorem shifted_advance (h : w.Wf) : Shifted w (advance w) := by
  have hans : ∀ {t later}, w.txq = t :: later → t.opened = true → t.job.answers = true →
      (∀ H, t.job.eff H = H) → Shifted w (advance w) := fun ht ho ha hi =>
    .answered _ _ _ ht ho hi (sync_answered h ht ho ha).1 (sync_answered h ht ho ha).2
  have hr := ran_advance w
  generalize hv : advance w = v at hr
  cases hr with
  | idle => exact .idle
  | flush tid started ops c later ht => exact .flush tid started ops c later ht
  | patch tid started k₀ queued fn after c later ht => exact .patch tid started k₀ queued fn after c later ht
  | patched tid k₀ found after c later ht => exact hv ▸ hans ht rfl rfl fun _ => rfl
  | move tid started l p c later ht =>
    exact .stored _ later _ _ _ ht rfl fun hp => get_moveRows (of_decide_eq_true hp) w.msgs
  | page tid jid limit beforeTs c later ht | tails tid jids n c later ht
  | adopt tid fresh c later ht => exact hv ▸ hans ht rfl rfl fun _ => rfl
  | chats tid started c later ht | account tid jid c later ht | clear tid c later ht =>
    exact .stored _ later _ _ _ ht rfl fun _ => rfl

/-! ## The state stays sound -/

theorem Sound.of_txq (h : Sound w) (hb : v.byChat = w.byChat) (he : v.epoch = w.epoch)
    (hw : v.wiping = w.wiping)
    (hq : ∀ t ∈ v.txq, t.job.stale w.epoch = false ∧ t.job.proper = true) : Sound v := by
  refine ⟨fun j => ?_, he ▸ hq, hw.trans h.wiping⟩
  rw [messagesFor, hb]; exact h.wf j

theorem Sound.tail (h : Sound w) (ht : w.txq = t :: later) :
    ∀ t ∈ later, t.job.stale w.epoch = false ∧ t.job.proper = true := fun t hm =>
  h.fresh t (ht ▸ mem_cons_of_mem _ hm)

theorem Sound.head (h : Sound w) (ht : w.txq = t :: later) :
    t.job.stale w.epoch = false ∧ t.job.proper = true := h.fresh t (ht ▸ mem_cons_self)

theorem Sound.popped (h : Sound w) (ht : w.txq = t :: later) :
    Sound (w.popped later) := h.of_txq rfl rfl rfl (h.tail ht)

theorem Touches.sound {k₀ : Key} (ht : Touches k₀ w v) (h : Sound w) : Sound v :=
  ht.sync.sound ht.wf h

/-- A flush that is not stale belongs to the epoch, unless it has nothing to write. -/
theorem started_of_fresh {started epoch : ℕ} {ops : Table PendingOp.key}
    (h : (Job.flush started ops).stale epoch = false) : started = epoch ∨ ops = .empty := by
  by_cases he : started = epoch
  · exact .inl he
  · right
    simp only [Job.stale, ne_eq, he, not_false_eq_true, decide_true, Bool.true_and,
      Bool.not_eq_false', List.isEmpty_iff] at h
    exact Table.ext_rows h

theorem flushSlice_frame (w : World) (tid started : ℕ) (ops : Table PendingOp.key) (later : List Txn) :
    (flushSlice w tid started ops later).byChat = w.byChat ∧
      (flushSlice w tid started ops later).epoch = w.epoch ∧
      (flushSlice w tid started ops later).wiping = w.wiping ∧
      (flushSlice w tid started ops later).q.pending = w.q.pending ∧
      (flushSlice w tid started ops later).exhausted = w.exhausted := by
  unfold flushSlice
  dsimp only
  split
  · exact ⟨rfl, rfl, rfl, rfl, rfl⟩
  · split <;> exact ⟨rfl, rfl, rfl, rfl, rfl⟩

theorem sound_advance (h : Sound w) : Sound (advance w) := by
  have hr := shifted_advance h.wf
  generalize advance w = v at hr
  cases hr with
  | idle => exact h
  | flush tid started ops c later ht =>
    obtain ⟨h1, h2, h3, -, -⟩ := flushSlice_frame w tid started ops later
    refine h.of_txq h1 h2 h3 ?_
    rcases started_of_fresh (h.head ht).1 with hst | rfl
    · rcases (flushSlice_txq tid ops later hst).2 with ⟨-, hq⟩ | hq
      · rw [hq]; exact h.tail ht
      · rw [hq]
        intro t hm
        rcases mem_append.1 hm with hm | hm
        · exact h.tail ht t hm
        · rw [mem_singleton.1 hm]; simp [Job.stale, Job.proper, hst]
    · exact h.tail ht
  | patch tid started k₀ queued fn after c later ht =>
    obtain ⟨msgs, he, -⟩ := patchRequests_eq w tid k₀ queued fn after later
    rw [he]
    refine h.of_txq rfl rfl rfl fun t hm => ?_
    rcases mem_cons.1 hm with rfl | hm
    · exact ⟨rfl, rfl⟩
    · exact h.tail ht t hm
  | answered t later v ht ho hi hs hwf => exact hs.sound hwf (h.popped ht)
  | stored t later msgs chatRows account ht => exact h.of_txq rfl rfl rfl (h.tail ht)

/-! ## A flush that fails -/

/-- The flush that a failure hits: its identity, and what it has still to write. -/
def World.failing (w : World) : FlushFailure → Option (ℕ × Table PendingOp.key)
  | .openDb =>
    match w.txq.dropWhile (·.opened) with
    | ⟨tid, _, .flush _ ops, _⟩ :: _ => some (tid, ops)
    | _ => none
  | .throwAt i =>
    match w.txq with
    | ⟨tid, true, .flush _ ops, _⟩ :: _ =>
      if i < (ops.take FLUSH_SLICE).rows.length then some (tid, ops) else none
    | _ => none
  | .abort =>
    match w.txq with
    | ⟨tid, true, .flush _ ops, _⟩ :: _ => some (tid, ops)
    | _ => none

/-- The operations that the failing transaction still commits: the requests before the one
that throws. -/
def written (ops : Table PendingOp.key) : FlushFailure → Table PendingOp.key
  | .throwAt i => ops.take i
  | _ => .empty

theorem mem_of_written {ops : Table PendingOp.key} {op : PendingOp} {f : FlushFailure}
    (h : op ∈ (written ops f).rows) : op ∈ ops.rows := by
  cases f with
  | throwAt => exact mem_of_mem_take h
  | _ => cases h

/-- What a failure does: nothing, or a flush leaves the queue. One that was the next to run may
have written some of its operations. -/
inductive Failed (w : World) (f : FlushFailure) : World → Prop
  | idle (hf : w.failing f = none) : Failed w f w
  | hit (before later : List Txn) {tid started : ℕ} {opened : Bool} {ops : Table PendingOp.key} {c : List Chat}
      {done : Table PendingOp.key} (ht : w.txq = before ++ ⟨tid, opened, .flush started ops, c⟩ :: later)
      (hf : w.failing f = some (tid, ops)) (hdone : done = written ops f) (hb : done = .empty ∨ before = []) :
      Failed w f { w with msgs := applyOps w.msgs done.rows, txq := before ++ later, q := scheduleFlushMessages w.q }

theorem failed_flushFails (w : World) (f : FlushFailure) : Failed w f (flushFails w f) := by
  cases f with
  | openDb =>
    unfold flushFails
    dsimp only
    split
    · rename_i hd
      have ht := takeWhile_append_dropWhile (p := (·.opened)) (l := w.txq)
      rw [hd] at ht
      exact .hit _ _ ht.symm (by simp only [World.failing, hd]) rfl (.inl rfl)
    · exact .idle (by simp only [World.failing])
  | throwAt i =>
    unfold flushFails
    dsimp only
    split
    · rename_i tid _ ops _ later ht
      split
      · rename_i hi
        have hlen : i ≤ FLUSH_SLICE := (le_of_lt hi).trans (length_take_le _ _)
        refine .hit [] later ht ?_ ?_ (.inr rfl)
        · simp only [World.failing, ht, if_pos hi]
        · exact Table.ext_rows (take_take.trans (by rw [min_eq_left hlen]; rfl))
      · rename_i hi
        exact .idle (by simp only [World.failing, ht, if_neg hi])
    · exact .idle (by simp only [World.failing])
  | abort =>
    unfold flushFails
    dsimp only
    split
    · rename_i ht
      exact .hit [] _ ht (by simp only [World.failing, ht]) rfl (.inl rfl)
    · exact .idle (by simp only [World.failing])

/-- The steps of a run without reset and without failure. -/
def Step.ordinary : Step → Bool
  | .flushFails _ => false
  | .resetAll => false
  | _ => true

/-- A step of such a run, with a condition on a move of the queue and one on any other step. -/
def Step.Guarded (move call : Prop) : Step → Prop
  | .advance => move
  | .flushFails _ => False
  | .resetAll => False
  | _ => call

instance (move call : Prop) [Decidable move] [Decidable call] (e : Step) : Decidable (e.Guarded move call) := by
  unfold Step.Guarded
  induction e using Step.casesOn <;> infer_instance

section Guarded

variable {move call : Prop}

theorem Step.Guarded.ordinary (h : e.Guarded move call) : e.ordinary = true := by
  cases e with
  | flushFails | resetAll => exact h.elim
  | _ => rfl

theorem Step.Guarded.sync (h : e.Guarded move call) (he : e.sync = true) : call := by
  cases e with
  | advance => cases he
  | flushFails | resetAll => exact h.elim
  | _ => exact h

theorem Step.Guarded.of_sync (he : e.sync = true) (h : call) : e.Guarded move call := by
  cases e with
  | advance | flushFails | resetAll => cases he
  | _ => exact h

end Guarded

/-- A step of such a run is a call of a store function or a move of the queue; no wipe waits. -/
theorem ordinary_cases (h : Sound w) (he : e.ordinary = true) :
    e.sync = true ∨ e = .openNext ∨ e = .advance ∨ w.step e = w := by
  cases e with
  | openNext => exact .inr (.inl rfl)
  | advance => exact .inr (.inr (.inl rfl))
  | wipe => exact .inr (.inr (.inr (by rw [World.step, wipe, h.wiping])))
  | flushFails | resetAll => cases he
  | _ => exact .inl rfl

/-- **Every ordinary step keeps the state sound.** -/
theorem sound_step (h : Sound w) (he : e.ordinary = true) : Sound (w.step e) := by
  rcases ordinary_cases h he with hs | rfl | rfl | hw
  · obtain ⟨h1, h2⟩ := sync_step h.wf hs
    exact h1.sound h2 h
  · exact (openNext_spec h).1
  · exact sound_advance h
  · rwa [hw]

end Whatsvelte
