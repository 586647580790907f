import Whatsvelte.Proof.Advance

/-!
# What holds in every run

`Inv` holds in every reachable state, resets and failures included: the resident lists
are well formed, the identities of the outstanding transactions were given out, every
outstanding job is one that the stores start, and no flush is of an epoch to come.

A run between two resets has the stronger frame `Sound` (`Inv.sound`).
-/

namespace Whatsvelte

open List

variable {w v : World} {e : Step}

structure Inv (w : World) : Prop where
  wf : w.Wf
  tid : ∀ t ∈ w.txq, t.tid < w.nextTid
  proper : ∀ t ∈ w.txq, t.job.proper = true
  timely : ∀ t ∈ w.txq, ∀ s ops, t.job = .flush s ops → ops.rows ≠ [] → s ≤ w.epoch

theorem inv_init : Inv World.init :=
  ⟨fun _ => .nil, by simp [World.init], by simp [World.init], by simp [World.init]⟩

/-- The slice that is written next. -/
def World.slice (w : World) : List PendingOp :=
  match w.txq with
  | ⟨_, true, .flush _ ops, _⟩ :: _ => (ops.take FLUSH_SLICE).rows
  | _ => []

/-- What one step can do to the transaction queue: entries leave, the one at the head may
come back with what it has still to do, and new ones join at the end. -/
structure QueueStep (w v : World) : Prop where
  tid : w.nextTid ≤ v.nextTid
  epoch : w.epoch ≤ v.epoch
  txq : ∀ t ∈ v.txq, t.job.proper = true ∧ ((∃ t₀ ∈ w.txq, t.tid = t₀.tid ∧
      (t.job = t₀.job ∨ (∃ s ops, t₀.job = .flush s ops ∧ t.job = .flush s (ops.drop FLUSH_SLICE) ∧
          w.slice = (ops.take FLUSH_SLICE).rows ∧ v.msgs = applyOps w.msgs w.slice) ∨
        (∃ s k q fn after found, t₀.job = .patch s k q fn after ∧ t.job = .patched k found after))) ∨
    w.nextTid ≤ t.tid ∧ t.tid < v.nextTid ∧ t.job.stale v.epoch = false)

theorem Inv.step (h : Inv w) (hq : QueueStep w v) (hwf : v.Wf) : Inv v := by
  refine ⟨hwf, fun t ht => ?_, fun t ht => (hq.txq t ht).1, fun t ht s ops hj hne => ?_⟩
  · rcases (hq.txq t ht).2 with ⟨t₀, h0, hid, -⟩ | ⟨-, hlt, -⟩
    · rw [hid]; exact (h.tid t₀ h0).trans_le hq.tid
    · exact hlt
  · rcases (hq.txq t ht).2 with ⟨t₀, h0, -, hj₀⟩ | ⟨-, -, hst⟩
    · rcases hj₀ with hj₀ | ⟨s₀, ops₀, h1, h2, -⟩ | ⟨s₀, k, q, fn, after, found, -, h2⟩
      · exact (h.timely t₀ h0 s ops (hj₀ ▸ hj) hne).trans hq.epoch
      · rw [hj] at h2
        cases h2
        refine (h.timely t₀ h0 s ops₀ h1 fun he => hne ?_).trans hq.epoch
        simp [Table.drop, he]
      · rw [hj] at h2; cases h2
    · rw [hj] at hst
      have : s = v.epoch := by simpa [Job.stale, hne] using hst
      exact this.le

theorem QueueStep.of_subset (h : Inv w) (hn : v.nextTid = w.nextTid) (he : w.epoch ≤ v.epoch)
    (hs : ∀ t ∈ v.txq, t ∈ w.txq) : QueueStep w v :=
  ⟨hn.ge, he, fun t ht => ⟨h.proper t (hs t ht), .inl ⟨t, hs t ht, rfl, .inl rfl⟩⟩⟩

theorem QueueStep.then_sync {w₁ : World} (h : QueueStep w w₁) (hs : Sync w₁ v) : QueueStep w v := by
  obtain ⟨ts, ht, hts⟩ := hs.txq
  refine ⟨h.tid.trans hs.tid, hs.epoch ▸ h.epoch, fun t hm => ?_⟩
  rw [ht] at hm
  rcases mem_append.1 hm with hm | hm
  · obtain ⟨h1, h2⟩ := h.txq t hm
    rw [← hs.msgs] at h2
    exact ⟨h1, h2.imp_right fun h3 => ⟨h3.1, h3.2.1.trans_le hs.tid, hs.epoch ▸ h3.2.2⟩⟩
  · obtain ⟨-, h1, h2, hst, h3⟩ := hts t hm
    exact ⟨h3, .inr ⟨h.tid.trans h1, h2, hs.epoch ▸ hst⟩⟩

theorem queueStep_sync (h : Inv w) (hs : Sync w v) : QueueStep w v :=
  (QueueStep.of_subset h rfl le_rfl fun _ ht => ht).then_sync hs

theorem queueStep_openNext (h : Inv w) : QueueStep w (openNext w) ∧ (openNext w).Wf := by
  rcases openNext_cases w with he | ⟨before, t, later, ht, -, ⟨-, he⟩ | ⟨-, ⟨s, k, q, fn, after, -, he⟩ | ⟨-, he⟩⟩⟩
  · rw [he]; exact ⟨.of_subset h rfl le_rfl fun _ ht => ht, h.wf⟩
  · rw [he]
    refine ⟨⟨le_rfl, le_rfl, fun x hx => ?_⟩, h.wf⟩
    rcases mem_replaced hx with rfl | hx
    · have hmem : t ∈ w.txq := by rw [ht]; simp
      exact ⟨h.proper t hmem, .inl ⟨t, hmem, rfl, .inl rfl⟩⟩
    · rw [← ht] at hx
      exact ⟨h.proper x hx, .inl ⟨x, hx, rfl, .inl rfl⟩⟩
  · have hsub : QueueStep w { w with txq := before ++ later } := .of_subset h rfl le_rfl fun x hx => by
      rw [ht]; exact mem_removed hx
    have hs := (afterPatch_spec (w := { w with txq := before ++ later }) h.wf k false after).1
    rw [he]
    exact ⟨hsub.then_sync hs.sync, hs.wf⟩
  · rw [he]
    exact ⟨.of_subset h rfl le_rfl fun x hx => by rw [ht]; exact mem_removed hx, h.wf⟩

theorem flushSlice_queue (h : Inv w) {tid started : ℕ} {ops : Table PendingOp.key} {c : List Chat}
    {later : List Txn} (ht : w.txq = ⟨tid, true, .flush started ops, c⟩ :: later) :
    QueueStep w (flushSlice w tid started ops later) := by
  have hsub : ∀ x ∈ later, x ∈ w.txq := fun x hx => ht ▸ mem_cons_of_mem _ hx
  have hslice : w.slice = (ops.take FLUSH_SLICE).rows := by rw [World.slice, ht]
  unfold flushSlice
  dsimp only
  split
  · exact .of_subset h rfl le_rfl hsub
  · split
    · exact .of_subset h rfl le_rfl hsub
    · refine ⟨le_rfl, le_rfl, fun x hx => ?_⟩
      rcases mem_append.1 hx with hx | hx
      · exact ⟨h.proper x (hsub x hx), .inl ⟨x, hsub x hx, rfl, .inl rfl⟩⟩
      · rw [mem_singleton.1 hx]
        exact ⟨rfl, .inl ⟨⟨tid, true, .flush started ops, c⟩, by rw [ht]; exact mem_cons_self, rfl,
          Or.inr (.inl ⟨started, ops, rfl, rfl, hslice, hslice ▸ rfl⟩)⟩⟩

theorem queueStep_advance (h : Inv w) : QueueStep w (advance w) ∧ (advance w).Wf := by
  have hr := shifted_advance h.wf
  generalize advance w = v at hr
  have hpop : ∀ {t later}, w.txq = t :: later → ∀ x ∈ later, x ∈ w.txq :=
    fun ht x hx => ht ▸ mem_cons_of_mem _ hx
  cases hr with
  | idle => exact ⟨.of_subset h rfl le_rfl fun _ ht => ht, h.wf⟩
  | flush tid started ops c later ht =>
    refine ⟨flushSlice_queue h ht, fun j => ?_⟩
    rw [messagesFor, (flushSlice_frame w tid started ops later).1]; exact h.wf j
  | patch tid started k₀ queued fn after c later ht =>
    obtain ⟨msgs, he, -⟩ := patchRequests_eq w tid k₀ queued fn after later
    rw [he]
    refine ⟨⟨le_rfl, le_rfl, fun x hx => ?_⟩, h.wf⟩
    rcases mem_cons.1 hx with rfl | hx
    · exact ⟨rfl, .inl ⟨⟨tid, true, .patch started k₀ queued fn after, c⟩,
        by rw [ht]; exact mem_cons_self, rfl,
        Or.inr (.inr ⟨started, k₀, queued, fn, after, _, rfl, rfl⟩)⟩⟩
    · exact ⟨h.proper x (hpop ht x hx), .inl ⟨x, hpop ht x hx, rfl, .inl rfl⟩⟩
  | answered t later v ht ho hi hs hwf =>
    exact ⟨(QueueStep.of_subset h (v := w.popped later) rfl le_rfl (hpop ht)).then_sync hs, hwf⟩
  | stored t later msgs chatRows account ht => exact ⟨.of_subset h rfl le_rfl (hpop ht), h.wf⟩

theorem queueStep_flushFails (h : Inv w) (f : FlushFailure) :
    QueueStep w (flushFails w f) ∧ (flushFails w f).Wf := by
  have hr := failed_flushFails w f
  generalize flushFails w f = v at hr ⊢
  cases hr with
  | idle => exact ⟨.of_subset h rfl le_rfl fun _ ht => ht, h.wf⟩
  | hit before later ht => exact ⟨.of_subset h rfl le_rfl fun x hx => by rw [ht]; exact mem_removed hx, h.wf⟩

/-- **Every step** takes entries off the queue, or adds to it. -/
theorem queueStep_step (h : Inv w) (e : Step) : QueueStep w (w.step e) ∧ (w.step e).Wf := by
  cases hs : e.sync with
  | true =>
    obtain ⟨h1, h2⟩ := sync_step h.wf hs
    exact ⟨queueStep_sync h h1, h2⟩
  | false =>
    cases e with
    | openNext => exact queueStep_openNext h
    | advance => exact queueStep_advance h
    | flushFails f => exact queueStep_flushFails h f
    | resetAll => exact ⟨.of_subset h rfl (Nat.le_succ _) fun _ ht => ht, fun _ => .nil⟩
    | wipe =>
      simp only [World.step, wipe]
      split
      · exact ⟨.of_subset h rfl le_rfl fun _ ht => ht, h.wf⟩
      · split
        · exact ⟨.of_subset h rfl le_rfl fun _ ht => ht, h.wf⟩
        · rename_i rest _ _
          have hq : QueueStep w { w with wiping := rest } := .of_subset h rfl le_rfl fun _ ht => ht
          exact ⟨hq.then_sync (.enqueue _ rfl rfl), h.wf⟩
    | _ => cases hs

theorem inv_step (h : Inv w) (e : Step) : Inv (w.step e) :=
  h.step (queueStep_step h e).1 (queueStep_step h e).2

theorem inv_of_reachable (h : Reachable w) : Inv w := by
  obtain ⟨es, rfl⟩ := h
  exact run_inv (I := Inv) (fun _ e hi => inv_step hi e) inv_init es

/-! ## Between two resets -/

/-- No reset is settling: no outstanding write is of an older epoch, no wipe is due. -/
def World.SameSession (w : World) : Prop :=
  w.wiping = [] ∧ ∀ t ∈ w.txq, t.job.stale w.epoch = false

instance (w : World) : Decidable w.SameSession := inferInstanceAs (Decidable (_ ∧ _))

theorem Inv.sound (h : Inv w) (hs : w.SameSession) : Sound w :=
  ⟨h.wf, fun t ht => ⟨hs.2 t ht, h.proper t ht⟩, hs.1⟩

end Whatsvelte
