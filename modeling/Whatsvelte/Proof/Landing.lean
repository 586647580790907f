import Whatsvelte.Proof.Arrivals
import Whatsvelte.Proof.Hydration

/-!
# Messages that come in during the boot

The listeners are registered before the boot reads the database, and writes are queued from the first
moment on. `Held`: a message is on its way to the database; a wipe that is still to come spares only what is
in the queue. `Carries conv w v` is what every step of the boot and of the queue does to such messages, except
the call of `clearAll`, which empties the queue.

`boot_lands`: a message that comes in before persistence is turned on is in the database after the flush that
follows, unless `clearAll` was called in the meantime. A message that was lost this way stays lost when it is
delivered again, since it is still in memory; after a `clearAll` the message must not be resident.
-/

namespace Whatsvelte

open List Table

variable {α : Type} {conv : Jid → α} {c : α} {id : MsgId} {w v u : World} {T : ℕ → Prop}
variable {later : List Txn} {ops : Table PendingOp.key} {tid started : ℕ}

/-! ## What is outstanding -/

/-- A job that may be outstanding while the boot runs. -/
def Job.Tame (conv : Jid → α) (epoch : ℕ) : Job → Prop
  | .flush started ops => started = epoch ∧ ∀ k op, ops.get k = some op → op.writes = true
  | .clear => True
  | job => job.Plain conv

theorem Job.Plain.tame {job : Job} (h : job.Plain conv) (epoch : ℕ) : job.Tame conv epoch := by
  cases job <;> first | exact h | exact h.elim

structure Clean (conv : Jid → α) (w : World) : Prop where
  mapped : Mapped conv w
  writes : ∀ k op, w.q.pending.get k = some op → op.writes = true
  jobs : ∀ t ∈ w.txq, t.job.Tame conv w.epoch

/-- A flush of the transactions `T` has the message. -/
def Flushing (T : ℕ → Prop) (conv : Jid → α) (c : α) (id : MsgId) (w : World) : Prop :=
  ∃ t ∈ w.txq, T t.tid ∧ ∃ started ops jid op, t.job = .flush started ops ∧ conv jid = c ∧
    ops.get ⟨jid, id⟩ = some op ∧ op.writes = true

/-- The message is stored, or one of the flushes `T` has it. -/
def Stored (T : ℕ → Prop) (conv : Jid → α) (c : α) (id : MsgId) (w : World) : Prop :=
  Landed conv c id w ∨ Flushing T conv c id w

/-- No wipe is on its way. -/
structure Unwiped (w : World) : Prop where
  wiping : w.wiping = []
  jobs : ∀ t ∈ w.txq, t.job ≠ .clear

/-- The message is on its way to the database. -/
def Held (conv : Jid → α) (c : α) (id : MsgId) (w : World) : Prop :=
  Queued conv c id w ∨ Unwiped w ∧ Stored (fun _ => True) conv c id w

/-- Persistence is off, and nothing has been flushed. -/
structure Disarmed (w : World) : Prop where
  enabled : w.q.enabled = false
  timer : w.q.msgTimer = false
  jobs : ∀ t ∈ w.txq, ∀ started ops, t.job ≠ .flush started ops

/-! ## What a step does -/

structure Carries (conv : Jid → α) (w v : World) : Prop where
  clean : Clean conv v
  enabled : w.q.enabled = true → v.q.enabled = true
  armed : w.q.Armed → v.q.Armed
  queued : ∀ c id, Queued conv c id w → Held conv c id v
  unwiped : Unwiped w → Unwiped v
  stored : Unwiped w → ∀ T c id, Stored T conv c id w → Stored T conv c id v
  memory : Unwiped w → ∀ c id, Recordable id → InMemory conv c id v →
    InMemory conv c id w ∨ Held conv c id v

theorem Carries.held (h : Carries conv w v) (hh : Held conv c id w) : Held conv c id v := by
  rcases hh with hq | ⟨hu, hs⟩
  · exact h.queued c id hq
  · exact .inr ⟨h.unwiped hu, h.stored hu _ c id hs⟩

theorem Carries.refl (h : Clean conv w) : Carries conv w w :=
  ⟨h, id, id, fun _ _ => .inl, id, fun _ _ _ _ => id, fun _ _ _ _ => .inl⟩

theorem Carries.trans (h : Carries conv w v) (h' : Carries conv v u) : Carries conv w u := by
  refine ⟨h'.clean, fun he => h'.enabled (h.enabled he), fun ha => h'.armed (h.armed ha),
    fun c id hq => h'.held (h.queued c id hq), fun hu => h'.unwiped (h.unwiped hu),
    fun hu T c id hs => h'.stored (h.unwiped hu) T c id (h.stored hu T c id hs), fun hu c id hr hm => ?_⟩
  rcases h'.memory (h.unwiped hu) c id hr hm with hm | hm
  · exact (h.memory hu c id hr hm).imp_right h'.held
  · exact .inr hm

/-- What a step does while persistence may be off. -/
structure Passes (conv : Jid → α) (w v : World) : Prop extends Carries conv w v where
  disarmed : Disarmed w → Disarmed v

theorem Passes.refl (h : Clean conv w) : Passes conv w w := ⟨.refl h, id⟩

theorem Passes.trans (h : Passes conv w v) (h' : Passes conv v u) : Passes conv w u :=
  ⟨h.toCarries.trans h'.toCarries, fun hd => h'.disarmed (h.disarmed hd)⟩

theorem Disarmed.of_jobs (h : Disarmed w) (hq : v.q = w.q)
    (hj : ∀ t ∈ v.txq, ∃ t' ∈ w.txq, t'.job = t.job) : Disarmed v := by
  refine ⟨by rw [hq]; exact h.enabled, by rw [hq]; exact h.timer, fun t ht s ops he => ?_⟩
  obtain ⟨t', ht', hjob⟩ := hj t ht
  exact h.jobs t' ht' s ops (hjob.trans he)

/-! ## Synchronous code -/

theorem Spares.passes (h : Clean conv w) (hs : Spares conv w v) : Passes conv w v := by
  obtain ⟨ts, hts, hplain⟩ := hs.txq
  have hnew : ∀ t ∈ v.txq, t ∈ w.txq ∨ t.job.Plain conv := by
    intro t ht
    rw [hts] at ht
    exact (mem_append.1 ht).imp_right (hplain t)
  have hunwiped : Unwiped w → Unwiped v := by
    refine fun hu => ⟨hs.wiping.trans hu.wiping, fun t ht he => ?_⟩
    rcases hnew t ht with ht | hp
    · exact hu.jobs t ht he
    · rwa [he] at hp
  have hflushing : ∀ {T c id}, Flushing T conv c id w → Flushing T conv c id v := by
    rintro T c id ⟨t, ht, hT, hf⟩
    exact ⟨t, by rw [hts]; exact mem_append_left _ ht, hT, hf⟩
  refine ⟨⟨⟨hs.mapped h.mapped, hs.writes h.writes, fun t ht => ?_⟩,
    fun he => hs.enabled.trans he, hs.armed,
    fun c id hq => .inl (hs.queued c id hq), hunwiped,
    fun _ T c id => Or.imp hs.landed.1 hflushing, fun hu c id hr hm => ?_⟩, fun hd =>
    ⟨hs.enabled.trans hd.enabled, (hs.timer hd.enabled).trans hd.timer, fun t ht s ops he => ?_⟩⟩
  · rw [hs.epoch]
    exact (hnew t ht).elim (h.jobs t) fun hp => hp.tame _
  · rcases hs.memory c id hr hm with hm | hm | hm
    · exact .inl hm
    · exact .inr (.inl hm)
    · exact .inr (.inr ⟨hunwiped hu, .inl (hs.landed.1 hm)⟩)
  · rcases hnew t ht with ht | hp
    · exact hd.jobs t ht s ops he
    · rwa [he] at hp

/-! ## The queue moves on -/

/-- Some entries of the queue leave it without a trace, and none of them is a flush. -/
theorem passes_of_subset (h : Clean conv w) {txq : List Txn}
    (hsub : ∀ t ∈ txq, ∃ t' ∈ w.txq, t'.tid = t.tid ∧ t'.job = t.job)
    (hfl : ∀ t ∈ w.txq, (∃ s ops, t.job = .flush s ops) → ∃ t' ∈ txq, t'.tid = t.tid ∧ t'.job = t.job) :
    Passes conv w { w with txq := txq } := by
  refine ⟨⟨⟨h.mapped.of_eq rfl rfl, h.writes, fun t ht => ?_⟩, id, id, fun c id => .inl,
    fun hu => ⟨hu.wiping, fun t ht => ?_⟩, fun _ T c id => Or.imp_right fun hf => ?_, fun _ c id _ => .inl⟩,
    fun hd => hd.of_jobs rfl fun t ht => (hsub t ht).imp fun _ h => ⟨h.1, h.2.2⟩⟩
  · obtain ⟨t', ht', -, hj⟩ := hsub t ht
    rw [← hj]
    exact h.jobs t' ht'
  · obtain ⟨t', ht', -, hj⟩ := hsub t ht
    rw [← hj]
    exact hu.jobs t' ht'
  · obtain ⟨t, ht, hT, s, ops, jid, op, hj, hf⟩ := hf
    obtain ⟨t', ht', htid, hjob⟩ := hfl t ht ⟨s, ops, hj⟩
    exact ⟨t', ht', htid ▸ hT, s, ops, jid, op, hjob.trans hj, hf⟩

/-- What leaves the head of the queue and is no flush. -/
theorem passes_popped (h : Clean conv w) {t : Txn} (ht : w.txq = t :: later)
    (hn : ∀ s ops, t.job ≠ .flush s ops) : Passes conv w (w.popped later) := by
  refine passes_of_subset h (fun x hx => ⟨x, ?_, rfl, rfl⟩) fun x hx hf => ?_
  · rw [ht]
    exact mem_cons_of_mem _ hx
  · obtain ⟨s, ops, hj⟩ := hf
    rw [ht] at hx
    rcases mem_cons.1 hx with rfl | hx
    · exact absurd hj (hn s ops)
    · exact ⟨x, hx, rfl, rfl⟩

theorem passes_openNext (h : Clean conv w) : Passes conv w (openNext w) := by
  rcases openNext_cases w with he | ⟨before, t, later, ht, -, ⟨-, he⟩ | ⟨hst, ⟨s, k, q, fn, after, hj, -⟩ |
    ⟨-, he⟩⟩⟩
  · rw [he]
    exact .refl h
  · rw [he]
    refine passes_of_subset h (fun x hx => ?_) fun x hx _ => ?_
    · rw [ht]
      rcases mem_replaced hx with rfl | hx
      · exact ⟨t, by simp, rfl, rfl⟩
      · exact ⟨x, hx, rfl, rfl⟩
    · rw [ht] at hx
      rcases mem_replaced hx with rfl | hx
      · exact ⟨_, mem_append_right _ mem_cons_self, rfl, rfl⟩
      · exact ⟨x, hx, rfl, rfl⟩
  · have := h.jobs t (by rw [ht]; simp)
    rw [hj] at this
    exact this.elim
  · -- a flush is never stale, so what is dropped here is none
    rw [he]
    have hnf : ∀ s ops, t.job ≠ .flush s ops := by
      intro s ops hj
      have hepoch := (h.jobs t (by rw [ht]; simp))
      rw [hj] at hst hepoch
      simp [Job.stale, hepoch.1] at hst
    refine passes_of_subset h (fun x hx => ⟨x, ?_, rfl, rfl⟩) fun x hx hf => ?_
    · rw [ht]; exact mem_removed hx
    · rw [ht] at hx
      obtain ⟨s, ops, hj⟩ := hf
      rcases mem_append.1 hx with hx | hx
      · exact ⟨x, mem_append_left _ hx, rfl, rfl⟩
      · rcases mem_cons.1 hx with rfl | hx
        · exact absurd hj (hnf s ops)
        · exact ⟨x, mem_append_right _ hx, rfl, rfl⟩

theorem isSome_eff_of_writes {op : PendingOp} (h : op.writes = true) (r : Option UiMessage) :
    (op.eff r).isSome = true := by
  cases op with
  | put => rfl
  | add => simp [PendingOp.eff]
  | del => cases h

/-- Writes leave no gap. -/
theorem isSome_applyOps {t : Table UiMessage.key} {k : Key}
    (hw : ∀ k op, ops.get k = some op → op.writes = true)
    (h : (t.get k).isSome = true ∨ (ops.get k).isSome = true) :
    ((applyOps t ops.rows).get k).isSome = true := by
  rw [get_applyOps, opsEff]
  cases hk : ops.get k with
  | none =>
    rw [hk] at h
    exact h.resolve_right (by decide)
  | some op => exact isSome_eff_of_writes (hw k op hk) _

theorem flushSlice_outside (w : World) (tid started : ℕ) (ops : Table PendingOp.key) (later : List Txn) :
    (flushSlice w tid started ops later).lidToPn = w.lidToPn ∧
      (flushSlice w tid started ops later).resolving = w.resolving ∧
      (flushSlice w tid started ops later).q.enabled = w.q.enabled ∧
      (w.q.Armed → (flushSlice w tid started ops later).q.Armed) := by
  unfold flushSlice
  dsimp only
  split
  · exact ⟨rfl, rfl, rfl, fun _ => armed_schedule _⟩
  · split <;> exact ⟨rfl, rfl, rfl, id⟩

/-- **A slice of a flush** stores its messages and keeps the rest. -/
theorem passes_flushSlice (h : Clean conv w)
    {l : List Chat} (ht : w.txq = ⟨tid, true, .flush started ops, l⟩ :: later) :
    Passes conv w (flushSlice w tid started ops later) := by
  have htame : started = w.epoch ∧ ∀ k op, ops.get k = some op → op.writes = true :=
    h.jobs ⟨tid, true, .flush started ops, l⟩ (by rw [ht]; exact mem_cons_self)
  have hlater : ∀ t ∈ later, t ∈ w.txq := fun t hm => by rw [ht]; exact mem_cons_of_mem _ hm
  obtain ⟨hmsgs, htxq⟩ := flushSlice_txq tid ops later htame.1
  obtain ⟨hb, he, hw, hpend, -⟩ := flushSlice_frame w tid started ops later
  obtain ⟨hl, hr, hen, harmed⟩ := flushSlice_outside w tid started ops later
  generalize flushSlice w tid started ops later = v at *
  have htake : ∀ k op, (ops.take FLUSH_SLICE).get k = some op → op.writes = true := by
    intro k op hk
    refine htame.2 k op ?_
    rw [get_take_drop ops FLUSH_SLICE, hk]
    rfl
  have hjobs : ∀ t ∈ v.txq, t ∈ later ∨ t.job = .flush started (ops.drop FLUSH_SLICE) := by
    intro t hm
    rcases htxq with ⟨-, hx⟩ | hx <;> rw [hx] at hm
    · exact .inl hm
    · exact (mem_append.1 hm).imp_right fun hm => by rw [mem_singleton.1 hm]
  have hkept : ∀ t ∈ later, t ∈ v.txq := by
    intro t hm
    rcases htxq with ⟨-, hx⟩ | hx <;> rw [hx]
    · exact hm
    · exact mem_append_left _ hm
  have hstored : ∀ T c id, Stored T conv c id w → Stored T conv c id v := by
    rintro T c id (⟨jid, hc, hs⟩ | ⟨t, hm, hT, s, ops', jid, op, hj, hc, hk, hop⟩)
    · exact .inl ⟨jid, hc, by rw [hmsgs]; exact isSome_applyOps htake (.inl hs)⟩
    · rw [ht] at hm
      rcases mem_cons.1 hm with rfl | hm
      · -- the operation is in the slice, or in the rest
        injection hj with hs hops
        subst hs hops
        rw [get_take_drop ops FLUSH_SLICE] at hk
        cases htk : (ops.take FLUSH_SLICE).get ⟨jid, id⟩ with
        | some =>
          exact .inl ⟨jid, hc, by rw [hmsgs]; exact isSome_applyOps htake (.inr (by rw [htk]; rfl))⟩
        | none =>
          rw [htk, Option.none_or] at hk
          rcases htxq with ⟨hempty, -⟩ | hx
          · rw [hempty] at hk
            cases hk
          · exact .inr ⟨⟨tid, true, .flush started (ops.drop FLUSH_SLICE), []⟩,
              by rw [hx]; exact mem_append_right _ mem_cons_self, hT, _, _, jid, op, rfl, hc, hk, hop⟩
      · exact .inr ⟨t, hkept t hm, hT, s, ops', jid, op, hj, hc, hk, hop⟩
  refine ⟨⟨⟨h.mapped.of_eq hl hr, by rw [hpend]; exact h.writes, fun t hm => ?_⟩,
    fun he => hen.trans he, harmed, fun c id hq => .inl (by rwa [Queued, hpend]),
    fun hu => ⟨hw.trans hu.wiping, fun t hm => ?_⟩,
    fun _ => hstored, fun _ c id _ hm => .inl (by simpa only [InMemory, messagesFor, hb] using hm)⟩,
    fun hd => absurd rfl (hd.jobs _ (by rw [ht]; exact mem_cons_self) started ops)⟩
  · rw [he]
    rcases hjobs t hm with hm | hj
    · exact h.jobs t (hlater t hm)
    · rw [hj]
      refine ⟨htame.1, fun k op hk => htame.2 k op ?_⟩
      rw [get_take_drop ops FLUSH_SLICE, get_take_of_drop (by rw [hk]; rfl), hk]
      rfl
  · rcases hjobs t hm with hm | hj
    · exact hu.jobs t (hlater t hm)
    · rw [hj]
      rintro ⟨⟩

/-- **A move** takes the records along inside their conversation. -/
theorem passes_move (h : Clean conv w) {l p : Jid} {cs : List Chat}
    (ht : w.txq = ⟨tid, true, .move started l p, cs⟩ :: later) :
    Passes conv w { w with
      txq := later, msgs := moveRows w.msgs l p, chatRows := w.chatRows.erase l } := by
  have hplain : l ≠ p ∧ conv l = conv p :=
    h.jobs ⟨tid, true, .move started l p, cs⟩ (by rw [ht]; exact mem_cons_self)
  have hpop := passes_popped h ht nofun
  refine ⟨⟨⟨h.mapped.of_eq rfl rfl, h.writes, hpop.clean.jobs⟩, id, id, fun c id => .inl,
    fun hu => ⟨hu.wiping, (hpop.unwiped hu).jobs⟩, fun hu T c id hs => ?_, fun _ c id _ hm => .inl hm⟩,
    fun hd => ⟨hd.enabled, hd.timer, (hpop.disarmed hd).jobs⟩⟩
  rcases hpop.stored hu T c id hs with ⟨jid, hc, hsome⟩ | hf
  · left
    have hget : ∀ k, ((moveRows w.msgs l p).get k).isSome = true ↔
        k.chatJid ≠ l ∧ ((w.msgs.get k).isSome = true ∨ k.chatJid = p ∧ (w.msgs.get ⟨l, k.id⟩).isSome = true) := by
      intro k
      rw [get_moveRows hplain.1]
      exact isSome_moveEff hplain.1 _ k
    by_cases hjl : jid = l
    · subst hjl
      exact ⟨p, hplain.2.symm.trans hc, (hget ⟨p, id⟩).2 ⟨hplain.1.symm, .inr ⟨rfl, hsome⟩⟩⟩
    · exact ⟨jid, hc, (hget ⟨jid, id⟩).2 ⟨hjl, .inl hsome⟩⟩
  · exact .inr hf

/-- **The queue moves on.** -/
theorem passes_advance (h : Clean conv w) : Passes conv w (advance w) := by
  have htame : ∀ {t later}, w.txq = t :: later → t.job.Tame conv w.epoch :=
    fun ht => h.jobs _ (by rw [ht]; exact mem_cons_self)
  have hran := ran_advance w
  generalize advance w = v at hran ⊢
  cases hran with
  | idle => exact .refl h
  | flush tid started ops l later ht => exact passes_flushSlice h ht
  | patch tid started k₀ queued fn after l later ht | patched tid k₀ found after l later ht => exact (htame ht).elim
  | move tid started l p cs later ht => exact passes_move h ht
  | page tid jid limit beforeTs l later ht => exact (htame ht).elim
  | tails tid jids n l later ht =>
    have hpop := passes_popped h ht nofun
    exact hpop.trans ((spares_loadTailsDone _ jids n).passes hpop.clean)
  | adopt tid fresh l later ht =>
    have hpop := passes_popped h ht nofun
    exact hpop.trans (Spares.passes hpop.clean (spares_adoptStoredDone fun s hs => get_key hs))
  | chats tid started l later ht | account tid jid l later ht =>
    have hpop := passes_popped h ht nofun
    exact hpop.trans (Spares.passes hpop.clean (.of_eq ⟨rfl, rfl, rfl, rfl, rfl, rfl⟩ rfl rfl))
  | clear tid l later ht =>
    -- what is in the queue survives the wipe
    have hpop := passes_popped h ht nofun
    have hno : ¬ Unwiped w := fun hu => hu.jobs _ (by rw [ht]; exact mem_cons_self) rfl
    exact ⟨⟨⟨h.mapped.of_eq rfl rfl, h.writes, hpop.clean.jobs⟩, id, id, fun c id => .inl,
      fun hu => absurd hu hno, fun hu => absurd hu hno, fun hu => absurd hu hno⟩,
      fun hd => ⟨hd.enabled, hd.timer, (hpop.disarmed hd).jobs⟩⟩

theorem passes_wipe (h : Clean conv w) : Passes conv w (wipe w) := by
  unfold wipe
  split
  · exact .refl h
  · rename_i tids rest hw
    have hno : ¬ Unwiped w := fun hu => by rw [hu.wiping] at hw; cases hw
    split
    · exact .refl h
    · refine ⟨⟨⟨⟨h.mapped.lidToPn, h.mapped.asked⟩, h.writes, fun t ht => ?_⟩, id, id, fun c id => .inl,
        fun hu => absurd hu hno, fun hu => absurd hu hno, fun hu => absurd hu hno⟩,
        fun hd => ⟨hd.enabled, hd.timer, fun t ht => ?_⟩⟩
      all_goals rcases mem_append.1 ht with ht | ht
      · exact h.jobs t ht
      · rw [mem_singleton.1 ht]
        trivial
      · exact hd.jobs t ht
      · rw [mem_singleton.1 ht]
        exact nofun

/-- **A flush starts**: what was queued is now in its hands. -/
theorem carries_flush (h : Clean conv w) (hu : Unwiped w) : Carries conv w (flushPendingWrites w) := by
  have htxq : (flushPendingWrites w).txq =
      w.txq ++ [⟨w.nextTid, false, .flush w.epoch w.q.pending, []⟩] := rfl
  have hunwiped : Unwiped (flushPendingWrites w) := by
    refine ⟨hu.wiping, fun t ht => ?_⟩
    rw [htxq] at ht
    rcases mem_append.1 ht with ht | ht
    · exact hu.jobs t ht
    · rw [mem_singleton.1 ht]
      exact nofun
  have hempty : ∀ k, (flushPendingWrites w).q.pending.get k = none := fun k => get_empty k
  refine ⟨⟨h.mapped.of_eq rfl rfl, fun k op hk => ?_, fun t ht => ?_⟩, id, fun _ _ he => ?_, fun c id hq => ?_,
    fun _ => hunwiped, fun _ T c id => Or.imp_right fun ⟨t, ht, hf⟩ => ?_, fun _ c id _ => .inl⟩
  · rw [hempty k] at hk
    cases hk
  · rw [htxq] at ht
    rcases mem_append.1 ht with ht | ht
    · exact h.jobs t ht
    · rw [mem_singleton.1 ht]
      exact ⟨rfl, h.writes⟩
  · obtain ⟨k, hk⟩ := he
    rw [hempty k] at hk
    cases hk
  · obtain ⟨jid, op, hc, hk, hw⟩ := hq
    exact .inr ⟨hunwiped, .inr ⟨_, by rw [htxq]; exact mem_append_right _ mem_cons_self, trivial,
      _, _, jid, op, rfl, hc, hk, hw⟩⟩
  · exact ⟨t, by rw [htxq]; exact mem_append_left _ ht, hf⟩

theorem carries_enable (h : Clean conv w) : Carries conv w (enablePersistence w) :=
  ⟨⟨h.mapped.of_eq rfl rfl, h.writes, h.jobs⟩, fun _ => rfl, fun _ => armed_schedule _, fun _ _ => .inl,
    fun hu => ⟨hu.wiping, hu.jobs⟩, fun _ _ _ _ => id, fun _ _ _ _ => .inl⟩

/-! ## The steps of the boot -/

variable {b b' : Boot} {e : BootStep} {s : Session}

/-- The pair of addresses that the session reports is one conversation. -/
def Session.Own (conv : Jid → α) (s : Session) : Prop :=
  truthy s.lid = true → truthy s.jid = true →
    conv (normalizeJid (s.lid.getD "")) = conv (normalizeJid (s.jid.getD ""))

/-- What holds between two waits of the boot. -/
structure Booting (conv : Jid → α) (b : Boot) : Prop where
  clean : Clean conv b.world
  saved : ∀ account l p, b.saved account l = some p → conv l = conv p
  session : b.session.Own conv
  armed : b.world.q.Armed
  enabled : b.phase = .done → b.world.q.enabled = true
  disarmed : b.phase ≠ .done → Disarmed b.world
  unwiped : b.phase ≠ .wipe → Unwiped b.world

theorem spares_loadLidMap (w : World) {saved : Jid → Jid → Option Jid}
    (hm : ∀ account l p, saved account l = some p → conv l = conv p) (hs : s.Own conv) :
    Spares conv w (loadLidMap w saved s) := by
  refine { Spares.refl w with mapped := fun h => ⟨fun l p hl => ?_, h.asked⟩ }
  unfold loadLidMap at hl
  dsimp only at hl
  split at hl
  · rename_i hjid
    split at hl
    · rename_i hlid
      by_cases he : l = normalizeJid (s.lid.getD "")
      · subst he
        rw [Function.update_self] at hl
        injection hl with hl
        rw [← hl]
        exact hs hlid hjid
      · rw [Function.update_of_ne he] at hl
        exact hm _ l p hl
    · exact hm _ l p hl
  · cases hl

theorem spares_refreshStatus (w : World) (hs : s.Own conv) : Spares conv w (refreshStatus w s) := by
  unfold refreshStatus
  split
  · rename_i h
    rw [Bool.and_eq_true] at h
    exact spares_learnLidMapping w (hs h.1 h.2)
  · exact .refl w

theorem spares_hydrateRow (h : Mapped conv w) (row : Chat) : Spares conv w (hydrateRow w row) := by
  have hchat : ∀ (w : World) (r : Chat), Spares conv w (hydrateChat w r) :=
    fun w r => .of_chats (.chat w (.hydrateChat r))
  unfold hydrateRow
  dsimp only
  split
  · exact (hchat _ _).after (spares_movePersistedChat w (h.canonicalJid row.jid).symm)
  · exact hchat _ _

/-- Code that needs the map to stay inside the conversations, run over a list. -/
theorem Spares.foldl_mapped {β : Type} {f : World → β → World}
    (hf : ∀ w b, Mapped conv w → Spares conv w (f w b)) (l : List β) {w : World} (h : Mapped conv w) :
    Spares conv w (l.foldl f w) := by
  induction l generalizing w with
  | nil => exact .refl w
  | cons b l ih =>
    have hone := hf w b h
    exact hone.trans (ih (hone.mapped h))

/-- The boot goes on from `b` to `b'`, and what is on its way stays on its way. -/
structure Goes (conv : Jid → α) (b b' : Boot) : Prop where
  booting : Booting conv b'
  carries : Carries conv b.world b'.world

/-- Code of the boot while persistence is off and no wipe is on its way. -/
structure Running (conv : Jid → α) (b : Boot) : Prop where
  booting : Booting conv b
  disarmed : Disarmed b.world
  unwiped : Unwiped b.world

theorem Running.spares (h : Running conv b) (hs : Spares conv b.world w) (ph : Phase)
    (hph : ph ≠ .done) : Running conv { b with world := w, phase := ph } ∧
      Goes conv b { b with world := w, phase := ph } := by
  have hc := hs.passes h.booting.clean
  have hb : Booting conv { b with world := w, phase := ph } :=
    ⟨hc.clean, h.booting.saved, h.booting.session, hc.armed h.booting.armed, fun hd => absurd hd hph,
      fun _ => hc.disarmed h.disarmed, fun _ => hc.unwiped h.unwiped⟩
  exact ⟨⟨hb, hc.disarmed h.disarmed, hc.unwiped h.unwiped⟩, hb, hc.toCarries⟩

theorem Goes.trans {b'' : Boot} (h : Goes conv b b') (h' : Goes conv b' b'') : Goes conv b b'' :=
  ⟨h'.booting, h.carries.trans h'.carries⟩

theorem goes_enable (h : Booting conv b) (hu : Unwiped b.world) : Goes conv b b.enable :=
  have hc := carries_enable h.clean
  ⟨⟨hc.clean, h.saved, h.session, hc.armed h.armed, fun _ => rfl, fun hn => absurd rfl hn,
    fun _ => hc.unwiped hu⟩, hc⟩

theorem goes_toAccount (h : Running conv b) : Goes conv b b.toAccount := by
  unfold Boot.toAccount
  split
  · have hs : Spares conv b.world (setAccount b.world b.session.jid) := .enqueue _ trivial
    exact (h.spares hs (.account _) nofun).2
  · exact goes_enable h.booting h.unwiped

theorem goes_restore (h : Running conv b) (jids : List Jid) : Goes conv b (b.restore jids) := by
  unfold Boot.restore
  split
  · have hfold := Spares.foldl_mapped
      (fun w jid hm => spares_unifyLid hm jid) (chatKeys b.world) h.booting.clean.mapped
    have hnd : b.phase ≠ .done := fun hd =>
      absurd ((h.booting.enabled hd).symm.trans h.disarmed.enabled) (by decide)
    obtain ⟨hrun, hgo⟩ := h.spares hfold b.phase hnd
    exact hgo.trans (goes_toAccount hrun)
  · have htails : Spares conv b.world (b.world.step (.loadTails (jids.take CHUNK) 1)) := by
      unfold World.step
      dsimp only
      split
      · exact .refl _
      · exact .enqueue _ trivial
    exact (h.spares htails (.tails _ _) nofun).2

/-- `clearAll` is called. -/
def Boot.clears (b : Boot) : BootStep → Bool
  | .resume => b.phase = .snapshot &&
      if b.session.registered then differentAccount (loadSnapshot b.world) b.session
      else !(loadSnapshot b.world).chats.isEmpty || (loadSnapshot b.world).hasMessages ||
        truthy (loadSnapshot b.world).accountJid
  | _ => false

theorem booting_clearAll (h : Running conv b) :
    Booting conv { b with world := clearAll (clearLidMap b.world), phase := .wipe } := by
  refine ⟨⟨⟨fun l p hl => ?_, h.booting.clean.mapped.asked⟩, fun k op hk => ?_, fun t ht => ?_⟩,
    h.booting.saved, h.booting.session, fun he => ?_, nofun,
    fun _ => ⟨h.disarmed.enabled, rfl, h.disarmed.jobs⟩,
    fun hn => absurd rfl hn⟩
  · cases hl
  · rw [show (clearAll (clearLidMap b.world)).q.pending.get k = none from get_empty k] at hk
    cases hk
  · -- no flush has been started, and the others do not depend on the epoch
    have htame := h.booting.clean.jobs t ht
    have hnf := h.disarmed.jobs t ht
    revert htame hnf
    cases t.job with
    | flush s ops => exact fun _ hnf => absurd rfl (hnf s ops)
    | _ => exact fun htame _ => htame
  · exact absurd (he.symm.trans h.disarmed.enabled) (by decide)

theorem goes_reconcile (h : Running conv b) (hph : b.phase = .snapshot) :
    Booting conv (b.reconcile (loadSnapshot b.world)) ∧
      (b.clears .resume = false → Goes conv b (b.reconcile (loadSnapshot b.world))) := by
  unfold Boot.reconcile Boot.clears
  rw [hph]
  by_cases hr : b.session.registered = true
  · rw [if_pos hr, if_pos hr]
    by_cases hd : differentAccount (loadSnapshot b.world) b.session = true
    · rw [hd]
      exact ⟨booting_clearAll h, fun hn => absurd hn (by decide)⟩
    · rw [if_neg hd]
      have hgo := (h.spares (Spares.foldl_mapped (fun w r hm => spares_hydrateRow hm r)
        (loadSnapshot b.world).chats h.booting.clean.mapped) (.moves (List.range' b.world.nextTid
          (((loadSnapshot b.world).chats.foldl hydrateRow b.world).nextTid - b.world.nextTid))) nofun).2
      exact ⟨hgo.booting, fun _ => hgo⟩
  · rw [if_neg hr]
    split
    · rename_i hdata
      rw [hdata]
      exact ⟨booting_clearAll h, fun hn => absurd hn (by decide)⟩
    · exact ⟨(goes_toAccount h).booting, fun _ => goes_toAccount h⟩

/-! ## All steps -/

/-- What may happen while the boot runs: messages come in, chats are trimmed, the backend answers within
the conversations, timers fire, the queue moves on, and the boot itself goes on or fails. -/
def BootStep.Allowed (conv : Jid → α) : BootStep → Prop
  | .live (.message _) => True
  | .live (.call .openNext) => True
  | .live (.call .advance) => True
  | .live (.call .wipe) => True
  | .live (.call .msgTimer) => True
  | .live (.call .chatsTimer) => True
  | .live (.call (.selectChat _)) => True
  | .live (.call (.trimChat _ _)) => True
  | .live (.call (.unifyLidDone jid pn)) => ∀ p, pn = some p → conv jid = conv p
  | .live _ => False
  | .status s => s.Own conv
  | .resume => True
  | .fails => True

theorem spares_trimChat (w : World) (jid : Jid) (keep : ℕ) : Spares conv w (trimChat w jid keep) := by
  unfold trimChat
  split
  · exact .refl w
  · rename_i arr hb
    split
    · exact .refl w
    · have hlist : messagesFor w jid = arr := by rw [messagesFor, hb]; rfl
      have hp : Publishes w ({ w with exhausted := Function.update w.exhausted jid false }.setList jid
          (lastN keep arr)) jid arr := publishes_setList rfl (lastN_sublist keep arr)
      exact .publish ⟨rfl, rfl, rfl, rfl, rfl, rfl⟩ (.refl _) hp
        fun x hx _ _ => .inl ⟨x, by rwa [hlist], rfl⟩

/-- The world moves on while the boot waits. -/
theorem Booting.live (h : Booting conv b) (hc : Passes conv b.world w) : Goes conv b { b with world := w } :=
  ⟨⟨hc.clean, h.saved, h.session, hc.armed h.armed, fun hn => hc.enabled (h.enabled hn),
    fun hn => hc.disarmed (h.disarmed hn), fun hn => hc.unwiped (h.unwiped hn)⟩, hc.toCarries⟩

theorem Booting.spares (h : Booting conv b) (hs : Spares conv b.world w) :
    Goes conv b { b with world := w } :=
  h.live (hs.passes h.clean)

theorem Booting.msgTimer (h : Booting conv b) : Goes conv b { b with world := b.world.step .msgTimer } := by
  unfold World.step
  dsimp only
  split
  · rename_i htimer
    -- the timer is only set when persistence is on, after the boot
    have hdone : b.phase = .done := by
      by_contra hn
      exact absurd ((h.disarmed hn).timer.symm.trans htimer) (by decide)
    have hc := carries_flush h.clean (h.unwiped (by rw [hdone]; decide))
    exact ⟨⟨hc.clean, h.saved, h.session, hc.armed h.armed, fun hn => hc.enabled (h.enabled hn),
      fun hn => absurd hdone hn, fun hn => hc.unwiped (h.unwiped hn)⟩, hc⟩
  · exact ⟨h, .refl h.clean⟩

theorem goes_live {ev : Event} (h : Booting conv b) (he : (BootStep.live ev).Allowed conv) :
    Goes conv b (b.step (.live ev)) := by
  have hm := h.clean.mapped
  cases ev with
  | message m => exact h.spares (spares_onMessage hm m)
  | call e =>
    cases e with
    | openNext => exact h.live (passes_openNext h.clean)
    | advance => exact h.live (passes_advance h.clean)
    | wipe => exact h.live (passes_wipe h.clean)
    | msgTimer => exact h.msgTimer
    | chatsTimer =>
      have hs : Spares conv b.world (b.world.step .chatsTimer) := by
        unfold World.step
        dsimp only
        split
        · have hoff : Spares conv b.world { b.world with chatsTimer := false } :=
            .of_eq ⟨rfl, rfl, rfl, rfl, rfl, rfl⟩ rfl rfl
          have hjob : (Job.chats b.world.epoch).Plain conv := trivial
          exact hoff.trans (.enqueue _ hjob)
        · exact .refl _
      exact h.spares hs
    | selectChat => exact h.spares (.of_eq ⟨rfl, rfl, rfl, rfl, rfl, rfl⟩ rfl rfl)
    | trimChat jid keep => exact h.spares (spares_trimChat _ jid keep)
    | unifyLidDone jid => exact h.spares (spares_unifyLidDone hm jid he)
    | _ => exact he.elim
  | _ => exact he.elim

theorem Booting.running (h : Booting conv b) {ph : Phase} (hph : b.phase = ph) (hd : ph ≠ .done)
    (hw : ph ≠ .wipe) : Running conv b := ⟨h, h.disarmed (hph ▸ hd), h.unwiped (hph ▸ hw)⟩

theorem goes_status (h : Booting conv b) (he : s.Own conv) : Goes conv b (b.step (.status s)) := by
  unfold Boot.step
  dsimp only
  have hrun : Running conv b → ∀ ph, ph ≠ .done →
      Running conv { b with session := s, world := refreshStatus b.world s, phase := ph } ∧
        Goes conv b { b with session := s, world := refreshStatus b.world s, phase := ph } := by
    intro hr ph hph
    have hr' : Running conv { b with session := s } :=
      ⟨{ h with session := he }, hr.disarmed, hr.unwiped⟩
    obtain ⟨h1, h2⟩ := hr'.spares (spares_refreshStatus b.world he) ph hph
    exact ⟨h1, h2.booting, h2.carries⟩
  split
  · rename_i hph
    refine (hrun (h.running hph nofun nofun) _ ?_).2
    split <;> decide
  · rename_i hph
    obtain ⟨hr, hgo⟩ := hrun (h.running hph nofun nofun) .reset (by decide)
    have hbb : ({ b with session := s, world := refreshStatus b.world s } : Boot) =
        { b with session := s, world := refreshStatus b.world s, phase := .reset } := by rw [hph]
    rw [hbb]
    exact hgo.trans (goes_toAccount hr)
  · exact ⟨h, .refl h.clean⟩

/-- A step that the boot takes on its own. It keeps what is on its way unless it calls `clearAll`. -/
theorem goes_resume (h : Booting conv b) : Booting conv (b.step .resume) ∧
    (b.clears .resume = false → Goes conv b (b.step .resume)) := by
  have hgo : ∀ {b'}, Goes conv b b' → Booting conv b' ∧ (b.clears .resume = false → Goes conv b b') :=
    fun hg => ⟨hg.booting, fun _ => hg⟩
  have hstay : Goes conv b b := ⟨h, .refl h.clean⟩
  unfold Boot.step
  dsimp only
  split
  · rename_i hph
    have hr := h.running hph nofun nofun
    exact hgo (hr.spares (spares_loadLidMap b.world h.saved h.session) .snapshot nofun).2
  · rename_i hph
    exact goes_reconcile (h.running hph nofun nofun) hph
  · rename_i tids hph
    split
    · exact hgo hstay
    · exact hgo (goes_restore (h.running hph nofun nofun) _)
  · rename_i tid rest hph
    split
    · exact hgo hstay
    · exact hgo (goes_restore (h.running hph nofun nofun) _)
  · rename_i hph
    split
    · exact hgo hstay
    · -- the wipe is over
      rename_i hover
      have hd := h.disarmed (by rw [hph]; decide)
      have hu : Unwiped b.world := by
        simp only [Bool.or_eq_true, not_or] at hover
        refine ⟨by simpa using hover.1, fun t ht he => hover.2 ?_⟩
        exact any_eq_true.2 ⟨t.job, mem_map_of_mem ht, by simpa using he⟩
      split
      · exact hgo (goes_toAccount ⟨h, hd, hu⟩)
      · exact hgo ⟨⟨h.clean, h.saved, h.session, h.armed, nofun, fun _ => hd, fun _ => hu⟩, .refl h.clean⟩
  · rename_i tid hph
    split
    · exact hgo hstay
    · exact hgo (goes_enable h (h.unwiped (by rw [hph]; nofun)))
  · exact hgo hstay

theorem passes_drop (h : Clean conv w) (hd : Disarmed w) (tid : ℕ) : Passes conv w (w.drop tid) := by
  refine passes_of_subset h (fun t ht => ⟨t, mem_of_mem_filter ht, rfl, rfl⟩) ?_
  rintro t ht ⟨s, ops, hj⟩
  exact absurd hj (hd.jobs t ht s ops)

/-- A wipe that fails wipes nothing. -/
theorem passes_wipeFails (h : Clean conv w) {v : World} (hv : v = { w with
      wiping := [], txq := w.txq.filter (fun t => t.job ≠ Job.clear) }) : Passes conv w v ∧ Unwiped v := by
  subst hv
  have hsub : ∀ t ∈ w.txq.filter (fun t => t.job ≠ Job.clear), t ∈ w.txq := fun t ht => mem_of_mem_filter ht
  have hu : Unwiped { w with wiping := [], txq := w.txq.filter (fun t => t.job ≠ Job.clear) } :=
    ⟨rfl, fun t ht => by simpa using (mem_filter.1 ht).2⟩
  refine ⟨⟨⟨⟨h.mapped.of_eq rfl rfl, h.writes, fun t ht => h.jobs t (hsub t ht)⟩, id, id,
    fun _ _ => .inl, fun _ => hu, fun hu' T c i => Or.imp_right ?_, fun _ _ _ _ => .inl⟩,
    fun hd => hd.of_jobs rfl fun t ht => ⟨t, hsub t ht, rfl⟩⟩, hu⟩
  rintro ⟨t, ht, hf⟩
  exact ⟨t, mem_filter.2 ⟨ht, by simpa using hu'.jobs t ht⟩, hf⟩

/-- A wait of the boot ends with an error. -/
theorem goes_fails (h : Booting conv b) : Goes conv b (b.step .fails) := by
  have hdrop : Running conv b → ∀ tid,
      Running conv { b with world := b.world.drop tid } ∧ Goes conv b { b with world := b.world.drop tid } := by
    intro hr tid
    have hc := passes_drop h.clean hr.disarmed tid
    have hgo := h.live hc
    exact ⟨⟨hgo.booting, hc.disarmed hr.disarmed, hc.unwiped hr.unwiped⟩, hgo⟩
  unfold Boot.step
  dsimp only
  split
  · rename_i hph
    exact goes_toAccount (h.running hph nofun nofun)
  · rename_i tid rest hph
    obtain ⟨hr, hgo⟩ := hdrop (h.running hph nofun nofun) tid
    exact hgo.trans (goes_toAccount hr)
  · rename_i hph
    obtain ⟨hc, hu⟩ := passes_wipeFails h.clean rfl
    have hgo := h.live hc
    exact hgo.trans (goes_toAccount ⟨hgo.booting, hc.disarmed (h.disarmed (by rw [hph]; decide)), hu⟩)
  · rename_i tid hph
    obtain ⟨hr, hgo⟩ := hdrop (h.running hph nofun nofun) tid
    exact hgo.trans (goes_enable hr.booting hr.unwiped)
  · exact ⟨h, .refl h.clean⟩

/-- **Every step of the boot** keeps what is on its way, except a call of `clearAll`. -/
theorem booting_step (h : Booting conv b) (he : e.Allowed conv) : Booting conv (b.step e) ∧
    (b.clears e = false → Goes conv b (b.step e)) := by
  cases e with
  | live =>
    have hg := goes_live h he
    exact ⟨hg.booting, fun _ => hg⟩
  | status =>
    have hg := goes_status h he
    exact ⟨hg.booting, fun _ => hg⟩
  | resume => exact goes_resume h
  | fails =>
    have hg := goes_fails h
    exact ⟨hg.booting, fun _ => hg⟩

/-! ## Runs -/

variable {es : List BootStep} {saved : Jid → Jid → Option Jid} {D : Table UiMessage.key}
  {R : Table Chat.jid} {acc : Option (Option Jid)}

/-- `clearAll` is not called. -/
def NoClear (b : Boot) (e : BootStep) : Prop := b.clears e = false

instance (b : Boot) (e : BootStep) : Decidable (NoClear b e) := inferInstanceAs (Decidable (_ = _))

theorem booting_start (hm : ∀ account l p, saved account l = some p → conv l = conv p) :
    Booting conv (Boot.start saved D R acc) := by
  refine ⟨⟨⟨fun l p h => ?_, fun r h => ?_⟩, fun k op h => ?_, fun t h => ?_⟩, hm, fun h => ?_, fun h => ?_,
    nofun, fun _ => ⟨rfl, rfl, fun t h => ?_⟩, fun _ => ⟨rfl, fun t h => ?_⟩⟩
  all_goals cases h

theorem booting_run (h : Booting conv b) (ha : ∀ e ∈ es, e.Allowed conv) : Booting conv (b.run es) :=
  Along.inv (fun _ _ hb he => (booting_step hb he).1) h
    (along_of_forall (fun e he _ => ha e he) b)

/-- A run without `clearAll` keeps what is on its way. -/
theorem held_run (h : Booting conv b) (ha : ∀ e ∈ es, e.Allowed conv) (hs : Along Boot.step NoClear b es)
    (hh : Held conv c id b.world) : Held conv c id (b.run es).world := by
  have hall : Along Boot.step (fun _ e => e.Allowed conv) b es := along_of_forall (fun e he _ => ha e he) b
  refine (Along.inv (I := fun b => Booting conv b ∧ Held conv c id b.world) ?_ ⟨h, hh⟩ (hall.and hs)).2
  rintro b e ⟨hb, hh⟩ ⟨he, hn⟩
  have hg := (booting_step hb he).2 hn
  exact ⟨hg.booting, hg.carries.held hh⟩

/-- Everything in memory is on its way. -/
def Stocked (conv : Jid → α) (w : World) : Prop :=
  Unwiped w ∧ ∀ c id, Recordable id → InMemory conv c id w → Held conv c id w

/-- As long as `clearAll` has not been called, everything in memory is on its way. -/
theorem stocked_run (hm : ∀ account l p, saved account l = some p → conv l = conv p)
    (ha : ∀ e ∈ es, e.Allowed conv) (hs : Along Boot.step NoClear (Boot.start saved D R acc) es) :
    Stocked conv ((Boot.start saved D R acc).run es).world := by
  have hall : Along Boot.step (fun _ e => e.Allowed conv) (Boot.start saved D R acc) es :=
    along_of_forall (fun e he _ => ha e he) _
  have hstart : Booting conv (Boot.start saved D R acc) ∧ Stocked conv (Boot.start saved D R acc).world := by
    refine ⟨booting_start hm, (booting_start hm).unwiped nofun, fun c id _ hmem => ?_⟩
    obtain ⟨jid, -, -, o, ho, -⟩ := hmem
    cases ho
  refine (Along.inv (I := fun b => Booting conv b ∧ Stocked conv b.world) ?_ hstart (hall.and hs)).2
  rintro b e ⟨hb, hu, hst⟩ ⟨he, hn⟩
  have hg := (booting_step hb he).2 hn
  refine ⟨hg.booting, hg.carries.unwiped hu, fun c id hr hmem => ?_⟩
  rcases hg.carries.memory hu c id hr hmem with hmem | hh
  · exact hg.carries.held (hst c id hr hmem)
  · exact hh

theorem done_step (h : b.phase = .done) (e : BootStep) : (b.step e).phase = .done ∧ NoClear b e := by
  have hs : NoClear b e := by
    unfold NoClear Boot.clears
    split
    · rw [h]
      rfl
    · rfl
  refine ⟨?_, hs⟩
  cases e with
  | live => exact h
  | _ =>
    unfold Boot.step
    simp only [h]

/-- After the boot what is stored, or in the hands of one of the flushes `T`, stays so. -/
theorem stored_run (h : Booting conv b) (hd : b.phase = .done) (ha : ∀ e ∈ es, e.Allowed conv)
    (hs : Stored T conv c id b.world) : Stored T conv c id (b.run es).world := by
  have hall : Along Boot.step (fun _ e => e.Allowed conv) b es := along_of_forall (fun e he _ => ha e he) b
  refine (Along.inv (I := fun b => Booting conv b ∧ b.phase = .done ∧ Stored T conv c id b.world) ?_
    ⟨h, hd, hs⟩ hall).2.2
  rintro b e ⟨hb, hd, hs⟩ he
  obtain ⟨hd', hn⟩ := done_step hd e
  have hg := (booting_step hb he).2 hn
  exact ⟨hg.booting, hd', hg.carries.stored (hb.unwiped (by rw [hd]; decide)) T c id hs⟩

/-- The transactions of the flushes that are running. -/
def World.flushes (w : World) (tid : ℕ) : Prop := ∃ t ∈ w.txq, t.tid = tid ∧ ∃ s ops, t.job = .flush s ops

/-- When the timer has fired, everything that is on its way is stored or being flushed. -/
theorem stored_msgTimer (ha : w.q.Armed) (he : w.q.enabled = true) (hh : Held conv c id w) :
    Stored (w.step .msgTimer).flushes conv c id (w.step .msgTimer) := by
  have hstored : ∀ {v : World}, (∀ t ∈ w.txq, t ∈ v.txq) → v.msgs = w.msgs →
      Stored (fun _ => True) conv c id w → Stored v.flushes conv c id v := by
    rintro v hsub hmsgs (hl | ⟨t, ht, -, s, ops, hf⟩)
    · exact .inl (by rwa [Landed, hmsgs])
    · obtain ⟨jid, op, hj, hrest⟩ := hf
      exact .inr ⟨t, hsub t ht, ⟨t, hsub t ht, rfl, s, ops, hj⟩, s, ops, jid, op, hj, hrest⟩
  by_cases htimer : w.q.msgTimer = true
  · have hstep : w.step .msgTimer = flushPendingWrites w := if_pos htimer
    have htxq : (flushPendingWrites w).txq =
        w.txq ++ [⟨w.nextTid, false, .flush w.epoch w.q.pending, []⟩] := rfl
    rw [hstep]
    rcases hh with ⟨jid, op, hc, hk, hw⟩ | ⟨-, hs⟩
    · have hmem : ⟨w.nextTid, false, .flush w.epoch w.q.pending, []⟩ ∈ (flushPendingWrites w).txq := by
        rw [htxq]
        exact mem_append_right _ mem_cons_self
      exact .inr ⟨_, hmem, ⟨_, hmem, rfl, _, _, rfl⟩, _, _, jid, op, rfl, hc, hk, hw⟩
    · exact hstored (fun t ht => by rw [htxq]; exact mem_append_left _ ht) rfl hs
  · have hstep : w.step .msgTimer = w := if_neg htimer
    rw [hstep]
    rcases hh with ⟨jid, op, -, hk, -⟩ | ⟨-, hs⟩
    · -- the timer would be set
      exact absurd (ha he ⟨_, by rw [hk]; rfl⟩) htimer
    · exact hstored (fun t ht => ht) rfl hs

/-- **A message that comes in during the boot lands.** It comes in after `pre`, while persistence is off. In
every run in which `clearAll` is not called after that (`mid`), and either was not called before or the
message is not resident, the message is in the database once the flushes are over that run when the timer has
fired. -/
theorem boot_lands (conv : Jid → α) (saved : Jid → Jid → Option Jid) (D : Table UiMessage.key)
    (R : Table Chat.jid) (acc : Option (Option Jid)) (m : MessageDto) (pre mid post : List BootStep)
    (hm : ∀ account l p, saved account l = some p → conv l = conv p)
    (hpre : ∀ e ∈ pre, e.Allowed conv) (hmid : ∀ e ∈ mid, e.Allowed conv)
    (hpost : ∀ e ∈ post, e.Allowed conv) {b : Boot} (hb : b = (Boot.start saved D R acc).run pre)
    (hp : persistable (canonicalMessage b.world m) = true)
    (hnew : Along Boot.step NoClear (Boot.start saved D R acc) pre ∨
      hasId (messagesFor b.world (canonicalJid b.world m.chatJid)) m.id = false)
    (hspared : Along Boot.step NoClear (b.step (.live (.message m))) mid) {d : Boot}
    (hd : d = (b.step (.live (.message m))).run mid) (hdone : d.phase = .done)
    (hover : ∀ t ∈ ((d.step (.live (.call .msgTimer))).run post).world.txq,
      ¬ (d.step (.live (.call .msgTimer))).world.flushes t.tid) :
    ∃ jid, conv jid = conv m.chatJid ∧
      (((d.step (.live (.call .msgTimer))).run post).world.msgs.get ⟨jid, m.id⟩).isSome = true := by
  have hbooting : Booting conv b := hb ▸ booting_run (booting_start hm) hpre
  have hmapped := hbooting.clean.mapped
  have hmsg : Goes conv b (b.step (.live (.message m))) := goes_live hbooting trivial
  -- the delivery puts the message on its way, or it was
  have hheld : Held conv (conv m.chatJid) m.id (b.step (.live (.message m))).world := by
    cases hf : findId (messagesFor b.world (canonicalJid b.world m.chatJid)) m.id with
    | none => exact Or.inl (queued_onMessage hmapped hp hf)
    | some o =>
      have hno := hnew.resolve_right (by rw [hasId_eq, hf]; simp)
      have hstocked : Stocked conv b.world := hb ▸ stocked_run hm hpre hno
      have hrec := persistable_iff.1 hp
      rw [id_canonicalMessage, canonicalMessage_chatJid] at hrec
      obtain ⟨hid, hjid, htmp, -⟩ := hrec
      refine hmsg.carries.held (hstocked.2 _ _ ⟨hid, htmp⟩ ⟨canonicalJid b.world m.chatJid, hjid, ?_, o, ?_⟩)
      · exact hmapped.canonicalJid m.chatJid
      · exact ⟨findId_mem hf, findId_id hf⟩
  have hheld' : Held conv (conv m.chatJid) m.id d.world := hd ▸ held_run hmsg.booting hmid hspared hheld
  have hbd : Booting conv d := hd ▸ booting_run hmsg.booting hmid
  have hfire : Goes conv d (d.step (.live (.call .msgTimer))) := goes_live hbd trivial
  have hend := stored_run hfire.booting hdone hpost (stored_msgTimer hbd.armed (hbd.enabled hdone) hheld')
  rcases hend with hl | ⟨t, ht, hT, -⟩
  · exact hl
  · exact absurd hT (hover t ht)

/-- The conversations of the run below. -/
def convA (jid : Jid) : Jid := if jid = "7@lid" then chatA else jid

/-- A message of the LID, which is not known yet when it comes in. -/
def dtoLid : MessageDto :=
  { id := "X", chatJid := "7@lid", senderJid := "7@lid", fromMe := false, timestamp := 5, text := some "hi" }

/-- The message comes in while the session is asked for, is trimmed away, and its LID is resolved while the
boot goes on to its end. -/
def bootedLid : Boot :=
  ((Boot.start savedA .empty .empty none).step (.live (.message dtoLid))).run
    [.live (.call (.trimChat "7@lid" 0)), .status sessionMe, .resume, .resume,
      .live (.call (.unifyLidDone "7@lid" (some chatA))), .live (.call .openNext), .live (.call .advance),
      .live (.call .openNext), .live (.call .advance), .resume, .live (.call .openNext),
      .live (.call .advance), .resume, .live (.call .openNext), .live (.call .advance), .resume]

theorem boot_lands_trimmed : ∃ jid, convA jid = chatA ∧
    (((bootedLid.step (.live (.call .msgTimer))).run [.live (.call .openNext),
      .live (.call .advance)]).world.msgs.get ⟨jid, "X"⟩).isSome = true := by
  have hidle : ((bootedLid.step (.live (.call .msgTimer))).run [.live (.call .openNext),
      .live (.call .advance)]).world.txq = [] := by decide +kernel
  refine boot_lands convA savedA .empty .empty none dtoLid [] _ _ ?_ (by simp) ?_ ?_ rfl
    (by decide +kernel) (Or.inl trivial) (by decide +kernel) rfl (by decide +kernel) ?_
  · intro account l p h
    unfold savedA at h
    split at h
    · rename_i hl
      injection h with h
      subst hl h
      decide
    · cases h
  · simp [BootStep.Allowed, Session.Own, sessionMe, convA, truthy, chatA]
  · simp [BootStep.Allowed]
  · intro t ht
    rw [hidle] at ht
    cases ht

/-- The database is another account's: the message is dropped from the queue, and since it is still in memory
a second delivery does not queue it either. -/
theorem boot_loses_message :
    let b := (Boot.start (fun _ _ => none) .empty .empty (some (some "other@s.whatsapp.net"))).run
      [.status sessionMe, .live (.message dtoLid), .resume, .resume, .live (.call .wipe),
        .live (.call .openNext), .live (.call .openNext), .live (.call .advance), .live (.call .advance),
        .resume, .live (.call .openNext), .live (.call .advance), .resume, .live (.message dtoLid),
        .live (.call .msgTimer)]
    persistable (canonicalMessage b.world dtoLid) = true ∧ b.phase = .done ∧ b.world.txq = [] ∧
      b.world.q.pending.rows = [] ∧ ∀ m ∈ b.world.msgs.rows, m.id ≠ dtoLid.id := by
  decide +kernel

end Whatsvelte
