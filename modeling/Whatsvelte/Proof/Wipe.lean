import Whatsvelte.Proof.Invariant
import Whatsvelte.Proof.MessageSteps

/-!
# Logout

`resetAll` empties memory and the write queue, and `clearAll` wipes the database in a
transaction of its own once the writes in flight have settled. Work that began before
the reset goes on: a page read before the wipe puts its rows back into memory
(`page_survives_reset`), a revoke that finds nothing inserts its tombstone, and an answer
of `resolve_jid` teaches a mapping.

`reset_wipes`: if no such continuation has anything to deliver, then memory stays empty,
and once everything has settled the queue and the database are empty too.
-/

namespace Whatsvelte

open List

variable {w v : World} {e : Step} {k : Key}

/-! ## A blank memory -/

/-- Nothing in memory, nothing queued, no mapping, no timer. -/
structure Blank (w : World) : Prop where
  chats : w.chats = .empty
  byChat : ∀ jid, w.byChat jid = none
  pending : w.q.pending = .empty
  lidToPn : ∀ jid, w.lidToPn jid = none
  msgTimer : w.q.msgTimer = false
  chatsTimer : w.chatsTimer = false

/-- A job that changes nothing in an empty database. -/
def Job.reads : Job → Bool
  | .patch _ _ queued _ _ => queued.isNone
  | .patched .. => true
  | .page .. => true
  | .tails .. => true
  | .adopt _ => true
  | .clear => true
  | _ => false

/-- A continuation that finds memory blank leaves it so: what it may change is left out
here, and it may start reads. -/
structure Rests (w v : World) : Prop where
  chats : v.chats = w.chats
  byChat : v.byChat = w.byChat
  q : v.q = w.q
  lidToPn : v.lidToPn = w.lidToPn
  chatsTimer : v.chatsTimer = w.chatsTimer
  msgs : v.msgs = w.msgs
  chatRows : v.chatRows = w.chatRows
  account : v.account = w.account
  epoch : v.epoch = w.epoch
  wiping : v.wiping = w.wiping
  jobs : ∃ js, v.jobs = w.jobs ++ js ∧ ∀ j ∈ js, j.reads = true

theorem Rests.refl (w : World) : Rests w w :=
  ⟨rfl, rfl, rfl, rfl, rfl, rfl, rfl, rfl, rfl, rfl, [], by simp, by simp⟩

theorem Rests.trans {u : World} (h : Rests w v) (h' : Rests v u) : Rests w u := by
  obtain ⟨js, h1, h2⟩ := h.jobs
  obtain ⟨js', h1', h2'⟩ := h'.jobs
  refine ⟨h'.chats.trans h.chats, h'.byChat.trans h.byChat, h'.q.trans h.q,
    h'.lidToPn.trans h.lidToPn, h'.chatsTimer.trans h.chatsTimer, h'.msgs.trans h.msgs,
    h'.chatRows.trans h.chatRows, h'.account.trans h.account, h'.epoch.trans h.epoch,
    h'.wiping.trans h.wiping, js ++ js', by rw [h1', h1, append_assoc], fun j hj => ?_⟩
  rcases mem_append.1 hj with hj | hj
  · exact h2 j hj
  · exact h2' j hj

theorem Blank.rests (h : Blank w) (hr : Rests w v) : Blank v :=
  ⟨hr.chats.trans h.chats, fun j => by rw [hr.byChat]; exact h.byChat j, by rw [hr.q]; exact h.pending,
    fun j => by rw [hr.lidToPn]; exact h.lidToPn j, by rw [hr.q]; exact h.msgTimer,
    hr.chatsTimer.trans h.chatsTimer⟩

theorem Blank.popped (h : Blank w) (later : List Txn) : Blank (w.popped later) :=
  { h with }

theorem Blank.messagesFor (h : Blank w) (jid : Jid) : messagesFor w jid = [] := by
  rw [Whatsvelte.messagesFor, h.byChat]; rfl

/-! ## Continuations on a blank memory -/

/-- The end of a patch, unless it is a revoke that inserts a tombstone. -/
theorem rests_afterPatch (w : World) (k : Key) (found : Bool) (after : AfterPatch)
    (h : found = true ∨ ∀ f, after ≠ .tombstone (some f)) : Rests w (afterPatch w k found after) := by
  cases after with
  | ignore => exact .refl w
  | tombstone fallback =>
    cases fallback with
    | none => exact .refl w
    | some f =>
      have hf : found = true := h.resolve_right fun h => h f rfl
      subst hf
      exact .refl w
  | early status =>
    obtain ⟨t, he⟩ := afterPatch_early w k found status
    rw [he]
    exact ⟨rfl, rfl, rfl, rfl, rfl, rfl, rfl, rfl, rfl, rfl, [], by simp [World.jobs], by simp⟩

theorem rests_enqueue {job : Job} (h : job.reads = true) : Rests w (w.enqueue job) :=
  ⟨rfl, rfl, rfl, rfl, rfl, rfl, rfl, rfl, rfl, rfl, [job], jobs_enqueue _ _, by simpa using h⟩

/-- With nothing queued a receipt for a message that is not resident asks the store. -/
theorem rests_patchThen (h : w.q.pending = .empty) (k : Key) (fn : Patch) (after : AfterPatch) :
    Rests w (patchThen w k fn after) := by
  have hg : w.q.pending.get k = none := by rw [h]; exact Table.get_empty k
  unfold patchThen patchPersistedMessage
  simp only [hg]
  exact rests_enqueue rfl

theorem rests_applyReceipt (h : Blank w) (jid : Jid) (ids : List MsgId) (status : MessageStatus) :
    Rests w (applyReceipt w jid ids status) := by
  have hfold : ∀ (ids : List MsgId) (v : World), v.q.pending = .empty →
      Rests v (ids.foldl (fun w id => patchThen w ⟨jid, id⟩ (.receipt status) (.early status)) v) := by
    intro ids
    induction ids with
    | nil => exact fun v _ => .refl v
    | cons id ids ih =>
      intro v hv
      have h1 := rests_patchThen hv ⟨jid, id⟩ (.receipt status) (.early status)
      exact h1.trans (ih _ (by rwa [h1.q]))
  unfold applyReceipt
  rw [h.messagesFor]
  exact hfold _ _ h.pending

theorem rests_page (h : Blank w) (jid : Jid) (limit : ℕ) (beforeTs : Option ℤ)
    (hr : loadLatestMessages w jid limit beforeTs = []) :
    Rests w (openChatDone (loadOlderDone w jid limit beforeTs) jid) := by
  have h1 : Rests w (loadOlderDone w jid limit beforeTs) := by
    unfold loadOlderDone
    rw [hr]
    exact ⟨rfl, rfl, rfl, rfl, rfl, rfl, rfl, rfl, rfl, rfl, [], by simp [World.jobs], by simp⟩
  refine h1.trans ?_
  generalize loadOlderDone w jid limit beforeTs = v at h1
  have hb : v.byChat jid = none := by rw [h1.byChat]; exact h.byChat jid
  unfold openChatDone
  split
  · unfold syncUnreadFlagForChat
    simp only [hb]
    exact ⟨rfl, rfl, rfl, rfl, rfl, rfl, rfl, rfl, rfl, rfl, [], by simp [World.jobs], by simp⟩
  · exact .refl v

theorem rests_tails (jids : List Jid) (n : ℕ) (hr : (tailRows w n w.nextRef jids).1 = []) :
    Rests w (loadTailsDone w jids n) := by
  unfold loadTailsDone
  dsimp only
  rw [hr]
  exact ⟨rfl, rfl, rfl, rfl, rfl, rfl, rfl, rfl, rfl, rfl, [], by simp [addHistoryMessages, World.jobs],
    by simp⟩

theorem rests_adopt (h : Blank w) (fresh : Obj) (stored : Option UiMessage) :
    adoptStoredDone w fresh stored = w := by
  unfold adoptStoredDone
  rw [h.byChat]
  cases stored <;> rfl

/-! ## The wipe that is under way -/

/-- The stores of the database are empty. -/
def Erased (w : World) : Prop := w.msgs = .empty ∧ w.chatRows = .empty ∧ w.account = none

/-- A flush that would queue its next slice. -/
def Job.requeues (epoch : ℕ) : Job → Bool
  | .flush started ops => started = epoch && !ops.rows.isEmpty
  | _ => false

/-- After a reset: memory is blank, no flush of the new session is outstanding, and once
no `clearAll` waits any more, its wipe is outstanding with only reads behind it, or has
been done and only reads are left. -/
structure Wiped (w : World) : Prop where
  blank : Blank w
  flushes : ∀ j ∈ w.jobs, j.requeues w.epoch = false
  store : w.wiping = [] →
    (∃ pre post, w.jobs = pre ++ .clear :: post ∧ ∀ j ∈ post, j.reads = true) ∨
      Erased w ∧ ∀ j ∈ w.jobs, j.reads = true

theorem requeues_of_reads {j : Job} {epoch : ℕ} (h : j.reads = true) : j.requeues epoch = false := by
  cases j with
  | flush => cases h
  | _ => rfl

theorem Wiped.rests (h : Wiped w) (hr : Rests w v) : Wiped v := by
  obtain ⟨js, hj, hjs⟩ := hr.jobs
  refine ⟨h.blank.rests hr, fun j hm => ?_, fun hwip => ?_⟩
  · rw [hj] at hm
    rw [hr.epoch]
    rcases mem_append.1 hm with hm | hm
    · exact h.flushes j hm
    · exact requeues_of_reads (hjs j hm)
  · rcases h.store (hr.wiping ▸ hwip) with ⟨pre, post, hp, hpost⟩ | ⟨⟨h1, h2, h3⟩, hall⟩
    · refine .inl ⟨pre, post ++ js, by rw [hj, hp]; simp, fun j hm => ?_⟩
      rcases mem_append.1 hm with hm | hm
      · exact hpost j hm
      · exact hjs j hm
    · refine .inr ⟨⟨hr.msgs.trans h1, hr.chatRows.trans h2, hr.account.trans h3⟩, fun j hm => ?_⟩
      rw [hj] at hm
      rcases mem_append.1 hm with hm | hm
      · exact hall j hm
      · exact hjs j hm

/-- The head of the queue is through; `js` is what it leaves in its place. -/
theorem Wiped.pop {t : Txn} {later : List Txn} (h : Wiped w) (js : List Job)
    (ht : w.txq = t :: later) (hb : Blank v) (hj : v.jobs = js ++ later.map (·.job))
    (he : v.epoch = w.epoch) (hw : v.wiping = w.wiping) (hjs : ∀ j ∈ js, j.reads = true)
    (hclear : t.job = .clear → js = [] ∧ Erased v)
    (hreads : t.job.reads = true → Erased w → Erased v) : Wiped v := by
  have hjobs : w.jobs = t.job :: later.map (·.job) := by rw [World.jobs, ht]; rfl
  refine ⟨hb, fun j hm => ?_, fun hwip => ?_⟩
  · rw [hj] at hm
    rw [he]
    rcases mem_append.1 hm with hm | hm
    · exact requeues_of_reads (hjs j hm)
    · exact h.flushes j (hjobs ▸ mem_cons_of_mem _ hm)
  · rcases h.store (hw ▸ hwip) with ⟨pre, post, hp, hpost⟩ | ⟨her, hall⟩
    · rw [hjobs] at hp
      cases pre with
      | nil =>
        rw [nil_append, List.cons.injEq] at hp
        obtain ⟨rfl, her⟩ := hclear hp.1
        rw [nil_append, hp.2] at hj
        exact .inr ⟨her, fun j hm => hpost j (hj ▸ hm)⟩
      | cons j pre =>
        rw [cons_append, List.cons.injEq] at hp
        exact .inl ⟨js ++ pre, post, by rw [hj, hp.2, append_assoc], hpost⟩
    · rw [hjobs] at hall
      refine .inr ⟨hreads (hall _ mem_cons_self) her, fun j hm => ?_⟩
      rw [hj] at hm
      rcases mem_append.1 hm with hm | hm
      · exact hjs j hm
      · exact hall j (mem_cons_of_mem _ hm)

/-- A read or a continuation at the head, with what it does on a blank memory. -/
theorem Wiped.popped {t : Txn} {later : List Txn} (h : Wiped w) (ht : w.txq = t :: later)
    (hne : t.job ≠ .clear) (hr : Rests (w.popped later) v) : Wiped v := by
  have hp : Wiped (w.popped later) :=
    h.pop [] ht (h.blank.popped later) rfl rfl rfl (by simp) (fun hc => absurd hc hne)
      fun _ her => her
  exact hp.rests hr

/-- A job other than the wipe leaves the queue without running. -/
theorem Wiped.removed {before later : List Txn} {t : Txn} (h : Wiped w)
    (ht : w.txq = before ++ t :: later) (hne : t.job ≠ .clear) : Wiped { w with txq := before ++ later } := by
  have hjobs : w.jobs = before.map (·.job) ++ t.job :: later.map (·.job) := by
    rw [World.jobs, ht]; simp
  have hv : ∀ j ∈ before.map (·.job) ++ later.map (·.job), j ∈ w.jobs := by
    intro j hj
    rw [hjobs]
    rcases mem_append.1 hj with hj | hj
    · exact mem_append_left _ hj
    · exact mem_append_right _ (mem_cons_of_mem _ hj)
  have hjv : { w with txq := before ++ later }.jobs = before.map (·.job) ++ later.map (·.job) := by
    simp [World.jobs]
  refine ⟨{ h.blank with }, fun j hm => h.flushes j (hv j (hjv ▸ hm)), fun hwip => ?_⟩
  rw [hjv]
  rcases h.store hwip with ⟨pre, post, hp, hpost⟩ | ⟨her, hall⟩
  · rw [hjobs] at hp
    obtain ⟨pre', post', hp', hsub⟩ := exists_split_of_remove hp hne
    exact .inl ⟨pre', post', hp', fun j hj => hpost j (hsub hj)⟩
  · exact .inr ⟨her, fun j hj => hall j (hv j hj)⟩

/-! ## One step -/

/-- Only the work that was outstanding at the reset goes on: its reads find no row, no revoke of it
inserts a tombstone, `resolve_jid` teaches no mapping, and a call that the backend rejects puts no
message back. Sends may be confirmed or fail, and chats may be closed. -/
def WipeSafe (w : World) : Step → Prop
  | .openNext => Step.openNext.plants w = none
  | .advance => w.rowsRead = [] ∧ Step.advance.plants w = none
  | .unifyLidDone jid pn => w.resolving.get jid = none ∨ ∀ p ∈ pn, p = "" ∨ p = jid
  | .wipe => True
  | .msgTimer => True
  | .chatsTimer => True
  | .confirmOptimistic .. => True
  | .failOptimistic .. => True
  | .closeChat _ => True
  | .trimChat .. => True
  | _ => False

instance (w : World) (e : Step) : Decidable (WipeSafe w e) := by
  unfold WipeSafe
  induction e using Step.casesOn <;> infer_instance

theorem wiped_unifyLidDone (h : Wiped w) (jid : Jid) (pn : Option Jid)
    (hs : WipeSafe w (.unifyLidDone jid pn)) : Wiped (unifyLidDone w jid pn) := by
  cases hr : w.resolving.get jid with
  | none =>
    have he : unifyLidDone w jid pn = w := by simp only [unifyLidDone, hr]
    rwa [he]
  | some r =>
    have he : unifyLidDone w jid pn =
        thenReceipt { w with resolving := w.resolving.erase jid } r.receipt := by
      cases pn with
      | none => simp only [unifyLidDone, hr]
      | some p =>
        rcases hs with hs | hs
        · rw [hr] at hs; cases hs
        · simp only [unifyLidDone, hr, if_pos (hs p rfl)]
    have h1 : Rests w { w with resolving := w.resolving.erase jid } :=
      ⟨rfl, rfl, rfl, rfl, rfl, rfl, rfl, rfl, rfl, rfl, [], by simp [World.jobs], by simp⟩
    rw [he]
    refine h.rests (h1.trans ?_)
    unfold thenReceipt
    split
    · exact .refl _
    · exact rests_applyReceipt (h.blank.rests h1) _ _ _

theorem wiped_openNext (h : Wiped w) (hs : Step.openNext.plants w = none) : Wiped (openNext w) := by
  unfold openNext
  split
  · exact h
  · rename_i t later hd
    have hsplit := takeWhile_append_dropWhile (p := (·.opened)) (l := w.txq)
    rw [hd] at hsplit
    split
    · rename_i hst
      have hne : t.job ≠ .clear := by rintro hc; rw [hc] at hst; cases hst
      have hr := h.removed hsplit.symm hne
      split
      · rename_i started k q fn after hj
        refine hr.rests (rests_afterPatch _ k false after (.inr ?_))
        rintro f rfl
        have hold : started ≠ w.epoch := by simpa [hj, Job.stale] using hst
        obtain ⟨tid, opened, job, chats⟩ := t
        subst hj
        simp [Step.plants, hd, hold] at hs
      · exact hr
    · -- the transaction is created, which changes no job
      refine h.rests ⟨rfl, rfl, rfl, rfl, rfl, rfl, rfl, rfl, rfl, rfl, [], ?_, by simp⟩
      rw [append_nil, World.jobs, World.jobs]
      conv_rhs => rw [← hsplit]
      simp

theorem wiped_advance (h : Wiped w) (hs : WipeSafe w .advance) : Wiped (advance w) := by
  obtain ⟨hrows, hplants⟩ := hs
  have hb := h.blank
  have hr := ran_advance w
  generalize advance w = v at hr
  cases hr with
  | idle => exact h
  | flush tid started ops c later ht =>
    have hrq := h.flushes (.flush started ops) (by rw [World.jobs, ht]; simp)
    have hq : scheduleFlushMessages w.q = w.q := by
      have hp : w.q.pending.rows.isEmpty = true := by rw [hb.pending]; rfl
      simp [scheduleFlushMessages, hp]
    refine h.pop [] ht ?_ ?_ ?_ ?_ (by simp) (by rintro ⟨⟩) (by rintro ⟨⟩) <;> unfold flushSlice <;> dsimp only
    · split
      · exact ⟨hb.chats, hb.byChat, by rw [hq]; exact hb.pending, hb.lidToPn,
          by rw [hq]; exact hb.msgTimer, hb.chatsTimer⟩
      · split <;> exact { hb with }
    · split
      · rfl
      · rename_i hmore
        have hne : started ≠ w.epoch := by
          rintro rfl
          simp only [Job.requeues, decide_true, Bool.true_and, Bool.not_eq_false'] at hrq
          exact hmore (by simp [Table.drop, List.isEmpty_iff.1 hrq])
        rw [if_pos hne]
        rfl
    · split
      · rfl
      · split <;> rfl
    · split
      · rfl
      · split <;> rfl
  | patch tid started k₀ queued fn after c later ht =>
    obtain ⟨msgs, he, hm⟩ := patchRequests_eq w tid k₀ queued fn after later
    have hpend : (if (w.msgs.get k₀).isSome && queued.isSome then w.q.pending.erase k₀
        else w.q.pending) = .empty := by
      rw [hb.pending]
      exact ite_self _
    rw [he, hpend]
    refine h.pop [.patched k₀ _ after] ht { hb with pending := rfl }
      rfl rfl rfl (by simp [Job.reads]) (by rintro ⟨⟩) ?_
    rintro hread ⟨h1, h2, h3⟩
    have hnone : queued = none := by simpa [Job.reads] using hread
    subst hnone
    rcases hm with rfl | ⟨current, next, hcur, -⟩
    · exact ⟨h1, h2, h3⟩
    · rw [h1] at hcur
      cases hcur
  | patched tid k₀ found after c later ht =>
    refine h.popped ht (by rintro ⟨⟩) (rests_afterPatch _ k₀ found after ?_)
    cases found with
    | true => exact .inl rfl
    | false =>
      right
      rintro f rfl
      simp [Step.plants, ht] at hplants
  | page tid jid limit beforeTs c later ht =>
    refine h.popped ht (by rintro ⟨⟩) (rests_page (h.blank.popped later) jid limit beforeTs ?_)
    rw [World.rowsRead, ht] at hrows
    exact map_eq_nil_iff.1 hrows
  | tails tid jids n c later ht =>
    refine h.popped ht (by rintro ⟨⟩) (rests_tails jids n ?_)
    rw [World.rowsRead, ht] at hrows
    exact map_eq_nil_iff.1 hrows
  | adopt tid fresh c later ht =>
    rw [rests_adopt (h.blank.popped later)]
    exact h.popped ht (by rintro ⟨⟩) (.refl _)
  | move tid started l p c later ht | chats tid started c later ht | account tid jid c later ht =>
    exact h.pop [] ht { hb with } rfl rfl rfl (by simp) (by rintro ⟨⟩) (by rintro ⟨⟩)
  | clear tid c later ht =>
    exact h.pop [] ht { hb with } rfl rfl rfl (by simp) (fun _ => ⟨rfl, rfl, rfl, rfl⟩) fun _ _ => ⟨rfl, rfl, rfl⟩

theorem wiped_wipe (h : Wiped w) : Wiped (wipe w) := by
  unfold wipe
  split
  · exact h
  · split
    · exact h
    · have hb := h.blank
      refine ⟨{ hb with },
        fun j hj => ?_, fun _ => .inl ⟨w.jobs, [], jobs_enqueue _ _, by simp⟩⟩
      rw [jobs_enqueue] at hj
      rcases mem_append.1 hj with hj | hj
      · exact h.flushes j hj
      · rw [mem_singleton.1 hj]; rfl

/-- **One step** of the work that goes on after a reset. -/
theorem wiped_step (h : Wiped w) (hs : WipeSafe w e) : Wiped (w.step e) := by
  cases e with
  | openNext => exact wiped_openNext h hs
  | advance => exact wiped_advance h hs
  | unifyLidDone jid pn => exact wiped_unifyLidDone h jid pn hs
  | wipe => exact wiped_wipe h
  | msgTimer => rwa [World.step, h.blank.msgTimer]
  | chatsTimer => rwa [World.step, h.blank.chatsTimer]
  | confirmOptimistic => rwa [World.step, confirmOptimistic, h.blank.byChat]
  | failOptimistic => rwa [World.step, failOptimistic, h.blank.byChat]
  | trimChat => rwa [World.step, trimChat, h.blank.byChat]
  | closeChat => rwa [World.step, closeChat, h.blank.byChat, ite_self]
  | _ => exact hs.elim

/-! ## Every run -/

/-- The reset itself. -/
theorem wiped_resetAll (h : Inv w) : Wiped (resetAll w) := by
  refine ⟨⟨rfl, fun _ => rfl, rfl, fun _ => rfl, rfl, rfl⟩, fun j hj => ?_, fun hw => ?_⟩
  · obtain ⟨t, ht, rfl⟩ := mem_map.1 hj
    cases hjob : t.job with
    | flush started ops =>
      by_contra hrq
      simp only [Job.requeues, Bool.not_eq_false, Bool.and_eq_true, decide_eq_true_eq,
        Bool.not_eq_true', isEmpty_eq_false_iff] at hrq
      have hle := h.timely t ht started ops hjob hrq.2
      have heq : started = w.epoch + 1 := hrq.1
      omega
    | _ => rfl
  · exact absurd hw (by simp [resetAll, clearAll])

/-- **A reset wipes everything**: memory is empty from the reset on, and once everything
has settled the write queue and the three stores of the database are empty. -/
theorem reset_wipes (w : World) (hr : Reachable w) (es : List Step)
    (ha : Along World.step WipeSafe (w.step .resetAll) es) :
    (((w.step .resetAll).run es).chats.rows = [] ∧
      (∀ jid, ((w.step .resetAll).run es).byChat jid = none) ∧
      ((w.step .resetAll).run es).q.pending.rows = [] ∧
      ∀ jid, ((w.step .resetAll).run es).lidToPn jid = none) ∧
    (((w.step .resetAll).run es).txq = [] → ((w.step .resetAll).run es).wiping = [] →
      ((w.step .resetAll).run es).msgs.rows = [] ∧ ((w.step .resetAll).run es).chatRows.rows = [] ∧
        ((w.step .resetAll).run es).account = none) := by
  have h : Wiped ((w.step .resetAll).run es) :=
    Along.inv (fun _ _ h hs => wiped_step h hs)
      (wiped_resetAll (inv_of_reachable hr)) ha
  refine ⟨⟨by rw [h.blank.chats]; rfl, h.blank.byChat, by rw [h.blank.pending]; rfl,
    h.blank.lidToPn⟩, fun htxq hw => ?_⟩
  rcases h.store hw with ⟨pre, post, hp, -⟩ | ⟨⟨h1, h2, h3⟩, -⟩
  · rw [World.jobs, htxq] at hp
    exact absurd hp (by simp)
  · exact ⟨by rw [h1]; rfl, by rw [h2]; rfl, h3⟩

/-- A message is stored and a second one is being flushed when the reset comes. -/
theorem reset_wipes_flushing :
    ((World.init.run [.addMessage msgX, .openNext, .advance, .flushPendingWrites, .openNext, .advance,
      .addMessage msgY, .openNext, .advance, .flushPendingWrites, .openNext]).step .resetAll |>.run
      [.advance, .wipe, .openNext, .advance]).msgs.rows = [] :=
  ((reset_wipes (World.init.run [.addMessage msgX, .openNext, .advance, .flushPendingWrites,
    .openNext, .advance, .addMessage msgY, .openNext, .advance, .flushPendingWrites, .openNext])
    ⟨_, rfl⟩ [.advance, .wipe, .openNext, .advance] (by decide +kernel)).2 (by decide +kernel)
    (by decide +kernel)).1

/-- A page that was being read when the reset came shows the old messages again. -/
theorem page_survives_reset :
    ¬ ∀ (w : World) (es : List Step), Reachable w →
      (∀ e ∈ es, e = .openNext ∨ e = .advance ∨ e = .wipe) →
      ((w.step .resetAll).run es).txq = [] → ((w.step .resetAll).run es).wiping = [] →
      ∀ jid, messagesFor ((w.step .resetAll).run es) jid = [] := by
  intro hall
  have := hall (World.init.run [.addMessage msgX, .openNext, .advance, .flushPendingWrites, .openNext,
    .advance, .loadOlder chatA 50])
    [.openNext, .advance, .wipe, .openNext, .advance] ⟨_, rfl⟩ (by simp) (by decide) (by decide) chatA
  exact absurd this (by decide)

end Whatsvelte
