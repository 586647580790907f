import Whatsvelte.Proof.BothCopies
import Whatsvelte.Proof.Deleted

/-!
# A revoke and the delivery of its message

A revoke marks the resident copy, or patches the stored one, or inserts a tombstone once
the store has answered that there is none. The answer comes later: a delivery that lands
before it is left as it is (`delivery_beats_revoke`), and so is a history chunk that
overwrites a tombstone no longer resident.

`revoke_wins`: after a revoke, in every run whose steps are safe for the message, both
copies are deleted and without text once everything has settled, whether the message was
delivered before the revoke or is delivered after it.
-/

namespace Whatsvelte

variable {w v : World} {k : Key} {e : Step} {o : Obj} {m m' : UiMessage} {fn : Patch} {f : Fallback}

/-! ## Deleted for everyone -/

/-- Deleted for everyone: nothing of the text is left. -/
def Revoked (m : UiMessage) : Prop := m.deleted = true ∧ m.text = none

theorem lasting_revoked : Lasting Revoked where
  media _ _ _ _ h := h
  adopted _ _ h := h

def Patch.edits : Patch → Bool
  | .edit _ _ => true
  | _ => false

theorem revoked_of_apply (h : Revoked m) (hf : fn.edits = false) (ha : fn.apply m = some m') :
    Revoked m' := by
  cases fn with
  | revoke => cases ha; exact ⟨rfl, rfl⟩
  | edit => cases hf
  | reaction => cases ha; exact h
  | receipt =>
    simp only [Patch.apply] at ha
    split at ha <;> cases ha
    exact h

theorem revoked_tombstone (k : Key) (f : Fallback) : Revoked (tombstone k f) := ⟨rfl, rfl⟩

/-- A deleted message under a real id is to be persisted. -/
theorem persistable_of_deleted (hid : m.id ≠ "") (hc : m.chatJid ≠ "") (htmp : isTmp m.id = false)
    (hs : m.status ≠ some .sending) (hd : m.deleted = true) : persistable m = true := by
  simp [persistable, isBlankMessage, hid, hc, htmp, hs, hd]

/-! ## The revoke itself -/

/-- Nothing is known of the message, and a revoke of it is outstanding that will insert
its tombstone. -/
structure Awaited (k : Key) (w : World) : Prop where
  slot : w.slot k = ⟨none, none⟩
  job : (∃ s f, Due (· = none) (.patch s k none .revoke (.tombstone (some f))) k w) ∨
    ∃ f later, w.jobs = .patched k false (.tombstone (some f)) :: later

/-- The revoke of `k` has come through, or will. -/
def Wins (k : Key) (w : World) : Prop := Both Revoked k w ∨ Awaited k w

theorem both_tombstone (hid : k.id ≠ "") (hc : k.chatJid ≠ "") (htmp : isTmp k.id = false)
    {s : Slot} (ho : o.msg = tombstone k f) (hw : Slot.Writes o s (v.slot k)) : Both Revoked k v :=
  both_writes (ho ▸ revoked_tombstone k f)
    (.inl (ho ▸ persistable_of_deleted hid hc htmp nofun rfl)) hw

/-- A revoke of a message of which nothing is known. -/
theorem wins_of_unknown (h : w.Wf) (hid : k.id ≠ "") (hc : k.chatJid ≠ "")
    (htmp : isTmp k.id = false) (hs : w.slot k = ⟨none, none⟩) :
    Wins k (patchThen w k .revoke (.tombstone (some f))) := by
  have heff : w.eff k = none := congrArg Slot.stored hs
  obtain ⟨ht, hres, hpat, hans⟩ := patchPersistedMessage_spec h k .revoke (.tombstone (some f))
  unfold patchThen
  generalize patchPersistedMessage w k .revoke (.tombstone (some f)) = r at *
  obtain ⟨w₁, ans⟩ := r
  rw [hs] at hres
  rw [heff] at hpat
  cases ans with
  | none =>
    obtain ⟨queued, hj, hq⟩ := hans
    obtain ⟨rfl, hb⟩ := hq heff
    exact .inr ⟨Slot.ext hres hpat, .inl ⟨_, f, due_new hj ht.sync.msgs hb⟩⟩
  | some found =>
    cases found with
    | true => rw [heff] at hans; cases hans.1
    | false =>
      rcases (insertTombstone_spec ht.wf k f).2.2 hid with ⟨h1, -⟩ | ⟨-, o, ho, hw⟩
      · rw [hres] at h1; cases h1
      · exact .inl (both_tombstone hid hc htmp ho hw)

/-- **A revoke** of any message that is not being sent. -/
theorem wins_applyRevoke (h : w.Wf) (hid : k.id ≠ "") (hc : k.chatJid ≠ "") (htmp : isTmp k.id = false)
    (hx : ∀ x, (w.slot k).resident = some x → x.msg.status ≠ some .sending) :
    Wins k (applyRevoke w k.chatJid k.id (some f)) := by
  cases hr : (w.slot k).resident with
  | none =>
    cases heff : w.eff k with
    | none =>
      have hfind : findId (messagesFor w k.chatJid) k.id = none := hr
      have he : applyRevoke w k.chatJid k.id (some f) =
          patchThen w k .revoke (.tombstone (some f)) := by rw [applyRevoke, hfind]
      rw [he]
      exact wins_of_unknown h hid hc htmp (Slot.ext hr heff)
    | some =>
      left
      cases (applyRevoke_spec h k.chatJid k.id (some f)).2 hid with
      | resident x o hx' | unchanged x hx' => rw [hr] at hx'; cases hx'
      | stored _ hs =>
        refine ⟨?_, fun o ho => by rw [hs] at ho; cases ho⟩
        exact ⟨_, (congrArg Slot.stored hs).trans (by rw [heff]; rfl), rfl, rfl⟩
      | tombstone f o _ he => rw [heff] at he; cases he
  | some =>
    left
    cases (applyRevoke_spec h k.chatJid k.id (some f)).2 hid with
    | resident y o hy ho hw =>
      have ho : _ = o.msg := Option.some.inj ho
      have hi : y.msg.id = k.id := findId_id hy
      have hch : y.msg.chatJid = k.chatJid := (h k.chatJid).chat y (findId_mem hy)
      refine both_writes (ho ▸ ⟨rfl, rfl⟩)
        (.inl (ho ▸ persistable_of_deleted ?_ ?_ ?_ ?_ rfl)) hw
      · exact hi ▸ hid
      · exact hch ▸ hc
      · exact hi ▸ htmp
      · exact hx y hy
    | unchanged y hy ho => cases ho
    | stored hy | tombstone _ _ hy => rw [hr] at hy; cases hy

/-! ## When a step is safe -/

/-- The continuation of a revoke of `k`, or the patch that it waits for. -/
def Job.revokes (k : Key) : Job → Bool
  | .patch _ k' _ _ (.tombstone _) => k' = k
  | .patched k' _ (.tombstone _) => k' = k
  | _ => false

/-- Whether a revoke of `k` waits for the store. -/
def World.revoking (w : World) (k : Key) : Bool := w.jobs.any (·.revokes k)

/-- The step does not undo a revoke of `k`. -/
abbrev RevokeSafe (k : Key) (w : World) (e : Step) : Prop :=
  e.Guarded (MoveSafe k w)
    (StepSafe k w e ∧ (∀ fn ∈ e.update k, fn.edits = false) ∧
      (w.revoking k = true → w.eff k = none → NoNewCopy [k.chatJid] k.id w e))

theorem Awaited.revoking (h : Awaited k w) : w.revoking k = true := by
  rcases h.job with ⟨s, f, hd⟩ | ⟨f, later, hj⟩
  · exact List.any_eq_true.2 ⟨_, hd.mem, decide_eq_true rfl⟩
  · rw [World.revoking, hj]
    simp [Job.revokes]

/-- The chat of the message takes no part in a merge. -/
theorem deleteSafe_of_stepSafe (he : e.sync = true) (hs : StepSafe k w e) :
    DeleteSafe [k.chatJid] k.id w e := by
  refine .of_sync he fun c hc => ?_
  obtain ⟨h1, h2⟩ := hs.merge c hc
  simp [Ne.symm h1, Ne.symm h2]

/-! ## One step -/

/-- A revoked message that is updated, but not edited, stays revoked. -/
theorem revoked_updated {fallback : Option Fallback} (hb : Both Revoked k w)
    (hr : ∀ o, (w.slot k).resident = some o → Revoked o.msg) (hf : fn.edits = false)
    (hu : Updated fn fallback k w v) : Both Revoked k v :=
  both_updated hb hr (fun _ _ hm ha => revoked_of_apply hm hf ha) (fun _ _ _ _ hm => hm)
    (fun _ _ _ _ _ hm => .inr hm) hu

theorem Awaited.sync (h : Awaited k w) (hs : v.slot k = ⟨none, none⟩) (hsync : Sync w v) : Awaited k v := by
  refine ⟨hs, h.job.imp (fun ⟨s, f, hd⟩ => ⟨s, f, hd.sync hsync⟩) fun ⟨f, later, hj⟩ => ?_⟩
  obtain ⟨js, hv⟩ := hsync.jobs
  exact ⟨f, later ++ js, by rw [hv, hj, List.cons_append]⟩

theorem wins_sync (h : w.Wf) (hid : k.id ≠ "") (htmp : isTmp k.id = false) (he : e.sync = true)
    (hw : Wins k w) (hs : RevokeSafe k w e) : Wins k (w.step e) := by
  obtain ⟨hstep, hedit, hcopy⟩ := hs.sync he
  rcases hw with hb | ha
  · left
    cases hu : e.update k with
    | none =>
      exact both_sync (fun _ _ _ hm => hm) (fun _ _ _ => lasting_revoked) h hid htmp he hu hb
        hstep
    | some fn =>
      exact revoked_updated hb (hb.of_update hstep hu) (hedit fn hu) (updated_step h hid hu)
  · have heff : w.eff k = none := congrArg Slot.stored ha.slot
    have hgone : Gone [k.chatJid] k.id w := by
      intro c hc
      rw [List.mem_singleton.1 hc]
      exact ha.slot
    have := gone_sync h hid he hgone (hcopy ha.revoking heff) (deleteSafe_of_stepSafe he hstep)
    exact .inr (ha.sync (this k.chatJid List.mem_cons_self) (sync_step h he).1)

/-- The patch of the revoke finds nothing, and hands over to the continuation. -/
theorem awaited_patchRequests {tid s : ℕ} {c : List Chat} {later : List Txn} (h : Sound w)
    (hs : w.slot k = ⟨none, none⟩) (hq : QueueSafe k w)
    (ht : w.txq = ⟨tid, true, .patch s k none .revoke (.tombstone (some f)), c⟩ :: later)
    (hm : w.msgs.get k = none) : Awaited k (advance w) := by
  have he : advance w = patchRequests w tid k none .revoke (.tombstone (some f)) later := by
    rw [advance, ht]
  rw [QueueSafe, ht] at hq
  rw [he]
  refine ⟨(slot_patchRequests h ht hq).trans hs, .inr ⟨f, later.map (·.job), ?_⟩⟩
  simp [patchRequests, readModifyWrite, hm, World.jobs]

/-- The continuation inserts the tombstone. -/
theorem both_patched {tid : ℕ} {c : List Chat} {later : List Txn} (h : Sound w) (hid : k.id ≠ "")
    (hc : k.chatJid ≠ "") (htmp : isTmp k.id = false) (hs : w.slot k = ⟨none, none⟩)
    (ht : w.txq = ⟨tid, true, .patched k false (.tombstone (some f)), c⟩ :: later) :
    Both Revoked k (advance w) := by
  have he : advance w = insertTombstone (w.popped later) k f := by
    rw [advance, ht]; rfl
  have hp := slot_popped ht (fun _ _ => rfl) k
  rw [he]
  rcases (insertTombstone_spec (h.popped ht).wf k f).2.2 hid with ⟨h1, -⟩ | ⟨-, o, ho, hw⟩
  · rw [hp, hs] at h1; cases h1
  · exact both_tombstone hid hc htmp ho hw

/-- Other work leaves a message unknown, or plants its tombstone. -/
theorem slot_of_unknown (h : Sound w) (hid : k.id ≠ "") (hc : k.chatJid ≠ "")
    (htmp : isTmp k.id = false) (hs : w.slot k = ⟨none, none⟩) (hm : MoveSafe k w) :
    Both Revoked k (advance w) ∨ (advance w).slot k = ⟨none, none⟩ := by
  have heff : w.eff k = none := congrArg Slot.stored hs
  have hres : (w.slot k).resident = none := by rw [hs]
  cases advanced h hid hm.queue with
  | quiet _ hcalm => exact .inr ((hcalm.of_none hres).trans hs)
  | tombstone tid f o ch later htx _ ho hw => exact .inl (both_tombstone hid hc htmp ho hw)
  | loaded r hr hk hres' =>
    subst hk
    rw [eff_of_row (row_of_rowsRead hr) (hm.rows r hr rfl hres')] at heff
    cases heff
  | adopted tid fresh cur o s ch later _ _ _ hcur => rw [hres] at hcur; cases hcur

theorem wins_advance (h : Sound w) (hid : k.id ≠ "") (hc : k.chatJid ≠ "")
    (htmp : isTmp k.id = false) (hw : Wins k w) (hs : MoveSafe k w) : Wins k (advance w) := by
  rcases hw with hb | ⟨hslot, ⟨s, f, hd⟩ | ⟨f, later, hj⟩⟩
  · exact .inl (both_advance (fun _ _ _ hm => hm) lasting_revoked.adopted h hid hb hs
      fun _ f => revoked_tombstone k f)
  · rcases hd.advance h hs.queue (decide_eq_true rfl) with ⟨tid, c, later, ht, hm⟩ | hd'
    · exact .inr (awaited_patchRequests h hslot hs.queue ht hm)
    · exact (slot_of_unknown h hid hc htmp hslot hs).imp_right fun hv => ⟨hv, .inl ⟨s, f, hd'⟩⟩
  · cases ht : w.txq with
    | nil => rw [World.jobs, ht] at hj; cases hj
    | cons t ts =>
      rw [World.jobs, ht, List.map_cons, List.cons.injEq] at hj
      obtain ⟨tid, opened, job, c⟩ := t
      obtain ⟨rfl, -⟩ : job = _ ∧ _ := hj
      cases opened with
      | true => exact .inl (both_patched h hid hc htmp hslot ht)
      | false =>
        have he : advance w = w := by rw [advance, ht]
        rw [he]
        exact .inr ⟨hslot, .inr ⟨f, ts.map (·.job), by rw [World.jobs, ht]; rfl⟩⟩

theorem wins_openNext (h : Sound w) (hw : Wins k w) : Wins k (openNext w) := by
  obtain ⟨-, hj, hm, -⟩ := openNext_spec h
  refine hw.imp (both_openNext h) fun ha => ⟨(slot_openNext h k).trans ha.slot, ?_⟩
  exact ha.job.imp (fun ⟨s, f, hd⟩ => ⟨s, f, hd.of_jobs hj hm⟩) fun ⟨f, later, hl⟩ => ⟨f, later, hj.trans hl⟩

/-- **One safe step** keeps a revoke. -/
theorem wins_step (hid : k.id ≠ "") (hc : k.chatJid ≠ "") (htmp : isTmp k.id = false)
    (h : Sound w ∧ Wins k w) (hs : RevokeSafe k w e) : Sound (w.step e) ∧ Wins k (w.step e) := by
  obtain ⟨h, hw⟩ := h
  refine ⟨sound_step h hs.ordinary, ?_⟩
  rcases ordinary_cases h hs.ordinary with he | rfl | rfl | he
  · exact wins_sync h.wf hid htmp he hw hs
  · exact wins_openNext h hw
  · exact wins_advance h hid hc htmp hw hs
  · rwa [he]

/-! ## Every run -/

/-- Nothing is outstanding: both copies that are left are revoked. -/
theorem Wins.settled (h : Wins k w) (ht : w.txq = []) : (∃ m, w.persisted k = some m ∧ Revoked m) ∧
    ∀ o, (w.slot k).resident = some o → Revoked o.msg := by
  have hj : w.jobs = [] := by rw [World.jobs, ht]; rfl
  rcases h with hb | ha
  · refine ⟨?_, hb.settled (by simp [World.adopting, hj])⟩
    obtain ⟨m, hm, hr⟩ := hb.record
    exact ⟨m, by rwa [← eff_of_idle ht], hr⟩
  · have := ha.revoking
    rw [World.revoking, hj] at this
    cases this

/-- **A revoke wins**: once everything has settled, the copy in memory, if there is one,
and the effective record are deleted and have no text. The message may have been
delivered before the revoke, or be delivered in the run after it. -/
theorem revoke_wins (w : World) (hr : Reachable w) (hses : w.SameSession) (k : Key)
    (hid : k.id ≠ "") (hc : k.chatJid ≠ "") (htmp : isTmp k.id = false)
    (hx : ∀ x ∈ (w.slot k).resident, x.msg.status ≠ some .sending) (f : Fallback) (es : List Step)
    (ha : Along World.step (RevokeSafe k) (w.step (.applyRevoke k.chatJid k.id (some f))) es)
    (htxq : ((w.step (.applyRevoke k.chatJid k.id (some f))).run es).txq = []) :
    (∃ m, ((w.step (.applyRevoke k.chatJid k.id (some f))).run es).persisted k = some m ∧
      m.deleted = true ∧ m.text = none) ∧
    ∀ o ∈ messagesFor ((w.step (.applyRevoke k.chatJid k.id (some f))).run es) k.chatJid,
      o.msg.id = k.id → o.msg.deleted = true ∧ o.msg.text = none := by
  have h := (inv_of_reachable hr).sound hses
  have hstart : Wins k (w.step (.applyRevoke k.chatJid k.id (some f))) :=
    wins_applyRevoke h.wf hid hc htmp hx
  obtain ⟨hsound, hwins⟩ := Along.inv (I := fun w => Sound w ∧ Wins k w)
    (fun _ _ h hs => wins_step hid hc htmp h hs) ⟨sound_step h rfl, hstart⟩ ha
  obtain ⟨hrec, hres⟩ := hwins.settled htxq
  refine ⟨hrec, fun o ho hi => hres o ?_⟩
  exact (findId_eq_some (hsound.wf k.chatJid) hid).2 ⟨ho, hi⟩

/-- The tombstone is inserted and flushed, then the message is delivered. -/
theorem revoke_wins_flushed :
    ∃ m, ((World.init.step (.applyRevoke chatA "X" (some ⟨chatA, false, 5⟩))).run
      [.openNext, .advance, .advance, .flushPendingWrites, .openNext, .advance,
        .addMessage msgX]).persisted msgX.key = some m ∧ m.deleted = true ∧ m.text = none :=
  (revoke_wins World.init ⟨[], rfl⟩ (by decide) msgX.key (by decide) (by decide) (by decide)
    (by decide) ⟨chatA, false, 5⟩ [.openNext, .advance, .advance, .flushPendingWrites, .openNext,
      .advance, .addMessage msgX] (by decide) (by decide)).1

/-- A delivery that lands while the revoke waits for the store stays as it is. -/
theorem delivery_beats_revoke :
    ¬ ∀ (w : World) (m : UiMessage) (f : Fallback) (es : List Step), Reachable w →
      w.SameSession → w.slot m.key = ⟨none, none⟩ → persistable m = true →
      (∀ e ∈ es, e = .openNext ∨ e = .advance) →
      (w.run (.applyRevoke m.chatJid m.id (some f) :: .addMessage m :: es)).txq = [] →
      ∀ o ∈ messagesFor (w.run (.applyRevoke m.chatJid m.id (some f) :: .addMessage m :: es))
        m.chatJid, o.msg.id = m.id → o.msg.deleted = true ∧ o.msg.text = none := by
  intro hall
  have := hall World.init msgX ⟨chatA, false, 5⟩ [.openNext, .advance, .advance, .openNext, .advance]
    ⟨[], rfl⟩ (by decide) rfl (by decide) (by simp) (by decide)
  exact absurd this (by decide)

end Whatsvelte
