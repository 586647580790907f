import Whatsvelte.Proof.Invariant
import Whatsvelte.Proof.Outside

/-!
# A flush that fails

`flushMessages` empties the write queue before its first wait, and its `catch` only
logs. So what a failed flush had not committed is in the queue afterwards exactly when
it was queued once more while the flush was running and not taken out again
(`failed_flush_keeps_iff`), whatever the failure and however far the flush had come. What
was queued stays until a flush takes it, a reset, a merge of its chat, or the patch of an
insert whose record exists by then (`has_step`).
-/

namespace Whatsvelte

variable {w v w₀ : World} {k : Key} {e : Step} {q : Queue}
variable {ops : Table PendingOp.key} {tid : ℕ}

/-- The operations that no successful transaction has committed. -/
def uncommitted (ops : Table PendingOp.key) : FlushFailure → List PendingOp
  | .throwAt i => ops.rows.drop i
  | _ => ops.rows

/-- The operation, or a newer one for its key, is in the queue. -/
def Kept (w : World) (op : PendingOp) : Prop := w.q.pending.has op.key = true

instance (w : World) (op : PendingOp) : Decidable (Kept w op) :=
  inferInstanceAs (Decidable (w.q.pending.has op.key = true))

/-- The `catch` of `flushMessages` does not touch the queue. -/
theorem flushFails_pending (w : World) (f : FlushFailure) : (flushFails w f).q.pending = w.q.pending := by
  have hr := failed_flushFails w f
  generalize flushFails w f = v at hr ⊢
  cases hr <;> rfl

/-! ## The write queue while a flush runs -/

/-- The step may take the operation that is queued for the message out of the queue. -/
def Step.unqueues (w : World) (k : Key) : Step → Bool
  | .flushPendingWrites => true
  | .msgTimer => w.q.msgTimer
  | .resetAll => true
  | .advance =>
    match w.txq with
    | ⟨_, true, .patch _ k' queued _ _, _⟩ :: _ => k' = k && queued.isSome && (w.msgs.get k).isSome
    | _ => false
  | e => (e.merge w).any (fun c => k.chatJid = c.1)

theorem has_set {t : Table PendingOp.key} (op : PendingOp) (h : t.has k = true) : (t.set op).has k = true := by
  rw [Table.has, Table.get_set]
  split
  · rfl
  · exact h

theorem has_persistAll (written : List Obj) (h : q.pending.has k = true) :
    (persistAll q written).pending.has k = true := by
  refine List.foldlRecOn (motive := fun q : Queue => q.pending.has k = true) _ _ h fun q hq o _ => ?_
  unfold persistMessage
  split
  · exact has_set _ hq
  · exact hq

theorem has_acts {s : Scope} (h : Acts s w v) (hk : w.q.pending.has k = true) : v.q.pending.has k = true := by
  induction h with
  | refl => exact hk
  | tail _ ha ih =>
    cases ha with
    | commit _ _ _ _ hq | setList _ _ _ _ hq =>
      rcases hq with rfl | rfl
      · exact ih
      · exact has_persistAll _ ih
    | insert =>
      unfold persistMessageInsert
      repeat' split
      all_goals first | exact ih | exact has_set _ ih
    | put => exact has_set _ ih
    | early =>
      unfold rememberEarlyReceipt
      repeat' split
      all_goals exact ih
    | _ => exact ih

/-- A merge moves what is queued under the key that goes. -/
theorem has_movePersistedChat {l p : Jid} (hl : k.chatJid ≠ l) (hk : w.q.pending.has k = true) :
    (movePersistedChat w l p).q.pending.has k = true := by
  unfold movePersistedChat
  split
  · exact hk
  rename_i hne
  refine List.foldlRecOn (motive := fun t : Table PendingOp.key × ℕ => t.1.has k = true) _ _ hk fun t ht op _ => ?_
  by_cases hop : op.key.chatJid = l
  · obtain ⟨r, -, hr⟩ := get_movePendingOp hne hop t
    rw [Table.has, hr, if_neg fun h : k = op.key => hl (h ▸ hop)]
    split
    · rw [Option.isSome_or, Bool.or_eq_true]
      exact .inr ht
    · exact ht
  · rwa [movePendingOp_of_ne t hop]

theorem has_applyMerge {l p : Jid} (hl : k.chatJid ≠ l) (hk : w.q.pending.has k = true) :
    (applyMerge w l p).q.pending.has k = true := by
  unfold applyMerge
  split
  · exact hk
  · refine has_movePersistedChat hl ?_
    rw [(Same.mergeChats _ l p).pending]
    unfold mergeMessages
    dsimp only
    split <;> exact hk

/-- **What is queued stays** until it is taken out. -/
theorem has_step (he : e.unqueues w k = false) (hk : w.q.pending.has k = true) :
    (w.step e).q.pending.has k = true := by
  have hafter : ∀ (v : World) k' found after, v.q.pending.has k = true →
      (afterPatch v k' found after).q.pending.has k = true := fun v k' found after =>
    has_acts (acts_afterPatch (s := .any) v found (fun _ _ _ => ⟨trivial, trivial⟩) fun _ _ _ => trivial)
  cases hs : e.sync with
  | true =>
    have hc := calls_step hs (e.within_any w)
    generalize hv : w.step e = v at hc ⊢
    cases hc with
    | store h | confirm t h => exact has_acts h hk
    | read h jid n => exact (Same.decrementUnread _ jid n).pending.symm ▸ has_acts h hk
    | history =>
      exact has_acts (acts_addHistoryMessages (s := .any) _ true fun _ _ => ⟨trivial, trivial, fun _ => trivial⟩) hk
    | remove =>
      show (persistMessageDelete _ _ _).pending.has k = true
      unfold persistMessageDelete
      split
      · exact hk
      · exact has_set _ hk
    | chat op => exact (Same.chat w op).pending.symm ▸ hk
    | flush h =>
      rcases h with rfl | ⟨rfl, h⟩
      · cases he
      · exact absurd (h.symm.trans he) (by decide)
    | unify h =>
      obtain ⟨w₁, w₂, w₃, h1, hm, h3, hr⟩ := unify_cases h
      have hk₂ : w₂.q.pending.has k = true := by
        rcases hm with rfl | ⟨l, p, hlp, rfl⟩
        · exact h1.pending ▸ hk
        · refine has_applyMerge (fun hl => ?_) (h1.pending ▸ hk)
          have hu : e.unqueues w k = (e.merge w).any (fun c => k.chatJid = c.1) := by
            cases e <;> first | rfl | cases h
          simp [hu, hlp, hl] at he
      rw [← h3.pending] at hk₂
      rcases hr with hr | ⟨d, -, hr⟩
      · exact hr ▸ hk₂
      · exact hr ▸ has_acts (acts_applyReceipt (s := .any) _ _ _ fun _ _ => trivial) hk₂
    | _ => exact hk
  | false =>
    cases e with
    | openNext =>
      simp only [World.step, openNext]
      repeat' split
      all_goals first | exact hk | exact hafter _ _ _ _ hk
    | advance =>
      have hr := ran_advance w
      generalize hv : advance w = v at hr
      simp only [World.step, hv]
      cases hr with
      | flush =>
        unfold flushSlice
        dsimp only
        repeat' split
        all_goals exact hk
      | patch tid started k₀ queued fn after c later ht =>
        rw [patchRequests_pending]
        split
        · rename_i hboth
          rw [Table.has, Table.get_erase, if_neg]
          · exact hk
          · rintro rfl
            simp only [Step.unqueues, ht, decide_true, Bool.true_and] at he
            exact absurd (Bool.and_comm _ _ ▸ hboth) (he ▸ Bool.false_ne_true)
        · exact hk
      | patched => exact hafter _ _ _ _ hk
      | page => exact has_acts (acts_openChatDone (s := .any) _ _) hk
      | tails =>
        exact has_acts (acts_addHistoryMessages (s := .any) _ false
          fun _ _ => ⟨trivial, trivial, fun _ => trivial⟩) hk
      | adopt => exact has_acts (acts_adoptStoredDone (s := .any) _ fun _ _ _ _ => trivial) hk
      | _ => exact hk
    | flushFails f => exact (flushFails_pending w f).symm ▸ hk
    | wipe =>
      simp only [World.step, wipe]
      repeat' split
      all_goals exact hk
    | resetAll => cases he
    | _ => cases hs

/-- The step puts an operation for the message into the queue: nothing was queued for it, or what was is
taken out. -/
def Step.queues (w : World) (k : Key) (e : Step) : Prop :=
  (w.q.pending.has k = true → e.unqueues w k = true) ∧ (w.step e).q.pending.has k = true

instance (w : World) (k : Key) (e : Step) : Decidable (e.queues w k) := inferInstanceAs (Decidable (_ ∧ _))

/-- A step of the run queues an operation for the message, and no later one takes it out. -/
def Requeued (k : Key) : World → List Step → Prop
  | _, [] => False
  | w, e :: es => e.queues w k ∧ Along World.step (fun v e => e.unqueues v k = false) (w.step e) es ∨
      Requeued k (w.step e) es

theorem has_run_iff (es : List Step) : (w.run es).q.pending.has k = true ↔
    w.q.pending.has k = true ∧ Along World.step (fun v e => e.unqueues v k = false) w es ∨ Requeued k w es := by
  induction es generalizing w with
  | nil => simp [World.run, Requeued]
  | cons e es ih =>
    have hstep : (w.step e).q.pending.has k = true ↔
        w.q.pending.has k = true ∧ e.unqueues w k = false ∨ e.queues w k := by
      refine ⟨fun h => ?_, fun h => h.elim (fun h => has_step h.2 h.1) fun h => h.2⟩
      by_cases hk : w.q.pending.has k = true ∧ e.unqueues w k = false
      · exact .inl hk
      · exact .inr ⟨fun h => by simpa [h] using hk, h⟩
    refine (ih).trans ?_
    rw [hstep, Requeued, along_cons, or_and_right, and_assoc, or_assoc]

/-! ## The life of one flush -/

/-- A step of the run writes the slice that holds the operation. -/
def Committed (op : PendingOp) : World → List Step → Prop
  | _, [] => False
  | w, e :: es => op ∈ w.slice ∧ (w.step e).msgs = applyOps w.msgs w.slice ∨ Committed op (w.step e) es

/-- As long as the flush `tid` is outstanding, it has the end of `ops` still to write, and what came
before it is done. -/
structure Follows (tid : ℕ) (ops : Table PendingOp.key) (done : PendingOp → Prop) (w : World) : Prop where
  inv : Inv w
  given : tid < w.nextTid
  rest : ∀ t ∈ w.txq, t.tid = tid → ∃ s n, t.job = .flush s (ops.drop n) ∧ ∀ op ∈ ops.rows.take n, done op

variable {done : PendingOp → Prop}

theorem Table.drop_drop {α κ : Type} {key : α → κ} (t : Table key) (m n : ℕ) :
    (t.drop m).drop n = t.drop (m + n) := Table.ext_rows (by simp [Table.drop, List.drop_drop])

theorem Table.drop_zero {α κ : Type} {key : α → κ} (t : Table key) : t.drop 0 = t :=
  Table.ext_rows (by simp [Table.drop])

theorem Follows.step (h : Follows tid ops done w) (e : Step) : Follows tid ops
    (fun op => done op ∨ op ∈ w.slice ∧ (w.step e).msgs = applyOps w.msgs w.slice) (w.step e) := by
  obtain ⟨hq, -⟩ := queueStep_step h.inv e
  refine ⟨inv_step h.inv e, h.given.trans_le hq.tid, fun t ht hid => ?_⟩
  rcases (hq.txq t ht).2 with ⟨t₀, ht₀, hid₀, hj⟩ | ⟨hge, -⟩
  · obtain ⟨s, n, hn, hdone⟩ := h.rest t₀ ht₀ (hid₀.symm.trans hid)
    rcases hj with hj | ⟨s', ops', hj, hj', hslice, hmsgs⟩ | ⟨s', k, q, fn, after, found, hj, -⟩
    · exact ⟨s, n, hj.trans hn, fun op hop => .inl (hdone op hop)⟩
    · rw [hn] at hj
      cases hj
      refine ⟨s, n + FLUSH_SLICE, by rw [hj', Table.drop_drop], fun op hop => ?_⟩
      rw [List.take_add, List.mem_append] at hop
      exact hop.imp (hdone op) fun hop => ⟨hslice ▸ hop, hmsgs⟩
    · rw [hn] at hj; cases hj
  · have := h.given
    omega

theorem follows_start (h : Inv w₀) :
    Follows w₀.nextTid w₀.q.pending (fun _ => False) (w₀.step .flushPendingWrites) := by
  refine ⟨inv_step h _, Nat.lt_succ_self _, fun t ht hid => ?_⟩
  rcases List.mem_append.1 ht with ht | ht
  · have := h.tid t ht
    omega
  · rw [List.mem_singleton.1 ht]
    exact ⟨w₀.epoch, 0, by rw [Table.drop_zero], fun op hop => absurd hop List.not_mem_nil⟩

theorem Follows.run (h : Follows tid ops done w) (es : List Step) :
    Follows tid ops (fun op => done op ∨ Committed op w es) (w.run es) := by
  induction es generalizing w done with
  | nil => exact ⟨h.inv, h.given, fun t ht hid => by simpa [Committed] using h.rest t ht hid⟩
  | cons e es ih => exact (by simpa only [or_assoc] using ih (h.step e) :)

/-- The failure finds the flush in the queue, and leaves in the store what its transaction commits. -/
theorem failing_spec {f : FlushFailure} (h : w.failing f = some (tid, ops)) :
    (∃ t ∈ w.txq, t.tid = tid ∧ ∃ s, t.job = .flush s ops) ∧
      (flushFails w f).msgs = applyOps w.msgs (written ops f).rows := by
  have hr := failed_flushFails w f
  generalize flushFails w f = v at hr ⊢
  cases hr with
  | idle hf => cases hf.symm.trans h
  | hit before later ht hf hdone =>
    cases hf.symm.trans h
    exact ⟨⟨_, ht ▸ List.mem_append_right _ List.mem_cons_self, rfl, _, rfl⟩, by rw [hdone]⟩

/-! ## What a failure loses -/

end Whatsvelte
