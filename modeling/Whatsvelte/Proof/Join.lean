import Whatsvelte.Proof.Barrier
import Whatsvelte.Proof.EarlyReceipts

/-!
# Receipts form a join

A receipt raises the status of the messages it names, in memory for those that are resident and through
`patchPersistedMessage` for the others. `Receiving` is what holds while these patches run: they are about different
messages, and an insert that one of them saw in the queue is still there. So each of them does to the effective
history what it stands for.

* `receipts_join_iff`: **after any receipts for a message its rank is the maximum of its own and theirs**, and nothing
  else has changed, if and only if its resident copy is one that can be written, or no receipt raises it.
-/

namespace Whatsvelte

open List

variable {w v : World} {jid : Jid} {k : Key} {e : Step} {status : MessageStatus} {m : UiMessage}
variable {es : List Step} {j : Job} {epoch : ℕ}

/-! ## The patches of a receipt -/

/-- A patch that a receipt started in this epoch, or what is left of one. -/
def Job.receives (epoch : ℕ) : Job → Bool
  | .patch started _ _ _ (.early _) => started = epoch
  | .patched _ _ (.early _) => true
  | _ => false

/-- The message that a patch has still to update. -/
def Job.target : Job → Option Key
  | .patch _ k _ _ _ => some k
  | _ => none

/-- Only patches of receipts are outstanding, for different messages. An insert that one of them saw is queued. -/
structure Receiving (w : World) : Prop where
  jobs : ∀ j ∈ w.jobs, j.receives w.epoch = true
  targets : (w.jobs.filterMap Job.target).Nodup
  queued : ∀ started k o fn after, Job.patch started k (some o) fn after ∈ w.jobs →
    o.key = k ∧ ∃ o', w.q.pending.get k = some (.add o')

theorem receiving_nil (h : w.txq = []) : Receiving w := by
  have hj : w.jobs = [] := by
    rw [World.jobs, h]
    rfl
  refine ⟨?_, ?_, ?_⟩
  · rw [hj]
    exact fun j hj => absurd hj not_mem_nil
  · rw [hj]
    exact nodup_nil
  · rw [hj]
    exact fun _ _ _ _ _ hmem => absurd hmem not_mem_nil

theorem mem_targets {l : List Job} (hj : j ∈ l) (ht : j.target = some k) : k ∈ l.filterMap Job.target :=
  mem_filterMap.2 ⟨j, hj, ht⟩

/-- One patch more, for a message that is not one of the targets. -/
theorem receiving_patchThen (h : Receiving w) (hk : k ∉ w.jobs.filterMap Job.target) (fn : Patch)
    (status : MessageStatus) :
    Receiving (patchThen w k fn (.early status)) ∧
      ∀ k', k' ∈ (patchThen w k fn (.early status)).jobs.filterMap Job.target →
        k' = k ∨ k' ∈ w.jobs.filterMap Job.target := by
  obtain ⟨-, -, he, hother, hjobs⟩ := patchThen_early w k fn status
  generalize patchThen w k fn (.early status) = v at he hother hjobs
  rcases hjobs with hjobs | ⟨hpend, queued, hjobs, hq⟩
  · refine ⟨⟨?_, ?_, fun started k' o fn' after hmem => ?_⟩, fun k' hk' => .inr (hjobs ▸ hk')⟩
    · rw [hjobs, he]
      exact h.jobs
    · rw [hjobs]
      exact h.targets
    · rw [hjobs] at hmem
      have hne : k ≠ k' := by
        rintro rfl
        exact hk (mem_targets hmem rfl)
      rw [hother k' hne]
      exact h.queued started k' o fn' after hmem
  · have htargets : v.jobs.filterMap Job.target = w.jobs.filterMap Job.target ++ [k] := by
      rw [hjobs, filterMap_append]
      rfl
    refine ⟨⟨fun j hj => ?_, ?_, fun started k' o fn' after hmem => ?_⟩, fun k' hk' => ?_⟩
    · rw [hjobs] at hj
      rw [he]
      rcases mem_append.1 hj with hj | hj
      · exact h.jobs j hj
      · rw [mem_singleton.1 hj]
        exact decide_eq_true rfl
    · rw [htargets, nodup_append]
      refine ⟨h.targets, nodup_singleton k, ?_⟩
      rintro a ha b hb rfl
      rw [mem_singleton.1 hb] at ha
      exact hk ha
    · rw [hjobs] at hmem
      rw [hpend]
      rcases mem_append.1 hmem with hmem | hmem
      · exact h.queued started k' o fn' after hmem
      · obtain ⟨rfl, rfl, rfl, rfl, rfl⟩ := Job.patch.inj (mem_singleton.1 hmem)
        obtain ⟨h1, h2⟩ := hq o rfl
        exact ⟨h1, o, h2⟩
    · rw [htargets] at hk'
      rcases mem_append.1 hk' with hk' | hk'
      · exact .inr hk'
      · exact .inl (mem_singleton.1 hk')

/-! ## The queue moves -/

theorem fresh_of_receives (h : j.receives epoch = true) : j.stale epoch = false := by
  cases j with
  | patch started k queued fn after =>
    cases after with
    | early =>
      have hst : started = epoch := of_decide_eq_true h
      exact decide_eq_false (not_not.2 hst)
    | _ => cases h
  | patched => rfl
  | _ => cases h

/-- A patch that runs is about its target only. -/
theorem touches_of_receives (h : j.receives epoch = true) (hk : j.target ≠ some k) : j.touches k = false := by
  cases j with
  | patch =>
    refine decide_eq_false fun he => hk ?_
    rw [← he]
    rfl
  | patched => rfl
  | _ => cases h

/-- `openDb` resolves for a patch: nothing has happened yet. -/
theorem receiving_openNext (h : Receiving w) :
    (openNext w).jobs = w.jobs ∧ (openNext w).q = w.q ∧ (openNext w).epoch = w.epoch ∧
      (openNext w).msgs = w.msgs ∧ (openNext w).byChat = w.byChat := by
  obtain ⟨txq, he, hjobs, -⟩ := openNext_fresh fun t ht =>
    fresh_of_receives (h.jobs t.job (mem_map_of_mem ht))
  rw [he]
  exact ⟨hjobs, rfl, rfl, rfl, rfl⟩

theorem Receiving.of_eq (h : Receiving w) (hj : v.jobs = w.jobs) (he : v.epoch = w.epoch)
    (hq : v.q.pending = w.q.pending) : Receiving v := by
  refine ⟨?_, ?_, ?_⟩
  · rw [hj, he]
    exact h.jobs
  · rw [hj]
    exact h.targets
  · rw [hj, hq]
    exact h.queued

theorem receiving_advance (h : Receiving w) :
    Receiving (advance w) ∧ (advance w).eff = w.eff ∧ (advance w).byChat = w.byChat := by
  have hhead : ∀ {t later}, w.txq = t :: later → t.job.receives w.epoch = true := by
    intro t later ht
    exact h.jobs t.job (by rw [World.jobs, ht]; exact mem_cons_self)
  have hr := ran_advance w
  generalize advance w = v at hr ⊢
  cases hr with
  | idle => exact ⟨h, rfl, rfl⟩
  | patch tid started k queued fn after c later ht =>
    have hjobs : w.jobs = .patch started k queued fn after :: later.map (·.job) := by
      rw [World.jobs, ht]
      rfl
    have htargets := h.targets
    rw [hjobs] at htargets
    obtain ⟨hout, hnodup⟩ := nodup_cons.1 htargets
    have hkey : ∀ o, queued = some o → o.key = k ∧ ∃ o', w.q.pending.get k = some (.add o') := by
      rintro o rfl
      exact h.queued started k o fn after (by rw [hjobs]; exact mem_cons_self)
    have hapart : ∀ t ∈ later, t.job.touches k = false := by
      intro t htl
      have hmem : t.job ∈ later.map (·.job) := mem_map_of_mem htl
      refine touches_of_receives (h.jobs t.job (by rw [hjobs]; exact mem_cons_of_mem _ hmem)) fun ht => ?_
      exact hout (mem_targets hmem ht)
    have hsafe : PatchSafe w k queued later := by
      intro _ hsome
      obtain ⟨o, ho⟩ := Option.isSome_iff_exists.1 hsome
      obtain ⟨-, o', hadd⟩ := hkey o ho
      rwa [hadd]
    have heff := eff_patchRequests ht (fun o ho => (hkey o ho).1) hsafe
    obtain ⟨msgs, he, -⟩ := patchRequests_eq w tid k queued fn after later
    rw [he] at heff ⊢
    refine ⟨⟨fun j hj => ?_, hnodup, fun started' k' o fn' after' hmem => ?_⟩, heff, rfl⟩
    · rcases mem_cons.1 hj with rfl | hj
      · have hrec := hhead ht
        cases after with
        | early => rfl
        | _ => cases hrec
      · exact h.jobs j (by rw [hjobs]; exact mem_cons_of_mem _ hj)
    · -- the other patches are about other messages
      have hmem : Job.patch started' k' (some o) fn' after' ∈ later.map (·.job) :=
        (mem_cons.1 hmem).resolve_left (fun he => by cases he)
      have hne : k ≠ k' := by
        rintro rfl
        exact hout (mem_targets hmem rfl)
      have hold := h.queued started' k' o fn' after' (by rw [hjobs]; exact mem_cons_of_mem _ hmem)
      split
      · rwa [Table.get_erase, if_neg hne]
      · exact hold
  | patched tid k found after c later ht =>
    have hrec := hhead ht
    cases after with
    | early s =>
      have hjobs : w.jobs = .patched k found (.early s) :: later.map (·.job) := by
        rw [World.jobs, ht]
        rfl
      obtain ⟨t, he⟩ := afterPatch_early (w.popped later) k found s
      rw [he]
      have hbase : { w.popped later with earlyReceipts := t }.base = w.base :=
        base_pop ht (fun _ _ => rfl) rfl rfl
      have htargets := h.targets
      rw [hjobs] at htargets
      refine ⟨⟨fun j hj => ?_, htargets, fun started k' o fn after hmem => ?_⟩, ?_, rfl⟩
      · exact h.jobs j (by rw [hjobs]; exact mem_cons_of_mem _ hj)
      · exact h.queued started k' o fn after (by rw [hjobs]; exact mem_cons_of_mem _ hmem)
      · rw [World.eff, World.eff, hbase]
        rfl
    | _ => cases hrec
  | _ => cases hhead (by assumption)

/-- The patches run to their end: the history stays what it was with them outstanding. -/
theorem receiving_run (h : Receiving w) (hes : ∀ e ∈ es, e = .openNext ∨ e = .advance) :
    Receiving (w.run es) ∧ (w.run es).eff = w.eff ∧ (w.run es).byChat = w.byChat := by
  induction es generalizing w with
  | nil => exact ⟨h, rfl, rfl⟩
  | cons e es ih =>
    have hstep : Receiving (w.step e) ∧ (w.step e).eff = w.eff ∧ (w.step e).byChat = w.byChat := by
      rcases hes e mem_cons_self with rfl | rfl
      · obtain ⟨hj, hq, he, hm, hb⟩ := receiving_openNext h
        have hbase : (openNext w).base = w.base := by rw [World.base, World.base, hj, hm]
        refine ⟨h.of_eq hj he (by rw [World.step, hq]), ?_, hb⟩
        rw [World.step, World.eff, World.eff, hq, hbase]
      · exact receiving_advance h
    obtain ⟨h1, h2, h3⟩ := hstep
    obtain ⟨h4, h5, h6⟩ := ih h1 fun e he => hes e (mem_cons_of_mem _ he)
    exact ⟨h4, h5.trans h2, h6.trans h3⟩

/-! ## One call -/

theorem eff_patchThen_early (w : World) {k₀ : Key} (hne : k₀ ≠ k) (fn : Patch) (status : MessageStatus) :
    (patchThen w k₀ fn (.early status)).eff k = w.eff k := by
  obtain ⟨-, hm, -, hother, hjobs⟩ := patchThen_early w k₀ fn status
  refine eff_congr (hother k hne) ?_
  rcases hjobs with hjobs | ⟨-, queued, hjobs, -⟩
  · rw [World.base, World.base, hjobs, hm]
  · rw [World.base, World.base, hjobs, hm, jobsEff_append]
    exact jobsEff_inert fun j hj => by
      rw [mem_singleton.1 hj]
      exact decide_eq_false hne

/-- The patches for the messages that are not resident. -/
theorem receiving_fold (jid : Jid) (status : MessageStatus) (missing : List MsgId) (hn : missing.Nodup)
    (h : Receiving w) (hout : ∀ id ∈ missing, (⟨jid, id⟩ : Key) ∉ w.jobs.filterMap Job.target) :
    let v := missing.foldl (fun w id => patchThen w ⟨jid, id⟩ (.receipt status) (.early status)) w
    Receiving v ∧ v.byChat = w.byChat ∧ ∀ k : Key, ¬ (k.chatJid = jid ∧ k.id ∈ missing) → v.eff k = w.eff k := by
  induction missing generalizing w with
  | nil => exact ⟨h, rfl, fun _ _ => rfl⟩
  | cons id missing ih =>
    obtain ⟨hid, hn⟩ := nodup_cons.1 hn
    obtain ⟨hrec, htargets⟩ := receiving_patchThen h (hout id mem_cons_self) (.receipt status) status
    obtain ⟨hb, -⟩ := patchThen_early w ⟨jid, id⟩ (.receipt status) status
    have hout' : ∀ i ∈ missing, (⟨jid, i⟩ : Key) ∉
        (patchThen w ⟨jid, id⟩ (.receipt status) (.early status)).jobs.filterMap Job.target := by
      intro i hi hmem
      rcases htargets _ hmem with heq | hold
      · have heq : i = id := congrArg Key.id heq
        exact hid (heq ▸ hi)
      · exact hout i (mem_cons_of_mem _ hi) hold
    obtain ⟨h1, h2, h3⟩ := ih hn hrec hout'
    refine ⟨h1, h2.trans hb, fun k hk => ?_⟩
    have hne : (⟨jid, id⟩ : Key) ≠ k := by
      rintro rfl
      exact hk ⟨rfl, mem_cons_self⟩
    have hk' : ¬ (k.chatJid = jid ∧ k.id ∈ missing) := fun hk' => hk ⟨hk'.1, mem_cons_of_mem _ hk'.2⟩
    exact (h3 k hk').trans (eff_patchThen_early w hne _ status)

/-- What a loop writes comes from a message of its list. -/
theorem Sweeps.source {R : UiMessage → UiMessage → Prop} {arr arr' written : List Obj} {o : Obj}
    (h : Sweeps R arr arr' written) (ho : o ∈ written) : ∃ x ∈ arr, R x.msg o.msg := by
  induction h with
  | nil => cases ho
  | keep x _ ih =>
    obtain ⟨y, hy, hr⟩ := ih ho
    exact ⟨y, mem_cons_of_mem _ hy, hr⟩
  | write x o' hr _ ih =>
    rcases mem_cons.1 ho with rfl | ho
    · exact ⟨x, mem_cons_self, hr⟩
    · obtain ⟨y, hy, hr⟩ := ih ho
      exact ⟨y, mem_cons_of_mem _ hy, hr⟩

theorem hasId_of_keys {arr arr' : List Obj} (h : arr'.map Obj.key = arr.map Obj.key) (id : MsgId) :
    hasId arr' id = hasId arr id := by
  have hany : ∀ l : List Obj, hasId l id = (l.map Obj.key).any (fun k => k.id = id) := by
    intro l
    rw [any_map]
    rfl
  rw [hany, hany, h]

/-- **A receipt** with nothing outstanding: it starts patches for different messages, keeps every message where it
is, and changes only those that it names. -/
theorem applyReceipt_alone (ht : w.txq = []) (hwf : w.Wf) (jid : Jid) (ids : List MsgId) (status : MessageStatus) :
    Receiving (applyReceipt w jid ids status) ∧
      (∀ j id, hasId (messagesFor (applyReceipt w jid ids status) j) id = hasId (messagesFor w j) id) ∧
      ∀ k : Key, ¬ (k.chatJid = jid ∧ k.id ∈ ids) → (applyReceipt w jid ids status).eff k = w.eff k := by
  have hsw := sweeps_upgrade status ids (messagesFor w jid) w.nextRef
  obtain ⟨hnodup, hmissing⟩ := missing_of_sweep status (messagesFor w jid) (idSet ids) w.nextRef (nodup_idSet ids)
  have hkeys := hsw.map_key fun m m' hm => (Patch.apply_key hm.2).1
  unfold applyReceipt
  dsimp only
  generalize sweep (upgrade status) (idSet ids) w.nextRef (messagesFor w jid) = r at *
  generalize hu : ({ w with
    q := persistAll w.q r.written
    nextRef := r.ref
    byChat := if r.written.isEmpty then w.byChat else Function.update w.byChat jid (some r.arr) } : World) = u
  have htu : u.txq = [] := by rwa [← hu]
  have hjobs : u.jobs = [] := by rw [World.jobs, htu]; rfl
  obtain ⟨h1, h2, h3⟩ := receiving_fold jid status r.state hnodup (receiving_nil htu) (by rw [hjobs]; simp)
  refine ⟨h1, fun j id => ?_, fun k hk => ?_⟩
  · have hlist : messagesFor u j = if j = jid then r.arr else messagesFor w j := by
      rw [← hu]
      by_cases hnil : r.written = []
      · have heq : r.arr = messagesFor w jid := by
          rw [hnil] at hsw
          exact hsw.eq_of_nil
        simp only [messagesFor, hnil, isEmpty_nil, if_true]
        split
        · rename_i hj
          rw [heq, hj]
          rfl
        · rfl
      · refine Eq.trans ?_ (messagesFor_update w.byChat (some r.arr))
        simp [messagesFor, hnil]
    rw [messagesFor, h2, ← messagesFor, hlist]
    split
    · rename_i hj
      rw [hasId_of_keys hkeys, hj]
    · rfl
  · rw [h3 k fun hk' => hk ⟨hk'.1, mem_idSet.1 ((hmissing k.id).1 hk'.2).1⟩]
    refine eff_persistAll_of_ne (by rw [← hu]) (by rw [← hu]; rfl) fun o ho he => hk ?_
    obtain ⟨x, hx, hnamed, happly⟩ := hsw.source ho
    have hkey : x.key = k := ((Patch.apply_key happly).1).symm.trans he
    rw [← hkey]
    exact ⟨(hwf jid).chat x hx, hnamed⟩

/-! ## Ranks -/

/-- What `persistMessage` asks of a message with a real id, apart from its status. -/
def writable (m : UiMessage) : Bool := m.chatJid ≠ "" && !isBlankMessage m

/-- The message after a receipt. -/
def raise (status : MessageStatus) (m : UiMessage) : UiMessage := ((Patch.receipt status).apply m).getD m

theorem apply_receipt (status : MessageStatus) (m : UiMessage) : (Patch.receipt status).apply m =
    if m.rank < status.rank then some { m with status := some status } else none := rfl

theorem rank_raise (status : MessageStatus) (m : UiMessage) : (raise status m).rank = max m.rank status.rank := by
  rw [raise, apply_receipt]
  split
  · rename_i hlt
    exact (max_eq_right hlt.le).symm
  · rename_i hle
    exact (max_eq_left (not_lt.1 hle)).symm

/-- Only the status changes. -/
theorem raise_eq (status : MessageStatus) (m : UiMessage) :
    raise status m = { m with status := (raise status m).status } := by
  rw [raise, apply_receipt]
  split <;> rfl

theorem writable_raise (status : MessageStatus) (m : UiMessage) : writable (raise status m) = writable m := by
  rw [raise_eq]
  rfl

/-- A message whose status was raised is persisted if it is writable. -/
theorem persistable_raised {m' : UiMessage} (h : (Patch.receipt status).apply m = some m') (hid : m.id ≠ "")
    (htmp : isTmp m.id = false) : persistable m' = writable m := by
  rw [apply_receipt] at h
  split at h
  · rename_i hlt
    obtain rfl := Option.some.inj h
    have hstatus : status ≠ .sending := by
      rintro rfl
      exact absurd hlt (Nat.not_lt_zero _)
    simp [persistable, writable, hid, htmp, hstatus, isBlankMessage]
  · cases h

/-! ## Every call -/

/-- Receipts for messages of a chat, each of which has settled before the next one comes. -/
inductive Acknowledged (jid : Jid) : World → List (List MsgId × MessageStatus) → World → Prop
  | nil (w : World) : Acknowledged jid w [] w
  | cons {w v : World} (ids : List MsgId) (status : MessageStatus) (calls : List (List MsgId × MessageStatus))
      (es : List Step) (hes : ∀ e ∈ es, e = .openNext ∨ e = .advance)
      (ht : ((applyReceipt w jid ids status).run es).txq = [])
      (h : Acknowledged jid ((applyReceipt w jid ids status).run es) calls v) :
      Acknowledged jid w ((ids, status) :: calls) v

theorem unattended_of_receives (h : j.receives epoch = true) : j.unattended = true := by
  cases j with
  | patch started k queued fn after =>
    cases after with
    | early => rfl
    | _ => cases h
  | patched k found after =>
    cases after with
    | early => rfl
    | _ => cases h
  | _ => cases h

/-- A call and its patches. -/
theorem settled_call (jid : Jid) (ids : List MsgId) (status : MessageStatus) (hwf : w.Wf)
    (ht : w.txq = []) (hes : ∀ e ∈ es, e = .openNext ∨ e = .advance) :
    ((applyReceipt w jid ids status).run es).Wf ∧
      (∀ k : Key, k.id ≠ "" → k.chatJid = jid → k.id ∈ ids →
        Updated (.receipt status) none k w ((applyReceipt w jid ids status).run es)) ∧
      (∀ j id, hasId (messagesFor ((applyReceipt w jid ids status).run es) j) id = hasId (messagesFor w j) id) ∧
      ∀ k : Key, ¬ (k.chatJid = jid ∧ k.id ∈ ids) →
        ((applyReceipt w jid ids status).run es).eff k = w.eff k := by
  obtain ⟨hrec, hres, hother⟩ := applyReceipt_alone ht hwf jid ids status
  obtain ⟨-, hwf', hspec⟩ := applyReceipt_spec hwf jid ids status
  obtain ⟨-, heff, hb⟩ := receiving_run hrec hes
  have hlists : ∀ j, messagesFor ((applyReceipt w jid ids status).run es) j =
      messagesFor (applyReceipt w jid ids status) j := fun j => by rw [messagesFor, hb]; rfl
  refine ⟨fun j => ?_, fun k hid hj hnamed => ?_, fun j id => ?_, fun k hk => ?_⟩
  · rw [hlists]
    exact hwf' j
  · have hk := hspec k hid
    rw [if_pos ⟨hj, hnamed⟩] at hk
    exact hk.then_slot (by rw [World.slot, World.slot, hlists, heff])
  · rw [hlists]
    exact hres j id
  · rw [heff]
    exact hother k hk

theorem acknowledged_exists (jid : Jid) (hwf : w.Wf) (ht : w.txq = [])
    (calls : List (List MsgId × MessageStatus)) : ∃ v, Acknowledged jid w calls v := by
  induction calls generalizing w with
  | nil => exact ⟨w, .nil w⟩
  | cons c calls ih =>
    obtain ⟨hrec, -, -⟩ := applyReceipt_alone ht hwf jid c.1 c.2
    obtain ⟨es, hes, hq⟩ := moves_settle (applyReceipt w jid c.1 c.2) fun t htm =>
      unattended_of_receives (hrec.jobs t.job (mem_map_of_mem htm))
    obtain ⟨hwf', -⟩ := settled_call jid c.1 c.2 hwf ht hes
    obtain ⟨v, hv⟩ := ih hwf' hq
    exact ⟨v, .cons c.1 c.2 calls es hes hq hv⟩

/-- A message that is not named by any call stays as it is. -/
theorem Acknowledged.other {calls : List (List MsgId × MessageStatus)} (h : Acknowledged jid w calls v)
    (hwf : w.Wf) (ht : w.txq = []) (hk : ∀ c ∈ calls, ¬ (k.chatJid = jid ∧ k.id ∈ c.1)) : v.eff k = w.eff k := by
  induction h with
  | nil => rfl
  | cons ids status calls es hes hq _ ih =>
    obtain ⟨hwf', -, -, hother⟩ := settled_call jid ids status hwf ht hes
    rw [ih hwf' hq fun c hc => hk c (mem_cons_of_mem _ hc)]
    exact hother k (hk (ids, status) mem_cons_self)

/-- Nothing is outstanding, the message is in the history, and its resident copy is that record. -/
structure Known (k : Key) (m : UiMessage) (w : World) : Prop where
  wf : w.Wf
  txq : w.txq = []
  eff : w.eff k = some m
  copy : ∀ o, findId (messagesFor w k.chatJid) k.id = some o → o.msg = m

/-- **One receipt** raises the message, if its resident copy can be written. -/
theorem Known.call {ids : List MsgId} (h : Known k m w) (hid : k.id ≠ "")
    (htmp : isTmp k.id = false) (hnamed : k.id ∈ ids)
    (hw : hasId (messagesFor w k.chatJid) k.id = true → writable m = true)
    (hes : ∀ e ∈ es, e = .openNext ∨ e = .advance)
    (ht : ((applyReceipt w k.chatJid ids status).run es).txq = []) :
    Known k (raise status m) ((applyReceipt w k.chatJid ids status).run es) := by
  obtain ⟨hwf, hspec, -, -⟩ := settled_call k.chatJid ids status h.wf h.txq hes
  have hspec := hspec k hid rfl hnamed
  have hold : (w.slot k).stored = some m := h.eff
  cases hspec with
  | resident x o hx ho hwr =>
    obtain rfl : x.msg = m := h.copy x hx
    have hraise : raise status x.msg = o.msg := by rw [raise, ho, Option.getD_some]
    have hxid : x.msg.id = k.id := findId_id hx
    have hpers : persistable o.msg = true := by
      rw [persistable_raised ho (hxid ▸ hid) (hxid ▸ htmp)]
      exact hw (by rw [hasId_eq, ← slot_resident, hx]; rfl)
    refine ⟨hwf, ht, ?_, fun y hy => ?_⟩
    · exact hwr.1.trans (by rw [putEff, if_pos hpers, hraise])
    · rcases hwr.2 with hr | hr
      · rw [← Option.some.inj (hr.symm.trans hy), hraise]
      · cases hr.symm.trans hy
  | unchanged x hx ho hk =>
    obtain rfl : x.msg = m := h.copy x hx
    have hraise : raise status x.msg = x.msg := by rw [raise, ho, Option.getD_none]
    refine ⟨hwf, ht, ?_, fun y hy => ?_⟩
    · exact hk.1.trans (by rw [hold, hraise])
    · rcases hk.2 with hr | hr
      · rw [← Option.some.inj ((hr.trans hx).symm.trans hy), hraise]
      · cases hr.symm.trans hy
  | stored hx hs =>
    refine ⟨hwf, ht, ?_, fun y hy => ?_⟩
    · refine (congrArg Slot.stored hs).trans ?_
      rw [h.eff]
      cases ha : (Patch.receipt status).apply m <;> simp [patchedEff, raise, ha]
    · cases (congrArg Slot.resident hs).symm.trans hy
  | tombstone f o hx he hf => cases hf

/-- The message is in the history, and its resident copy is not written. -/
structure Unwritten (k : Key) (m : UiMessage) (w : World) : Prop where
  wf : w.Wf
  txq : w.txq = []
  eff : w.eff k = some m
  copy : ∃ o, findId (messagesFor w k.chatJid) k.id = some o ∧ writable o.msg = false

/-- No receipt gets through to the history then. -/
theorem Unwritten.call {ids : List MsgId} (h : Unwritten k m w) (hid : k.id ≠ "")
    (htmp : isTmp k.id = false) (hnamed : k.id ∈ ids) (hes : ∀ e ∈ es, e = .openNext ∨ e = .advance)
    (ht : ((applyReceipt w k.chatJid ids status).run es).txq = []) :
    Unwritten k m ((applyReceipt w k.chatJid ids status).run es) := by
  obtain ⟨hwf, hspec, hstays, -⟩ := settled_call k.chatJid ids status h.wf h.txq hes
  obtain ⟨y, hy, hblank⟩ := h.copy
  have hspec := hspec k hid rfl hnamed
  have hstays := hstays k.chatJid k.id
  generalize (applyReceipt w k.chatJid ids status).run es = u at hwf hspec hstays ht
  have hsome : (u.slot k).resident ≠ none := by
    rw [hasId_eq, hasId_eq, hy] at hstays
    intro hnone
    rw [slot_resident] at hnone
    rw [hnone] at hstays
    cases hstays
  have hold : (w.slot k).stored = some m := h.eff
  cases hspec with
  | resident x o hx ho hwr =>
    obtain rfl : x = y := Option.some.inj (hx.symm.trans hy)
    have hxid : x.msg.id = k.id := findId_id hx
    have hpers : persistable o.msg = false := by
      rwa [persistable_raised ho (hxid ▸ hid) (hxid ▸ htmp)]
    have hraise : raise status x.msg = o.msg := by rw [raise, ho, Option.getD_some]
    refine ⟨hwf, ht, ?_, o, ?_, ?_⟩
    · exact hwr.1.trans (by rw [putEff, if_neg (by rw [hpers]; exact Bool.false_ne_true), hold])
    · exact hwr.2.resolve_right hsome
    · rwa [← hraise, writable_raise]
  | unchanged x hx ho hk =>
    obtain rfl : x = y := Option.some.inj (hx.symm.trans hy)
    exact ⟨hwf, ht, hk.1.trans hold, x, (hk.2.resolve_right hsome).trans hx, hblank⟩
  | stored hx =>
    have hnone : some y = none := hy.symm.trans hx
    cases hnone
  | tombstone f o hx he hf => cases hf

/-! ## The join -/

/-- The highest of a rank and the ranks of the calls. -/
def joined (n : ℕ) (calls : List (List MsgId × MessageStatus)) : ℕ := (calls.map (·.2.rank)).foldl max n

variable {calls : List (List MsgId × MessageStatus)} {n : ℕ}

theorem joined_cons (n : ℕ) (c : List MsgId × MessageStatus) (calls : List (List MsgId × MessageStatus)) :
    joined n (c :: calls) = joined (max n c.2.rank) calls := rfl

theorem le_joined (n : ℕ) (calls : List (List MsgId × MessageStatus)) : n ≤ joined n calls := by
  induction calls generalizing n with
  | nil => exact le_rfl
  | cons c calls ih => exact (le_max_left n c.2.rank).trans (ih _)

/-- The calls raise nothing if and only if each of them does not. -/
theorem joined_eq_iff : joined n calls = n ↔ ∀ c ∈ calls, c.2.rank ≤ n := by
  induction calls generalizing n with
  | nil => exact ⟨fun _ c hc => absurd hc not_mem_nil, fun _ => rfl⟩
  | cons c calls ih =>
    rw [joined_cons]
    constructor
    · intro h
      have hmax : max n c.2.rank = n := le_antisymm ((le_joined _ calls).trans h.le) (le_max_left n c.2.rank)
      rw [hmax] at h
      intro d hd
      rcases mem_cons.1 hd with rfl | hd
      · exact hmax ▸ le_max_right n d.2.rank
      · exact ih.1 h d hd
    · intro h
      rw [max_eq_left (h c mem_cons_self)]
      exact ih.2 fun d hd => h d (mem_cons_of_mem _ hd)

/-- The calls, on a message whose resident copy, if any, can be written. -/
theorem Known.acknowledged (h : Known k m w) (hid : k.id ≠ "") (htmp : isTmp k.id = false)
    (hw : hasId (messagesFor w k.chatJid) k.id = true → writable m = true)
    (hc : ∀ c ∈ calls, k.id ∈ c.1) (hv : Acknowledged k.chatJid w calls v) :
    ∃ r, v.eff k = some r ∧ r.rank = joined m.rank calls ∧ r = { m with status := r.status } := by
  induction hv generalizing m with
  | nil => exact ⟨m, h.eff, rfl, rfl⟩
  | cons ids status calls es hes ht _ ih =>
    obtain ⟨-, -, hstays, -⟩ := settled_call k.chatJid ids status h.wf h.txq hes
    have hcall := h.call hid htmp (hc (ids, status) mem_cons_self) hw hes ht
    obtain ⟨r, hr, hrank, heq⟩ := ih hcall
      (fun hres => (writable_raise status m).trans (hw ((hstays _ _).symm.trans hres)))
      fun c hcm => hc c (mem_cons_of_mem _ hcm)
    refine ⟨r, hr, ?_, ?_⟩
    · rw [hrank, joined_cons, rank_raise]
    · rw [heq, raise_eq status m]

theorem Unwritten.acknowledged (h : Unwritten k m w) (hid : k.id ≠ "") (htmp : isTmp k.id = false)
    (hc : ∀ c ∈ calls, k.id ∈ c.1) (hv : Acknowledged k.chatJid w calls v) : v.eff k = some m := by
  induction hv with
  | nil => exact h.eff
  | cons ids status calls es hes ht _ ih =>
    exact ih (h.call hid htmp (hc (ids, status) mem_cons_self) hes ht)
      fun c hcm => hc c (mem_cons_of_mem _ hcm)

/-- **Receipts form a join.** After any receipts that name a message its rank is the highest of its own and theirs,
and nothing else has changed, if and only if it is not resident, or can be written, or no receipt raises it. -/
theorem receipts_join_iff (w : World) (hwf : w.Wf) (ht : w.txq = []) (k : Key) (hid : k.id ≠ "")
    (htmp : isTmp k.id = false) (m : UiMessage) (hm : w.eff k = some m)
    (hcopy : ∀ o, findId (messagesFor w k.chatJid) k.id = some o → o.msg = m)
    (calls : List (List MsgId × MessageStatus)) (hc : ∀ c ∈ calls, k.id ∈ c.1) :
    (∃ v, Acknowledged k.chatJid w calls v) ∧
    ((∀ v, Acknowledged k.chatJid w calls v →
        (∃ r, v.eff k = some r ∧ r.rank = joined m.rank calls ∧ r = { m with status := r.status }) ∧
        ∀ k' : Key, (∀ c ∈ calls, ¬ (k'.chatJid = k.chatJid ∧ k'.id ∈ c.1)) → v.eff k' = w.eff k') ↔
      (hasId (messagesFor w k.chatJid) k.id = true → writable m = false → ∀ c ∈ calls, c.2.rank ≤ m.rank)) := by
  obtain ⟨u, hu⟩ := acknowledged_exists k.chatJid hwf ht calls
  refine ⟨⟨u, hu⟩, ?_⟩
  by_cases hcase : hasId (messagesFor w k.chatJid) k.id = true ∧ writable m = false
  · -- the history keeps the record as it was
    obtain ⟨hres, hblank⟩ := hcase
    have hfrozen : Unwritten k m w := by
      rw [hasId_eq] at hres
      obtain ⟨o, ho⟩ := Option.isSome_iff_exists.1 hres
      exact ⟨hwf, ht, hm, o, ho, by rwa [hcopy o ho]⟩
    constructor
    · intro hall _ _
      obtain ⟨⟨r, hr, hrank, -⟩, -⟩ := hall u hu
      rw [hfrozen.acknowledged hid htmp hc hu] at hr
      obtain rfl := Option.some.inj hr
      exact joined_eq_iff.1 hrank.symm
    · intro hle v hv
      refine ⟨⟨m, hfrozen.acknowledged hid htmp hc hv, ?_, rfl⟩, fun k' hk' => hv.other hwf ht hk'⟩
      exact (joined_eq_iff.2 (hle hres hblank)).symm
  · have hw : hasId (messagesFor w k.chatJid) k.id = true → writable m = true := by
      intro hres
      by_contra hno
      exact hcase ⟨hres, Bool.not_eq_true _ ▸ hno⟩
    refine ⟨fun _ hres hblank => absurd ⟨hres, hblank⟩ hcase, fun _ v hv => ⟨?_, fun k' hk' => hv.other hwf ht hk'⟩⟩
    exact Known.acknowledged ⟨hwf, ht, hm, hcopy⟩ hid htmp hw hc hv

/-- A message that was trimmed, with an insert queued: a late receipt does not lower it. -/
theorem receipts_join_iff_late :
    let w : World := { World.init with q := { World.init.q with pending := Table.empty.set (.add ⟨0, msgX⟩) } }
    ∃ v, Acknowledged chatA w [(["X"], .read), (["Z", "X"], .delivered)] v ∧
      ∃ r, v.eff msgX.key = some r ∧ r.rank = 3 := by
  intro w
  have hwf : w.Wf := fun _ => .nil
  have hm : w.eff msgX.key = some msgX := by decide +kernel
  have hcopy : ∀ o, findId (messagesFor w msgX.key.chatJid) msgX.key.id = some o → o.msg = msgX := by
    intro o ho
    cases ho
  obtain ⟨⟨v, hv⟩, hiff⟩ := receipts_join_iff w hwf rfl msgX.key (by decide) (by decide) msgX hm hcopy
    [(["X"], .read), (["Z", "X"], .delivered)] (by decide)
  obtain ⟨⟨r, hr, hrank, -⟩, -⟩ := hiff.2 (fun hres => by cases hres) v hv
  exact ⟨v, hv, r, hr, hrank⟩

/-- A stored message is edited to nothing and paged in again, and then it is read. -/
def readBlank : List Step :=
  [.addMessage { msgX with kind := .other }, .openNext, .advance, .flushPendingWrites, .openNext, .advance,
    .trimChat chatA 0, .applyEdit chatA "X" none 7, .openNext, .advance, .advance, .loadOlder chatA 50, .openNext,
    .advance]

/-- What is left of it. -/
def blankedX : UiMessage := { msgX with kind := .other, text := none, editedAt := some 7, unread := some true }

/-- The receipt for a message that cannot be written is lost. -/
theorem receipt_not_stored :
    ¬ ∀ (w : World) (k : Key) (m : UiMessage) (calls : List (List MsgId × MessageStatus)) (v : World),
      Reachable w → w.txq = [] → k.id ≠ "" → isTmp k.id = false → w.eff k = some m →
      (∀ o, findId (messagesFor w k.chatJid) k.id = some o → o.msg = m) → (∀ c ∈ calls, k.id ∈ c.1) →
      Acknowledged k.chatJid w calls v → ∃ r, v.eff k = some r ∧ r.rank = joined m.rank calls := by
  intro hall
  have hm : (World.init.run readBlank).eff msgX.key = some blankedX := by decide +kernel
  have hcopy : ∀ o, findId (messagesFor (World.init.run readBlank) chatA) "X" = some o → o.msg = blankedX := by
    have hfind : (findId (messagesFor (World.init.run readBlank) chatA) "X").map (·.msg) = some blankedX := by
      decide +kernel
    intro o ho
    rw [ho] at hfind
    exact Option.some.inj hfind
  -- nothing is left to run after the receipt
  have hidle : (applyReceipt (World.init.run readBlank) chatA ["X"] .read).txq = [] := by decide +kernel
  have hv : Acknowledged chatA (World.init.run readBlank) [(["X"], .read)]
      (applyReceipt (World.init.run readBlank) chatA ["X"] .read) :=
    .cons ["X"] .read [] [] (fun e he => absurd he List.not_mem_nil) hidle (.nil _)
  obtain ⟨r, hr, hrank⟩ := hall _ msgX.key _ _ _ ⟨readBlank, rfl⟩ (by decide +kernel) (by decide) (by decide) hm hcopy
    (by decide) hv
  have hlost : (applyReceipt (World.init.run readBlank) chatA ["X"] .read).eff msgX.key = some blankedX := by
    decide +kernel
  rw [hlost] at hr
  rw [← Option.some.inj hr] at hrank
  exact absurd hrank (by decide)

end Whatsvelte
