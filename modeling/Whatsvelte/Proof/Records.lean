import Whatsvelte.Proof.Copies
import Whatsvelte.Proof.FailedFlush

/-!
# The records of the history

What the store will hold is computed from the stored rows, the transactions that are outstanding and the queue
(`World.eff`). Every record of it is under its own key and is one of the copies that the client holds
(`Holding.recorded`), and a history with more records before these writes has more of them afterwards
(`within_jobsEff`).
-/

namespace Whatsvelte

open Option (elim_some isSome_map isSome_or some_ne_none)
open Function (update update_of_ne update_self)
open List Table

variable {R S : UiMessage → Prop} {H H' : History} {w v : World} {k : Key} {job : Job} {i : MsgId}
variable {ops : Table PendingOp.key} {l : List MsgId} {r : Option UiMessage} {queued : Option Obj}

/-! ## Keys and copies -/

/-- Every record is under its key and has the property. -/
def Recorded (S : UiMessage → Prop) (H : History) : Prop := ∀ k m, H k = some m → m.key = k ∧ S m

theorem recorded_opsEff (hops : ∀ op ∈ ops.rows, op.Holds S) (h : Recorded S H) :
    Recorded S (opsEff ops H) := by
  intro k m hm
  unfold opsEff at hm
  cases hop : ops.get k with
  | none =>
    rw [hop] at hm
    exact h k m hm
  | some op =>
    rw [hop] at hm
    have hkey : op.key = k := get_key hop
    have hold := hops op (Table.get_mem hop)
    cases op with
    | put =>
      obtain rfl := Option.some.inj hm
      exact ⟨hkey, hold⟩
    | add =>
      rcases hr : H k with _ | r
      · rw [elim_some, PendingOp.eff, hr] at hm
        obtain rfl := Option.some.inj hm
        exact ⟨hkey, hold⟩
      · rw [elim_some, PendingOp.eff, hr] at hm
        obtain rfl := Option.some.inj hm
        exact h k _ hr
    | del => exact absurd hm.symm (some_ne_none m)

theorem recorded_update (h : Recorded S H) (hr : ∀ m, r = some m → m.key = k ∧ S m) :
    Recorded S (update H k r) := by
  intro k' m hm
  by_cases hk : k' = k
  · rw [hk, update_self] at hm
    rw [hk]
    exact hr m hm
  · rw [update_of_ne hk] at hm
    exact h k' m hm

theorem recorded_moveEff {l p : Jid} (hS : ∀ m, S m → S (rekey m.chatJid p m)) (h : Recorded S H) :
    Recorded S (moveEff l p H) := by
  intro k m hm
  unfold moveEff at hm
  split at hm
  · rename_i hp
    rcases hl : H ⟨l, k.id⟩ with _ | r
    · rw [hl] at hm
      exact h k m hm
    · rw [hl] at hm
      obtain rfl := Option.some.inj hm
      obtain ⟨hkey, hs⟩ := h _ _ hl
      have hid : r.id = k.id := congrArg Key.id hkey
      have hl : r.chatJid = l := congrArg Key.chatJid hkey
      refine ⟨?_, hl ▸ hS r hs⟩
      rw [rekey_key, hid, ← hp]
  · split at hm
    · exact absurd hm.symm (some_ne_none m)
    · exact h k m hm

theorem recorded_patchEff (hK : ClosedUnder R S) {fn : Patch}
    (hq : ∀ o ∈ queued, o.key = k ∧ S o.msg) (hr : ∀ m, r = some m → m.key = k ∧ S m) {m : UiMessage}
    (hm : patchEff queued fn r = some m) : m.key = k ∧ S m := by
  unfold patchEff at hm
  rcases hp : (r.or (queued.map (·.msg))).bind fn.apply with _ | m'
  · rw [hp] at hm
    exact hr m hm
  · rw [hp] at hm
    obtain rfl := Option.some.inj hm
    obtain ⟨x, hx, hfn⟩ := Option.bind_eq_some_iff.1 hp
    have hold : x.key = k ∧ S x := by
      cases r with
      | some => exact hr x hx
      | none =>
        rw [Option.none_or] at hx
        obtain ⟨o, ho, rfl⟩ := Option.map_eq_some_iff.1 hx
        exact hq o ho
    exact ⟨(Patch.apply_key hfn).1.trans hold.1, (hK.patch fn x m' hfn).2 hold.2⟩

theorem recorded_job (hK : ClosedUnder R S) (hj : job.Holds R S) (hp : job.proper = true) (h : Recorded S H) :
    Recorded S (job.eff H) := by
  cases job with
  | flush => exact recorded_opsEff hj h
  | patch started k queued =>
    refine recorded_update h fun m hm => recorded_patchEff hK (fun o ho => ⟨?_, hj.1 o ho⟩) (h k) hm
    have hall : queued.all (fun m => m.key = k) = true := hp
    rw [Option.mem_def.1 ho] at hall
    exact of_decide_eq_true hall
  | move started l p => exact recorded_moveEff (fun m hm => (hK.rekey m p).2 hm) h
  | clear => exact fun k m hm => absurd hm.symm (some_ne_none m)
  | _ => exact h

theorem recorded_jobsEff (hK : ClosedUnder R S) (js : List Job)
    (hj : ∀ job ∈ js, job.Holds R S ∧ job.proper = true) : ∀ H, Recorded S H → Recorded S (jobsEff js H) := by
  induction js with
  | nil => exact fun H h => h
  | cons job js ih =>
    intro H h
    obtain ⟨hold, hp⟩ := hj job mem_cons_self
    exact ih (fun job hmem => hj job (mem_cons_of_mem _ hmem)) _ (recorded_job hK hold hp h)

/-- **The records of the history** are under their keys and are copies that the client holds. -/
theorem Holding.recorded (hK : ClosedUnder R S) (h : Holding R S w) (hp : ∀ t ∈ w.txq, t.job.proper = true) :
    Recorded S w.base ∧ Recorded S w.eff := by
  have hbase : Recorded S w.base := by
    refine recorded_jobsEff hK w.jobs (fun job hj => ⟨h.jobs job hj, ?_⟩) _ fun k m hm =>
      ⟨get_key hm, h.msgs m (Table.get_mem hm)⟩
    obtain ⟨t, ht, rfl⟩ := mem_map.1 hj
    exact hp t ht
  exact ⟨hbase, recorded_opsEff h.pending hbase⟩

/-! ## More records -/

/-- The second history has a record wherever the first has one. -/
def Within (H H' : History) : Prop := ∀ k, (H k).isSome = true → (H' k).isSome = true

theorem Within.refl (H : History) : Within H H := fun _ h => h

theorem within_opsEff (ops : Table PendingOp.key) (h : Within H H') : Within (opsEff ops H) (opsEff ops H') := by
  intro k hk
  unfold opsEff at hk ⊢
  cases hop : ops.get k with
  | none =>
    rw [hop] at hk
    exact h k hk
  | some op =>
    rw [hop] at hk
    cases op with
    | put => rfl
    | add =>
      rw [elim_some, PendingOp.eff]
      rcases H' k with _ | r <;> rfl
    | del => cases hk

theorem isSome_patchEff {fn : Patch} {r r' : Option UiMessage}
    (h : r.isSome = true → r'.isSome = true) (hp : (patchEff queued fn r).isSome = true) :
    (patchEff queued fn r').isSome = true := by
  unfold patchEff at hp ⊢
  rw [isSome_or, Bool.or_eq_true] at hp ⊢
  cases r' with
  | some => exact .inr rfl
  | none =>
    have hr : r = none := by
      rw [← Option.not_isSome_iff_eq_none]
      exact fun hs => absurd (h hs) (by simp)
    rwa [hr] at hp

theorem within_job (job : Job) (h : Within H H') : Within (job.eff H) (job.eff H') := by
  cases job with
  | flush started ops => exact within_opsEff ops h
  | patch started k queued fn =>
    intro k' hk
    show (update H' k _ k').isSome = true
    have hk : (update H k (patchEff queued fn (H k)) k').isSome = true := hk
    by_cases hkk : k' = k
    · rw [hkk, update_self] at hk ⊢
      exact isSome_patchEff (h k) hk
    · rw [update_of_ne hkk] at hk ⊢
      exact h k' hk
  | move started l p =>
    intro k hk
    have hk : (moveEff l p H k).isSome = true := hk
    show (moveEff l p H' k).isSome = true
    unfold moveEff at hk ⊢
    split
    · rename_i hp
      rw [if_pos hp, isSome_or, Bool.or_eq_true, isSome_map] at hk
      rw [isSome_or, Bool.or_eq_true, isSome_map]
      exact hk.imp (h _) (h k)
    · rename_i hp
      rw [if_neg hp] at hk
      split
      · rename_i hl
        rwa [if_pos hl] at hk
      · rename_i hl
        rw [if_neg hl] at hk
        exact h k hk
  | clear => exact fun k hk => hk
  | _ => exact h

theorem within_jobsEff (js : List Job) : ∀ {H H' : History}, Within H H' → Within (jobsEff js H) (jobsEff js H') := by
  induction js with
  | nil => exact fun h => h
  | cons job js ih => exact fun h => ih (within_job job h)

/-- The writes of a queue without deletes only add records. -/
theorem within_of_no_del (h : ∀ op ∈ ops.rows, ∀ c i, op ≠ .del c i) (H : History) :
    Within H (opsEff ops H) := by
  intro k hk
  unfold opsEff
  cases hop : ops.get k with
  | none => exact hk
  | some op =>
    cases op with
    | put => rfl
    | add =>
      rw [elim_some, PendingOp.eff, isSome_or, hk]
      rfl
    | del c i => exact absurd rfl (h _ (Table.get_mem hop) c i)

/-- The first operations of a queue without deletes leave fewer records than all of them. -/
theorem within_of_sublist {ops sub : Table PendingOp.key} (hsub : ∀ op ∈ sub.rows, op ∈ ops.rows)
    (h : ∀ op ∈ ops.rows, ∀ c i, op ≠ .del c i) (H : History) : Within (opsEff sub H) (opsEff ops H) := by
  intro k hk
  cases hop : sub.get k with
  | none =>
    rw [opsEff, hop] at hk
    exact within_of_no_del h H k hk
  | some op =>
    have hmem := Table.get_of_mem (hsub op (Table.get_mem hop))
    rw [get_key hop] at hmem
    rw [opsEff, hop] at hk
    rwa [opsEff, hmem]

theorem within_eff (hq : v.q.pending = w.q.pending) (hb : Within v.base w.base) : Within v.eff w.eff := by
  unfold World.eff
  rw [hq]
  exact within_opsEff _ hb

/-- A flush that fails loses writes; if no delete is among them, no record comes back. -/
theorem within_flushFails (f : FlushFailure)
    (h : ∀ x ∈ w.failing f, ∀ op ∈ x.2.rows, ∀ c i, op ≠ PendingOp.del c i) :
    Within (flushFails w f).eff w.eff := by
  refine within_eff (flushFails_pending w f) ?_
  have hr := failed_flushFails w f
  generalize flushFails w f = v at hr ⊢
  cases hr with
  | idle => exact .refl _
  | @hit before later _ _ _ ops _ done ht hf hdone hb =>
    have hw : w.base = jobsEff (later.map (·.job)) (opsEff ops (jobsEff (before.map (·.job)) w.msgs.get)) := by
      rw [World.base, World.jobs, ht, map_append, jobsEff_append]
      rfl
    -- nothing was written, or there is nothing before the flush
    have hv : jobsEff (before.map (·.job)) (opsEff done w.msgs.get) =
        opsEff done (jobsEff (before.map (·.job)) w.msgs.get) := by
      rcases hb with rfl | rfl <;> rfl
    show Within (jobsEff ((before ++ later).map (·.job)) (applyOps w.msgs done.rows).get) _
    rw [hw, map_append, jobsEff_append, get_applyOps, hv]
    exact within_jobsEff _ (within_of_sublist (fun _ hop => mem_of_written (hdone ▸ hop)) (h _ hf) _)

theorem within_wipe (w : World) : Within (wipe w).eff w.eff := by
  unfold wipe
  split
  · exact .refl _
  · split
    · exact .refl _
    · refine within_eff rfl fun k hk => ?_
      rw [base_enqueue] at hk
      cases hk

/-! ## Ids -/

/-- The ids that a transaction may write. -/
def Job.ids : Job → List MsgId
  | .flush _ ops => ops.rows.map (·.key.id)
  | .patch _ k _ _ _ => [k.id]
  | _ => []

/-- The ids that the history may hold. -/
def World.ids (w : World) : List MsgId :=
  w.msgs.rows.map (·.id) ++ w.jobs.flatMap Job.ids ++ w.q.pending.rows.map (·.key.id)

/-- The ids of the records are among `l`. -/
def Names (l : List MsgId) (H : History) : Prop := ∀ k, (H k).isSome = true → k.id ∈ l

theorem names_opsEff (h : Names l H) : Names (l ++ ops.rows.map (·.key.id)) (opsEff ops H) := by
  intro k hk
  cases hop : ops.get k with
  | none =>
    rw [opsEff, hop] at hk
    exact mem_append_left _ (h k hk)
  | some op =>
    refine mem_append_right _ (mem_map.2 ⟨op, Table.get_mem hop, ?_⟩)
    rw [get_key hop]

theorem names_job (job : Job) (h : Names l H) : Names (l ++ job.ids) (job.eff H) := by
  have hsame : ∀ H' : History, Names l H' → job.ids = [] → Names (l ++ job.ids) H' := by
    intro H' h' hn
    rwa [hn, append_nil]
  cases job with
  | flush => exact names_opsEff h
  | patch started k queued fn =>
    intro k' hk
    by_cases hkk : k' = k
    · rw [hkk]
      exact mem_append_right _ (mem_singleton_self _)
    · have hk : (update H k (patchEff queued fn (H k)) k').isSome = true := hk
      rw [update_of_ne hkk] at hk
      exact mem_append_left _ (h k' hk)
  | move started l₀ p =>
    refine hsame _ (fun k hk => ?_) rfl
    have hk : (moveEff l₀ p H k).isSome = true := hk
    unfold moveEff at hk
    split at hk
    · rw [isSome_or, Bool.or_eq_true, isSome_map] at hk
      exact hk.elim (h ⟨l₀, k.id⟩) (h k)
    · split at hk
      · cases hk
      · exact h k hk
  | clear => exact hsame _ (fun k hk => by cases hk) rfl
  | _ => exact hsame _ h rfl

theorem names_jobsEff (js : List Job) : ∀ {l : List MsgId} {H : History}, Names l H →
    Names (l ++ js.flatMap Job.ids) (jobsEff js H) := by
  induction js with
  | nil =>
    intro l H h
    rwa [flatMap_nil, append_nil]
  | cons job js ih =>
    intro l H h
    rw [flatMap_cons, ← append_assoc]
    exact ih (names_job job h)

theorem names_base (w : World) : Names (w.msgs.rows.map (·.id) ++ w.jobs.flatMap Job.ids) w.base := by
  refine names_jobsEff w.jobs fun k hk => ?_
  obtain ⟨m, hm⟩ := Option.isSome_iff_exists.1 hk
  refine mem_map.2 ⟨m, Table.get_mem hm, ?_⟩
  exact congrArg Key.id (get_key hm)

theorem mem_ids_of_base (h : (w.base k).isSome = true) : k.id ∈ w.ids := mem_append_left _ (names_base w k h)

theorem mem_ids_of_eff (h : (w.eff k).isSome = true) : k.id ∈ w.ids := names_opsEff (names_base w) k h

end Whatsvelte
