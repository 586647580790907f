import Whatsvelte.Proof.Merge

/-!
# Running the transaction queue

`base_advance_…`: running the transaction at the head of the queue does not change the
history that the queue stands for. Two transactions need a condition.

* `SliceSafe`: a flush that has more than `FLUSH_SLICE` operations goes to the end of the
  queue with the rest of them. That is harmless only if nothing that was queued behind
  it touches one of their keys.
* `PatchSafe`: a patch that saw a queued insert and finds a stored record takes the
  operation out of the queue. That is harmless only if it is still the insert.
-/

namespace Whatsvelte

open Function (update update_apply)
open List Table

variable {w v : World} {k : Key} {later : List Txn} {H : History}
variable {ops : Table PendingOp.key} {id : MsgId} {jobs : List Job}

/-- Whether a job is about the record under `k`: it will write it, or it looks it up. -/
def Job.touches (k : Key) : Job → Bool
  | .flush _ ops => ops.has k
  | .patch _ k' _ _ _ => k' = k
  | .move _ fromJid toJid => k.chatJid = fromJid || k.chatJid = toJid
  | .adopt fresh => fresh.key = k
  | .clear => true
  | _ => false

theorem Job.inert_of_not_touches {job : Job} (h : job.touches k = false) : job.Inert k := by
  intro H
  cases job with
  | flush started ops =>
    have : ops.get k = none := by simpa [Job.touches, Table.has] using h
    simp [Job.eff, opsEff, this]
  | patch started k' =>
    have : k ≠ k' := by rintro rfl; simp [Job.touches] at h
    simp [Job.eff, this]
  | move started fromJid toJid =>
    have : k.chatJid ≠ fromJid ∧ k.chatJid ≠ toJid := by simpa [Job.touches] using h
    simp [Job.eff, moveEff, this.1, this.2]
  | clear => simp [Job.touches] at h
  | _ => rfl

theorem jobsEff_of_inert (h : ∀ job ∈ jobs, job.Inert k) : jobsEff jobs H k = H k := by
  induction jobs generalizing H with
  | nil => rfl
  | cons job jobs ih =>
    rw [jobsEff_cons, ih fun j hj => h j (mem_cons_of_mem _ hj), h job mem_cons_self]

theorem jobsEff_inert (h : ∀ job ∈ jobs, job.touches k = false) :
    jobsEff jobs H k = H k := jobsEff_of_inert fun job hj => Job.inert_of_not_touches (h job hj)

/-! ## Flushing -/

theorem opsEff_take_drop (ops : Table PendingOp.key) (n : ℕ) (H : History) :
    opsEff (ops.drop n) (opsEff (ops.take n) H) = opsEff ops H := by
  funext k
  unfold opsEff
  cases hd : (ops.drop n).get k with
  | none =>
    have : ops.get k = (ops.take n).get k := by rw [ops.get_take_drop n, hd, Option.or_none]
    rw [this]; rfl
  | some op =>
    have ht : (ops.take n).get k = none := get_take_of_drop (by rw [hd]; rfl)
    have : ops.get k = some op := by rw [ops.get_take_drop n, ht, hd]; rfl
    rw [this, ht]; rfl

/-- Two histories agree on the records with one id. No job mixes ids. -/
def AgreeAt (id : MsgId) (H H' : History) : Prop := ∀ k : Key, k.id = id → H k = H' k

theorem Job.eff_agree {H H' : History} (job : Job) (h : AgreeAt id H H') :
    AgreeAt id (job.eff H) (job.eff H') := by
  intro k hk
  cases job with
  | flush => simp only [Job.eff, opsEff, h k hk]
  | patch =>
    simp only [Job.eff, update_apply]
    split
    · rename_i he; subst he; rw [h k hk]
    · exact h k hk
  | move started fromJid => simp only [Job.eff, moveEff, h k hk, h ⟨fromJid, k.id⟩ hk]
  | clear => rfl
  | _ => exact h k hk

theorem jobsEff_agree {H H' : History} (jobs : List Job) (h : AgreeAt id H H') :
    AgreeAt id (jobsEff jobs H) (jobsEff jobs H') := by
  induction jobs generalizing H H' with
  | nil => exact h
  | cons job jobs ih => exact ih (job.eff_agree h)

/-- An operation on keys that a job does not touch may as well come after it. -/
theorem eff_opsEff_comm {job : Job} (h : ∀ op ∈ ops.rows, op.key.id = id → job.touches op.key = false) :
    AgreeAt id (job.eff (opsEff ops H)) (opsEff ops (job.eff H)) := by
  intro k hid
  cases hk : ops.get k with
  | some op =>
    have hok := get_key hk
    have hi := Job.inert_of_not_touches (h op (Table.get_mem hk) (by rwa [hok]))
    rw [hok] at hi
    rw [hi, opsEff, opsEff, hk, hi]
  | none =>
    have hnone : ∀ H : History, opsEff ops H k = H k := by intro H; simp [opsEff, hk]
    rw [hnone]
    cases job with
    | flush => simp only [Job.eff, opsEff, hk]; rfl
    | patch =>
      simp only [Job.eff, update_apply]
      split
      · rename_i he; subst he; rw [hnone]
      · exact hnone H
    | move started fromJid =>
      simp only [Job.eff, moveEff]
      have hfrom : opsEff ops H ⟨fromJid, k.id⟩ = H ⟨fromJid, k.id⟩ := by
        unfold opsEff
        cases hf : ops.get ⟨fromJid, k.id⟩ with
        | none => rfl
        | some op =>
          have hok := get_key hf
          have := h op (Table.get_mem hf) (by rwa [hok])
          rw [hok] at this
          simp [Job.touches] at this
      rw [hfrom, hnone]
    | clear => rfl
    | _ => exact hnone H

theorem jobsEff_opsEff_comm
    (h : ∀ job ∈ jobs, ∀ op ∈ ops.rows, op.key.id = id → job.touches op.key = false) :
    AgreeAt id (jobsEff jobs (opsEff ops H)) (opsEff ops (jobsEff jobs H)) := by
  induction jobs generalizing H with
  | nil => exact fun _ _ => rfl
  | cons job jobs ih =>
    intro k hk
    rw [jobsEff_cons, jobsEff_agree jobs (eff_opsEff_comm (h job mem_cons_self)) k hk,
      ih (fun j hj => h j (mem_cons_of_mem _ hj)) k hk]
    rfl

/-- The operations on one id that a flush keeps for later are not touched by what is
queued behind it. -/
def SliceSafe (id : MsgId) (ops : Table PendingOp.key) (later : List Txn) : Prop :=
  ∀ t ∈ later, ∀ op ∈ (ops.drop FLUSH_SLICE).rows, op.key.id = id → t.job.touches op.key = false

instance (id : MsgId) (ops : Table PendingOp.key) (later : List Txn) :
    Decidable (SliceSafe id ops later) :=
  inferInstanceAs (Decidable (∀ t ∈ later, ∀ op ∈ (ops.drop FLUSH_SLICE).rows, _))

/-- What is left of a flush once a slice has committed. -/
theorem flushSlice_txq (tid : ℕ) {started : ℕ} (ops : Table PendingOp.key) (later : List Txn)
    (he : started = w.epoch) :
    (flushSlice w tid started ops later).msgs = applyOps w.msgs (ops.take FLUSH_SLICE).rows ∧
      ((ops.drop FLUSH_SLICE = .empty ∧ (flushSlice w tid started ops later).txq = later) ∨
        (flushSlice w tid started ops later).txq =
          later ++ [⟨tid, true, .flush started (ops.drop FLUSH_SLICE), []⟩]) := by
  unfold flushSlice
  dsimp only
  split
  · rename_i hempty
    exact ⟨rfl, .inl ⟨ext_rows (by simpa using hempty), rfl⟩⟩
  · rw [if_neg (not_not.2 he)]
    exact ⟨rfl, .inr rfl⟩

/-- **A slice of a flush** writes what the flush stands for. -/
theorem base_flushSlice {tid started : ℕ} {opened : Bool}
    {c : List Chat} (ht : w.txq = ⟨tid, opened, .flush started ops, c⟩ :: later)
    (hs : SliceSafe id ops later) (he : started = w.epoch) :
    AgreeAt id (flushSlice w tid started ops later).base w.base := by
  have hb : w.base = jobsEff (later.map (·.job))
      (opsEff (ops.drop FLUSH_SLICE) (opsEff (ops.take FLUSH_SLICE) w.msgs.get)) := by
    rw [World.base, World.jobs, ht, opsEff_take_drop]; rfl
  have hcomm : AgreeAt id
      (jobsEff (later.map (·.job))
        (opsEff (ops.drop FLUSH_SLICE) (opsEff (ops.take FLUSH_SLICE) w.msgs.get)))
      (opsEff (ops.drop FLUSH_SLICE)
        (jobsEff (later.map (·.job)) (opsEff (ops.take FLUSH_SLICE) w.msgs.get))) := by
    refine jobsEff_opsEff_comm fun job hj op hop hid => ?_
    obtain ⟨t, htm, rfl⟩ := mem_map.1 hj
    exact hs t htm op hop hid
  intro k hk
  rw [hb, hcomm k hk]
  obtain ⟨hm, hq⟩ := flushSlice_txq tid ops later he
  rw [World.base, hm, get_applyOps, World.jobs]
  rcases hq with ⟨hempty, hq⟩ | hq
  · rw [hq, hempty]; rfl
  · rw [hq, map_append, jobsEff_append]; rfl

/-! ## Patching -/

/-- The operation a patch takes out of the queue is still the insert it saw. -/
def PatchSafe (w : World) (k : Key) (queued : Option Obj) (later : List Txn) : Prop :=
  (w.msgs.get k).isSome → queued.isSome →
    match w.q.pending.get k with
    | none => True
    | some (.add _) => ∀ t ∈ later, t.job.touches k = false
    | some _ => False

instance (w : World) (k : Key) (queued : Option Obj) (later : List Txn) :
    Decidable (PatchSafe w k queued later) := by
  unfold PatchSafe
  have : Decidable (match w.q.pending.get k with
    | none => True
    | some (.add _) => ∀ t ∈ later, t.job.touches k = false
    | some _ => False) := by split <;> infer_instance
  infer_instance

section

variable {tid started : ℕ} {opened : Bool} {queued : Option Obj} {fn : Patch} {after : AfterPatch}
  {c : List Chat}

theorem patchRequests_msgs (hq : ∀ m, queued = some m → m.key = k) :
    (patchRequests w tid k queued fn after later).msgs.get =
      update w.msgs.get k (patchEff queued fn (w.msgs.get k)) := by
  have hkey : ∀ cur, (w.msgs.get k).or (queued.map (·.msg)) = some cur → cur.key = k := by
    intro cur hc
    cases hm : w.msgs.get k with
    | some => rw [hm] at hc; cases hc; exact get_key hm
    | none =>
      cases hqd : queued with
      | none => rw [hm, hqd] at hc; cases hc
      | some m => rw [hm, hqd] at hc; cases hc; exact hq m hqd
  funext k'
  unfold patchRequests readModifyWrite
  dsimp only
  split
  · rename_i hnone
    rw [patchEff, hnone]
    change w.msgs.get k' = _
    rw [update_apply]
    split
    · rename_i he; subst he; rfl
    · rfl
  · rename_i cur hcur
    rw [patchEff, hcur, Option.bind_some]
    cases ha : fn.apply cur with
    | none =>
      rw [Option.none_or, Function.update_eq_self]
    | some next =>
      have hk : (toRecord next next.chatJid).key = k := (Patch.apply_key ha).1.trans (hkey cur hcur)
      rw [get_set, hk, update_apply]
      by_cases he : k' = k
      · subst he; simp
      · rw [if_neg (Ne.symm he), if_neg he]

/-- The requests of a patch change the store, the queue and the transaction itself. -/
theorem patchRequests_eq (w : World) (tid : ℕ) (k : Key) (queued : Option Obj) (fn : Patch) (after : AfterPatch)
    (later : List Txn) : ∃ msgs, patchRequests w tid k queued fn after later = { w with
        msgs := msgs
        q := { w.q with pending :=
          if (w.msgs.get k).isSome && queued.isSome then w.q.pending.erase k else w.q.pending }
        txq := ⟨tid, true, .patched k ((w.msgs.get k).or (queued.map (·.msg))).isSome after, []⟩ :: later } ∧
      (msgs = w.msgs ∨ ∃ current next, (w.msgs.get k).or (queued.map (·.msg)) = some current ∧
        fn.apply current = some next ∧ msgs = w.msgs.set next) := by
  unfold patchRequests readModifyWrite
  dsimp only
  rw [Option.isSome_map]
  cases (w.msgs.get k).or (queued.map (·.msg)) with
  | none => exact ⟨_, rfl, .inl rfl⟩
  | some current =>
    dsimp only
    cases hn : fn.apply current with
    | none => exact ⟨_, rfl, .inl rfl⟩
    | some next => exact ⟨_, rfl, .inr ⟨current, next, rfl, hn, rfl⟩⟩

theorem patchRequests_byChat : (patchRequests w tid k queued fn after later).byChat = w.byChat := by
  obtain ⟨msgs, he, -⟩ := patchRequests_eq w tid k queued fn after later
  rw [he]

theorem patchRequests_pending : (patchRequests w tid k queued fn after later).q.pending =
    if (w.msgs.get k).isSome && queued.isSome then w.q.pending.erase k else w.q.pending := by
  obtain ⟨msgs, he, -⟩ := patchRequests_eq w tid k queued fn after later
  rw [he]

/-- **The requests of a patch** write what the patch stands for. -/
theorem base_patchRequests (ht : w.txq = ⟨tid, opened, .patch started k queued fn after, c⟩ :: later)
    (hq : ∀ m, queued = some m → m.key = k) :
    (patchRequests w tid k queued fn after later).base = w.base := by
  obtain ⟨msgs, he, -⟩ := patchRequests_eq w tid k queued fn after later
  rw [World.base, World.base, World.jobs, World.jobs, patchRequests_msgs hq, he, ht]
  rfl

theorem eff_patchRequests (ht : w.txq = ⟨tid, opened, .patch started k queued fn after, c⟩ :: later)
    (hq : ∀ m, queued = some m → m.key = k) (hs : PatchSafe w k queued later) :
    (patchRequests w tid k queued fn after later).eff = w.eff := by
  funext k'
  rw [eff_apply, eff_apply, base_patchRequests ht hq, patchRequests_pending]
  split
  · rename_i hsq
    simp only [Bool.and_eq_true] at hsq
    have hs := hs hsq.1 hsq.2
    rw [get_erase]
    by_cases hk : k = k'
    · subst hk
      rw [if_pos rfl]
      -- the record is there, so the insert in the queue has no effect
      have hbase : ∀ m, w.q.pending.get k = some (.add m) → (w.base k).isSome := by
        intro m hm
        rw [hm] at hs
        have : w.base k = patchEff queued fn (w.msgs.get k) := by
          rw [World.base, World.jobs, ht]
          change jobsEff (later.map (·.job)) (update w.msgs.get k _) k = _
          rw [jobsEff_inert, Function.update_self]
          intro job hj
          obtain ⟨t, htm, rfl⟩ := mem_map.1 hj
          exact hs t htm
        rw [this, patchEff, Option.isSome_or, hsq.1, Bool.or_true]
      cases hp : w.q.pending.get k with
      | none => rfl
      | some op =>
        cases op with
        | put | del => rw [hp] at hs; exact hs.elim
        | add m =>
          obtain ⟨r, hr⟩ := Option.isSome_iff_exists.1 (hbase m hp)
          simp [PendingOp.eff, hr]
    · rw [if_neg hk]
  · rfl

end

/-! ## The other transactions -/

/-- Taking a transaction out of the queue that writes no message. -/
theorem base_pop {t : Txn} (ht : w.txq = t :: later) (hi : ∀ k, t.job.Inert k)
    (hm : v.msgs = w.msgs) (hq : v.txq = later) : v.base = w.base := by
  funext k
  rw [World.base, World.base, World.jobs, World.jobs, hm, hq, ht, map_cons, jobsEff_cons]
  congr 1
  funext k
  exact (hi k w.msgs.get).symm

/-- A move that has run. -/
theorem base_move {tid started : ℕ} {opened : Bool} {l p : Jid} {c : List Chat}
    (ht : w.txq = ⟨tid, opened, .move started l p, c⟩ :: later) (hne : l ≠ p)
    (hm : v.msgs = moveRows w.msgs l p) (hq : v.txq = later) : v.base = w.base := by
  rw [World.base, World.base, World.jobs, World.jobs, hm, hq, ht, get_moveRows hne]
  rfl

/-- A wipe that has run. -/
theorem base_clear {tid : ℕ} {opened : Bool} {c : List Chat}
    (ht : w.txq = ⟨tid, opened, .clear, c⟩ :: later) (hm : v.msgs = .empty) (hq : v.txq = later) :
    v.base = w.base := by
  rw [World.base, World.base, World.jobs, World.jobs, hm, hq, ht]
  rfl

end Whatsvelte
