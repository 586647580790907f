import Whatsvelte.Proof.MessageSteps

/-!
# Work that waits in the queue

`Due P job k w` says that `job` is outstanding and that the record under `k` will be as
`P` says when its turn comes. Synchronous steps keep it (`Due.sync`), and so does every
move of the queue until it is the turn of `job` (`Due.advance`).
-/

namespace Whatsvelte

open List

variable {w v : World} {k : Key} {P : Option UiMessage → Prop} {job : Job}

/-- The job is outstanding, and will find the record under `k` as `P` says. -/
def Due (P : Option UiMessage → Prop) (job : Job) (k : Key) (w : World) : Prop :=
  ∃ pre post, w.jobs = pre ++ job :: post ∧ P (jobsEff pre w.msgs.get k)

theorem Due.of_jobs (h : Due P job k w) (hj : v.jobs = w.jobs) (hm : v.msgs = w.msgs) : Due P job k v := by
  obtain ⟨pre, post, h1, h2⟩ := h
  exact ⟨pre, post, hj.trans h1, hm ▸ h2⟩

theorem Due.sync (h : Due P job k w) (hs : Sync w v) : Due P job k v := by
  obtain ⟨pre, post, h1, h2⟩ := h
  obtain ⟨js, hj⟩ := hs.jobs
  refine ⟨pre, post ++ js, ?_, hs.msgs ▸ h2⟩
  rw [hj, h1, append_assoc, cons_append]

/-- A job that is started now. -/
theorem due_new (hj : v.jobs = w.jobs ++ [job]) (hm : v.msgs = w.msgs) (hp : P (w.base k)) :
    Due P job k v := ⟨w.jobs, [], hj, hm ▸ hp⟩

theorem Due.mem (h : Due P job k w) : job ∈ w.jobs := by
  obtain ⟨pre, post, h1, -⟩ := h
  rw [h1]; simp

/-- What one move of the queue leaves behind the head: the jobs that were there, some that
only concern memory before them, and new ones after them. -/
theorem ran_behind (h : Sound w) (hr : Shifted w v) :
    v = w ∨ ∃ t later js js', w.txq = t :: later ∧ t.opened = true ∧
      v.jobs = js ++ later.map (·.job) ++ js' ∧ (∀ j ∈ js, ∀ H, j.eff H = H) ∧
      (v.msgs.get = t.job.eff w.msgs.get ∨ ∃ s ops, t.job = .flush s ops ∧
        v.msgs.get = opsEff (ops.take FLUSH_SLICE) w.msgs.get) := by
  cases hr with
  | idle => exact .inl rfl
  | flush tid started ops c later ht =>
    right
    rcases started_of_fresh (h.head ht).1 with hst | rfl
    · obtain ⟨hm, hq⟩ := flushSlice_txq tid ops later hst
      rcases hq with ⟨-, hq⟩ | hq
      · refine ⟨_, later, [], [], ht, rfl, ?_, by simp, .inr ⟨started, ops, rfl, ?_⟩⟩
        · rw [World.jobs, hq]; simp
        · rw [hm, get_applyOps]
      · refine ⟨_, later, [], [.flush started (ops.drop FLUSH_SLICE)], ht, rfl, ?_, by simp,
          Or.inr ⟨started, ops, rfl, ?_⟩⟩
        · rw [World.jobs, hq]; simp
        · rw [hm, get_applyOps]
    · exact ⟨_, later, [], [], ht, rfl, (append_nil _).symm, by simp, .inl rfl⟩
  | patch tid started k₀ queued fn after c later ht =>
    right
    obtain ⟨msgs, he, -⟩ := patchRequests_eq w tid k₀ queued fn after later
    obtain ⟨found, hj⟩ : ∃ found, (patchRequests w tid k₀ queued fn after later).jobs =
        .patched k₀ found after :: later.map (·.job) := ⟨_, by rw [he]; rfl⟩
    refine ⟨_, later, [.patched k₀ found after], [], ht, rfl, ?_, by simp [Job.eff], .inl ?_⟩
    · rw [hj]; simp
    · refine patchRequests_msgs ?_
      rintro m rfl
      exact of_decide_eq_true (h.head ht).2
  | answered t later v ht ho hi hs =>
    obtain ⟨js, hj⟩ := hs.jobs
    refine .inr ⟨t, later, [], js, ht, ho, hj, by simp, .inl ?_⟩
    rw [hs.msgs, hi]
    rfl
  | stored t later msgs chatRows account ht ho hm =>
    exact .inr ⟨t, later, [], [], ht, ho, by simp [World.jobs], by simp, .inl (hm (h.head ht).2)⟩

theorem jobsEff_memory {js : List Job} (h : ∀ j ∈ js, ∀ H, j.eff H = H) (H : History) : jobsEff js H = H := by
  induction js generalizing H with
  | nil => rfl
  | cons j js ih =>
    rw [jobsEff_cons, h j mem_cons_self, ih fun j hj => h j (mem_cons_of_mem _ hj)]

/-- A slice leaves the record under `k` to the jobs behind it as the whole flush would, if
one of them is about `k`: what is kept for later is then not about `k`. -/
theorem jobsEff_slice {ops : Table PendingOp.key} {pre : List Job} {later : List Txn} {H : History}
    (hs : SliceSafe k.id ops later) (hpre : ∀ j ∈ pre, j ∈ later.map (·.job))
    (hj : job ∈ later.map (·.job)) (ht : job.touches k = true) :
    jobsEff pre (opsEff (ops.take FLUSH_SLICE) H) k = jobsEff pre (opsEff ops H) k := by
  have hsafe : ∀ j ∈ later.map (·.job), ∀ op ∈ (ops.drop FLUSH_SLICE).rows, op.key.id = k.id →
      j.touches op.key = false := by
    intro j hj op hop hid
    obtain ⟨t, htm, rfl⟩ := mem_map.1 hj
    exact hs t htm op hop hid
  have hnone : (ops.drop FLUSH_SLICE).get k = none := by
    by_contra hne
    obtain ⟨op, hop⟩ := Option.ne_none_iff_exists'.1 hne
    have hk := Table.get_key hop
    have := hsafe job hj op (Table.get_mem hop) (by rw [hk])
    rw [hk, ht] at this
    cases this
  rw [← opsEff_take_drop ops FLUSH_SLICE,
    jobsEff_opsEff_comm (fun j hj => hsafe j (hpre j hj)) k rfl, opsEff, hnone]
  rfl

/-- **The queue moves on.** Either it is the turn of the job, or it stays due. -/
theorem Due.advance (hd : Due P job k w) (h : Sound w) (hq : QueueSafe k w) (ht : job.touches k = true) :
    (∃ tid c later, w.txq = ⟨tid, true, job, c⟩ :: later ∧ P (w.msgs.get k)) ∨
      Due P job k (Whatsvelte.advance w) := by
  rcases ran_behind h (shifted_advance h.wf) with he | ⟨⟨tid, _, j₀, c⟩, later, js, js', htx, rfl, hjobs, hmem, hm⟩
  · rw [he]; exact .inr hd
  obtain ⟨pre, post, hp, hP⟩ := hd
  rw [World.jobs, htx, map_cons] at hp
  cases pre with
  | nil =>
    rw [nil_append, List.cons.injEq] at hp
    exact .inl ⟨tid, c, later, hp.1 ▸ htx, hP⟩
  | cons j pre =>
    rw [cons_append, List.cons.injEq] at hp
    obtain ⟨rfl, hp⟩ := hp
    refine .inr ⟨js ++ pre, post ++ js', ?_, ?_⟩
    · rw [hjobs, hp]; simp
    · rw [jobsEff_append, jobsEff_memory hmem]
      rcases hm with hm | ⟨s, ops, rfl, hm⟩
      · rwa [hm]
      · rw [QueueSafe, htx] at hq
        rwa [hm, jobsEff_slice hq (by rw [hp]; intro j hj; simp [hj]) (by rw [hp]; simp) ht]

end Whatsvelte
