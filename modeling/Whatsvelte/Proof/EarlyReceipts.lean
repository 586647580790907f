import Whatsvelte.Proof.Mute
import Whatsvelte.Proof.Sends
import Whatsvelte.Proof.Updates

/-!
# Receipts that outrun the send

A receipt may arrive before `confirmOptimistic` has given the bubble its real id. The receipt
then finds no message: its lookup in the store starts, and when that finds nothing either, the
status goes to `earlyReceipts`, where the confirm takes it up.

`early_receipts_counted`: this works if no lookup for the id is outstanding at the confirm; the
echo of the message does not look at the early receipts, so if it comes first no receipt may have
come before it. `early_receipt_lost`: a confirm overtakes a lookup, and the ticks stay.
-/

namespace Whatsvelte

open List

variable {w v : World} {k : Key} {e : Step} {m : UiMessage} {fns : List Patch} {s : MessageStatus}
variable {later : List Txn} {fn : Patch} {after : AfterPatch}

/-! ## The highest receipt -/

/-- The rank that an update asks for. -/
def Patch.rank : Patch → ℕ
  | .receipt status => status.rank
  | _ => 0

def UiMessage.rank (m : UiMessage) : ℕ := (m.status.getD .sent).rank

/-- The highest of `sent` and the receipts of a list of updates. -/
def highest (fns : List Patch) : ℕ := fns.foldl (fun n fn => max n fn.rank) MessageStatus.sent.rank

theorem le_foldl_rank (fns : List Patch) (n : ℕ) : n ≤ fns.foldl (fun n fn => max n fn.rank) n := by
  induction fns generalizing n with
  | nil => exact le_rfl
  | cons fn fns ih => exact (le_max_left n fn.rank).trans (ih _)

theorem rank_le_highest (h : fn ∈ fns) : fn.rank ≤ highest fns := by
  obtain ⟨pre, post, rfl⟩ := append_of_mem h
  rw [highest, foldl_append, foldl_cons]
  exact (le_max_right _ _).trans (le_foldl_rank post _)

theorem highest_le {n : ℕ} (hs : MessageStatus.sent.rank ≤ n) (h : ∀ fn ∈ fns, fn.rank ≤ n) :
    highest fns ≤ n := by
  have hfold : ∀ (fns : List Patch) (a : ℕ), a ≤ n → (∀ fn ∈ fns, fn.rank ≤ n) →
      fns.foldl (fun n fn => max n fn.rank) a ≤ n := by
    intro fns
    induction fns with
    | nil => exact fun a ha _ => ha
    | cons fn fns ih =>
      intro a ha hall
      refine ih _ (max_le ha (hall fn mem_cons_self)) fun fn' hf => ?_
      exact hall fn' (mem_cons_of_mem _ hf)
  exact hfold fns _ hs h

theorem rank_apply (c : Core) (fn : Patch) :
    ((c.apply fn).status.getD .sent).rank = max (c.status.getD .sent).rank fn.rank := by
  cases fn with
  | receipt =>
    simp only [Core.apply, Patch.rank]
    split
    · rename_i h
      exact (max_eq_right h.le).symm
    · rename_i h
      exact (max_eq_left (not_lt.1 h)).symm
  | _ => exact (max_eq_left (Nat.zero_le _)).symm

/-- The status after a list of updates is the highest that was asked for. -/
theorem rank_foldl (fns : List Patch) (c : Core) : ((fns.foldl Core.apply c).status.getD .sent).rank =
    fns.foldl (fun n fn => max n fn.rank) (c.status.getD .sent).rank := by
  induction fns generalizing c with
  | nil => rfl
  | cons fn fns ih => rw [foldl_cons, foldl_cons, ih, rank_apply]

/-! ## Waiting for the confirm -/

/-- The status that waits for a confirm of the id. -/
def World.early (w : World) (id : MsgId) : Option MessageStatus := (w.earlyReceipts.get id).map (·.2)

/-- A lookup that saw no queued insert. -/
def Job.unqueued : Job → Bool
  | .patch _ _ queued _ _ => queued.isNone
  | _ => true

/-- Every receipt of `fns` for the message waits: its status is among the early receipts, or its
lookup is outstanding. -/
structure Awaits (k : Key) (fns : List Patch) (w : World) : Prop where
  roomy : w.Roomy
  upper : ∀ s ∈ w.early k.id, .receipt s ∈ fns
  lookups : ∀ j ∈ w.jobs, ∀ k' s, j.lookup = some (k', s) → k'.id = k.id →
    k' = k ∧ .receipt s ∈ fns ∧ j.unqueued = true
  lower : ∀ s, .receipt s ∈ fns →
    (∃ s' ∈ w.early k.id, s.rank ≤ s'.rank) ∨ ∃ j ∈ w.jobs, j.lookup = some (k, s)

namespace Awaits

theorem of_jobs (h : Awaits k fns w) (hr : v.Roomy) (he : v.early k.id = w.early k.id)
    (hnew : ∀ j ∈ v.jobs, j ∈ w.jobs ∨ j.MuteFor k.id)
    (hold : ∀ j ∈ w.jobs, ∀ s, j.lookup = some (k, s) → j ∈ v.jobs) : Awaits k fns v := by
  refine ⟨hr, fun s hs => h.upper s (he ▸ hs), fun j hj k' s hl hk => ?_, fun s hs => ?_⟩
  · rcases hnew j hj with hj | hj
    · exact h.lookups j hj k' s hl hk
    · exact absurd hk (hj k' s hl)
  · rw [he]
    exact (h.lower s hs).imp_right fun ⟨j, hj, hl⟩ => ⟨j, hold j hj s hl, hl⟩

/-- Code that starts no lookup for the id and leaves its early receipt alone. -/
theorem mute (h : Awaits k fns w) (hr : v.Roomy) (he : v.early k.id = w.early k.id)
    (hj : ∃ js, v.jobs = w.jobs ++ js ∧ ∀ j ∈ js, j.MuteFor k.id) : Awaits k fns v := by
  obtain ⟨js, hjobs, hmute⟩ := hj
  refine h.of_jobs hr he (fun j hj => ?_) fun j hj s _ => ?_
  · rw [hjobs] at hj
    exact (mem_append.1 hj).imp_right (hmute j)
  · rw [hjobs]
    exact mem_append_left _ hj

theorem of_mute (h : Awaits k fns w) (hm : Mute k.id w v) (hr : v.Roomy) : Awaits k fns v :=
  h.mute hr (by rw [World.early, World.early, hm.early hr]) hm.jobs

/-- The head of the queue is no lookup for the id. -/
theorem popped (h : Awaits k fns w) {t : Txn} (ht : w.txq = t :: later)
    (hm : t.job.MuteFor k.id) : Awaits k fns (w.popped later) := by
  have hjobs : w.jobs = t.job :: later.map (·.job) := by rw [World.jobs, ht, map_cons]
  refine h.of_jobs h.roomy rfl (fun j hj => ?_) fun j hj s hl => ?_
  · rw [hjobs]
    exact .inl (mem_cons_of_mem _ hj)
  · rw [hjobs] at hj
    rcases mem_cons.1 hj with rfl | hj
    · exact absurd rfl (hm k s hl)
    · exact hj

end Awaits

/-! ## A receipt for the message -/

theorem early_remember {id : MsgId} (hr : (rememberEarlyReceipt w id s).Roomy) :
    ∃ s', (rememberEarlyReceipt w id s).early id = some s' ∧ s.rank ≤ s'.rank ∧
      (∀ s₀ ∈ w.early id, s₀.rank ≤ s'.rank) ∧ (s' = s ∨ w.early id = some s') := by
  unfold World.early
  obtain ⟨-, -, ⟨r, hg, hle, hv⟩ | ⟨hle, hv⟩⟩ := remembered hr
  · rw [hg, hv]
    refine ⟨r.2, rfl, hle, fun s₀ hs₀ => ?_, .inr rfl⟩
    cases hs₀
    exact le_rfl
  · rw [hv]
    refine ⟨s, rfl, le_rfl, fun s₀ hs₀ => ?_, .inl rfl⟩
    obtain ⟨r, hg, rfl⟩ := Option.map_eq_some_iff.1 hs₀
    exact hle r hg

/-- One more receipt, whose status is already covered. -/
theorem Awaits.more (h : Awaits k fns w)
    (hfn : ∀ s, fn = .receipt s → (∃ s' ∈ w.early k.id, s.rank ≤ s'.rank) ∨
      ∃ j ∈ w.jobs, j.lookup = some (k, s)) : Awaits k (fns ++ [fn]) w := by
  refine ⟨h.roomy, fun s hs => mem_append_left _ (h.upper s hs), fun j hj k' s hl hk => ?_,
    fun s hs => ?_⟩
  · obtain ⟨h1, h2, h3⟩ := h.lookups j hj k' s hl hk
    exact ⟨h1, mem_append_left _ h2, h3⟩
  · rcases mem_append.1 hs with hs | hs
    · exact h.lower s hs
    · exact hfn s (mem_singleton.1 hs).symm

theorem pending_of_unknown (h : w.eff k = none) :
    w.q.pending.get k = none ∨ ∃ c i, w.q.pending.get k = some (.del c i) := by
  rw [eff_apply] at h
  cases hp : w.q.pending.get k with
  | none => exact .inl rfl
  | some op =>
    rw [hp] at h
    cases op with
    | put => cases h
    | add =>
      have h : (w.base k).or (some _) = none := h
      rw [Option.or_eq_none_iff] at h
      cases h.2
    | del c i => exact .inr ⟨c, i, rfl⟩

/-- A receipt for a message that is not known starts a lookup, or is remembered at once. -/
theorem Awaits.patchThen (h : Awaits k fns w) (heff : w.eff k = none)
    (hr : (patchThen w k (.receipt s) (.early s)).Roomy) :
    Awaits k (fns ++ [.receipt s]) (patchThen w k (.receipt s) (.early s)) := by
  unfold Whatsvelte.patchThen patchPersistedMessage at hr ⊢
  rcases pending_of_unknown heff with hp | ⟨c, i, hp⟩
  · simp only [hp] at hr ⊢
    have hjobs := jobs_enqueue w (.patch w.epoch k none (.receipt s) (.early s))
    refine ⟨h.roomy, fun s₁ hs₁ => mem_append_left _ (h.upper s₁ hs₁), fun j hj k' s₁ hl hk => ?_,
      fun s₁ hs₁ => ?_⟩
    · rw [hjobs] at hj
      rcases mem_append.1 hj with hj | hj
      · obtain ⟨h1, h2, h3⟩ := h.lookups j hj k' s₁ hl hk
        exact ⟨h1, mem_append_left _ h2, h3⟩
      · rw [mem_singleton.1 hj] at hl ⊢
        cases hl
        exact ⟨rfl, mem_append_right _ mem_cons_self, rfl⟩
    · rw [hjobs]
      rcases mem_append.1 hs₁ with hs₁ | hs₁
      · refine (h.lower s₁ hs₁).imp_right ?_
        rintro ⟨j, hj, hl⟩
        exact ⟨j, mem_append_left _ hj, hl⟩
      · cases mem_singleton.1 hs₁
        exact .inr ⟨_, mem_append_right _ mem_cons_self, rfl⟩
  · simp only [hp, afterPatch, Bool.false_eq_true, if_false] at hr ⊢
    obtain ⟨s', he, hle, hmax, hor⟩ := early_remember hr
    refine ⟨hr, fun s₁ hs₁ => ?_, fun j hj k' s₁ hl hk => ?_, fun s₁ hs₁ => ?_⟩
    · rw [he] at hs₁
      cases hs₁
      rcases hor with rfl | hor
      · exact mem_append_right _ mem_cons_self
      · exact mem_append_left _ (h.upper _ hor)
    · rw [(Same.rememberEarlyReceipt ..).jobs] at hj
      obtain ⟨h1, h2, h3⟩ := h.lookups j hj k' s₁ hl hk
      exact ⟨h1, mem_append_left _ h2, h3⟩
    · rw [(Same.rememberEarlyReceipt ..).jobs]
      rcases mem_append.1 hs₁ with hs₁ | hs₁
      · refine (h.lower s₁ hs₁).imp_left ?_
        rintro ⟨s₀, hs₀, hle₀⟩
        exact ⟨s', he, hle₀.trans (hmax s₀ hs₀)⟩
      · cases mem_singleton.1 hs₁
        exact .inl ⟨s', he, hle⟩

theorem roomy_patchThen (heff : w.eff k = none)
    (hr : (patchThen w k (.receipt s) (.early s)).Roomy) : w.Roomy := by
  unfold patchThen patchPersistedMessage at hr
  rcases pending_of_unknown heff with hp | ⟨c, i, hp⟩
  · rwa [hp] at hr
  · rw [hp] at hr
    exact (remembered hr).1

/-- The lookups of a receipt that names the message. -/
theorem Awaits.lookups_append (h : Awaits k fns w) (hwf : w.Wf) (hid : k.id ≠ "")
    (hs : w.slot k = ⟨none, none⟩) {ids : List MsgId} (hnd : ids.Nodup) (hm : k.id ∈ ids)
    (hr : (ids.foldl (fun w i => Whatsvelte.patchThen w ⟨k.chatJid, i⟩ (.receipt s) (.early s)) w).Roomy) :
    Awaits k (fns ++ [.receipt s])
      (ids.foldl (fun w i => Whatsvelte.patchThen w ⟨k.chatJid, i⟩ (.receipt s) (.early s)) w) := by
  obtain ⟨pre, post, rfl⟩ := append_of_mem hm
  rw [foldl_append, foldl_cons] at hr ⊢
  have hpre : k.id ∉ pre := fun h => (nodup_append.1 hnd).2.2 _ h _ mem_cons_self rfl
  have hpost : k.id ∉ post := (nodup_cons.1 (nodup_append.1 hnd).2.1).1
  have h1 := Mute.lookups w k.chatJid s hpre
  have h2 := Mute.lookups (Whatsvelte.patchThen (pre.foldl (fun w i => Whatsvelte.patchThen w
    ⟨k.chatJid, i⟩ (.receipt s) (.early s)) w) k (.receipt s) (.early s)) k.chatJid s hpost
  have hk := (patchThen_fold k.chatJid s pre w hwf).2.2 k hid fun _ => hpre
  have heff := congrArg Slot.stored ((hk.of_none (by rw [hs])).trans hs)
  have hr' := h2.roomy hr
  exact ((h.of_mute h1 (roomy_patchThen heff hr')).patchThen heff hr').of_mute h2 hr

/-- **A receipt that outruns the message** waits. -/
theorem awaits_receipt (h : Awaits k fns w) (hwf : w.Wf) (hid : k.id ≠ "")
    (hs : w.slot k = ⟨none, none⟩) {ids : List MsgId} (hm : k.id ∈ ids)
    (hr : (applyReceipt w k.chatJid ids s).Roomy) :
    Awaits k (fns ++ [.receipt s]) (applyReceipt w k.chatJid ids s) := by
  obtain ⟨w₁, missing, -, hwf₁, ⟨hearly, htxq⟩, hnd, hmiss, hslot, he⟩ :=
    applyReceipt_resident hwf k.chatJid ids s
  have hnone : findId (messagesFor w k.chatJid) k.id = none := by
    rw [← slot_resident, hs]
  have hs₁ : w₁.slot k = ⟨none, none⟩ := by
    rcases hslot k hid with ⟨hk, -⟩ | ⟨-, -, x, o, hx, -⟩
    · exact (hk.of_none (by rw [hs])).trans hs
    · rw [hs] at hx
      cases hx
  rw [he] at hr ⊢
  have h₁ : Awaits k fns w₁ :=
    h.of_mute (.of_same hearly htxq) (by have := h.roomy; rwa [World.Roomy, ← hearly] at this)
  exact h₁.lookups_append hwf₁ hid hs₁ hnd ((hmiss k.id).2 ⟨hm, hnone⟩) hr

/-! ## The queue moves on -/

/-- The answer of a lookup goes to the early receipts. -/
theorem Awaits.answer (h : Awaits k fns w) {t : Txn} (ht : w.txq = t :: later)
    (hl : t.job.lookup = some (k, s)) (hr : (rememberEarlyReceipt (w.popped later) k.id s).Roomy) :
    Awaits k fns (rememberEarlyReceipt (w.popped later) k.id s) := by
  have hjobs : w.jobs = t.job :: later.map (·.job) := by rw [World.jobs, ht, map_cons]
  have hv := (Same.rememberEarlyReceipt (w.popped later) k.id s).jobs
  obtain ⟨s', he, hle, hmax, hor⟩ := early_remember hr
  refine ⟨hr, fun s₁ hs₁ => ?_, fun j hj => ?_, fun s₁ hs₁ => ?_⟩
  · rw [he] at hs₁
    cases hs₁
    rcases hor with rfl | hor
    · exact (h.lookups t.job (by rw [hjobs]; exact mem_cons_self) k _ hl rfl).2.1
    · exact h.upper _ hor
  · rw [hv] at hj
    exact h.lookups j (by rw [hjobs]; exact mem_cons_of_mem _ hj)
  · rw [hv]
    rcases h.lower s₁ hs₁ with ⟨s₀, hs₀, hle₀⟩ | ⟨j, hj, hjl⟩
    · exact .inl ⟨s', he, hle₀.trans (hmax s₀ hs₀)⟩
    · rw [hjobs] at hj
      rcases mem_cons.1 hj with rfl | hj
      · rw [hl] at hjl
        cases hjl
        exact .inl ⟨s', he, hle⟩
      · exact .inr ⟨j, hj, hjl⟩

theorem lookup_patched {k₀ : Key} {found : Bool} (h : (Job.patched k₀ found after).lookup = some (k, s)) :
    k₀ = k ∧ found = false ∧ after = .early s := by
  cases found <;> cases after <;> cases h
  exact ⟨rfl, rfl, rfl⟩

/-- A lookup runs. -/
theorem Awaits.patchRequests (h : Awaits k fns w) {tid started : ℕ} {k₀ : Key} {queued : Option Obj}
    {c : List Chat} (ht : w.txq = ⟨tid, true, .patch started k₀ queued fn after, c⟩ :: later)
    (hn : k₀ = k → w.msgs.get k = none) :
    Awaits k fns (Whatsvelte.patchRequests w tid k₀ queued fn after later) := by
  have hjobs : w.jobs = .patch started k₀ queued fn after :: later.map (·.job) := by
    rw [World.jobs, ht, map_cons]
  have hhead := h.lookups _ (hjobs ▸ mem_cons_self)
  obtain ⟨msgs, he, -⟩ := patchRequests_eq w tid k₀ queued fn after later
  have hfound : w.msgs.get k₀ = none → queued = none →
      ((w.msgs.get k₀).or (queued.map (·.msg))).isSome = false := by
    rintro h1 rfl
    rw [h1]
    rfl
  rw [he]
  generalize ((w.msgs.get k₀).or (queued.map (·.msg))).isSome = found at hfound ⊢
  -- the lookup of the message finds nothing, and stays a lookup
  have hsame : k₀.id = k.id → ∀ s, after = .early s → found = false ∧ k₀ = k := by
    rintro hk s rfl
    obtain ⟨rfl, -, hq⟩ := hhead k₀ s rfl hk
    exact ⟨hfound (hn rfl) (Option.isNone_iff_eq_none.1 hq), rfl⟩
  refine ⟨h.roomy, h.upper, fun j hj k' s hl hk => ?_, fun s hs => ?_⟩
  · rcases mem_cons.1 hj with rfl | hj
    · obtain ⟨rfl, -, rfl⟩ := lookup_patched hl
      exact ⟨(hhead k₀ s rfl hk).1, (hhead k₀ s rfl hk).2.1, rfl⟩
    · exact h.lookups j (hjobs ▸ mem_cons_of_mem _ hj) k' s hl hk
  · refine (h.lower s hs).imp_right ?_
    rintro ⟨j, hj, hl⟩
    rw [hjobs] at hj
    rcases mem_cons.1 hj with rfl | hj
    · cases after with
      | early =>
        cases hl
        obtain ⟨rfl, -⟩ := hsame rfl s rfl
        exact ⟨_, mem_cons_self, rfl⟩
      | _ => cases hl
    · exact ⟨j, mem_cons_of_mem _ hj, hl⟩

theorem awaits_openNext (h : Sound w) (ha : Awaits k fns w) : Awaits k fns (openNext w) := by
  obtain ⟨-, hjobs, -, -, -, -, -, hearly⟩ := openNext_spec h
  refine ha.of_jobs ?_ (by rw [World.early, World.early, hearly]) (fun j hj => ?_) fun j hj _ _ => ?_
  · rw [World.Roomy, hearly]
    exact ha.roomy
  · rw [hjobs] at hj
    exact .inl hj
  · rwa [hjobs]

theorem Job.MuteFor.of_none {id : MsgId} {job : Job} (h : job.lookup = none) : job.MuteFor id := by
  intro k s hs
  rw [h] at hs
  cases hs

/-- A patch of `k` runs. -/
def Step.patches (w : World) (k : Key) : Step → Bool
  | .advance =>
    match w.txq with
    | ⟨_, true, .patch _ k₀ _ _ _, _⟩ :: _ => k₀ = k
    | _ => false
  | _ => false

theorem awaits_advance (ha : Awaits k fns w) (hr : (advance w).Roomy)
    (hn : Step.advance.patches w k = true → w.msgs.get k = none) : Awaits k fns (advance w) := by
  have hran := ran_advance w
  generalize advance w = v at hr hran ⊢
  cases hran with
  | idle => exact ha
  | flush tid started ops c later ht =>
    refine (ha.popped ht (.of_none rfl)).of_mute ?_ hr
    unfold flushSlice
    dsimp only
    split
    · exact .of_same rfl rfl
    · split
      · exact .of_same rfl rfl
      · exact ⟨id, fun _ => rfl, [.flush started (ops.drop FLUSH_SLICE)],
          by simp [World.jobs, World.popped], by simpa using .of_none rfl⟩
  | patch tid started k₀ queued fn after c later ht =>
    exact ha.patchRequests ht fun hk => hn (by rw [Step.patches, ht]; exact decide_eq_true hk)
  | patched tid k₀ found after c later ht =>
    by_cases hl : ∃ s, after = .early s ∧ found = false ∧ k₀.id = k.id
    · obtain ⟨s, rfl, rfl, hid⟩ := hl
      have hmem : Job.patched k₀ false (.early s) ∈ w.jobs := by
        rw [World.jobs, ht]
        exact mem_cons_self
      obtain ⟨rfl, -⟩ := ha.lookups _ hmem k₀ s rfl hid
      exact ha.answer ht rfl hr
    · refine (ha.popped ht ?_).of_mute (.of_acts (acts_afterPatch _ found
        (fun _ _ _ => ⟨trivial, trivial⟩) fun s hf hs hid => hl ⟨s, hs, hf, hid⟩)) hr
      intro k' s hs hid
      obtain ⟨rfl, hf, hs⟩ := lookup_patched hs
      exact hl ⟨s, hs, hf, hid⟩
  | move tid started l p c later ht => exact (ha.popped ht (.of_none rfl)).of_mute (.of_same rfl rfl) hr
  | page tid jid limit beforeTs c later ht =>
    exact (ha.popped ht (.of_none rfl)).of_mute (Mute.trans (v := loadOlderDone (w.popped later) jid
      limit beforeTs) (.of_same rfl rfl) (.of_acts (acts_openChatDone _ jid))) hr
  | tails tid jids n c later ht =>
    refine (ha.popped ht (.of_none rfl)).of_mute ?_ hr
    exact (Mute.addHistoryMessages _ _ _).after (.of_same rfl rfl)
  | adopt tid fresh c later ht =>
    exact (ha.popped ht (.of_none rfl)).of_mute (.of_acts (acts_adoptStoredDone _ fun _ _ _ _ => trivial)) hr
  | chats tid started c later ht | account tid jid c later ht | clear tid c later ht =>
    exact (ha.popped ht (.of_none rfl)).of_mute (.of_same rfl rfl) hr

/-! ## Before the message arrives -/

/-- A step before the message has its real id. It brings no copy and takes no early receipt, a
receipt for the id is one for the message, and the early receipts have room. -/
@[mk_iff]
structure AwaitSafe (k : Key) (w : World) (e : Step) : Prop where
  copies : NoNewCopy [k.chatJid] k.id w e
  delete : DeleteSafe [k.chatJid] k.id w e
  confirms : e.confirms ≠ some k.id
  receipts : k.id ∈ e.receipts w → (e.update k).isSome = true
  roomy : (w.step e).Roomy
  /-- A record whose delete is on its way is gone when the lookup runs. -/
  lookup : e.patches w k = true → w.msgs.get k = none

instance (k : Key) (w : World) (e : Step) : Decidable (AwaitSafe k w e) :=
  decidable_of_iff _ (awaitSafe_iff k w e).symm

theorem receipts_of_update (h : e.update k = some (.receipt s)) :
    ∃ ids, e = .applyReceipt k.chatJid ids s ∧ k.id ∈ ids := by
  cases e with
  | applyReceipt jid ids =>
    simp only [Step.update, Option.ite_none_right_eq_some] at h
    obtain ⟨⟨rfl, hm⟩, h⟩ := h
    cases h
    exact ⟨ids, rfl, hm⟩
  | _ => simp [Step.update] at h

theorem receipt_of_receipts (h : k.id ∈ e.receipts w) (hu : (e.update k).isSome = true) :
    ∃ ids s, e = .applyReceipt k.chatJid ids s ∧ k.id ∈ ids := by
  obtain ⟨fn, hfn⟩ := Option.isSome_iff_exists.1 hu
  cases e with
  | applyReceipt jid ids status =>
    simp only [Step.update, Option.ite_none_right_eq_some] at hfn
    obtain ⟨⟨rfl, hm⟩, -⟩ := hfn
    exact ⟨ids, status, rfl, hm⟩
  | applyRevoke | applyEdit | applyReaction => cases h
  | _ => cases hfn

/-- A synchronous step, whose receipt for the message waits from then on. -/
theorem awaits_sync (hwf : w.Wf) (hid : k.id ≠ "") (he : e.sync = true) (hs : w.slot k = ⟨none, none⟩)
    (ha : Awaits k fns w) (hsafe : AwaitSafe k w e) : Awaits k (fns ++ (e.update k).toList) (w.step e) := by
  by_cases hrec : k.id ∈ e.receipts w
  · obtain ⟨ids, s, rfl, hm⟩ := receipt_of_receipts hrec (hsafe.receipts hrec)
    have hu : (Step.applyReceipt k.chatJid ids s).update k = some (.receipt s) := if_pos ⟨rfl, hm⟩
    rw [hu]
    exact awaits_receipt ha hwf hid hs hm hsafe.roomy
  · have hstep : Awaits k fns (w.step e) := by
      cases hc : e.confirms with
      | none => exact ha.of_mute (mute_step he hrec hc) hsafe.roomy
      | some realId =>
        have hne : realId ≠ k.id := fun h => hsafe.confirms (by rw [hc, h])
        cases e with
        | confirmOptimistic jid r =>
          cases hc
          obtain ⟨hearly, hjobs⟩ := mute_confirm jid (tempId r) hne
          refine ha.mute hsafe.roomy ?_ ⟨[], ?_, forall_mem_nil _⟩
          · change ((confirmOptimistic w jid (tempId r) realId).earlyReceipts.get k.id).map _ = _
            rw [hearly, World.early]
          · rwa [append_nil]
        | _ => cases hc
    cases hu : e.update k with
    | none => rwa [Option.toList_none, append_nil]
    | some =>
      refine hstep.more fun s hs => absurd ?_ hrec
      obtain ⟨ids, rfl, hm⟩ := receipts_of_update (hs ▸ hu)
      exact hm

/-- **One step** before the message arrives. -/
theorem awaits_step (hid : k.id ≠ "") (h : Sound w) (hs : w.slot k = ⟨none, none⟩)
    (ha : Awaits k fns w) (hsafe : AwaitSafe k w e) :
    Sound (w.step e) ∧ (w.step e).slot k = ⟨none, none⟩ ∧
      Awaits k (fns ++ (e.update k).toList) (w.step e) := by
  have hgone : Gone [k.chatJid] k.id w := fun c hc => by rwa [mem_singleton.1 hc]
  obtain ⟨hsound, hgone'⟩ := gone_step hid ⟨h, hgone⟩ ⟨hsafe.copies, hsafe.delete⟩
  refine ⟨hsound, hgone' k.chatJid mem_cons_self, ?_⟩
  by_cases he : e.sync = true
  · exact awaits_sync h.wf hid he hs ha hsafe
  rw [update_of_async he, Option.toList_none, append_nil]
  rcases (ordinary_cases h hsafe.delete.ordinary).resolve_left he with rfl | rfl | hw
  · exact awaits_openNext h ha
  · exact awaits_advance ha hsafe.roomy hsafe.lookup
  · rwa [hw]

/-! ## The message arrives -/

/-- No receipt that waits for `k` is above the rank `n`. -/
def Covered (k : Key) (n : ℕ) (w : World) : Prop :=
  (∀ s ∈ w.early k.id, s.rank ≤ n) ∧ ∀ j ∈ w.jobs, ∀ r ∈ j.lookup, r.1 = k → r.2.rank ≤ n

instance (k : Key) (n : ℕ) (w : World) : Decidable (Covered k n w) := by
  unfold Covered
  infer_instance

/-- The confirm or the echo of the message. -/
def Step.arrives (k : Key) : Step → Bool
  | .confirmOptimistic jid _ realId => (⟨jid, realId⟩ : Key) = k
  | .addMessage m => m.key = k
  | _ => false

/-- The confirm finds its bubble and no lookup of a higher receipt is outstanding. An echo comes
without a status of its own, and no receipt above `sent` waits. -/
def ArrivalSafe (k : Key) (w : World) : Step → Prop
  | .confirmOptimistic jid r realId => (⟨jid, realId⟩ : Key) = k ∧
      (findId (messagesFor w jid) (tempId r)).any (fun x => !isBlankMessage x.msg) = true ∧
      Covered k (earlyStatus w realId).rank w
  | .addMessage m => m.key = k ∧ persistable m = true ∧ m.rank = MessageStatus.sent.rank ∧
      w.base k = none ∧ Covered k MessageStatus.sent.rank w
  | _ => False

instance (k : Key) (w : World) (e : Step) : Decidable (ArrivalSafe k w e) := by
  unfold ArrivalSafe
  induction e using Step.casesOn <;> infer_instance

theorem highest_of_covered {n : ℕ} (ha : Awaits k fns w) (hc : Covered k n w)
    (hn : n = MessageStatus.sent.rank ∨ ∃ s, .receipt s ∈ fns ∧ MessageStatus.sent.rank ≤ n ∧ n = s.rank) :
    highest fns = n := by
  refine le_antisymm (highest_le ?_ fun fn hfn => ?_) ?_
  · rcases hn with rfl | ⟨s, -, h, -⟩
    · exact le_rfl
    · exact h
  · cases fn with
    | receipt s =>
      rcases ha.lower s hfn with ⟨s', hs', hle⟩ | ⟨j, hj, hl⟩
      · exact hle.trans (hc.1 s' hs')
      · exact hc.2 j hj _ hl rfl
    | _ => exact Nat.zero_le n
  · rcases hn with rfl | ⟨s, hs, -, rfl⟩
    · exact le_foldl_rank fns _
    · exact rank_le_highest hs

/-- The status of a confirm is the highest receipt that waits. -/
theorem earlyStatus_eq (ha : Awaits k fns w) : (earlyStatus w k.id).rank = MessageStatus.sent.rank ∨
    ∃ s, .receipt s ∈ fns ∧ MessageStatus.sent.rank ≤ (earlyStatus w k.id).rank ∧
      (earlyStatus w k.id).rank = s.rank := by
  have he : earlyStatus w k.id = (w.early k.id).elim .sent fun s =>
    if s.rank > MessageStatus.sent.rank then s else .sent := rfl
  cases hs : w.early k.id with
  | none =>
    rw [he, hs]
    exact .inl rfl
  | some s =>
    by_cases hgt : s.rank > MessageStatus.sent.rank
    · have hs' : earlyStatus w k.id = s := by
        rw [he, hs]
        exact if_pos hgt
      rw [hs']
      exact .inr ⟨s, ha.upper s hs, hgt.le, rfl⟩
    · left
      rw [he, hs]
      exact congrArg MessageStatus.rank (if_neg hgt)

/-- A message that is not known yet is inserted on both sides. -/
theorem tracks_inserted {o : Obj} (hp : persistable o.msg = true) (heff : w.eff o.key = none)
    (hbase : w.base o.key = none) (hi : Inserted o w v) : Tracks o.key o.msg.core v := by
  have hins : insertEff w o = some o.msg := by
    rw [insertEff, if_pos hp, hbase]
    rcases pending_of_unknown heff with hq | ⟨c, i, hq⟩ <;> rw [hq] <;> rfl
  have hput : ∀ n, w.q.pending.get o.key ≠ some (.put n) := by
    intro n hn
    rcases pending_of_unknown heff with hq | ⟨c, i, hq⟩ <;> rw [hq] at hn <;> cases hn
  have hboth : ((v.slot o.key).resident = some o ∨ (v.slot o.key).resident = none) →
      v.eff o.key = insertEff w o → Tracks o.key o.msg.core v := by
    intro hres hv
    refine ⟨⟨o.msg, hv.trans hins, hp, rfl⟩, fun x hx => .inl ?_⟩
    rcases hres with hr | hr <;> rw [hr] at hx <;> cases hx
    exact ⟨hp, rfl⟩
  cases hi with
  | plain _ _ hres hv | waits _ _ hres hv => exact hboth hres hv
  | trimmed n hn | adopts n o' hn => exact absurd hn (hput n)

/-- The confirm takes the early receipt up. -/
theorem tracks_confirm {jid : Jid} {r : String} {realId : MsgId} (hid : realId ≠ "") (hchat : jid ≠ "")
    (htmp : isTmp realId = false) (h : w.Wf) (hs : w.slot ⟨jid, realId⟩ = ⟨none, none⟩)
    (ha : Awaits ⟨jid, realId⟩ fns w) (hsafe : ArrivalSafe ⟨jid, realId⟩ w (.confirmOptimistic jid r realId)) :
    ∃ c, Tracks ⟨jid, realId⟩ c (confirmOptimistic w jid (tempId r) realId) ∧
      (c.status.getD .sent).rank = highest fns := by
  obtain ⟨-, hbubble, hcov⟩ := hsafe
  rcases (confirmOptimistic_spec h jid (tempId r) realId).2 hid with ⟨-, hnone | hsome⟩ | ⟨x, hx, -, hw⟩
  · rw [hnone] at hbubble
    cases hbubble
  · rw [hs] at hsome
    cases hsome
  · rw [hx] at hbubble
    have hblank : isBlankMessage x.msg = false := by simpa using hbubble
    have hcj : x.msg.chatJid ≠ "" := by rwa [(h jid).chat x (findId_mem hx)]
    have hp : persistable (confirmed w x realId).msg = true :=
      persistable_confirmed hid hcj htmp (earlyStatus_ne_sending w realId) hblank
    refine ⟨(confirmed w x realId).msg.core, both_writes ⟨hp, rfl⟩ (.inl hp) hw, ?_⟩
    exact (highest_of_covered ha hcov (earlyStatus_eq ha)).symm

/-- The echo does not look at the early receipts. -/
theorem tracks_echo (hid : m.id ≠ "") (h : w.Wf) (hs : w.slot m.key = ⟨none, none⟩)
    (ha : Awaits m.key fns w) (hsafe : ArrivalSafe m.key w (.addMessage m)) :
    ∃ c, Tracks m.key c (addMessage w m) ∧ (c.status.getD .sent).rank = highest fns := by
  obtain ⟨-, hp, hrank, hbase, hcov⟩ := hsafe
  have hres : (w.slot m.key).resident = none := by rw [hs]
  have hb := blank_of_persistable hp
  have hhigh := highest_of_covered ha hcov (.inl rfl)
  obtain ⟨u, hu⟩ := startUnread_fields m
  cases (addMessage_spec h m).2 hid with
  | known hk =>
    rw [hb, hres] at hk
    rcases hk with hk | hk <;> cases hk
  | media x o hx => rw [hres] at hx; cases hx
  | echo o _ _ _ ho hw =>
    have hpo : persistable o.msg = true := by
      rw [ho, hu]
      exact persistable_of hp rfl rfl (by simp) hb
    refine ⟨o.msg.core, both_writes ⟨hpo, rfl⟩ (.inl hpo) hw, ?_⟩
    rw [hhigh, ho]
    rfl
  | new o _ _ ho hi =>
    have hkey : o.key = m.key := by rw [Obj.key, ho, startUnread_key]
    have hpo : persistable o.msg = true := by
      rwa [ho, hu]
    have heff : w.eff m.key = none := congrArg Slot.stored hs
    rw [← hkey] at heff hbase ⊢
    refine ⟨o.msg.core, tracks_inserted hpo heff hbase hi, ?_⟩
    rwa [hhigh, ho, hu]

/-- **The message arrives**: both copies have the highest status so far. -/
theorem tracks_arrival (hid : k.id ≠ "") (hchat : k.chatJid ≠ "") (htmp : isTmp k.id = false)
    (h : Sound w) (hs : w.slot k = ⟨none, none⟩) (ha : Awaits k fns w) (hsafe : ArrivalSafe k w e) :
    Sound (w.step e) ∧ e.update k = none ∧
      ∃ c, Tracks k c (w.step e) ∧ (c.status.getD .sent).rank = highest fns := by
  cases e with
  | confirmOptimistic =>
    obtain ⟨rfl, -⟩ := id hsafe
    exact ⟨sound_step h rfl, rfl, tracks_confirm hid hchat htmp h.wf hs ha hsafe⟩
  | addMessage =>
    obtain ⟨rfl, -⟩ := id hsafe
    exact ⟨sound_step h rfl, rfl, tracks_echo hid h.wf hs ha hsafe⟩
  | _ => cases hsafe

/-! ## After the message has arrived -/

/-- A step that loses no update of `k`, or a confirm that comes after the echo: its bubble is gone,
or the message is resident. -/
def SettledSafe (k : Key) (w : World) : Step → Prop
  | .confirmOptimistic jid r realId =>
    if (⟨jid, realId⟩ : Key) = k then
      findId (messagesFor w jid) (tempId r) = none ∨ (w.slot k).resident.isSome = true
    else UpdateSafe k w (.confirmOptimistic jid r realId)
  | e => UpdateSafe k w e

instance (k : Key) (w : World) (e : Step) : Decidable (SettledSafe k w e) := by
  unfold SettledSafe
  induction e using Step.casesOn <;> infer_instance

theorem settled_step {c : Core} (hid : k.id ≠ "") (htmp : isTmp k.id = false) (h : Sound w)
    (ht : Tracks k c w) (hs : SettledSafe k w e) :
    Sound (w.step e) ∧ Tracks k (c.after (e.update k)) (w.step e) := by
  cases e with
  | confirmOptimistic jid r realId =>
    simp only [SettledSafe] at hs
    split at hs
    · rename_i hk
      subst hk
      refine ⟨sound_step h rfl, ?_⟩
      obtain ⟨htouch, hspec⟩ := confirmOptimistic_spec h.wf jid (tempId r) realId
      rcases hspec hid with ⟨hkeep, -⟩ | ⟨x, hx, hres, -⟩
      · exact ht.keeps hkeep fun o _ ha => ha.sync htouch.sync
      · rw [hx, hres] at hs
        rcases hs with hs | hs <;> cases hs
    · exact tracks_step hid htmp h ht hs
  | _ => exact tracks_step hid htmp h ht hs

/-! ## Every run -/

/-- Steps before and after the message is known, and the one that makes it known. -/
def ReceiptSafe (k : Key) (w : World) (e : Step) : Prop :=
  if (w.eff k).isSome = true then SettledSafe k w e else AwaitSafe k w e ∨ ArrivalSafe k w e

instance (k : Key) (w : World) (e : Step) : Decidable (ReceiptSafe k w e) := by
  unfold ReceiptSafe
  infer_instance

theorem receiptSafe_settled {c : Core} (ht : Tracks k c w) (hs : ReceiptSafe k w e) : SettledSafe k w e := by
  obtain ⟨m, hm, -⟩ := ht.record
  rwa [ReceiptSafe, if_pos (by rw [hm]; rfl)] at hs

theorem receiptSafe_waiting (h : w.slot k = ⟨none, none⟩) (hs : ReceiptSafe k w e) :
    AwaitSafe k w e ∨ ArrivalSafe k w e := by
  have heff : w.eff k = none := congrArg Slot.stored h
  rwa [ReceiptSafe, if_neg (by rw [heff]; simp)] at hs

theorem copies_of_arrives (h : e.arrives k = true) : e.copies w k = true := by
  cases e with
  | confirmOptimistic | addMessage => exact h
  | _ => cases h

theorem waiting_run (hid : k.id ≠ "") (hchat : k.chatJid ≠ "") (htmp : isTmp k.id = false)
    {es : List Step} (h : Sound w) (hs : w.slot k = ⟨none, none⟩) (ha : Awaits k fns w)
    (hsafe : Along World.step (ReceiptSafe k) w es) (harr : ∃ e ∈ es, e.arrives k = true) :
    ∃ c, Tracks k c (w.run es) ∧ (c.status.getD .sent).rank = highest (fns ++ updatesOf k es) := by
  induction es generalizing w fns with
  | nil => obtain ⟨e, he, -⟩ := harr; cases he
  | cons e es ih =>
    obtain ⟨hse, hses⟩ := hsafe
    rcases receiptSafe_waiting hs hse with hw | hw
    · -- not yet: the receipts of the step wait with the others
      obtain ⟨h1, h2, h3⟩ := awaits_step hid h hs ha hw
      have harr' : ∃ e' ∈ es, e'.arrives k = true := by
        obtain ⟨e', he', ha'⟩ := harr
        rcases mem_cons.1 he' with rfl | he'
        · have hno := hw.copies k.chatJid mem_cons_self
          rw [copies_of_arrives ha'] at hno
          cases hno
        · exact ⟨e', he', ha'⟩
      obtain ⟨c, hc, hrank⟩ := ih h1 h2 h3 hses harr'
      rw [updatesOf_cons, ← append_assoc]
      exact ⟨c, hc, hrank⟩
    · obtain ⟨h1, hu, c, hc, hrank⟩ := tracks_arrival hid hchat htmp h hs ha hw
      have hrun := tracks_along
        (fun w c e h ht hp => settled_step hid htmp h ht (receiptSafe_settled ht hp)) h1 hc hses
      refine ⟨_, hrun.2, ?_⟩
      rw [rank_foldl, hrank, updatesOf_cons, hu, highest, highest, foldl_append]
      rfl

/-- **Receipts that outrun the send count**: once the message has arrived, both copies have the
highest status that was asked for, whatever came before and whatever after. -/
theorem early_receipts_counted (w : World) (hr : Reachable w) (hses : w.SameSession) (k : Key)
    (hid : k.id ≠ "") (hchat : k.chatJid ≠ "") (htmp : isTmp k.id = false)
    (hslot : w.slot k = ⟨none, none⟩) (hroom : w.Roomy) (hearly : w.early k.id = none)
    (hlook : ∀ j ∈ w.jobs, ∀ r ∈ j.lookup, r.1.id ≠ k.id) (es : List Step)
    (ha : Along World.step (ReceiptSafe k) w es) (harr : ∃ e ∈ es, e.arrives k = true)
    (hsettled : (w.run es).adopting k = false) :
    (∃ m, (w.run es).eff k = some m ∧ m.rank = highest (updatesOf k es)) ∧
      ∀ o, ((w.run es).slot k).resident = some o → o.msg.rank = highest (updatesOf k es) := by
  have hawaits : Awaits k [] w := by
    refine ⟨hroom, fun s hs => ?_, fun j hj k' s hl hk => ?_, fun s hs => nomatch hs⟩
    · rw [hearly] at hs
      cases hs
    · exact absurd hk (hlook j hj _ hl)
  obtain ⟨c, hc, hrank⟩ :=
    waiting_run hid hchat htmp ((inv_of_reachable hr).sound hses) hslot hawaits ha harr
  have hcore : ∀ m : UiMessage, Holds c m → m.rank = highest (updatesOf k es) := by
    rintro m ⟨-, rfl⟩
    exact hrank
  obtain ⟨m, hm, hh⟩ := hc.record
  refine ⟨⟨m, hm, hcore m hh⟩, fun o ho => hcore _ ?_⟩
  exact hc.settled (by rw [hsettled]; exact Bool.false_ne_true) o ho

/-- One receipt waits for the confirm, another one comes after it. -/
theorem early_receipts_counted_read :
    ∃ m, ((World.init.run [.addOptimistic chatA "r" 5 "hi" none, .openNext, .advance]).run
        [.applyReceipt chatA ["R"] .delivered, .openNext, .advance, .advance,
          .confirmOptimistic chatA "r" "R", .applyReceipt chatA ["R"] .read]).eff ⟨chatA, "R"⟩ = some m ∧
      m.rank = MessageStatus.read.rank := by
  obtain ⟨m, hm, hrank⟩ := (early_receipts_counted
    (World.init.run [.addOptimistic chatA "r" 5 "hi" none, .openNext, .advance]) ⟨_, rfl⟩ (by decide)
    ⟨chatA, "R"⟩ (by decide) (by decide) (by decide) rfl (by decide) (by decide) (by decide)
    [.applyReceipt chatA ["R"] .delivered, .openNext, .advance, .advance,
      .confirmOptimistic chatA "r" "R", .applyReceipt chatA ["R"] .read]
    (by simp only [Along]; decide +kernel) (by decide) (by decide +kernel)).1
  exact ⟨m, hm, hrank⟩

/-- The three parties of a send, and the moves of the queue. -/
def Step.races (k : Key) : Step → Bool
  | .applyReceipt jid ids _ => (k.chatJid = jid && k.id ∈ ids)
  | .confirmOptimistic jid _ realId => (⟨jid, realId⟩ : Key) = k
  | .addMessage m => m.key = k && m.fromMe
  | .openNext => true
  | .advance => true
  | _ => false

/-- The confirm comes while the receipt is still looked up: the answer is remembered for a
confirm that has been, and the message stays `sent`. -/
theorem early_receipt_lost :
    ¬ ∀ (w : World) (k : Key) (es : List Step), Reachable w → w.SameSession →
      w.slot k = ⟨none, none⟩ → w.early k.id = none → w.jobs = [] →
      (∀ e ∈ es, e.races k = true) → Along World.step (fun w _ => w.Roomy) w es →
      (∃ e ∈ es, e.arrives k = true) → (w.run es).txq = [] →
      ∀ m, (w.run es).eff k = some m → m.rank = highest (updatesOf k es) := by
  intro h
  have hlost := h (World.init.run [.addOptimistic chatA "r" 5 "hi" none, .openNext, .advance])
    ⟨chatA, "R"⟩ [.applyReceipt chatA ["R"] .delivered, .confirmOptimistic chatA "r" "R", .openNext,
      .advance, .advance] ⟨_, rfl⟩ (by decide) rfl (by decide) (by decide) (by decide)
    (by simp only [Along]; decide +kernel) (by decide) (by decide +kernel) _ rfl
  exact absurd hlost (by decide +kernel)

end Whatsvelte
