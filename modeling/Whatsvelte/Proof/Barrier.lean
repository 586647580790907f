import Mathlib.Algebra.GroupWithZero.Nat
import Whatsvelte.Proof.Wipe

/-!
# The wipe of `clearAll` is a barrier

`clearAll` stops the writes that have not begun, waits for the others and then wipes. The layer is seen here as a
queue of entries that move one at a time (`Turn`), and a wipe goes through three phases:

* `Waits`: the writes in flight are among those it waits for;
* `Clears`: its own transaction is queued, with no write before it and only reads behind it;
* `Cleared`: the stores are empty and only reads are left.

`turn_step` says that every step of a run that asks for no write is a turn, and `rounds_settle` that the layer on its
own runs out of moves. **`clearAll_barrier`** follows: the wipe resolves, the three stores and the queue are empty
then, and they stay so.
-/

namespace Whatsvelte

open List

variable {w v u : World} {e : Step} {tids : List ℕ}
variable {later : List Txn} {tid started : ℕ}

/-! ## The layer, one turn at a time -/

theorem not_tracked_of_loads {j : Job} (h : j.loads = true) : j.tracked ≠ true := by
  cases j with
  | page | tails | adopt => nofun
  | _ => cases h

/-- What is outstanding, and whose it is. -/
def World.entries (w : World) : List (ℕ × Job) := w.txq.map fun t => (t.tid, t.job)

/-- The three stores. -/
def World.database (w : World) : Table UiMessage.key × Table Chat.jid × Option (Option Jid) :=
  (w.msgs, w.chatRows, w.account)

theorem Erased.of_eq (h : Erased w) (hd : v.database = w.database) : Erased v := by
  obtain ⟨h1, h2, h3⟩ := h
  simp only [World.database, Prod.mk.injEq] at hd
  exact ⟨hd.1.trans h1, hd.2.1.trans h2, hd.2.2.trans h3⟩

/-- What one step can do to the layer when nobody asks it for a write. -/
inductive Turn (w v : World) : Prop
  /-- New reads are queued. -/
  | asks (js : List (ℕ × Job)) (hjs : ∀ x ∈ js, x.2.loads = true) (hv : v.entries = w.entries ++ js)
      (hw : v.wiping = w.wiping) (hd : v.database = w.database)
  /-- A write does something, or stops; what is left of it is still its own. -/
  | writes (x : ℕ × Job) (hx : x ∈ w.entries) (ht : x.2.tracked = true)
      (hv : ∀ y ∈ v.entries, y ∈ w.entries ∨ y.1 = x.1 ∨ y.2.loads = true) (hw : v.wiping = w.wiping)
  /-- The entry at the head is done, and it was no write. -/
  | pops (x : ℕ × Job) (rest js : List (ℕ × Job)) (hx : w.entries = x :: rest) (ht : x.2.tracked = false)
      (hjs : ∀ y ∈ js, y.2.loads = true) (hv : v.entries = rest ++ js) (hw : v.wiping = w.wiping)
      (hd : x.2.loads = true → v.database = w.database) (hc : x.2 = .clear → Erased v)
  /-- A `clearAll` has waited long enough. -/
  | wipes (tids : List ℕ) (rest : List (List ℕ)) (n : ℕ) (hw : w.wiping = tids :: rest)
      (hv : v.wiping = rest) (hdone : ∀ x ∈ w.entries, x.1 ∉ tids) (he : v.entries = w.entries ++ [(n, .clear)])

theorem Turn.refl (w : World) : Turn w w := .asks [] (by simp) (by simp) rfl rfl

/-! ## The three phases -/

/-- The wipe waits for `tids`, behind the wipes called before it. -/
def Waits (tids : List ℕ) (w : World) : Prop :=
  ∃ older, w.wiping = older ++ [tids] ∧ ∀ x ∈ w.entries, x.2.tracked = true → x.1 ∈ tids

/-- The transaction of the wipe is queued. -/
def Clears (w : World) : Prop :=
  w.wiping = [] ∧ ∃ before n behind, w.entries = before ++ (n, .clear) :: behind ∧
    (∀ x ∈ before, x.2.tracked = false) ∧ ∀ x ∈ behind, x.2.loads = true

/-- The wipe is done. -/
def Cleared (w : World) : Prop := w.wiping = [] ∧ Erased w ∧ ∀ x ∈ w.entries, x.2.loads = true

theorem Waits.turn (h : Waits tids w) (ht : Turn w v) : Waits tids v ∨ Clears v := by
  obtain ⟨older, hold, hall⟩ := h
  cases ht with
  | asks js hjs hv hw =>
    refine .inl ⟨older, hw.trans hold, fun x hx htr => ?_⟩
    rw [hv] at hx
    rcases mem_append.1 hx with hx | hx
    · exact hall x hx htr
    · exact absurd htr (not_tracked_of_loads (hjs x hx))
  | writes x hx ht hv hw =>
    refine .inl ⟨older, hw.trans hold, fun y hy htr => ?_⟩
    rcases hv y hy with hy | hy | hy
    · exact hall y hy htr
    · rw [hy]
      exact hall x hx ht
    · exact absurd htr (not_tracked_of_loads hy)
  | pops x rest js hx ht hjs hv hw =>
    refine .inl ⟨older, hw.trans hold, fun y hy htr => ?_⟩
    rw [hv] at hy
    rcases mem_append.1 hy with hy | hy
    · exact hall y (hx ▸ mem_cons_of_mem _ hy) htr
    · exact absurd htr (not_tracked_of_loads (hjs y hy))
  | wipes tids' rest n hw hv hdone he =>
    rw [hw] at hold
    cases older with
    | nil =>
      -- it is this wipe's turn: none of the writes it waited for is left
      obtain ⟨rfl, rfl⟩ := List.cons.inj hold
      refine .inr ⟨hv, w.entries, n, [], he, fun x hx => ?_, by simp⟩
      have hfree := hdone x hx
      cases htr : x.2.tracked with
      | false => rfl
      | true => exact absurd (hall x hx htr) hfree
    | cons a older =>
      obtain ⟨-, hrest⟩ := List.cons.inj hold
      refine .inl ⟨older, hv.trans hrest, fun x hx htr => ?_⟩
      rw [he] at hx
      rcases mem_append.1 hx with hx | hx
      · exact hall x hx htr
      · rw [mem_singleton.1 hx] at htr
        cases htr

theorem Clears.turn (h : Clears w) (ht : Turn w v) : Clears v ∨ Cleared v := by
  obtain ⟨hnil, before, n, behind, he, hbefore, hbehind⟩ := h
  have hextend : ∀ js : List (ℕ × Job), (∀ x ∈ js, x.2.loads = true) →
      ∀ x ∈ behind ++ js, x.2.loads = true := by
    intro js hjs x hx
    rcases mem_append.1 hx with hx | hx
    · exact hbehind x hx
    · exact hjs x hx
  cases ht with
  | asks js hjs hv hw =>
    refine .inl ⟨hw.trans hnil, before, n, behind ++ js, ?_, hbefore, hextend js hjs⟩
    rw [hv, he, append_assoc, cons_append]
  | writes x hx ht =>
    -- no write is left
    rw [he] at hx
    rcases mem_append.1 hx with hx | hx
    · rw [hbefore x hx] at ht
      cases ht
    · rcases mem_cons.1 hx with rfl | hx
      · cases ht
      · exact absurd ht (not_tracked_of_loads (hbehind x hx))
  | pops x rest js hx ht hjs hv hw hd hc =>
    rw [he] at hx
    cases before with
    | nil =>
      obtain ⟨rfl, rfl⟩ := List.cons.inj hx
      refine .inr ⟨hw.trans hnil, hc rfl, ?_⟩
      rw [hv]
      exact hextend js hjs
    | cons b before =>
      rw [cons_append] at hx
      obtain ⟨rfl, rfl⟩ := List.cons.inj hx
      refine .inl ⟨hw.trans hnil, before, n, behind ++ js, ?_,
        fun x hx => hbefore x (mem_cons_of_mem _ hx), hextend js hjs⟩
      rw [hv, append_assoc, cons_append]
  | wipes tids rest m hw =>
    rw [hnil] at hw
    cases hw

theorem Cleared.turn (h : Cleared w) (ht : Turn w v) : Cleared v := by
  obtain ⟨hnil, herased, hall⟩ := h
  cases ht with
  | asks js hjs hv hw hd =>
    refine ⟨hw.trans hnil, herased.of_eq hd, fun x hx => ?_⟩
    rw [hv] at hx
    rcases mem_append.1 hx with hx | hx
    · exact hall x hx
    · exact hjs x hx
  | writes x hx ht =>
    exact absurd ht (not_tracked_of_loads (hall x hx))
  | pops x rest js hx ht hjs hv hw hd =>
    have hload : x.2.loads = true := hall x (hx ▸ mem_cons_self)
    refine ⟨hw.trans hnil, herased.of_eq (hd hload), fun y hy => ?_⟩
    rw [hv] at hy
    rcases mem_append.1 hy with hy | hy
    · exact hall y (hx ▸ mem_cons_of_mem _ hy)
    · exact hjs y hy
  | wipes tids rest m hw =>
    rw [hnil] at hw
    cases hw

/-! ## Steps that ask for no write -/

/-- The code that runs between `u` and `v` asks for no write: it queues no operation, sets no timer and starts
only reads. -/
@[mk_iff]
structure Silent (u v : World) : Prop where
  pending : ∀ op ∈ v.q.pending.rows, op ∈ u.q.pending.rows
  msgTimer : v.q.msgTimer = true → u.q.msgTimer = true
  chatsTimer : v.chatsTimer = true → u.chatsTimer = true
  jobs : ∀ t ∈ v.txq.drop u.txq.length, t.job.loads = true

/-- The state in which code of the stores begins to run; none when the layer works alone. -/
def Step.caller (w : World) : Step → Option World
  | .openNext =>
    match w.txq.dropWhile (·.opened) with
    | ⟨_, _, .patch started .., _⟩ :: later =>
      if started ≠ w.epoch then some (w.popped (w.txq.takeWhile (·.opened) ++ later)) else none
    | _ => none
  | .advance =>
    match w.txq with
    | ⟨_, true, job, _⟩ :: later => if job.answers then some (w.popped later) else none
    | _ => none
  | .wipe => none
  | .msgTimer => none
  | .chatsTimer => none
  | _ => some w

/-- A step that asks for no write. Nothing fails, and there is no second `clearAll`. -/
def NoWrites (w : World) : Step → Prop
  | .flushFails _ => False
  | .resetAll => False
  | e => ∀ u ∈ e.caller w, Silent u (w.step e)

instance (u v : World) : Decidable (Silent u v) := decidable_of_iff _ (silent_iff u v).symm

instance (w : World) (e : Step) : Decidable (NoWrites w e) := by
  unfold NoWrites
  induction e using Step.casesOn <;> infer_instance

/-- Nothing is queued and no timer is set. -/
structure Still (w : World) : Prop where
  wf : w.Wf
  pending : w.q.pending.rows = []
  msgTimer : w.q.msgTimer = false
  chatsTimer : w.chatsTimer = false

theorem Still.popped (h : Still w) (later : List Txn) : Still (w.popped later) := { h with }

theorem Still.silent (h : Still u) (hwf : v.Wf) (hs : Silent u v) : Still v := by
  have hp := hs.pending
  rw [h.pending] at hp
  refine ⟨hwf, eq_nil_iff_forall_not_mem.2 fun op hop => not_mem_nil (hp op hop), ?_, ?_⟩
  · rw [← Bool.not_eq_true]
    intro ht
    have := hs.msgTimer ht
    rw [h.msgTimer] at this
    cases this
  · rw [← Bool.not_eq_true]
    intro ht
    have := hs.chatsTimer ht
    rw [h.chatsTimer] at this
    cases this

/-- Silent code of the stores queues reads. -/
theorem Silent.asks (hs : Silent u v) (hsync : Sync u v) :
    ∃ js : List (ℕ × Job), (∀ x ∈ js, x.2.loads = true) ∧ v.entries = u.entries ++ js ∧
      v.wiping = u.wiping ∧ v.database = u.database := by
  obtain ⟨ts, ht, -⟩ := hsync.txq
  have hjobs := hs.jobs
  rw [ht, drop_left] at hjobs
  refine ⟨ts.map fun t => (t.tid, t.job), fun x hx => ?_, ?_, hsync.wiping, ?_⟩
  · obtain ⟨t, htm, rfl⟩ := mem_map.1 hx
    exact hjobs t htm
  · rw [World.entries, ht, map_append]
    rfl
  · rw [World.database, hsync.msgs, hsync.chatRows, hsync.account]
    rfl

/-- The head is done and the code that waited for it goes on. -/
theorem Turn.answered {t : Txn} (ht : w.txq = t :: later) (hans : t.job.answers = true)
    (hs : Silent (w.popped later) v) (hsync : Sync (w.popped later) v) : Turn w v := by
  obtain ⟨js, hjs, hv, hw, hd⟩ := hs.asks hsync
  have hentries : w.entries = (t.tid, t.job) :: (w.popped later).entries := by
    rw [World.entries, ht]
    rfl
  cases htr : t.job.tracked with
  | true =>
    refine .writes (t.tid, t.job) (by rw [hentries]; exact mem_cons_self) htr (fun y hy => ?_) hw
    rw [hv] at hy
    rcases mem_append.1 hy with hy | hy
    · exact .inl (by rw [hentries]; exact mem_cons_of_mem _ hy)
    · exact .inr (.inr (hjs y hy))
  | false =>
    refine .pops (t.tid, t.job) _ js hentries htr hjs hv hw (fun _ => hd) fun hc => ?_
    have hc : t.job = .clear := hc
    rw [hc] at hans
    cases hans

theorem entries_of_txq {t : Txn} (ht : w.txq = t :: later) :
    w.entries = (t.tid, t.job) :: later.map fun t => (t.tid, t.job) := by
  rw [World.entries, ht]
  rfl

/-- A slice of a flush is written. -/
theorem turn_flushSlice {ops : Table PendingOp.key} {c : List Chat}
    (h : Still w) (ht : w.txq = ⟨tid, true, .flush started ops, c⟩ :: later) :
    Turn w (flushSlice w tid started ops later) ∧ Still (flushSlice w tid started ops later) := by
  have hentries := entries_of_txq ht
  have hmem : (tid, Job.flush started ops) ∈ w.entries := by
    rw [hentries]
    exact mem_cons_self
  have hold : ∀ y ∈ later.map (fun t => (t.tid, t.job)), y ∈ w.entries := by
    intro y hy
    rw [hentries]
    exact mem_cons_of_mem _ hy
  have htimer : (scheduleFlushMessages w.q).msgTimer = false := by
    simp [scheduleFlushMessages, h.pending, h.msgTimer]
  unfold flushSlice
  dsimp only
  split
  · exact ⟨.writes _ hmem rfl (fun y hy => .inl (hold y hy)) rfl, { h with msgTimer := htimer }⟩
  · split
    · exact ⟨.writes _ hmem rfl (fun y hy => .inl (hold y hy)) rfl, { h with }⟩
    · refine ⟨.writes _ hmem rfl (fun y hy => ?_) rfl, { h with }⟩
      rw [World.entries, map_append] at hy
      rcases mem_append.1 hy with hy | hy
      · exact .inl (hold y hy)
      · obtain rfl := mem_singleton.1 hy
        exact .inr (.inl rfl)

/-- The requests of a patch are made. -/
theorem turn_patchRequests {k : Key} {queued : Option Obj} {fn : Patch} {after : AfterPatch}
    {c : List Chat} (h : Still w) (ht : w.txq = ⟨tid, true, .patch started k queued fn after, c⟩ :: later) :
    Turn w (patchRequests w tid k queued fn after later) ∧
      Still (patchRequests w tid k queued fn after later) := by
  have hentries := entries_of_txq ht
  obtain ⟨msgs, he, -⟩ := patchRequests_eq w tid k queued fn after later
  have hempty : (if (w.msgs.get k).isSome && queued.isSome then w.q.pending.erase k
      else w.q.pending).rows = [] := by
    split
    · show w.q.pending.rows.filter _ = []
      rw [h.pending]
      rfl
    · exact h.pending
  rw [he]
  refine ⟨.writes (tid, .patch started k queued fn after) (by rw [hentries]; exact mem_cons_self) rfl
    (fun y hy => ?_) rfl, { h with pending := hempty }⟩
  rcases mem_cons.1 hy with rfl | hy
  · exact .inr (.inl rfl)
  · exact .inl (by rw [hentries]; exact mem_cons_of_mem _ hy)

theorem turn_advance (h : Still w) (hs : NoWrites w .advance) : Turn w (advance w) ∧ Still (advance w) := by
  -- the answers of reads and patches go to the stores
  have hanswer : ∀ {t later}, w.txq = t :: later → t.opened = true → t.job.answers = true →
      Turn w (advance w) ∧ Still (advance w) := by
    intro t later ht ho hans
    obtain ⟨hsync, hwf⟩ := sync_answered h.wf ht ho hans
    have hsilent : Silent (w.popped later) (advance w) := by
      refine hs _ ?_
      obtain ⟨tid, opened, job, chats⟩ := t
      obtain rfl : opened = true := ho
      simp [Step.caller, ht, hans]
    exact ⟨.answered ht hans hsilent hsync, (h.popped later).silent hwf hsilent⟩
  -- a transaction of the layer itself
  have hown : ∀ {t later} (v : World), w.txq = t :: later → t.job.tracked = true → v.txq = later →
      v.wiping = w.wiping → Turn w v := by
    intro t later v ht htr hv hw
    refine .writes (t.tid, t.job) (by rw [entries_of_txq ht]; exact mem_cons_self) htr (fun y hy => ?_) hw
    rw [World.entries, hv] at hy
    exact .inl (by rw [entries_of_txq ht]; exact mem_cons_of_mem _ hy)
  have hr := ran_advance w
  generalize hv : advance w = v at hr
  cases hr with
  | idle => exact ⟨.refl _, h⟩
  | flush tid started ops c later ht => exact turn_flushSlice h ht
  | patch tid started k₀ queued fn after c later ht => exact turn_patchRequests h ht
  | patched tid k₀ found after c later ht => exact hv ▸ hanswer ht rfl rfl
  | page tid jid limit beforeTs c later ht | tails tid jids n c later ht
  | adopt tid fresh c later ht => exact hv ▸ hanswer ht rfl rfl
  | move tid started l p c later ht | chats tid started c later ht => exact ⟨hown _ ht rfl rfl rfl, { h with }⟩
  | account tid jid c later ht =>
    exact ⟨.pops _ _ [] (entries_of_txq ht) rfl (by simp) (append_nil _).symm rfl nofun nofun, { h with }⟩
  | clear tid c later ht =>
    exact ⟨.pops _ _ [] (entries_of_txq ht) rfl (by simp) (append_nil _).symm rfl nofun
      fun _ => ⟨rfl, rfl, rfl⟩, { h with }⟩

/-- What `openNext` does, and for whom: everything is open, or the first entry that is not is opened, or it is
a write of an older epoch and stops. -/
theorem openNext_caller (w : World) :
    (openNext w = w ∧ Step.openNext.caller w = none ∧ ∀ t ∈ w.txq, t.opened = true) ∨
    ∃ before t later, w.txq = before ++ t :: later ∧ t.opened = false ∧
      (openNext w = w.popped (before ++ ⟨t.tid, true, t.job, w.chats.rows⟩ :: later) ∧
          Step.openNext.caller w = none ∨
        t.job.tracked = true ∧ (openNext w = w.popped (before ++ later) ∧ Step.openNext.caller w = none ∨
          ∃ s k q fn after, t.job = .patch s k q fn after ∧
            openNext w = afterPatch (w.popped (before ++ later)) k false after ∧
            Step.openNext.caller w = some (w.popped (before ++ later)))) := by
  have hsplit := takeWhile_append_dropWhile (p := (·.opened)) (l := w.txq)
  cases hd : w.txq.dropWhile (·.opened) with
  | nil =>
    rw [hd, append_nil] at hsplit
    refine .inl ⟨by simp [openNext, hd], by simp [Step.caller, hd], ?_⟩
    rw [← hsplit]
    exact all_eq_true.1 all_takeWhile
  | cons t later =>
    rw [hd] at hsplit
    have hclosed : t.opened = false := by
      have := head_dropWhile_not (p := (·.opened)) (l := w.txq) (by rw [hd]; simp)
      simpa [hd] using this
    refine .inr ⟨_, t, later, hsplit.symm, hclosed, ?_⟩
    obtain ⟨tid, opened, job, chats⟩ := t
    cases hst : job.stale w.epoch with
    | false =>
      refine .inl ⟨by simp [openNext, hd, hst, World.popped], ?_⟩
      cases job with
      | patch started =>
        have : started = w.epoch := by simpa [Job.stale] using hst
        simp [Step.caller, hd, this]
      | _ => simp [Step.caller, hd]
    | true =>
      right
      cases job with
      | patch started k queued fn after =>
        have hne : started ≠ w.epoch := by simpa [Job.stale] using hst
        exact ⟨rfl, .inr ⟨started, k, queued, fn, after, rfl, by simp [openNext, hd, hst, World.popped],
          by simp [Step.caller, hd, hne]⟩⟩
      | flush | move | chats =>
        exact ⟨rfl, .inl ⟨by simp [openNext, hd, hst, World.popped], by simp [Step.caller, hd]⟩⟩
      | _ => cases hst

theorem turn_openNext (h : Still w) (hs : NoWrites w .openNext) : Turn w (openNext w) ∧ Still (openNext w) := by
  have hs : ∀ u ∈ Step.openNext.caller w, Silent u (openNext w) := hs
  rcases openNext_caller w with ⟨he, -⟩ | ⟨before, t, later, ht, -, ⟨he, -⟩ | ⟨htr, hcase⟩⟩
  · rw [he]
    exact ⟨.refl _, h⟩
  · rw [he]
    refine ⟨.asks [] (by simp) ?_ rfl rfl, h.popped _⟩
    simp [World.entries, World.popped, ht]
  · -- the write is of an older epoch and stops
    have hmem : (t.tid, t.job) ∈ w.entries := mem_map.2 ⟨t, by rw [ht]; simp, rfl⟩
    have hrest : ∀ y ∈ (w.popped (before ++ later)).entries, y ∈ w.entries := by
      intro y hy
      obtain ⟨x, hx, rfl⟩ := mem_map.1 hy
      exact mem_map.2 ⟨x, by rw [ht]; exact mem_removed hx, rfl⟩
    rcases hcase with ⟨he, -⟩ | ⟨s, k, q, fn, after, -, he, hc⟩
    · rw [he]
      exact ⟨.writes _ hmem htr (fun y hy => .inl (hrest y hy)) rfl, h.popped _⟩
    · have hsilent := hs _ hc
      rw [he] at hsilent ⊢
      obtain ⟨hsync, hwf⟩ := (afterPatch_spec (w := w.popped (before ++ later)) h.wf k false after).1.frame
      obtain ⟨js, hjs, hv, hw, -⟩ := hsilent.asks hsync
      refine ⟨.writes _ hmem htr (fun y hy => ?_) hw, (h.popped _).silent hwf hsilent⟩
      rw [hv] at hy
      rcases mem_append.1 hy with hy | hy
      · exact .inl (hrest y hy)
      · exact .inr (.inr (hjs y hy))

theorem turn_wipe (h : Still w) : Turn w (wipe w) ∧ Still (wipe w) := by
  unfold wipe
  split
  · exact ⟨.refl _, h⟩
  · rename_i tids rest hw
    split
    · exact ⟨.refl _, h⟩
    · rename_i hdone
      refine ⟨.wipes tids rest w.nextTid hw rfl (fun x hx => ?_) ?_, { h with }⟩
      · obtain ⟨t, ht, rfl⟩ := mem_map.1 hx
        intro hmem
        exact hdone (any_eq_true.2 ⟨t, ht, by simpa using hmem⟩)
      · simp [World.entries, World.enqueue]

/-- **One step** that asks for no write. -/
theorem turn_step (h : Still w) (hs : NoWrites w e) : Turn w (w.step e) ∧ Still (w.step e) := by
  -- code of the stores
  have hcode : e.sync = true → Silent w (w.step e) → Turn w (w.step e) ∧ Still (w.step e) := by
    intro he hsilent
    obtain ⟨hsync, hwf⟩ := sync_step h.wf he
    obtain ⟨js, hjs, hv, hw, hd⟩ := hsilent.asks hsync
    exact ⟨.asks js hjs hv hw hd, h.silent hwf hsilent⟩
  cases e with
  | openNext => exact turn_openNext h hs
  | advance => exact turn_advance h hs
  | wipe => exact turn_wipe h
  | msgTimer =>
    rw [World.step, h.msgTimer]
    exact ⟨.refl _, h⟩
  | chatsTimer =>
    rw [World.step, h.chatsTimer]
    exact ⟨.refl _, h⟩
  | flushFails | resetAll => exact hs.elim
  | _ => exact hcode rfl (hs w rfl)

/-! ## Every run -/

/-- Every `clearAll` has resolved. -/
def Resolved (w : World) : Prop := w.wiping = [] ∧ Job.clear ∉ w.jobs

instance (w : World) : Decidable (Resolved w) := inferInstanceAs (Decidable (_ ∧ _))

/-- Nothing is stored, and nothing is queued. -/
def Emptied (w : World) : Prop :=
  w.msgs.rows = [] ∧ w.chatRows.rows = [] ∧ w.account = none ∧ w.q.pending.rows = []

/-- The phases, with what holds in all of them. -/
def Wiping (tids : List ℕ) (w : World) : Prop := Still w ∧ (Waits tids w ∨ Clears w ∨ Cleared w)

theorem wiping_clearAll (hwf : w.Wf) : Wiping w.inflight (clearAll w) := by
  refine ⟨⟨hwf, rfl, rfl, rfl⟩, .inl ⟨w.wiping, rfl, fun x hx htr => ?_⟩⟩
  obtain ⟨t, ht, rfl⟩ := mem_map.1 hx
  exact mem_map.2 ⟨t, mem_filter.2 ⟨ht, htr⟩, rfl⟩

theorem Wiping.step (h : Wiping tids w) (hs : NoWrites w e) : Wiping tids (w.step e) := by
  obtain ⟨hstill, hphase⟩ := h
  obtain ⟨hturn, hstill'⟩ := turn_step hstill hs
  refine ⟨hstill', ?_⟩
  rcases hphase with h | h | h
  · exact (h.turn hturn).imp_right Or.inl
  · exact .inr (h.turn hturn)
  · exact .inr (.inr (h.turn hturn))

theorem Wiping.cleared (h : Wiping tids w) (hr : Resolved w) : Cleared w := by
  obtain ⟨hnil, hclear⟩ := hr
  rcases h.2 with ⟨older, hold, -⟩ | ⟨-, before, n, behind, he, -⟩ | h
  · rw [hnil] at hold
    exact absurd hold (by simp)
  · refine absurd ?_ hclear
    have hmem : (n, Job.clear) ∈ w.entries := by
      rw [he]
      exact mem_append_right _ mem_cons_self
    obtain ⟨t, ht, heq⟩ := mem_map.1 hmem
    exact mem_map.2 ⟨t, ht, (Prod.mk.inj heq).2⟩
  · exact h

theorem emptied_of_cleared (hs : Still w) (h : Cleared w) : Emptied w := by
  obtain ⟨-, ⟨h1, h2, h3⟩, -⟩ := h
  exact ⟨by rw [h1]; rfl, by rw [h2]; rfl, h3, hs.pending⟩

/-! ## The wipe comes to its end -/

/-- The code that waits for the answer of this job, if any, asks for nothing. -/
def Job.unattended : Job → Bool
  | .patch _ _ _ _ (.tombstone (some _)) => false
  | .patched _ found (.tombstone (some _)) => found
  | j => !j.loads

/-- How many moves a job still has to make. -/
def Job.moves : Job → ℕ
  | .flush _ ops => ops.rows.length + 1
  | .patch .. => 2
  | _ => 1

/-- A move opens an entry, runs it, or begins a wipe. -/
def Txn.moves (t : Txn) : ℕ := t.job.moves + if t.opened then 0 else 1

def World.moves (w : World) : ℕ := 3 * w.wiping.length + (w.txq.map Txn.moves).sum

theorem moves_pos (t : Txn) : 0 < t.moves := by
  have hjob : 0 < t.job.moves := by cases t.job <;> exact Nat.succ_pos _
  exact Nat.add_pos_left hjob _

theorem silent_of_eq (hq : v.q = u.q) (hc : v.chatsTimer = u.chatsTimer) (ht : v.txq = u.txq) : Silent u v := by
  refine ⟨by simp [hq], by simp [hq], by simp [hc], ?_⟩
  rw [ht, drop_length]
  simp

/-- The end of a patch that inserts no tombstone. -/
theorem afterPatch_still (w : World) (k : Key) (found : Bool) (after : AfterPatch)
    (h : found = true ∨ ∀ f, after ≠ .tombstone (some f)) :
    Silent w (afterPatch w k found after) ∧ (afterPatch w k found after).txq = w.txq ∧
      (afterPatch w k found after).wiping = w.wiping := by
  have hsame : Silent w w := silent_of_eq rfl rfl rfl
  cases after with
  | ignore => exact ⟨hsame, rfl, rfl⟩
  | tombstone fallback =>
    cases fallback with
    | none => exact ⟨hsame, rfl, rfl⟩
    | some f =>
      rcases h with rfl | h
      · exact ⟨hsame, rfl, rfl⟩
      · exact absurd rfl (h f)
  | early status =>
    obtain ⟨t, he⟩ := afterPatch_early w k found status
    rw [he]
    exact ⟨silent_of_eq rfl rfl rfl, rfl, rfl⟩

/-- A step of the layer on its own asks for nothing. It makes a move, unless there is nothing for it to do. -/
structure Progress (w : World) (e : Step) (idle : Prop) : Prop where
  noWrites : NoWrites w e
  unattended : ∀ t ∈ (w.step e).txq, t.job.unattended = true
  fewer : w.step e = w ∧ idle ∨ (w.step e).moves < w.moves

theorem Progress.le {idle : Prop} (h : Progress w e idle) : (w.step e).moves ≤ w.moves := by
  rcases h.fewer with ⟨he, -⟩ | hlt
  · rw [he]
  · exact hlt.le

/-- The layer works alone. -/
theorem noWrites_of_caller (hc : e.caller w = none) (he : e = .openNext ∨ e = .advance) : NoWrites w e := by
  have hall : ∀ u ∈ e.caller w, Silent u (w.step e) := by
    rw [hc]
    nofun
  rcases he with rfl | rfl <;> exact hall

theorem moves_eq (w : World) : w.moves = 3 * w.wiping.length + (w.txq.map Txn.moves).sum := rfl

theorem sum_moves_append (l l' : List Txn) :
    ((l ++ l').map Txn.moves).sum = (l.map Txn.moves).sum + (l'.map Txn.moves).sum := by
  rw [map_append, sum_append]

theorem sum_moves_cons (t : Txn) (l : List Txn) :
    ((t :: l).map Txn.moves).sum = t.moves + (l.map Txn.moves).sum := by
  rw [map_cons, sum_cons]

theorem progress_openNext (h : ∀ t ∈ w.txq, t.job.unattended = true) :
    Progress w .openNext (∀ t ∈ w.txq, t.opened = true) := by
  rcases openNext_caller w with ⟨he, hc, hopened⟩ | ⟨before, t, later, ht, hclosed, hcase⟩
  · exact ⟨noWrites_of_caller hc (.inl rfl), by rwa [World.step, he], .inl ⟨he, hopened⟩⟩
  have hun : t.job.unattended = true := h t (by rw [ht]; simp)
  have hpos := moves_pos t
  have hmoves : w.moves = 3 * w.wiping.length + ((before.map Txn.moves).sum +
      (t.moves + (later.map Txn.moves).sum)) := by
    rw [moves_eq, ht, sum_moves_append, sum_moves_cons]
  -- what is left when the entry stops
  have hstop : NoWrites w .openNext → (openNext w).wiping = w.wiping → (openNext w).txq = before ++ later →
      Progress w .openNext (∀ t ∈ w.txq, t.opened = true) := by
    intro hno hw hq
    refine ⟨hno, fun x hx => ?_, .inr ?_⟩
    · rw [World.step, hq] at hx
      exact h x (by rw [ht]; exact mem_removed hx)
    · rw [World.step, moves_eq, hq, hw, hmoves, sum_moves_append]
      omega
  rcases hcase with ⟨he, hc⟩ | ⟨-, ⟨he, hc⟩ | ⟨s, k, q, fn, after, hj, he, hc⟩⟩
  · refine ⟨noWrites_of_caller hc (.inl rfl), ?_, .inr ?_⟩ <;> rw [World.step, he]
    · intro x hx
      rcases mem_replaced hx with rfl | hx
      · exact hun
      · exact h x (by rwa [ht])
    · rw [hmoves, moves_eq]
      simp only [World.popped, sum_moves_append, sum_moves_cons, Txn.moves, hclosed, Bool.false_eq_true,
        if_true, if_false]
      omega
  · exact hstop (noWrites_of_caller hc (.inl rfl)) (by rw [he]; rfl) (by rw [he]; rfl)
  · have hafter : ∀ f, after ≠ .tombstone (some f) := by
      rintro f rfl
      rw [hj] at hun
      cases hun
    obtain ⟨hsilent, hq, hw⟩ := afterPatch_still (w.popped (before ++ later)) k false after (.inr hafter)
    rw [← he] at hsilent hq hw
    refine hstop (fun u hu => ?_) hw hq
    rw [hc] at hu
    cases hu
    exact hsilent

theorem flushSlice_moves (w : World) (tid started : ℕ) (ops : Table PendingOp.key) (c : List Chat)
    (later : List Txn) (h : ∀ t ∈ later, t.job.unattended = true) :
    (∀ t ∈ (flushSlice w tid started ops later).txq, t.job.unattended = true) ∧
      ((flushSlice w tid started ops later).txq.map Txn.moves).sum <
        Txn.moves ⟨tid, true, .flush started ops, c⟩ + (later.map Txn.moves).sum := by
  have hpos := moves_pos ⟨tid, true, .flush started ops, c⟩
  unfold flushSlice
  dsimp only
  split
  · exact ⟨h, by dsimp only; omega⟩
  · rename_i hmore
    split
    · exact ⟨h, by dsimp only; omega⟩
    · -- what is left is shorter by a slice
      have hlen : (ops.drop FLUSH_SLICE).rows.length < ops.rows.length := by
        have hne : (ops.drop FLUSH_SLICE).rows.length ≠ 0 := by simpa using hmore
        have hdrop : (ops.drop FLUSH_SLICE).rows.length = ops.rows.length - FLUSH_SLICE := length_drop
        have hslice : 0 < FLUSH_SLICE := by decide
        omega
      refine ⟨fun x hx => ?_, ?_⟩
      · rcases mem_append.1 hx with hx | hx
        · exact h x hx
        · rw [mem_singleton.1 hx]
          rfl
      · rw [sum_moves_append, sum_moves_cons]
        simp only [Txn.moves, Job.moves, if_true, map_nil, sum_nil]
        omega

theorem progress_advance (h : ∀ t ∈ w.txq, t.job.unattended = true) :
    Progress w .advance (∀ t later, w.txq = t :: later → t.opened = false) := by
  cases ht : w.txq with
  | nil =>
    have he : advance w = w := by simp [advance, ht]
    exact ⟨noWrites_of_caller (by simp [Step.caller, ht]) (.inr rfl), by rwa [World.step, he],
      Or.inl ⟨he, fun t later heq => absurd heq.symm (cons_ne_nil t later)⟩⟩
  | cons t later =>
    have hlater : ∀ x ∈ later, x.job.unattended = true := by
      intro x hx
      refine h x ?_
      rw [ht]
      exact mem_cons_of_mem _ hx
    have hun := h t (by rw [ht]; exact mem_cons_self)
    have hpos := moves_pos t
    have hmoves : w.moves = 3 * w.wiping.length + (t.moves + (later.map Txn.moves).sum) := by
      rw [moves_eq, ht, sum_moves_cons]
    obtain ⟨tid, opened, job, chats⟩ := t
    cases opened with
    | false =>
      have he : advance w = w := by simp [advance, ht]
      refine ⟨noWrites_of_caller (by simp [Step.caller, ht]) (.inr rfl), by rwa [World.step, he],
        Or.inl ⟨he, ?_⟩⟩
      intro t' later' heq
      rw [← (List.cons.inj heq).1]
    | true =>
      have hdone : ∀ {idle : Prop}, (advance w).wiping = w.wiping → (advance w).txq = later →
          NoWrites w .advance → Progress w .advance idle := by
        intro idle hw htxq hno
        refine ⟨hno, by rwa [World.step, htxq], .inr ?_⟩
        rw [World.step, moves_eq, hw, htxq, hmoves]
        omega
      have halone : job.answers = false → NoWrites w .advance := fun hans =>
        noWrites_of_caller (by simp [Step.caller, ht, hans]) (.inr rfl)
      cases job with
      | flush started ops =>
        have he : advance w = flushSlice w tid started ops later := by simp [advance, ht]
        obtain ⟨h1, h2⟩ := flushSlice_moves w tid started ops chats later hlater
        refine ⟨halone rfl, by rwa [World.step, he], .inr ?_⟩
        rw [World.step, he, moves_eq, (flushSlice_frame w tid started ops later).2.2.1, hmoves]
        omega
      | patch started k queued fn after =>
        have he : advance w = patchRequests w tid k queued fn after later := by simp [advance, ht]
        obtain ⟨msgs, hp, -⟩ := patchRequests_eq w tid k queued fn after later
        refine ⟨halone rfl, ?_, .inr ?_⟩
        · rw [World.step, he, hp]
          intro x hx
          rcases mem_cons.1 hx with rfl | hx
          · cases after with
            | tombstone fallback =>
              cases fallback with
              | none => rfl
              | some => cases hun
            | _ => rfl
          · exact hlater x hx
        · rw [World.step, he, hp, moves_eq, hmoves, sum_moves_cons]
          simp only [Txn.moves, Job.moves]
          omega
      | patched k found after =>
        have he : advance w = afterPatch (w.popped later) k found after := by simp [advance, ht, World.popped]
        have hafter : found = true ∨ ∀ f, after ≠ .tombstone (some f) := by
          cases found with
          | true => exact .inl rfl
          | false =>
            right
            rintro f rfl
            cases hun
        obtain ⟨hsilent, htxq, hw⟩ := afterPatch_still (w.popped later) k found after hafter
        rw [← he] at hsilent htxq hw
        refine hdone hw htxq fun u hu => ?_
        have hcaller : Step.advance.caller w = some (w.popped later) := by simp [Step.caller, ht, Job.answers]
        rw [hcaller] at hu
        obtain rfl := Option.some.inj hu
        exact hsilent
      | move | chats | account | clear => exact hdone (by simp [advance, ht]) (by simp [advance, ht]) (halone rfl)
      | _ => cases hun

theorem progress_wipe (h : ∀ t ∈ w.txq, t.job.unattended = true) :
    Progress w .wipe (w.txq = [] → w.wiping = []) := by
  have hno : NoWrites w .wipe := fun u hu => by cases hu
  cases hw : w.wiping with
  | nil =>
    have he : wipe w = w := by simp [wipe, hw]
    exact ⟨hno, by rwa [World.step, he], .inl ⟨he, fun _ => rfl⟩⟩
  | cons tids rest =>
    cases hbusy : w.txq.any (fun t => t.tid ∈ tids) with
    | true =>
      have he : wipe w = w := by
        simp only [wipe, hw]
        rw [if_pos hbusy]
      refine ⟨hno, by rwa [World.step, he], .inl ⟨he, fun hnil => ?_⟩⟩
      rw [hnil] at hbusy
      cases hbusy
    | false =>
      have he : wipe w = { w with wiping := rest }.enqueue .clear := by
        simp only [wipe, hw]
        rw [if_neg (by rw [hbusy]; exact Bool.false_ne_true)]
      refine ⟨hno, ?_, .inr ?_⟩
      · rw [World.step, he]
        intro x hx
        rcases mem_append.1 hx with hx | hx
        · exact h x hx
        · rw [mem_singleton.1 hx]
          rfl
      · rw [World.step, he, moves_eq, moves_eq w, hw]
        simp only [World.enqueue, sum_moves_append, sum_moves_cons, length_cons, Txn.moves, Job.moves,
          map_nil, sum_nil, Bool.false_eq_true, if_false]
        omega

/-- **What is in flight settles**, by moves of the transaction queue alone. -/
theorem moves_settle (w : World) (h : ∀ t ∈ w.txq, t.job.unattended = true) :
    ∃ es : List Step, (∀ e ∈ es, e = .openNext ∨ e = .advance) ∧ (w.run es).txq = [] := by
  induction hm : w.moves using Nat.strong_induction_on generalizing w with
  | _ n ih =>
    have hafter : ∀ e : Step, (e = .openNext ∨ e = .advance) → (w.step e).moves < w.moves →
        (∀ t ∈ (w.step e).txq, t.job.unattended = true) →
        ∃ es : List Step, (∀ e ∈ es, e = .openNext ∨ e = .advance) ∧ (w.run es).txq = [] := by
      intro e he hlt hun
      obtain ⟨es, hes, ht⟩ := ih _ (hm ▸ hlt) (w.step e) hun rfl
      refine ⟨e :: es, fun e' he' => ?_, ht⟩
      rcases mem_cons.1 he' with rfl | he'
      · exact he
      · exact hes e' he'
    have h1 := progress_openNext h
    have h2 := progress_advance h
    rcases h1.fewer with ⟨-, hopened⟩ | hlt
    · rcases h2.fewer with ⟨-, hclosed⟩ | hlt
      · refine ⟨[], fun e he => absurd he not_mem_nil, ?_⟩
        cases ht : w.txq with
        | nil => exact ht
        | cons t later =>
          have hopen := hopened t (by rw [ht]; exact mem_cons_self)
          rw [hclosed t later ht] at hopen
          cases hopen
      · exact hafter .advance (.inr rfl) hlt h2.unattended
    · exact hafter .openNext (.inl rfl) hlt h1.unattended

/-! ## Rounds -/

/-- Every part of the layer gets its turn, `n` times. -/
def rounds : ℕ → List Step
  | 0 => []
  | n + 1 => [.openNext, .advance, .wipe] ++ rounds n

/-- A round makes a move, as long as anything is outstanding. -/
theorem progress_round (h : ∀ t ∈ w.txq, t.job.unattended = true) :
    Along World.step NoWrites w [.openNext, .advance, .wipe] ∧
      (∀ t ∈ (w.run [.openNext, .advance, .wipe]).txq, t.job.unattended = true) ∧
      ((w.run [.openNext, .advance, .wipe]).moves < w.moves ∨ w.txq = [] ∧ w.wiping = []) := by
  have h1 := progress_openNext h
  have h2 := progress_advance h1.unattended
  have h3 := progress_wipe h2.unattended
  refine ⟨⟨h1.noWrites, h2.noWrites, h3.noWrites, trivial⟩, h3.unattended, ?_⟩
  have hrun : w.run [.openNext, .advance, .wipe] = ((w.step .openNext).step .advance).step .wipe := rfl
  have hle2 := h2.le
  have hle3 := h3.le
  rw [hrun]
  rcases h1.fewer with ⟨he1, hopened⟩ | hlt
  · rcases h2.fewer with ⟨he2, hclosed⟩ | hlt
    · rcases h3.fewer with ⟨-, hwiping⟩ | hlt
      · -- no part of the layer has anything to do
        right
        rw [he1] at hclosed hwiping he2
        rw [he2] at hwiping
        have hnil : w.txq = [] := by
          cases ht : w.txq with
          | nil => rfl
          | cons t later =>
            have hopen := hopened t (by rw [ht]; exact mem_cons_self)
            rw [hclosed t later ht] at hopen
            cases hopen
        exact ⟨hnil, hwiping hnil⟩
      · rw [he2, he1] at hlt
        rw [he2, he1]
        exact .inl hlt
    · rw [he1] at hlt hle3 ⊢
      exact .inl (hle3.trans_lt hlt)
  · exact .inl ((hle3.trans hle2).trans_lt hlt)

/-- **The layer comes to rest.** -/
theorem rounds_settle (w : World) (h : ∀ t ∈ w.txq, t.job.unattended = true) :
    ∃ n, Along World.step NoWrites w (rounds n) ∧ (w.run (rounds n)).txq = [] ∧
      (w.run (rounds n)).wiping = [] := by
  induction hm : w.moves using Nat.strong_induction_on generalizing w with
  | _ m ih =>
    obtain ⟨hno, hun, hlt | ⟨ht, hw⟩⟩ := progress_round h
    · rw [hm] at hlt
      obtain ⟨n, h1, h2, h3⟩ := ih _ hlt _ hun rfl
      refine ⟨n + 1, along_append.2 ⟨hno, h1⟩, ?_, ?_⟩ <;> rwa [World.run, rounds, run_append]
    · exact ⟨0, trivial, ht, hw⟩

/-! ## The barrier -/

/-- **The wipe is a barrier**, whatever was in flight when `clearAll` was called. If nobody asks for a write after
it, the stores and the queue are empty when it resolves, and ever after. With writes alone in flight, whose callers
ask for nothing more, the layer gets there on its own. -/
theorem clearAll_barrier (w : World) (hwf : w.Wf) :
    (∀ es es' : List Step, Along World.step NoWrites (clearAll w) (es ++ es') →
      Resolved ((clearAll w).run es) →
      Emptied ((clearAll w).run es) ∧ Emptied ((clearAll w).run (es ++ es'))) ∧
    ((∀ t ∈ w.txq, t.job.unattended = true) →
      ∃ n, Along World.step NoWrites (clearAll w) (rounds n) ∧ Resolved ((clearAll w).run (rounds n)) ∧
        ((clearAll w).run (rounds n)).txq = []) := by
  constructor
  · intro es es' ha hr
    obtain ⟨ha, ha'⟩ := along_append.1 ha
    have hphase : Wiping w.inflight ((clearAll w).run es) :=
      Along.inv (fun _ _ h hs => h.step hs) (wiping_clearAll hwf) ha
    have hdone := hphase.cleared hr
    have hlater : Still ((clearAll w).run (es ++ es')) ∧ Cleared ((clearAll w).run (es ++ es')) := by
      rw [World.run, run_append]
      refine Along.inv (I := fun v => Still v ∧ Cleared v) (fun v e h hs => ?_) ⟨hphase.1, hdone⟩ ha'
      obtain ⟨hturn, hstill⟩ := turn_step h.1 hs
      exact ⟨hstill, h.2.turn hturn⟩
    exact ⟨emptied_of_cleared hphase.1 hdone, emptied_of_cleared hlater.1 hlater.2⟩
  · intro hun
    obtain ⟨n, hno, ht, hw⟩ := rounds_settle (clearAll w) hun
    refine ⟨n, hno, ⟨hw, ?_⟩, ht⟩
    rw [World.jobs, ht]
    exact List.not_mem_nil

/-- A flush with its transaction open, a read, a second flush and the chat list are in flight. -/
theorem clearAll_barrier_flights :
    let w := World.init.run [.enablePersistence, .addMessage msgX, .openNext, .advance, .flushPendingWrites,
      .openNext, .addMessage msgY, .flushPendingWrites, .chatsTimer]
    let es : List Step := [.advance, .openNext, .advance, .openNext, .openNext, .wipe, .openNext, .advance]
    ((clearAll w).run (es.take 1)).msgs.rows.length = 1 ∧ Emptied ((clearAll w).run es) := by
  intro w es
  have hwf : w.Wf := (inv_of_reachable ⟨_, rfl⟩).wf
  exact ⟨by decide +kernel, ((clearAll_barrier w hwf).1 es [] (by decide +kernel) (by decide +kernel)).1⟩

end Whatsvelte
