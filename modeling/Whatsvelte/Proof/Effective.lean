import Whatsvelte.Spec.Loop

/-!
# The effective history

`World.persisted` is what the `msgs` store would hold after the write queue is
applied. `World.eff` also counts the transactions that are still outstanding: it is
what the store will hold under each key once everything queued now has run in order.
With nothing outstanding the two are the same (`eff_of_quiescent`).

Each persistence call changes the effective history in one place, whatever is in
flight (`eff_persistMessage`, …), and running the queue does not change it
(`Proof.Queue`). So the stores are reasoned about as if every write were immediate.
-/

namespace Whatsvelte

open List Table

/-- The record under each key of the `msgs` store. -/
abbrev History := Key → Option UiMessage

/-- What one queued operation makes of the record under its key. -/
def PendingOp.eff : PendingOp → Option UiMessage → Option UiMessage
  | .put m, _ => some (toRecord m.msg m.msg.chatJid)
  | .add m, r => r.or (some (toRecord m.msg m.msg.chatJid))
  | .del _ _, _ => none

def opsEff (ops : Table PendingOp.key) (H : History) : History := fun k =>
  (ops.get k).elim (H k) (·.eff (H k))

/-- What a read-modify-write makes of the record under its key. -/
def patchEff (queued : Option Obj) (fn : Patch) (r : Option UiMessage) : Option UiMessage :=
  ((r.or (queued.map (·.msg))).bind fn.apply).or r

/-- What a move makes of the history; the rows of `fromJid` win over those of `toJid`. -/
def moveEff (fromJid toJid : Jid) (H : History) : History := fun k =>
  if k.chatJid = toJid then ((H ⟨fromJid, k.id⟩).map (rekey fromJid toJid)).or (H k)
  else if k.chatJid = fromJid then none
  else H k

/-- What an outstanding job will make of the history. -/
def Job.eff : Job → History → History
  | .flush _ ops, H => opsEff ops H
  | .patch _ k queued fn _, H => Function.update H k (patchEff queued fn (H k))
  | .move _ fromJid toJid, H => moveEff fromJid toJid H
  | .clear, _ => fun _ => none
  | _, H => H

def jobsEff (jobs : List Job) (H : History) : History := jobs.foldl (fun H job => job.eff H) H

/-- The history once the outstanding transactions have run. -/
def World.base (w : World) : History := jobsEff w.jobs w.msgs.get

/-- The history once the outstanding transactions and the queue have run. -/
def World.eff (w : World) : History := opsEff w.q.pending w.base

/-- The effective persisted copy: the record the store would hold after the pending
queue is applied. -/
def World.persisted (w : World) : History := opsEff w.q.pending w.msgs.get

theorem eff_of_idle {w : World} (h : w.txq = []) : w.eff = w.persisted := by
  simp [World.eff, World.persisted, World.base, World.jobs, jobsEff, h]

theorem jobsEff_append (js js' : List Job) (H : History) :
    jobsEff (js ++ js') H = jobsEff js' (jobsEff js H) := foldl_append

@[simp] theorem jobsEff_nil (H : History) : jobsEff [] H = H := rfl

@[simp] theorem jobsEff_cons (j : Job) (js : List Job) (H : History) :
    jobsEff (j :: js) H = jobsEff js (j.eff H) := rfl

/-! ## The store operations compute the effects -/

theorem get_applyOp (t : Table UiMessage.key) (op : PendingOp) (k : Key) :
    (applyOp t op).get k = if op.key = k then op.eff (t.get k) else t.get k := by
  cases op with
  | put => exact get_set t _ k
  | add => exact get_add t _ k
  | del => exact get_erase t _ k

theorem get_applyOps_list (ops : List PendingOp) (hn : (ops.map PendingOp.key).Nodup) :
    ∀ (t : Table UiMessage.key) (k : Key), (applyOps t ops).get k =
      (ops.find? (fun op => op.key = k)).elim (t.get k) (·.eff (t.get k)) := by
  induction ops with
  | nil => intro t k; rfl
  | cons op ops ih =>
    intro t k
    simp only [map_cons, nodup_cons] at hn
    have ih := ih hn.2 (applyOp t op) k
    simp only [applyOps, foldl_cons] at ih ⊢
    rw [ih, get_applyOp]
    by_cases h : op.key = k
    · -- the keys are distinct, so nothing else in the slice writes this one
      have : ops.find? (fun op => op.key = k) = none := by
        rw [find?_eq_none]
        intro x hx hxk
        exact hn.1 (mem_map.2 ⟨x, hx, by simpa [h] using hxk⟩)
      simp [h, this]
    · simp [h]

/-- **A slice writes what its operations say.** -/
theorem get_applyOps (t : Table UiMessage.key) (ops : Table PendingOp.key) :
    (applyOps t ops.rows).get = opsEff ops t.get := by
  funext k; exact get_applyOps_list ops.rows ops.nodup t k

theorem get_move_fold {fromJid toJid : Jid} (hne : fromJid ≠ toJid) (rows : List UiMessage)
    (hn : (rows.map UiMessage.key).Nodup) (hf : ∀ m ∈ rows, m.chatJid = fromJid) :
    ∀ (t : Table UiMessage.key) (k : Key),
      (rows.foldl (fun t row => (t.set (rekey fromJid toJid row)).erase row.key) t).get k =
        if k.chatJid = toJid then
          ((rows.find? (fun m => m.key = ⟨fromJid, k.id⟩)).map (rekey fromJid toJid)).or (t.get k)
        else if (rows.find? (fun m => m.key = k)).isSome then none else t.get k := by
  induction rows with
  | nil => intro t k; simp
  | cons m rows ih =>
    intro t k
    simp only [map_cons, nodup_cons] at hn
    have hm : m.chatJid = fromJid := hf m mem_cons_self
    rw [foldl_cons, ih hn.2 (fun x hx => hf x (mem_cons_of_mem _ hx)), get_erase, get_set]
    have hmk : ∀ k', m.key = k' → rows.find? (fun x => x.key = k') = none := by
      rintro k' rfl
      rw [find?_eq_none]
      intro x hx hxk
      exact hn.1 (mem_map.2 ⟨x, hx, by simpa using hxk⟩)
    have hrk : (rekey fromJid toJid m).key = ⟨toJid, m.id⟩ := rfl
    by_cases hk : k.chatJid = toJid
    · have h1 : m.key ≠ k := by
        rintro rfl; exact hne (hm.symm.trans hk)
      simp only [hk, if_true, h1, if_false, hrk]
      by_cases hid : m.id = k.id
      · have h2 : m.key = ⟨fromJid, k.id⟩ := by rw [← hm, ← hid]; rfl
        have h3 : (⟨toJid, m.id⟩ : Key) = k := by rw [← hk, hid]
        simp [h2, hmk _ h2, h3]
      · have h2 : m.key ≠ ⟨fromJid, k.id⟩ := by
          intro h; exact hid (congrArg Key.id h)
        have h3 : (⟨toJid, m.id⟩ : Key) ≠ k := by
          rintro rfl; exact hid rfl
        simp [h2, h3]
    · have h3 : (⟨toJid, m.id⟩ : Key) ≠ k := by
        rintro rfl; exact hk rfl
      simp only [hk, if_false, hrk, h3]
      by_cases h1 : m.key = k <;> simp [h1]

/-- **The cursor moves the history.** -/
theorem get_moveRows {fromJid toJid : Jid} (hne : fromJid ≠ toJid) (t : Table UiMessage.key) :
    (moveRows t fromJid toJid).get = moveEff fromJid toJid t.get := by
  have hn : ((t.rows.filter (·.chatJid = fromJid)).map UiMessage.key).Nodup :=
    t.nodup.sublist (filter_sublist.map _)
  have hget : ∀ k : Key, k.chatJid = fromJid →
      (t.rows.filter (·.chatJid = fromJid)).find? (fun m => m.key = k) = t.get k := by
    intro k hk
    have := Table.get_filter t (fun m => m.chatJid = fromJid) k
    change (t.filter _).get k = t.get k
    rw [this]
    cases hg : t.get k with
    | none => rfl
    | some m =>
      have : m.chatJid = fromJid := by rw [← hk, ← get_key hg]; rfl
      simp [this]
  funext k
  unfold moveRows moveEff
  rw [get_move_fold hne _ hn (fun m hm => by simpa using (mem_filter.1 hm).2)]
  split
  · rw [hget ⟨fromJid, k.id⟩ rfl]
  · split
    · rename_i h
      rw [if_pos]
      obtain ⟨m, hm, hk⟩ := List.find?_isSome.1 h
      rw [← of_decide_eq_true hk]
      change m.chatJid = fromJid
      simpa using (mem_filter.1 hm).2
    · rename_i hk h
      split
      · rename_i hkf
        rw [hget k hkf] at h
        simpa using h
      · rfl

/-! ## The effect of a persistence call -/

variable {w : World} {q : Queue} {m : Obj} {k : Key}

theorem eff_apply (w : World) (k : Key) :
    w.eff k = (w.q.pending.get k).elim (w.base k) (·.eff (w.base k)) := rfl

@[simp] theorem jobs_enqueue (w : World) (job : Job) : (w.enqueue job).jobs = w.jobs ++ [job] := by
  simp [World.jobs, World.enqueue]

theorem base_enqueue (w : World) (job : Job) : (w.enqueue job).base = job.eff w.base := by
  simp only [World.base, jobs_enqueue, jobsEff_append]; rfl

/-- A record as `persistMessage` leaves it: messages that are not persistable stay out. -/
def putEff (m : UiMessage) (r : Option UiMessage) : Option UiMessage :=
  if persistable m then some m else r

@[simp] theorem scheduleFlushMessages_pending (q : Queue) :
    (scheduleFlushMessages q).pending = q.pending := rfl

theorem get_persistMessage (q : Queue) (m : Obj) (k : Key) :
    (persistMessage q m).pending.get k =
      if persistable m.msg ∧ m.key = k then some (.put m) else q.pending.get k := by
  unfold persistMessage
  by_cases hp : persistable m.msg
  · simp only [hp, if_true, scheduleFlushMessages_pending, get_set, true_and]
    rfl
  · simp [hp]

theorem get_persistMessage_of_ne (h : m.key ≠ k) : (persistMessage q m).pending.get k = q.pending.get k := by
  simp [get_persistMessage, h]

/-- An insert-only write leaves a queued full write alone. -/
def insertOver (m : Obj) : Option PendingOp → Option PendingOp
  | some (.put x) => some (.put x)
  | _ => some (.add m)

theorem get_persistMessageInsert (q : Queue) (m : Obj) (k : Key) :
    (persistMessageInsert q m).pending.get k =
      if persistable m.msg ∧ m.key = k then insertOver m (q.pending.get k) else q.pending.get k := by
  have hs : (q.pending.set (.add m)).get k = if m.key = k then some (.add m) else q.pending.get k :=
    get_set q.pending (.add m) k
  unfold persistMessageInsert
  by_cases hp : persistable m.msg
  · simp only [hp, if_true, true_and]
    split
    · rename_i x hx
      split
      · rename_i hk
        rw [← hk, hx]
        rfl
      · rfl
    · rename_i hx
      rw [scheduleFlushMessages_pending, hs]
      refine ite_congr rfl (fun hk => ?_) fun _ => rfl
      rw [insertOver]
      exact fun x he => hx x (hk ▸ he)
  · simp [hp]

theorem get_persistMessageInsert_of_ne (h : m.key ≠ k) :
    (persistMessageInsert q m).pending.get k = q.pending.get k := by
  simp [get_persistMessageInsert, h]

theorem isSome_insertOver (m : Obj) (r : Option PendingOp) : (insertOver m r).isSome = true := by
  unfold insertOver
  split <;> rfl

theorem insertOver_eq_put {r : Option PendingOp} {n : Obj} :
    insertOver m r = some (.put n) ↔ r = some (.put n) := by
  unfold insertOver
  split
  · exact Iff.rfl
  · rename_i hr
    exact ⟨fun h => (nomatch h), fun h => absurd h (hr n)⟩

/-- An insert-only write is no full write, and drops none. -/
theorem get_insert_put {n : Obj} :
    (persistMessageInsert q m).pending.get k = some (.put n) ↔ q.pending.get k = some (.put n) := by
  rw [get_persistMessageInsert]
  split
  · exact insertOver_eq_put
  · exact Iff.rfl

theorem get_insert_cases {op : PendingOp} (h : (persistMessageInsert q m).pending.get k = some op) :
    q.pending.get k = some op ∨ op = .add m := by
  rw [get_persistMessageInsert] at h
  split at h
  · unfold insertOver at h
    split at h
    · rename_i hx
      exact .inl (hx.trans h)
    · exact .inr (Option.some.inj h).symm
  · exact .inl h

theorem get_persistMessageDelete (q : Queue) (jid : Jid) (id : MsgId) (k : Key) :
    (persistMessageDelete q jid id).pending.get k =
      if id ≠ "" ∧ (⟨jid, id⟩ : Key) = k then some (.del jid id) else q.pending.get k := by
  unfold persistMessageDelete
  by_cases hid : id = ""
  · simp [hid]
  · simp only [hid, if_false, scheduleFlushMessages_pending, get_set, ne_eq, not_false_eq_true, true_and]
    rfl

theorem get_persistMessageDelete_of_ne {jid : Jid} {id : MsgId} (h : (⟨jid, id⟩ : Key) ≠ k) :
    (persistMessageDelete q jid id).pending.get k = q.pending.get k := by
  simp [get_persistMessageDelete, h]

theorem get_persistAll_of_ne {written : List Obj} (h : ∀ m ∈ written, m.key ≠ k) :
    (persistAll q written).pending.get k = q.pending.get k := by
  induction written generalizing q with
  | nil => rfl
  | cons m written ih =>
    change (persistAll (persistMessage q m) written).pending.get k = _
    rw [ih (fun x hx => h x (mem_cons_of_mem _ hx)), get_persistMessage_of_ne (h m mem_cons_self)]

theorem get_persistAll_of_mem {written : List Obj} (hm : m ∈ written)
    (hu : ∀ x ∈ written, x.key = m.key → x = m) :
    (persistAll q written).pending.get m.key =
      if persistable m.msg then some (.put m) else q.pending.get m.key := by
  induction written generalizing q with
  | nil => simp at hm
  | cons x written ih =>
    change (persistAll (persistMessage q x) written).pending.get m.key = _
    by_cases hw : m ∈ written
    · rw [ih hw (fun y hy => hu y (mem_cons_of_mem _ hy)), get_persistMessage]
      by_cases hx : x.key = m.key
      · cases hu x mem_cons_self hx
        by_cases hp : persistable m.msg <;> simp [hp]
      · simp [hx]
    · have hx : x = m := (mem_cons.1 hm).elim Eq.symm (fun h => absurd h hw)
      subst hx
      rw [get_persistAll_of_ne, get_persistMessage]
      · simp
      · intro y hy hk
        exact hw (hu y (mem_cons_of_mem _ hy) hk ▸ hy)

end Whatsvelte
