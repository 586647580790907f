import Whatsvelte.Proof.Update

/-!
# LID→PN unification

What a merge of `l` into `p` does to the slots: nothing is left under `l`
(`applyMerge_from`), and the slot of a message under `p` is put together from the two
(`applyMerge_to`): in memory the copy of `p` wins, in the queue and in the database
the one of `l`. Every other chat keeps its slots.
-/

namespace Whatsvelte

open Function (update)

variable {w v : World} {k : Key} {l p : Jid} {o : Obj} {id : MsgId}

theorem rekey_key (l p : Jid) (m : UiMessage) : (rekey l p m).key = ⟨p, m.id⟩ := rfl

/-! ## The write queue -/

/-- A queued operation of `l`, re-keyed. -/
inductive Rekeyed (l p : Jid) : PendingOp → Option PendingOp → Prop
  | put (m : Obj) (ref : ℕ) : Rekeyed l p (.put m) (some (.put ⟨ref, rekey l p m.msg⟩))
  | add (m : Obj) (ref : ℕ) : Rekeyed l p (.add m) (some (.add ⟨ref, rekey l p m.msg⟩))
  | del (c : Jid) (i : MsgId) : Rekeyed l p (.del c i) none

/-- What the queue holds under `p` after the move: the operation of `l`, or its own. -/
def MovedOp (l p : Jid) (own : Option PendingOp) : Option PendingOp → Option PendingOp → Prop
  | none, r => r = own
  | some op, r => ∃ r', Rekeyed l p op r' ∧ r = r'.or own

theorem movePendingOp_of_ne {op : PendingOp} (t : Table PendingOp.key × ℕ)
    (h : op.key.chatJid ≠ l) : movePendingOp l p t op = t := by
  unfold movePendingOp; rw [if_pos h]

theorem get_movePendingOp (hne : l ≠ p) {op : PendingOp} (h : op.key.chatJid = l)
    (t : Table PendingOp.key × ℕ) :
    ∃ r, Rekeyed l p op r ∧ ∀ k : Key, (movePendingOp l p t op).1.get k =
      if k = op.key then none else if k = ⟨p, op.key.id⟩ then r.or (t.1.get k) else t.1.get k := by
  have hkp : (⟨p, op.key.id⟩ : Key) ≠ op.key := by
    intro he; exact hne (h.symm.trans (congrArg Key.chatJid he).symm)
  unfold movePendingOp
  rw [if_neg (not_not.2 h)]
  cases op with
  | put m =>
    refine ⟨_, .put m t.2, fun k => ?_⟩
    exact Table.get_set_erase t.1 (a := .put ⟨t.2, rekey l p m.msg⟩) rfl (Ne.symm hkp) k
  | add m =>
    refine ⟨_, .add m t.2, fun k => ?_⟩
    exact Table.get_set_erase t.1 (a := .add ⟨t.2, rekey l p m.msg⟩) rfl (Ne.symm hkp) k
  | del c i =>
    refine ⟨_, .del c i, fun k => ?_⟩
    rw [Table.get_erase]
    by_cases hk : k = PendingOp.key (.del c i)
    · subst hk; simp
    · rw [if_neg (Ne.symm hk), if_neg hk]
      split <;> rfl

theorem get_movePending_fold (hne : l ≠ p) (ops : List PendingOp)
    (hn : (ops.map PendingOp.key).Nodup) : ∀ t : Table PendingOp.key × ℕ,
      (∀ k : Key, k.chatJid = l → (ops.foldl (movePendingOp l p) t).1.get k =
        if (ops.find? (fun op => op.key = k)).isSome then none else t.1.get k) ∧
      (∀ id, MovedOp l p (t.1.get ⟨p, id⟩) (ops.find? (fun op => op.key = ⟨l, id⟩))
        ((ops.foldl (movePendingOp l p) t).1.get ⟨p, id⟩)) ∧
      (∀ k : Key, k.chatJid ≠ l → k.chatJid ≠ p →
        (ops.foldl (movePendingOp l p) t).1.get k = t.1.get k) := by
  induction ops with
  | nil => intro t; exact ⟨fun _ _ => rfl, fun _ => rfl, fun _ _ _ => rfl⟩
  | cons op ops ih =>
    intro t
    simp only [List.map_cons, List.nodup_cons] at hn
    simp only [List.foldl_cons]
    obtain ⟨h1, h2, h3⟩ := ih hn.2 (movePendingOp l p t op)
    by_cases hl : op.key.chatJid = l
    · obtain ⟨r, hr, hget⟩ := get_movePendingOp hne hl t
      have hnone : ops.find? (fun x => x.key = op.key) = none := by
        rw [List.find?_eq_none]
        intro x hx hk
        exact hn.1 (List.mem_map.2 ⟨x, hx, by simpa using hk⟩)
      refine ⟨fun k hk => ?_, fun id => ?_, fun k hk hk' => ?_⟩
      · rw [h1 k hk, hget]
        by_cases he : op.key = k
        · subst he; simp
        · have hkp : k ≠ ⟨p, op.key.id⟩ := by rintro rfl; exact hne hk.symm
          simp [he, Ne.symm he, hkp]
      · have h2 := h2 id
        rw [hget] at h2
        have hne' : (⟨p, id⟩ : Key) ≠ op.key := by
          intro he; exact hne (hl.symm.trans (congrArg Key.chatJid he).symm)
        rw [if_neg hne'] at h2
        by_cases hi : op.key.id = id
        · have hk : op.key = ⟨l, id⟩ := by rw [← hl, ← hi]
          rw [hk] at hnone
          rw [hnone, if_pos (by rw [hi])] at h2
          rw [List.find?_cons_of_pos (by simpa using hk)]
          exact ⟨r, hr, h2⟩
        · have hk : op.key ≠ ⟨l, id⟩ := fun h => hi (congrArg Key.id h)
          rw [if_neg (by rintro h; exact hi (congrArg Key.id h).symm)] at h2
          rwa [List.find?_cons_of_neg (by simpa using hk)]
      · rw [h3 k hk hk', hget, if_neg, if_neg]
        · rintro rfl; exact hk' rfl
        · rintro rfl; exact hk hl
    · rw [movePendingOp_of_ne t hl] at h1 h2 h3 ⊢
      have hnk : ∀ k : Key, k.chatJid = l → op.key ≠ k := by rintro k hk rfl; exact hl hk
      refine ⟨fun k hk => ?_, fun id => ?_, h3⟩
      · rw [List.find?_cons_of_neg (by simpa using hnk k hk)]; exact h1 k hk
      · rw [List.find?_cons_of_neg (by simpa using hnk ⟨l, id⟩ rfl)]; exact h2 id

/-! ## The persisted side -/

/-- The record under `p` once the move has run. -/
def World.baseMerged (w : World) (l p : Jid) (id : MsgId) : Option UiMessage :=
  ((w.base ⟨l, id⟩).map (rekey l p)).or (w.base ⟨p, id⟩)

/-- What moving the persisted chat `l` to `p` does. -/
structure Moves (l p : Jid) (w v : World) : Prop where
  jobs : v.jobs = w.jobs ++ [.move w.epoch l p]
  source : ∀ k : Key, k.chatJid = l → v.eff k = none
  pending : ∀ id, MovedOp l p (w.q.pending.get ⟨p, id⟩) (w.q.pending.get ⟨l, id⟩)
    (v.q.pending.get ⟨p, id⟩)
  base : ∀ id, v.base ⟨p, id⟩ = w.baseMerged l p id
  other : ∀ k : Key, k.chatJid ≠ l → k.chatJid ≠ p → v.eff k = w.eff k

theorem movePersistedChat_spec (w : World) (hne : l ≠ p) : Moves l p w (movePersistedChat w l p) := by
  unfold movePersistedChat
  rw [if_neg hne]
  dsimp only
  obtain ⟨h1, h2, h3⟩ := get_movePending_fold hne w.q.pending.rows w.q.pending.nodup (w.q.pending, w.nextRef)
  generalize hm : w.q.pending.rows.foldl (movePendingOp l p) (w.q.pending, w.nextRef) = moved at *
  generalize hw₁ : ({ w with q := { w.q with pending := moved.1 }, nextRef := moved.2 } : World) = w₁
  have hbase₁ : w₁.base = w.base := by rw [← hw₁]; rfl
  have hbase : (w₁.enqueue (.move w.epoch l p)).base = moveEff l p w.base := by
    rw [base_enqueue, hbase₁]; rfl
  have hpend : (w₁.enqueue (.move w.epoch l p)).q.pending = moved.1 := by rw [← hw₁]; rfl
  refine ⟨?_, ?_, ?_, ?_, ?_⟩
  · rw [jobs_enqueue, ← hw₁]; rfl
  · intro k hk
    have hget : moved.1.get k = none := by
      rw [h1 k hk]
      split
      · rfl
      · rename_i hn
        simpa [Table.get] using hn
    rw [eff_apply, hpend, hget, hbase]
    simp [moveEff, hk, hne]
  · intro id; rw [hpend]; exact h2 id
  · intro id; rw [hbase]; simp [moveEff, World.baseMerged]
  · intro k hk hk'
    refine eff_congr (by rw [hpend, h3 k hk hk']) ?_
    rw [hbase]; simp [moveEff, hk, hk']

/-- The move itself leaves the resident lists alone. -/
theorem movePersistedChat_wf (h : w.Wf) (l p : Jid) :
    Sync w (movePersistedChat w l p) ∧ (movePersistedChat w l p).Wf ∧
      ∀ k, ((movePersistedChat w l p).slot k).resident = (w.slot k).resident := by
  unfold movePersistedChat
  split
  · exact ⟨.refl w, h, fun _ => rfl⟩
  · rename_i hne
    refine ⟨?_, h, fun _ => rfl⟩
    generalize w.q.pending.rows.foldl (movePendingOp l p) (w.q.pending, w.nextRef) = moved
    have hs : Sync w { w with q := { w.q with pending := moved.1 }, nextRef := moved.2 } := .of_same
    exact hs.trans (.enqueue _ (by simp [Job.stale]) (by simpa [Job.proper] using hne))

namespace Moves

theorem of_left {w₁ : World} (h : Moves l p w₁ v) (hp : w₁.q.pending = w.q.pending)
    (ht : w₁.txq = w.txq) (hm : w₁.msgs = w.msgs) (he : w₁.epoch = w.epoch) : Moves l p w v := by
  have hj : w₁.jobs = w.jobs := by rw [World.jobs, ht]; rfl
  have hb : w₁.base = w.base := by rw [World.base, hj, hm]; rfl
  have heff : w₁.eff = w.eff := by rw [World.eff, hp, hb]; rfl
  exact ⟨by rw [h.jobs, hj, he], h.source, hp ▸ h.pending, fun id => by
    rw [h.base, World.baseMerged, hb]; rfl, heff ▸ h.other⟩

theorem of_right {u : World} (h : Moves l p w v) (hs : Same v u) : Moves l p w u :=
  ⟨hs.jobs.trans h.jobs, fun k hk => by rw [hs.eff]; exact h.source k hk,
    fun id => by rw [hs.pending]; exact h.pending id, fun id => by rw [hs.base]; exact h.base id,
    fun k hk hk' => by rw [hs.eff]; exact h.other k hk hk'⟩

/-- An id that `l` does not know stays as it is under `p`. -/
theorem eff_of_no_source (h : Moves l p w v) (hp : w.q.pending.get ⟨l, id⟩ = none)
    (hb : w.base ⟨l, id⟩ = none) : v.eff ⟨p, id⟩ = w.eff ⟨p, id⟩ := by
  have hpend := h.pending id
  rw [hp] at hpend
  refine eff_congr hpend ?_
  rw [h.base, World.baseMerged, hb]; rfl

/-- An id that is deleted under both keys stays deleted, if nothing is stored under `l`: the
move drops the queued delete of `l`. -/
theorem eff_of_deleted (h : Moves l p w v) (hl : w.eff ⟨l, id⟩ = none) (hb : w.base ⟨l, id⟩ = none)
    (hp : w.eff ⟨p, id⟩ = none) : v.eff ⟨p, id⟩ = none := by
  have hbase : v.base ⟨p, id⟩ = w.base ⟨p, id⟩ := by
    rw [h.base, World.baseMerged, hb]; rfl
  have hpend := h.pending id
  have hkeep : v.q.pending.get ⟨p, id⟩ = w.q.pending.get ⟨p, id⟩ := by
    rw [eff_apply] at hl
    cases hop : w.q.pending.get ⟨l, id⟩ with
    | none => rwa [hop] at hpend
    | some =>
      rw [hop] at hpend hl
      obtain ⟨r, hr, he⟩ := hpend
      cases hr with
      | put => cases hl
      | add => rw [hb] at hl; cases hl
      | del => exact he
  rwa [eff_congr hkeep hbase]

/-- An id that `p` does not know takes over what `l` has, unless a delete is queued. -/
theorem eff_of_no_target (h : Moves l p w v) (hp : w.q.pending.get ⟨p, id⟩ = none)
    (hb : w.base ⟨p, id⟩ = none) (hd : ∀ c i, w.q.pending.get ⟨l, id⟩ ≠ some (.del c i)) :
    v.eff ⟨p, id⟩ = (w.eff ⟨l, id⟩).map (rekey l p) := by
  have hpend := h.pending id
  rw [hp] at hpend
  rw [eff_apply, h.base, World.baseMerged, hb, Option.or_none, eff_apply]
  cases hl : w.q.pending.get ⟨l, id⟩ with
  | none => rw [hl] at hpend; rw [hpend]; rfl
  | some =>
    rw [hl] at hpend
    obtain ⟨r, hr, he⟩ := hpend
    rw [he, Option.or_none]
    cases hr with
    | put => rfl
    | add => cases w.base ⟨l, id⟩ <;> rfl
    | del c i => exact absurd hl (hd c i)

/-- A record is not lost by the move, if it is under `p`, or under `l` and no delete of it
is queued under `p`. -/
theorem known (h : Moves l p w v) (hk : (w.eff ⟨p, id⟩).isSome = true ∨
    (w.eff ⟨l, id⟩).isSome = true ∧ ∀ c i, w.q.pending.get ⟨p, id⟩ ≠ some (.del c i)) :
    (v.eff ⟨p, id⟩).isSome = true := by
  rw [eff_apply, eff_apply] at hk
  rw [eff_apply, h.base, World.baseMerged]
  have hpend := h.pending id
  -- what `p` has queued itself decides, unless an operation of `l` takes its place
  have hown : v.q.pending.get ⟨p, id⟩ = w.q.pending.get ⟨p, id⟩ →
      ((w.q.pending.get ⟨p, id⟩).elim (w.base ⟨p, id⟩) (·.eff (w.base ⟨p, id⟩))).isSome = true ∨
        (w.base ⟨l, id⟩).isSome = true ∧ (∀ c i, w.q.pending.get ⟨p, id⟩ ≠ some (.del c i)) →
      ((v.q.pending.get ⟨p, id⟩).elim (((w.base ⟨l, id⟩).map (rekey l p)).or (w.base ⟨p, id⟩))
        (·.eff (((w.base ⟨l, id⟩).map (rekey l p)).or (w.base ⟨p, id⟩)))).isSome = true := by
    intro he hk
    rw [he]
    cases hp : w.q.pending.get ⟨p, id⟩ with
    | none =>
      rw [hp] at hk
      rcases hk with hk | ⟨hk, -⟩
      · simp only [Option.elim_none] at hk ⊢
        rw [Option.isSome_or, hk, Bool.or_true]
      · simp only [Option.elim_none]
        rw [Option.isSome_or, Option.isSome_map, hk, Bool.true_or]
    | some op =>
      cases op with
      | put => rfl
      | add => simp [PendingOp.eff]
      | del c i =>
        rw [hp] at hk
        rcases hk with hk | ⟨-, hk⟩
        · cases hk
        · exact absurd rfl (hk c i)
  cases hl : w.q.pending.get ⟨l, id⟩ with
  | none =>
    rw [hl] at hpend hk
    exact hown hpend hk
  | some =>
    rw [hl] at hpend hk
    obtain ⟨r, hr, he⟩ := hpend
    cases hr with
    | put => rw [he]; rfl
    | add => rw [he]; simp [PendingOp.eff]
    | del => exact hown he (hk.imp_right fun h => by cases h.1)

end Moves

/-! ## The resident side -/

theorem mergePush_fold (l p : Jid) (src : List Obj) : ∀ st : List Obj × ℕ, ListOK p st.1 →
    ListOK p (src.foldl (mergePush l p) st).1 ∧ ∀ id, id ≠ "" →
      (∀ x, findId st.1 id = some x → findId (src.foldl (mergePush l p) st).1 id = some x) ∧
      (findId st.1 id = none → ∀ y, findId src id = some y →
        ∃ ref, findId (src.foldl (mergePush l p) st).1 id = some ⟨ref, rekey l p y.msg⟩) ∧
      (findId st.1 id = none → findId src id = none →
        findId (src.foldl (mergePush l p) st).1 id = none) := by
  induction src with
  | nil =>
    refine fun st h => ⟨h, fun id _ => ⟨fun _ hx => hx, fun _ y hy => ?_, fun hn _ => hn⟩⟩
    cases hy
  | cons o src ih =>
    intro st h
    simp only [List.foldl_cons]
    unfold mergePush
    split
    · rename_i hhas
      obtain ⟨h1, h2⟩ := ih st h
      refine ⟨h1, fun id hid => ⟨(h2 id hid).1, fun hn y hy => ?_, fun hn hs => ?_⟩⟩
      · have ho : o.msg.id ≠ id := by
          rintro rfl
          rw [hasId_eq, hn] at hhas
          simp at hhas
        rw [findId_cons, if_neg ho] at hy
        exact (h2 id hid).2.1 hn y hy
      · rw [findId_cons] at hs
        split at hs
        · cases hs
        · exact (h2 id hid).2.2 hn hs
    · rename_i hhas
      let o' : Obj := ⟨st.2, rekey l p o.msg⟩
      have hn' : o'.msg.id = "" ∨ findId st.1 o'.msg.id = none := by
        by_cases hid : o.msg.id = ""
        · exact .inl hid
        · right
          change findId st.1 o.msg.id = none
          simpa [hid, hasId_eq] using hhas
      obtain ⟨h1, h2⟩ := ih (st.1 ++ [o'], st.2 + 1) (h.append rfl hn')
      refine ⟨h1, fun id hid => ?_⟩
      obtain ⟨h3, h4, h5⟩ := h2 id hid
      have hf : findId (st.1 ++ [o']) id = (findId st.1 id).or (if o.msg.id = id then some o' else none) := by
        rw [findId_append, findId_singleton]; rfl
      simp only [hf] at h3 h4 h5
      refine ⟨fun x hx => h3 x (by rw [hx]; rfl), fun hn y hy => ?_, fun hn hs => ?_⟩
      · rw [findId_cons] at hy
        split at hy
        · rename_i ho
          cases hy
          exact ⟨st.2, h3 o' (by rw [hn, if_pos ho]; rfl)⟩
        · rename_i ho
          exact h4 (by rw [hn, if_neg ho]; rfl) y hy
      · rw [findId_cons] at hs
        split at hs
        · cases hs
        · rename_i ho
          exact h5 (by rw [hn, if_neg ho]; rfl) hs

theorem mergeMessages_eq (w : World) (l p : Jid) :
    ∃ w₁ : World, w₁ = { w with
      byChat := update w.byChat l none
      exhausted := update w.exhausted l false } ∧
    mergeMessages w l p =
      if (messagesFor w l).isEmpty then w₁
      else commit { w₁ with
        exhausted := update w₁.exhausted p false
        nextRef := ((messagesFor w l).foldl (mergePush l p) (messagesFor w₁ p, w₁.nextRef)).2 } p
        ((messagesFor w l).foldl (mergePush l p) (messagesFor w₁ p, w₁.nextRef)).1 := ⟨_, rfl, rfl⟩

/-- What merging the resident messages of `l` into `p` does. -/
structure Gathers (l p : Jid) (w v : World) : Prop where
  source : ∀ k : Key, k.id ≠ "" → k.chatJid = l → (v.slot k).resident = none
  target : ∀ id, id ≠ "" →
    (v.slot ⟨p, id⟩).resident = none ∨
    (v.slot ⟨p, id⟩).resident = (w.slot ⟨p, id⟩).resident ∨
    (w.slot ⟨p, id⟩).resident = none ∧ ∃ y ref, (w.slot ⟨l, id⟩).resident = some y ∧
      (v.slot ⟨p, id⟩).resident = some ⟨ref, rekey l p y.msg⟩

/-- The frame of `mergeMessages`, also for `l = p`. -/
theorem mergeMessages_wf (h : w.Wf) (l p : Jid) :
    Sync w (mergeMessages w l p) ∧ (mergeMessages w l p).Wf ∧ (mergeMessages w l p).q = w.q ∧
      (mergeMessages w l p).txq = w.txq ∧ ∀ k : Key, k.chatJid ≠ l → k.chatJid ≠ p →
        ((mergeMessages w l p).slot k).resident = (w.slot k).resident := by
  obtain ⟨w₁, hw₁, he⟩ := mergeMessages_eq w l p
  rw [he]
  have hl : ∀ j, messagesFor w₁ j = if j = l then [] else messagesFor w j := by
    intro j; rw [hw₁]; exact messagesFor_update w.byChat none
  have hwf₁ : w₁.Wf := by
    intro j
    rw [hl]
    split
    · exact .nil
    · exact h j
  have hs : Sync w w₁ := by rw [hw₁]; exact .of_same
  have hq : w₁.q = w.q := by rw [hw₁]
  have ht : w₁.txq = w.txq := by rw [hw₁]
  split
  · refine ⟨hs, hwf₁, hq, ht, fun k hk _ => ?_⟩
    rw [slot_resident, slot_resident, hl, if_neg hk]
  · obtain ⟨hok, -⟩ := mergePush_fold l p (messagesFor w l) (messagesFor w₁ p, w₁.nextRef) (hwf₁ p)
    generalize (messagesFor w l).foldl (mergePush l p) (messagesFor w₁ p, w₁.nextRef) = merged at *
    have hp : Publishes w₁ (commit { w₁ with
      exhausted := update w₁.exhausted p false
      nextRef := merged.2 } p merged.1) p merged.1 := publishes_commit rfl
    refine ⟨hs.trans (.of_same), hp.wf hwf₁ hok, hq, ht, fun k hk hk' => ?_⟩
    rw [hp.resident_of_ne hk', slot_resident, slot_resident, hl, if_neg hk]

theorem mergeMessages_spec (h : w.Wf) (hne : l ≠ p) : Gathers l p w (mergeMessages w l p) := by
  obtain ⟨w₁, hw₁, he⟩ := mergeMessages_eq w l p
  rw [he]
  have hl : ∀ j, messagesFor w₁ j = if j = l then [] else messagesFor w j := by
    intro j; rw [hw₁]; exact messagesFor_update w.byChat none
  have hlp : messagesFor w₁ p = messagesFor w p := by rw [hl, if_neg (Ne.symm hne)]
  split
  · refine ⟨fun k _ hk => ?_, fun id _ => .inr (.inl ?_)⟩
    · rw [slot_resident, hl, if_pos hk]; rfl
    · rw [slot_resident, slot_resident, hlp]
  · obtain ⟨hok, hfind⟩ := mergePush_fold l p (messagesFor w l) (messagesFor w₁ p, w₁.nextRef)
      (by rw [hlp]; exact h p)
    generalize (messagesFor w l).foldl (mergePush l p) (messagesFor w₁ p, w₁.nextRef) = merged at *
    have hp : Publishes w₁ (commit { w₁ with
      exhausted := update w₁.exhausted p false
      nextRef := merged.2 } p merged.1) p merged.1 := publishes_commit rfl
    refine ⟨fun k hid hk => ?_, fun id hid => ?_⟩
    · rw [hp.resident_of_ne (by rwa [hk]), slot_resident, hl, if_pos hk]; rfl
    · rcases hp.resident (k := ⟨p, id⟩) hok hid rfl with hr | hr
      · rw [hr]
        obtain ⟨h1, h2, h3⟩ := hfind id hid
        rw [hlp] at h1 h2 h3
        cases hx : findId (messagesFor w p) id with
        | some x => exact .inr (.inl ((h1 x hx).trans hx.symm))
        | none =>
          cases hy : findId (messagesFor w l) id with
          | none => exact .inl (h3 hx hy)
          | some y =>
            obtain ⟨ref, hr⟩ := h2 hx y hy
            exact .inr (.inr ⟨hx, y, ref, hy, hr⟩)
      · exact .inl hr

/-! ## The merge -/

/-- **A merge** leaves the other chats alone. -/
theorem applyMerge_frame (h : w.Wf) (l p : Jid) :
    Sync w (applyMerge w l p) ∧ (applyMerge w l p).Wf ∧
      ∀ k : Key, k.chatJid ≠ l → k.chatJid ≠ p → (applyMerge w l p).slot k = w.slot k := by
  unfold applyMerge
  split
  · exact ⟨.refl w, h, fun _ _ _ => rfl⟩
  · obtain ⟨h1, h2, h3, h4, h5⟩ := mergeMessages_wf h l p
    have hc := Same.mergeChats (mergeMessages w l p) l p
    obtain ⟨h6, h7, h8⟩ := movePersistedChat_wf (hc.wf h2) l p
    have hs : Sync w (movePersistedChat (mergeChats (mergeMessages w l p) l p) l p) :=
      (h1.trans hc.sync).trans h6
    refine ⟨hs.trans (.of_same), h7, fun k hk hk' => Slot.ext ?_ ?_⟩
    · exact (h8 k).trans ((congrArg Slot.resident (hc.slot k)).trans (h5 k hk hk'))
    · change (movePersistedChat (mergeChats (mergeMessages w l p) l p) l p).eff k = w.eff k
      have he : (mergeChats (mergeMessages w l p) l p).eff = w.eff := by
        rw [hc.eff, World.eff, World.base, World.jobs, h3, h4, h1.msgs]; rfl
      by_cases hne : l = p
      · unfold movePersistedChat; rw [if_pos hne, he]
      · rw [(movePersistedChat_spec _ hne).other k hk hk', he]

/-- **A merge** of `l` into `p` takes place when the store knows `l`. -/
theorem applyMerge_spec (h : w.Wf) (hne : l ≠ p) :
    applyMerge w l p = w ∧ (w.byChat l = none ∧ w.chats.has l = false) ∨
      Gathers l p w (applyMerge w l p) ∧ Moves l p w (applyMerge w l p) := by
  unfold applyMerge
  split
  · rename_i hk
    simp only [Bool.and_eq_true, Bool.not_eq_true', Option.isNone_iff_eq_none] at hk
    exact .inl ⟨rfl, hk.2, hk.1⟩
  · right
    obtain ⟨h1, h2, h3, h4, -⟩ := mergeMessages_wf h l p
    have hg := mergeMessages_spec h hne
    have hc := Same.mergeChats (mergeMessages w l p) l p
    obtain ⟨-, -, h8⟩ := movePersistedChat_wf (hc.wf h2) l p
    have hres : ∀ k, ((schedulePersistChats (movePersistedChat
        (mergeChats (mergeMessages w l p) l p) l p)).slot k).resident =
        ((mergeMessages w l p).slot k).resident := fun k =>
      (h8 k).trans (congrArg Slot.resident (hc.slot k))
    refine ⟨⟨fun k hid hk => (hres k).trans (hg.source k hid hk), fun id hid => ?_⟩, ?_⟩
    · rw [hres]; exact hg.target id hid
    · refine ((movePersistedChat_spec _ hne).of_left (by rw [hc.pending, h3]) (by rw [hc.txq, h4])
        (by rw [hc.msgs, h1.msgs]) (by rw [hc.epoch, h1.epoch])).of_right ?_
      exact .chats _ _ _ _

/-- A chat that is merged into itself keeps its records; its resident messages are re-keyed. -/
theorem applyMerge_self (h : w.Wf) (hid : id ≠ "") :
    (applyMerge w l l).eff ⟨l, id⟩ = w.eff ⟨l, id⟩ ∧
      (((applyMerge w l l).slot ⟨l, id⟩).resident = none ∨
        ∃ y o, (w.slot ⟨l, id⟩).resident = some y ∧
          ((applyMerge w l l).slot ⟨l, id⟩).resident = some o ∧ (o = y ∨ o.msg = rekey l l y.msg)) := by
  unfold applyMerge
  split
  · refine ⟨rfl, ?_⟩
    cases hy : (w.slot ⟨l, id⟩).resident with
    | none => exact .inl rfl
    | some y => exact .inr ⟨y, y, rfl, rfl, .inl rfl⟩
  · obtain ⟨h1, -, h3, h4, -⟩ := mergeMessages_wf h l l
    have hc := Same.mergeChats (mergeMessages w l l) l l
    have hmove : movePersistedChat (mergeChats (mergeMessages w l l) l l) l l =
        mergeChats (mergeMessages w l l) l l := by rw [movePersistedChat, if_pos rfl]
    rw [hmove]
    have he : (mergeChats (mergeMessages w l l) l l).eff = w.eff := by
      rw [hc.eff, World.eff, World.base, World.jobs, h3, h4, h1.msgs]; rfl
    refine ⟨congrFun he _, ?_⟩
    have hres : ((schedulePersistChats (mergeChats (mergeMessages w l l) l l)).slot ⟨l, id⟩).resident =
        ((mergeMessages w l l).slot ⟨l, id⟩).resident := congrArg Slot.resident (hc.slot _)
    rw [hres]
    obtain ⟨w₁, hw₁, he⟩ := mergeMessages_eq w l l
    rw [he]
    have hl : messagesFor w₁ l = [] := by
      rw [hw₁]; exact (messagesFor_update w.byChat none).trans (if_pos rfl)
    split
    · left; rw [slot_resident, hl]; rfl
    · rw [hl]
      obtain ⟨hok, hfind⟩ := mergePush_fold l l (messagesFor w l) ([], w₁.nextRef) .nil
      generalize (messagesFor w l).foldl (mergePush l l) ([], w₁.nextRef) = merged at *
      have hp : Publishes w₁ (commit { w₁ with
        exhausted := update w₁.exhausted l false
        nextRef := merged.2 } l merged.1) l merged.1 := publishes_commit rfl
      rcases hp.resident (k := ⟨l, id⟩) hok hid rfl with hr | hr
      · rw [hr]
        obtain ⟨-, h2, h3⟩ := hfind id hid
        cases hy : findId (messagesFor w l) id with
        | none => exact .inl (h3 rfl hy)
        | some y =>
          obtain ⟨ref, hr⟩ := h2 rfl y hy
          exact .inr ⟨y, _, hy, hr, .inr rfl⟩
      · exact .inl hr

/-- A message that is resident under neither key is resident under neither afterwards. -/
theorem resident_applyMerge (h : w.Wf) (hid : id ≠ "") (hl : (w.slot ⟨l, id⟩).resident = none)
    (hp : (w.slot ⟨p, id⟩).resident = none) {c : Jid} (hc : c = l ∨ c = p) :
    ((applyMerge w l p).slot ⟨c, id⟩).resident = none := by
  by_cases hne : l = p
  · subst hne
    obtain rfl : c = l := hc.elim (fun h => h) fun h => h
    rcases (applyMerge_self h hid).2 with h2 | ⟨y, o, hy, -⟩
    · exact h2
    · rw [hl] at hy; cases hy
  · rcases applyMerge_spec h hne with ⟨he, -⟩ | ⟨hg, -⟩
    · rw [he]
      rcases hc with rfl | rfl
      · exact hl
      · exact hp
    · rcases hc with rfl | rfl
      · exact hg.source ⟨c, id⟩ hid rfl
      · rcases hg.target id hid with h1 | h1 | ⟨-, y, ref, hy, -⟩
        · exact h1
        · rw [h1, hp]
        · rw [hl] at hy; cases hy

end Whatsvelte
