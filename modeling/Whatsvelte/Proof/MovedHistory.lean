import Whatsvelte.Proof.Alone

/-!
# Moving a persisted chat

`movePersistedChat` from its call to its end, and then a flush, with nothing else in between.

`move_keeps_iff`: **both histories survive the move** if and only if no id is one that the move decides the
wrong way (`MovesClean`): the rows stored under `from` replace those under `to`, an operation queued under
`from` replaces the one queued under `to`, and a delete queued under `from` is dropped.
-/

namespace Whatsvelte

variable {w : World} {l p : Jid} {id : MsgId}

/-- The move, run alone. -/
def movedAlone (w : World) (l p : Jid) : World := (movePersistedChat w l p).run [.openNext, .advance]

/-- The move leaves the history that `Moves` says, and takes the chat row out. -/
theorem movedAlone_spec (hne : l ≠ p) (ht : w.txq = []) :
    (movedAlone w l p).persisted = (movePersistedChat w l p).eff ∧ (movedAlone w l p).txq = [] ∧
      (movedAlone w l p).chatRows = w.chatRows.erase l := by
  have hrun : ∀ u : World, u.txq = [] → (u.enqueue (.move u.epoch l p)).run [.openNext, .advance] =
      { u with txq := [], msgs := moveRows u.msgs l p, chatRows := u.chatRows.erase l,
               nextTid := u.nextTid + 1 } := by
    intro u hu
    show advance (openNext _) = _
    simp [openNext, advance, World.enqueue, hu, Job.stale]
  unfold movedAlone movePersistedChat
  rw [if_neg hne]
  dsimp only
  generalize hu : ({ w with
    q := { w.q with pending := (w.q.pending.rows.foldl (movePendingOp l p) (w.q.pending, w.nextRef)).1 }
    nextRef := (w.q.pending.rows.foldl (movePendingOp l p) (w.q.pending, w.nextRef)).2 } : World) = u
  have htxq : u.txq = [] := by rwa [← hu]
  have hepoch : w.epoch = u.epoch := by rw [← hu]
  have hrows : u.chatRows = w.chatRows := by rw [← hu]
  have hbase : (u.enqueue (.move u.epoch l p)).base = (moveRows u.msgs l p).get := by
    rw [base_enqueue, get_moveRows hne, World.base, World.jobs, htxq]
    rfl
  rw [hepoch, hrun u htxq, ← hrows]
  refine ⟨?_, rfl, rfl⟩
  rw [World.eff, hbase]
  rfl

/-- What the store holds under each key when the move and the flush are over: the claim of the function. -/
structure KeepsBoth (l p : Jid) (w v : World) : Prop where
  source : ∀ k : Key, k.chatJid = l → v.msgs.get k = none
  sourceRow : v.chatRows.get l = none
  /-- A record of `p` stays, another one is that of `l`, re-keyed. -/
  target : ∀ id, v.msgs.get ⟨p, id⟩ = (w.persisted ⟨p, id⟩).or ((w.persisted ⟨l, id⟩).map (rekey l p))
  other : ∀ k : Key, k.chatJid ≠ l → k.chatJid ≠ p → v.msgs.get k = w.persisted k
  otherRows : ∀ j, j ≠ l → v.chatRows.get j = w.chatRows.get j

/-- The move decides one id rightly; `ol`, `op` are the operations queued for it under `l` and `p`, and `sl`,
`sp` the stored rows. -/
def MovesClean (l p : Jid) (ol op : Option PendingOp) (sl sp : Option UiMessage) : Prop :=
  -- the record of `p` before the move
  let own := op.elim sp (·.eff sp)
  match ol, sl with
  -- a full write under `l` replaces that record
  | some (.put m), _ => own = none ∨ own = some (rekey l p m.msg)
  -- so does a row stored under `l` below a queued insert, which replaces the operation of `p`
  | some (.add _), some s => own = none ∨ own = some (rekey l p s)
  | some (.add m), none => sp.or (some (rekey l p m.msg)) = own.or (some (rekey l p m.msg))
  -- the delete is dropped, and the row moves below the operation of `p`
  | some (.del _ _), some s =>
    (∃ c i, op = some (.del c i)) ∨ (∃ n, op = some (.put n)) ∨ own = some (rekey l p s)
  | none, some s =>
    (∃ n, op = some (.put n)) ∨
      (∀ c i, op ≠ some (.del c i)) ∧ (own = none ∨ own = some (rekey l p s))
  | _, none => True

theorem some_eq_or_iff {α : Type} {o : Option α} {x : α} : some x = o.or (some x) ↔ o = none ∨ o = some x := by
  cases o with
  | none => simp
  | some => simp [eq_comm]

/-- A row of `l` moves below the operation of `p`. -/
theorem moved_row_iff {op : Option PendingOp} {s : UiMessage} {sp : Option UiMessage} {x : Option UiMessage}
    (hx : x = none ∨ x = some (rekey l p s)) :
    op.elim (some (rekey l p s)) (·.eff (some (rekey l p s))) = (op.elim sp (·.eff sp)).or x ↔
      (∃ n, op = some (.put n)) ∨ (x = none ∧ ∃ c i, op = some (.del c i)) ∨
        (∀ c i, op ≠ some (.del c i)) ∧
          ((x ≠ none ∧ op.elim sp (·.eff sp) = none) ∨ op.elim sp (·.eff sp) = some (rekey l p s)) := by
  rcases op with _ | (n | n | ⟨c, i⟩)
  · rcases hx with rfl | rfl
    · simp [eq_comm]
    · exact some_eq_or_iff.trans (by simp)
  · simp [PendingOp.eff]
  · rcases hx with rfl | rfl <;> simp [PendingOp.eff, eq_comm]
  · rcases hx with rfl | rfl <;> simp [PendingOp.eff]

/-- **The record of one id after the move.** -/
theorem moved_record_iff {ol op r : Option PendingOp} {sl sp : Option UiMessage} (hr : MovedOp l p op ol r) :
    r.elim ((sl.map (rekey l p)).or sp) (·.eff ((sl.map (rekey l p)).or sp)) =
        (op.elim sp (·.eff sp)).or ((ol.elim sl (·.eff sl)).map (rekey l p)) ↔
      MovesClean l p ol op sl sp := by
  cases ol with
  | none =>
    subst hr
    cases sl with
    | none => simp [MovesClean]
    | some =>
      refine (moved_row_iff (.inr rfl)).trans ?_
      simp [MovesClean]
  | some =>
    obtain ⟨r', hre, rfl⟩ := hr
    cases hre with
    | put => exact some_eq_or_iff
    | add =>
      cases sl with
      | none => exact Iff.rfl
      | some => exact some_eq_or_iff
    | del c i =>
      cases sl with
      | none => simp [MovesClean, PendingOp.eff]
      | some =>
        refine (moved_row_iff (.inl rfl)).trans ?_
        rcases op with _ | (n | n | ⟨c, i⟩) <;> simp [MovesClean, PendingOp.eff]

/-- **Moving a persisted chat** and flushing keeps both histories, if and only if it decides every id
rightly. -/
theorem move_keeps_iff (w : World) (l p : Jid) (hne : l ≠ p) (ht : w.txq = []) :
    KeepsBoth l p w (flushed (movedAlone w l p)) ↔
      ∀ id, MovesClean l p (w.q.pending.get ⟨l, id⟩) (w.q.pending.get ⟨p, id⟩) (w.msgs.get ⟨l, id⟩)
        (w.msgs.get ⟨p, id⟩) := by
  obtain ⟨hpers, htxq, hrows⟩ := movedAlone_spec hne ht
  obtain ⟨-, hmsgs, -, hchat⟩ := flushed_get htxq
  have hmoves := movePersistedChat_spec w hne
  have hstored : (flushed (movedAlone w l p)).msgs.get = (movePersistedChat w l p).eff := hmsgs.trans hpers
  have hbase : w.base = w.msgs.get := by
    rw [World.base, World.jobs, ht]
    rfl
  -- the record under `p`, from the queue and the rows before the move
  have hrecord : ∀ id, (flushed (movedAlone w l p)).msgs.get ⟨p, id⟩ =
        (w.persisted ⟨p, id⟩).or ((w.persisted ⟨l, id⟩).map (rekey l p)) ↔
      MovesClean l p (w.q.pending.get ⟨l, id⟩) (w.q.pending.get ⟨p, id⟩) (w.msgs.get ⟨l, id⟩)
        (w.msgs.get ⟨p, id⟩) := by
    intro id
    rw [hstored, eff_apply, hmoves.base, World.baseMerged, hbase]
    exact moved_record_iff (hmoves.pending id)
  constructor
  · intro h id
    exact (hrecord id).1 (h.target id)
  · intro h
    refine ⟨fun k hk => ?_, ?_, fun id => (hrecord id).2 (h id), fun k hl hp => ?_, fun j hj => ?_⟩
    · rw [hstored]
      exact hmoves.source k hk
    · rw [hchat, hrows, Table.get_erase, if_pos rfl]
    · rw [hstored, hmoves.other k hl hp, eff_of_idle ht]
    · rw [hchat, hrows, Table.get_erase, if_neg (Ne.symm hj)]

/-- Two rows under the LID move to a chat that has none of them. -/
theorem move_keeps_iff_fresh :
    let w : World := { World.init with
      msgs := (Table.empty.set { msgX with chatJid := "7@lid" }).set { msgY with chatJid := "7@lid" } }
    KeepsBoth "7@lid" chatA w (flushed (movedAlone w "7@lid" chatA)) := by
  intro w
  refine (move_keeps_iff w "7@lid" chatA (by decide) rfl).2 fun id => ?_
  have hp : w.msgs.get ⟨chatA, id⟩ = none := by
    refine Table.get_eq_none.2 fun m hm hk => ?_
    have hchat : m.chatJid = chatA := congrArg Key.chatJid hk
    have hall : ∀ m ∈ w.msgs.rows, m.chatJid ≠ chatA := by decide
    exact hall m hm hchat
  rw [hp]
  cases w.msgs.get ⟨"7@lid", id⟩ with
  | none => trivial
  | some => exact Or.inr ⟨fun c i h => (by cases h), Or.inl rfl⟩

/-- The delete of a stored message is queued under the LID: after the move the message is back. -/
theorem move_revives_deleted :
    let w : World := { World.init with
      msgs := (Table.empty.set { msgX with chatJid := "7@lid" })
      q := { World.init.q with pending := Table.empty.set (.del "7@lid" "X") } }
    w.persisted ⟨"7@lid", "X"⟩ = none ∧ w.persisted ⟨chatA, "X"⟩ = none ∧
      (flushed (movedAlone w "7@lid" chatA)).msgs.get ⟨chatA, "X"⟩ =
        some { msgX with chatJid := chatA, wireChatJid := some "7@lid" } ∧
      ¬ KeepsBoth "7@lid" chatA w (flushed (movedAlone w "7@lid" chatA)) := by
  intro w
  have hback : (flushed (movedAlone w "7@lid" chatA)).msgs.get ⟨chatA, "X"⟩ =
      some { msgX with chatJid := chatA, wireChatJid := some "7@lid" } := by decide +kernel
  refine ⟨by decide, by decide, hback, fun h => ?_⟩
  have htarget := h.target "X"
  rw [hback] at htarget
  exact absurd htarget (by decide)

end Whatsvelte
