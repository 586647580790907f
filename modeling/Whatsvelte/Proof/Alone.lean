import Whatsvelte.Proof.Coalesce

/-!
# The persistence layer, one call at a time

What a call of `persist.ts` does when nothing else runs between its steps and nothing fails (`flushed_get` says
it of a flush).

* `patch_maps_history`: **`patchPersistedMessage` is a map over the effective history**, for every function
  that keeps the key. `patch_alone` connects the function to the transactions of the event loop.
-/

namespace Whatsvelte

open Table

variable {w v : World} {k : Key} {fn : UiMessage → Option UiMessage} {pending : Table PendingOp.key}
  {msgs : Table UiMessage.key}

/-! ## `patchPersistedMessage` -/

/-- What the message under a key becomes. -/
def patchedWith (fn : UiMessage → Option UiMessage) (r : Option UiMessage) : Option UiMessage :=
  r.map fun m => (fn m).getD m

/-- Queue and store differ in one key only. -/
theorem opsEff_update {pending' : Table PendingOp.key} {msgs' : Table UiMessage.key} {r : Option UiMessage}
    (hp : ∀ j, k ≠ j → pending'.get j = pending.get j) (hm : ∀ j, k ≠ j → msgs'.get j = msgs.get j)
    (hk : opsEff pending' msgs'.get k = r) :
    opsEff pending' msgs'.get = Function.update (opsEff pending msgs.get) k r := by
  funext j
  by_cases hj : j = k
  · subst hj
    rw [hk, Function.update_self]
  · rw [Function.update_of_ne hj, opsEff, opsEff, hp j (Ne.symm hj), hm j (Ne.symm hj)]

theorem get_set_other {m : UiMessage} (hm : m.key = k) (j : Key) (hj : k ≠ j) :
    (msgs.set m).get j = msgs.get j := by
  rw [get_set, hm, if_neg hj]

theorem get_erase_other (j : Key) (hj : k ≠ j) : (pending.erase k).get j = pending.get j := by
  rw [get_erase, if_neg hj]

/-- What a call leaves: the history with the record under `k` patched, and that record as the answer. -/
def PatchesHistory (pending : Table PendingOp.key) (msgs : Table UiMessage.key) (k : Key)
    (fn : UiMessage → Option UiMessage)
    (r : Table PendingOp.key × Table UiMessage.key × Option UiMessage) : Prop :=
  opsEff r.1 r.2.1.get = Function.update (opsEff pending msgs.get) k
      (patchedWith fn (opsEff pending msgs.get k)) ∧
    r.2.2 = patchedWith fn (opsEff pending msgs.get k)

/-- Nothing changes when there is nothing to patch. -/
theorem PatchesHistory.refl {r : Option UiMessage} (hH : opsEff pending msgs.get k = r)
    (hf : patchedWith fn r = r) : PatchesHistory pending msgs k fn (pending, msgs, r) := by
  subst hH
  refine ⟨?_, hf.symm⟩
  rw [hf]
  exact opsEff_update (fun _ _ => rfl) (fun _ _ => rfl) rfl

/-- The transaction, with an insert queued or with nothing queued. -/
theorem readModifyWrite_spec {added : Option UiMessage}
    (hop : ∀ r, (pending.get k).elim r (·.eff r) = r.or added) (hadded : ∀ m, added = some m → m.key = k)
    (hkey : ∀ m next, fn m = some next → next.key = m.key) :
    PatchesHistory pending msgs k fn (readModifyWrite pending msgs k fn added) := by
  have hH : opsEff pending msgs.get k = (msgs.get k).or added := hop _
  unfold readModifyWrite
  dsimp only
  -- the queued insert is taken out only when a record is stored, which it would not replace
  generalize hp : (if (msgs.get k).isSome && added.isSome then pending.erase k else pending) = pending'
  have hother : ∀ j, k ≠ j → pending'.get j = pending.get j := by
    intro j hj
    rw [← hp]
    split
    · exact get_erase_other j hj
    · rfl
  have hval : ∀ r, ((msgs.get k).isSome = true → r.isSome = true) →
      (pending'.get k).elim r (·.eff r) = r.or added := by
    intro r hr
    by_cases hboth : ((msgs.get k).isSome && added.isSome) = true
    · rw [if_pos hboth] at hp
      obtain ⟨x, rfl⟩ := Option.isSome_iff_exists.1 (hr (Bool.and_elim_left hboth))
      rw [← hp, get_erase, if_pos rfl]
      rfl
    · rw [if_neg hboth] at hp
      rw [← hp]
      exact hop r
  cases hcur : (msgs.get k).or added with
  | none =>
    refine ⟨?_, by rw [hH, hcur]; rfl⟩
    refine opsEff_update hother (fun _ _ => rfl) ?_
    rw [hH, hcur]
    exact (hval _ id).trans hcur
  | some current =>
    have hck : current.key = k := by
      rcases Option.or_eq_some_iff.1 hcur with h | ⟨-, h⟩
      · exact get_key h
      · exact hadded current h
    dsimp only
    cases hf : fn current with
    | none =>
      have hpatched : patchedWith fn (some current) = some current := by simp [patchedWith, hf]
      refine ⟨?_, by rw [hH, hcur, hpatched]⟩
      refine opsEff_update hother (fun _ _ => rfl) ?_
      rw [hH, hcur, hpatched]
      exact (hval _ id).trans hcur
    | some next =>
      have hpatched : patchedWith fn (some current) = some next := by simp [patchedWith, hf]
      have hn : next.key = k := (hkey current next hf).trans hck
      dsimp only
      refine ⟨?_, by rw [hH, hcur, hpatched]⟩
      refine opsEff_update hother (get_set_other hn) ?_
      rw [hH, hcur, hpatched, toRecord_self]
      have hget : (msgs.set next).get k = some next := by rw [get_set, if_pos hn]
      rw [opsEff, hget]
      exact hval (some next) fun _ => rfl

/-- **`patchPersistedMessage` is a map over the effective history**: the record under the key becomes what
`fn` makes of it, or stays when `fn` gives nothing, and no other key changes; a flush then stores that
history. The call answers with that record, and with nothing if there was none. -/
theorem patch_maps_history (pending : Table PendingOp.key) (msgs : Table UiMessage.key) (ref : ℕ) (k : Key)
    (fn : UiMessage → Option UiMessage) (hkey : ∀ m next, fn m = some next → next.key = m.key) :
    let r := patchPersistedMessageImpl pending msgs ref k fn
    let H := opsEff pending msgs.get
    opsEff r.1 r.2.1.get = Function.update H k (patchedWith fn (H k)) ∧
      (applyOps r.2.1 r.1.rows).get = Function.update H k (patchedWith fn (H k)) ∧
      r.2.2 = patchedWith fn (H k) := by
  have hspec : PatchesHistory pending msgs k fn (patchPersistedMessageImpl pending msgs ref k fn) := by
    unfold patchPersistedMessageImpl
    cases hq : pending.get k with
    | none =>
      refine readModifyWrite_spec (by simp [hq]) (fun m h => ?_) hkey
      exact absurd h.symm (Option.some_ne_none m)
    | some op =>
      have hop : op.key = k := Table.get_key hq
      cases op with
      | add =>
        refine readModifyWrite_spec (fun r => ?_) (fun x hx => ?_) hkey
        · simp [hq, PendingOp.eff]
        · cases hx
          exact hop
      | del => exact .refl (by simp [opsEff, hq, PendingOp.eff]) rfl
      | put m =>
        have hH : opsEff pending msgs.get k = some m.msg := by simp [opsEff, hq, PendingOp.eff]
        dsimp only
        cases hf : fn m.msg with
        | none => exact .refl hH (by simp [patchedWith, hf])
        | some next =>
          have hpatched : patchedWith fn (some m.msg) = some next := by simp [patchedWith, hf]
          have hn : (PendingOp.put ⟨ref, next⟩).key = k := (hkey m.msg next hf).trans hop
          refine ⟨?_, by rw [hH, hpatched]⟩
          rw [hH, hpatched]
          refine opsEff_update (fun j hj => ?_) (fun _ _ => rfl) ?_
          · rw [Table.get_set, hn, if_neg hj]
          · simp [opsEff, Table.get_set, hn, PendingOp.eff]
  obtain ⟨h1, h2⟩ := hspec
  exact ⟨h1, (get_applyOps _ _).trans h1, h2⟩

/-- An edit of a message whose insert is still queued; nothing else is stored. -/
theorem patch_maps_history_added :
    let fn : UiMessage → Option UiMessage := fun m => some { m with text := some "new" }
    let added : Table PendingOp.key := Table.empty.set (.add ⟨0, msgX⟩)
    opsEff (patchPersistedMessageImpl added .empty 1 msgX.key fn).1
        (patchPersistedMessageImpl added .empty 1 msgX.key fn).2.1.get msgX.key =
      some { msgX with text := some "new" } := by
  intro fn added
  have hkey : ∀ m next, fn m = some next → next.key = m.key := by
    intro m next hf
    cases hf
    rfl
  rw [(patch_maps_history added .empty 1 msgX.key fn hkey).1, Function.update_self]
  decide

/-- `openDb` resolves, and the transaction runs. -/
theorem run_enqueue_patch (w : World) (k : Key) (queued : Option Obj) (fn : Patch) (after : AfterPatch)
    (ht : w.txq = []) :
    ∃ u : World, u.q.pending = w.q.pending ∧ u.msgs = w.msgs ∧
      (w.enqueue (.patch w.epoch k queued fn after)).run [.openNext, .advance] =
        patchRequests u w.nextTid k queued fn after [] := by
  refine ⟨{ w with
    txq := [⟨w.nextTid, true, .patch w.epoch k queued fn after, w.chats.rows⟩]
    nextTid := w.nextTid + 1 }, rfl, rfl, ?_⟩
  show advance (openNext _) = _
  simp [openNext, advance, World.enqueue, ht, Job.stale]

/-- **The event loop** runs `patchPersistedMessageImpl` when nothing else is queued. -/
theorem patch_alone (w : World) (k : Key) (fn : Patch) (after : AfterPatch) (ht : w.txq = []) :
    let v := (patchPersistedMessage w k fn after).1.run [.openNext, .advance]
    let r := patchPersistedMessageImpl w.q.pending w.msgs w.nextRef k fn.apply
    v.q.pending = r.1 ∧ v.msgs = r.2.1 ∧
      ((patchPersistedMessage w k fn after).2 = some r.2.2.isSome ∧ v.txq = [] ∨
        (patchPersistedMessage w k fn after).2 = none ∧
          v.txq = [⟨w.nextTid, true, .patched k r.2.2.isSome after, []⟩]) := by
  have hidle : ∀ u : World, u.txq = [] → u.run [.openNext, .advance] = u := by
    intro u hu
    have hopen : u.step .openNext = u := by
      show openNext u = u
      simp [openNext, hu]
    show (u.step .openNext).step .advance = u
    rw [hopen]
    exact advance_idle hu 1
  have hasync : ∀ queued : Option Obj,
      let v := (w.enqueue (.patch w.epoch k queued fn after)).run [.openNext, .advance]
      let r := readModifyWrite w.q.pending w.msgs k fn.apply (queued.map (·.msg))
      v.q.pending = r.1 ∧ v.msgs = r.2.1 ∧ v.txq = [⟨w.nextTid, true, .patched k r.2.2.isSome after, []⟩] := by
    intro queued
    obtain ⟨u, hp, hm, hrun⟩ := run_enqueue_patch w k queued fn after ht
    rw [hrun, ← hp, ← hm]
    exact ⟨rfl, rfl, rfl⟩
  unfold patchPersistedMessage patchPersistedMessageImpl
  cases hq : w.q.pending.get k with
  | none =>
    obtain ⟨h1, h2, h3⟩ := hasync none
    exact ⟨h1, h2, .inr ⟨rfl, h3⟩⟩
  | some op =>
    cases op with
    | add m =>
      obtain ⟨h1, h2, h3⟩ := hasync (some m)
      exact ⟨h1, h2, .inr ⟨rfl, h3⟩⟩
    | del =>
      rw [hidle w ht]
      exact ⟨rfl, rfl, .inl ⟨rfl, ht⟩⟩
    | put m =>
      dsimp only
      cases fn.apply m.msg with
      | none =>
        rw [hidle w ht]
        exact ⟨rfl, rfl, .inl ⟨rfl, ht⟩⟩
      | some next =>
        have hrest := hidle { w with
          q := { w.q with pending := w.q.pending.set (.put ⟨w.nextRef, next⟩) }
          nextRef := w.nextRef + 1 } ht
        rw [hrest]
        exact ⟨rfl, rfl, .inl ⟨rfl, ht⟩⟩

/-- A stored message is revoked. -/
theorem patch_alone_stored :
    let w : World := { World.init with msgs := Table.empty.set msgX }
    w.txq = [] ∧ ((patchPersistedMessage w msgX.key .revoke .ignore).1.run [.openNext, .advance]).msgs =
      (patchPersistedMessageImpl w.q.pending w.msgs w.nextRef msgX.key Patch.revoke.apply).2.1 := by
  intro w
  exact ⟨rfl, (patch_alone w msgX.key .revoke .ignore rfl).2.1⟩

end Whatsvelte
