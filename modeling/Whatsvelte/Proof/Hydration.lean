import Whatsvelte.Proof.Invariant
import Whatsvelte.Proof.Outside
import Whatsvelte.Spec.Boot

/-!
# What boot makes reachable

Hydration goes through the chat rows of the snapshot: it re-keys the stored messages of the rows under
a mapped LID, and puts the rows into the chat list. `boot_reaches_iff`: when it has finished, every stored
message is under its canonical key and has a row there if and only if, in the database it found, every
message had a row under its own key or, where that is the canonical one, under a LID of it (`Rowed`).
-/

namespace Whatsvelte

open List Table

/-! ## The history after the moves -/

/-- `canonicalJid` with this map. -/
def canonicalIn (map : Jid → Option Jid) (jid : Jid) : Jid :=
  if isLid jid then (map jid).getD jid else jid

/-- The map leads to phone numbers. -/
def Phones (map : Jid → Option Jid) : Prop := ∀ l p, map l = some p → isLid p = false

/-- The history after the rows have been gone through. -/
def rehomed (map : Jid → Option Jid) (rows : List Chat) (H : History) : History :=
  rows.foldl (fun H c => if canonicalIn map c.jid ≠ c.jid then
    moveEff c.jid (canonicalIn map c.jid) H else H) H

variable {map : Jid → Option Jid} {rows : List Chat} {H : History} {k : Key} {jid : Jid}

theorem canonicalIn_of_ne (h : canonicalIn map jid ≠ jid) :
    isLid jid = true ∧ map jid = some (canonicalIn map jid) := by
  unfold canonicalIn at h ⊢
  split at h
  · rename_i hlid
    refine ⟨hlid, ?_⟩
    rw [if_pos hlid]
    cases hm : map jid with
    | none => rw [hm] at h; exact absurd rfl h
    | some => rfl
  · exact absurd rfl h

theorem isLid_canonicalIn (hp : Phones map) (h : canonicalIn map jid ≠ jid) :
    isLid (canonicalIn map jid) = false := hp _ _ (canonicalIn_of_ne h).2

theorem canonicalIn_phone (h : isLid jid = false) : canonicalIn map jid = jid := by
  rw [canonicalIn, h]
  rfl

/-- What one move leaves: nothing under the LID, and its records under the phone number. -/
theorem isSome_moveEff {l p : Jid} (hne : l ≠ p) (H : History) (k : Key) :
    (moveEff l p H k).isSome = true ↔
      k.chatJid ≠ l ∧ ((H k).isSome = true ∨ k.chatJid = p ∧ (H ⟨l, k.id⟩).isSome = true) := by
  unfold moveEff
  split
  · rename_i hk
    have hl : p ≠ l := Ne.symm hne
    rw [Option.isSome_or, Option.isSome_map]
    simp [hl, hk, or_comm]
  · split <;> simp_all

/-- **The moves.** A record is left under `k` if `k` is not a LID that was moved away, and it was there
or under a LID of `k` that was moved. -/
theorem isSome_rehomed (hp : Phones map) (rows : List Chat) : ∀ (H : History) (k : Key),
    (rehomed map rows H k).isSome = true ↔
      (canonicalIn map k.chatJid = k.chatJid ∨ ∀ c ∈ rows, c.jid ≠ k.chatJid) ∧
      ((H k).isSome = true ∨ ∃ c ∈ rows, c.jid ≠ k.chatJid ∧ canonicalIn map c.jid = k.chatJid ∧
        (H ⟨c.jid, k.id⟩).isSome = true) := by
  induction rows with
  | nil =>
    intro H k
    simp [rehomed]
  | cons c rows ih =>
    intro H k
    have hstep : rehomed map (c :: rows) H k = rehomed map rows (if canonicalIn map c.jid ≠ c.jid then
      moveEff c.jid (canonicalIn map c.jid) H else H) k := rfl
    rw [hstep]
    by_cases hc : canonicalIn map c.jid = c.jid
    · -- the row is under its canonical key: nothing moves
      rw [if_neg (not_not.2 hc), ih]
      simp only [forall_mem_cons, exists_mem_cons_iff]
      grind
    · have hlid := (canonicalIn_of_ne hc).1
      have hphone := isLid_canonicalIn hp hc
      have hfix : canonicalIn map (canonicalIn map c.jid) = canonicalIn map c.jid := canonicalIn_phone hphone
      -- no LID leads to the LID that moves
      have hsrc : ∀ j, canonicalIn map j = c.jid → j = c.jid := by
        intro j hj
        by_contra hne
        have hj' : canonicalIn map j ≠ j := fun h => hne (h.symm.trans hj)
        have := isLid_canonicalIn hp hj'
        rw [hj, hlid] at this
        exact absurd this (by decide)
      rw [if_pos hc, ih]
      simp only [isSome_moveEff (Ne.symm hc), forall_mem_cons, exists_mem_cons_iff]
      grind

/-! ## The rows -/

variable {J : Jid → Prop} {n : ℕ} {w v : World}

/-- The rows are being gone through: nothing is queued, the moves are on their way, and the chat list
has the keys `J`. -/
structure Moving (map : Jid → Option Jid) (H : History) (J : Jid → Prop) (n : ℕ) (w : World) : Prop where
  lidToPn : w.lidToPn = map
  pending : w.q.pending = .empty
  keys : ∀ j, (w.chats.get j).isSome = true ↔ J j
  base : w.base = H
  moves : ∀ t ∈ w.txq, (∃ l p, l ≠ p ∧ t.job = .move w.epoch l p) ∧ n ≤ t.tid ∧ t.tid < w.nextTid
  tid : n ≤ w.nextTid

theorem isSome_hydrateChat (w : World) (c : Chat) (j : Jid) :
    ((hydrateChat w c).chats.get j).isSome = true ↔ (w.chats.get j).isSome = true ∨ j = c.jid := by
  have hset : ∀ d : Chat, d.jid = c.jid → (((w.setChat d).chats.get j).isSome = true ↔
      (w.chats.get j).isSome = true ∨ j = c.jid) := by
    intro d hd
    have hget : (w.setChat d).chats.get j = if d.jid = j then some d else w.chats.get j := get_set w.chats d j
    rw [hget, hd]
    split
    · rename_i h
      simp [h]
    · rename_i h
      simp [Ne.symm h]
  unfold hydrateChat
  dsimp only
  split
  · exact hset _ rfl
  · rename_i p hp
    split
    · have hjid : p.jid = c.jid := get_key hp
      exact hset _ hjid
    · exact hset _ rfl

theorem hydrateChat_frame (w : World) (c : Chat) : (hydrateChat w c).lidToPn = w.lidToPn ∧
    (hydrateChat w c).q = w.q ∧ (hydrateChat w c).msgs = w.msgs ∧ (hydrateChat w c).txq = w.txq ∧
    (hydrateChat w c).epoch = w.epoch ∧ (hydrateChat w c).nextTid = w.nextTid := by
  unfold hydrateChat
  dsimp only
  repeat' split
  all_goals exact ⟨rfl, rfl, rfl, rfl, rfl, rfl⟩

theorem Moving.hydrateChat (h : Moving map H J n w) (c : Chat) :
    Moving map H (fun j => J j ∨ j = c.jid) n (hydrateChat w c) := by
  obtain ⟨h1, h2, h3, h4, h5, h6⟩ := hydrateChat_frame w c
  refine ⟨h1.trans h.lidToPn, by rw [h2]; exact h.pending, fun j => ?_, ?_, ?_, by rw [h6]; exact h.tid⟩
  · rw [isSome_hydrateChat, h.keys]
  · rw [World.base, World.jobs, h3, h4]
    exact h.base
  · rw [h4, h5, h6]
    exact h.moves

theorem Moving.movePersistedChat (h : Moving map H J n w) {l p : Jid} (hne : l ≠ p) :
    Moving map (moveEff l p H) J n (movePersistedChat w l p) := by
  unfold Whatsvelte.movePersistedChat
  rw [if_neg hne, h.pending]
  refine ⟨h.lidToPn, rfl, h.keys, ?_, fun t ht => ?_, h.tid.trans (Nat.le_succ _)⟩
  · rw [base_enqueue]
    exact congrArg _ h.base
  · rcases mem_append.1 ht with ht | ht
    · obtain ⟨h1, h2, h3⟩ := h.moves t ht
      exact ⟨h1, h2, h3.trans (Nat.lt_succ_self _)⟩
    · rw [mem_singleton.1 ht]
      exact ⟨⟨l, p, hne, rfl⟩, h.tid, Nat.lt_succ_self _⟩

/-- One row. -/
theorem Moving.hydrateRow (h : Moving map H J n w) (c : Chat) :
    Moving map (if canonicalIn map c.jid ≠ c.jid then moveEff c.jid (canonicalIn map c.jid) H else H)
      (fun j => J j ∨ j = canonicalIn map c.jid) n (hydrateRow w c) := by
  have hcanon : canonicalJid w c.jid = canonicalIn map c.jid := by
    rw [canonicalJid, h.lidToPn, canonicalIn]
  unfold Whatsvelte.hydrateRow
  rw [hcanon]
  dsimp only
  split
  · exact (h.movePersistedChat (Ne.symm ‹_›)).hydrateChat { c with jid := canonicalIn map c.jid }
  · rename_i hc
    rw [if_pos (not_not.1 hc)]
    have := h.hydrateChat c
    rwa [← not_not.1 hc] at this

/-- **All rows.** -/
theorem Moving.hydrateRows (rows : List Chat) : ∀ {H : History} {J : Jid → Prop} {w : World},
    Moving map H J n w → Moving map (rehomed map rows H)
      (fun j => J j ∨ ∃ c ∈ rows, j = canonicalIn map c.jid) n (rows.foldl Whatsvelte.hydrateRow w) := by
  induction rows with
  | nil =>
    intro H J w h
    simpa [rehomed] using h
  | cons c rows ih =>
    intro H J w h
    have := ih (h.hydrateRow c)
    simp only [rehomed, foldl_cons, exists_mem_cons_iff, or_assoc] at this ⊢
    exact this

/-! ## After the moves -/

/-- The moves have run: the database holds `H`, and what is outstanding writes no message. -/
structure Settled (map : Jid → Option Jid) (H : History) (J : Jid → Prop) (w : World) : Prop where
  lidToPn : w.lidToPn = map
  keys : ∀ j, (w.chats.get j).isSome = true ↔ J j
  msgs : w.msgs.get = H
  jobs : ∀ t ∈ w.txq, (∃ jids n, t.job = .tails jids n) ∨ ∃ jid, t.job = .account jid

theorem Moving.settled (h : Moving map H J n w) (ht : w.txq = []) : Settled map H J w := by
  refine ⟨h.lidToPn, h.keys, ?_, fun t hm => ?_⟩
  · rw [← h.base, World.base, World.jobs, ht]
    rfl
  · rw [ht] at hm
    exact absurd hm not_mem_nil

theorem Settled.of_frame (h : Settled map H J w) (hl : v.lidToPn = w.lidToPn) (hc : v.chats = w.chats)
    (hm : v.msgs = w.msgs) (ht : v.txq = w.txq) : Settled map H J v :=
  ⟨hl.trans h.lidToPn, by rw [hc]; exact h.keys, by rw [hm]; exact h.msgs, by rw [ht]; exact h.jobs⟩

theorem Settled.enqueue (h : Settled map H J w) {job : Job}
    (hj : (∃ jids n, job = .tails jids n) ∨ ∃ jid, job = .account jid) : Settled map H J (w.enqueue job) := by
  refine ⟨h.lidToPn, h.keys, h.msgs, fun t ht => ?_⟩
  rcases mem_append.1 ht with ht | ht
  · exact h.jobs t ht
  · rwa [mem_singleton.1 ht]

theorem Settled.unifyLid (h : Settled map H J w) {jid : Jid} (hn : isLid jid = true → map jid = none) :
    Settled map H J (unifyLid w jid none) := by
  unfold Whatsvelte.unifyLid
  split
  · exact h
  · rename_i hlid
    have hk : w.lidToPn jid = none := by
      rw [h.lidToPn]
      exact hn (by simpa using hlid)
    rw [hk]
    dsimp only
    split
    · exact h
    · exact h.of_frame rfl rfl rfl rfl

theorem addHistoryMessages_db (w : World) (list : List Obj) (persist : Bool) :
    (addHistoryMessages w list persist).msgs = w.msgs ∧
      (addHistoryMessages w list persist).txq = w.txq := by
  have hpush : ∀ (list : List Obj) (st : World × List Jid),
      (list.foldl (historyPush persist) st).1.msgs = st.1.msgs ∧
        (list.foldl (historyPush persist) st).1.txq = st.1.txq := by
    intro list
    induction list with
    | nil => exact fun st => ⟨rfl, rfl⟩
    | cons o list ih =>
      intro st
      have hone : (historyPush persist st o).1.msgs = st.1.msgs ∧
          (historyPush persist st o).1.txq = st.1.txq := by
        unfold historyPush
        dsimp only
        repeat' split
        all_goals exact ⟨rfl, rfl⟩
      exact ⟨(ih _).1.trans hone.1, (ih _).2.trans hone.2⟩
  have hfinish : ∀ (jids : List Jid) (w : World),
      (jids.foldl historyFinish w).msgs = w.msgs ∧ (jids.foldl historyFinish w).txq = w.txq := by
    intro jids
    induction jids with
    | nil => exact fun w => ⟨rfl, rfl⟩
    | cons jid jids ih => exact fun w => ⟨(ih _).1, (ih _).2⟩
  exact ⟨(hfinish _ _).1.trans (hpush list (w, [])).1, (hfinish _ _).2.trans (hpush list (w, [])).2⟩

/-! ## The queue -/

theorem Moving.openNext (h : Moving map H J n w) : Moving map H J n (openNext w) ∧
    (openNext w).nextTid = w.nextTid := by
  obtain ⟨txq, he, hjobs, hmem⟩ := openNext_fresh fun t ht => by
    obtain ⟨⟨l, p, -, hj⟩, -⟩ := h.moves t ht
    simp [hj, Job.stale]
  rw [he]
  refine ⟨⟨h.lidToPn, h.pending, h.keys, ?_, fun x hx => ?_, h.tid⟩, rfl⟩
  · rw [← h.base, World.base, World.base, ← hjobs]
    rfl
  · obtain ⟨y, hy, htid, hj⟩ := hmem x hx
    rw [htid, hj]
    exact h.moves y hy

theorem Moving.advance (h : Moving map H J n w) : Moving map H J n (advance w) ∧
    (advance w).nextTid = w.nextTid := by
  have hhead : ∀ {t : Txn} {later : List Txn}, w.txq = t :: later → ∃ l p, l ≠ p ∧
      t.job = .move w.epoch l p := fun ht => (h.moves _ (by rw [ht]; simp)).1
  have hran := ran_advance w
  generalize Whatsvelte.advance w = v at hran ⊢
  cases hran with
  | idle => exact ⟨h, rfl⟩
  | move tid started l p c later ht =>
    obtain ⟨l', p', hne, hj⟩ := hhead ht
    injection hj with _ hl hp'
    subst hl hp'
    refine ⟨⟨h.lidToPn, h.pending, h.keys, ?_, fun x hx => h.moves x ?_, h.tid⟩, rfl⟩
    · rw [base_move ht hne rfl rfl]
      exact h.base
    · rw [ht]
      exact mem_cons_of_mem _ hx
  | _ =>
    obtain ⟨l, p, -, hj⟩ := hhead ‹_›
    cases hj

theorem Settled.openNext (h : Settled map H J w) : Settled map H J (openNext w) := by
  obtain ⟨txq, he, -, hmem⟩ := openNext_fresh fun t ht => by
    rcases h.jobs t ht with ⟨jids, n, hj⟩ | ⟨jid, hj⟩ <;> rw [hj] <;> rfl
  rw [he]
  refine ⟨h.lidToPn, h.keys, h.msgs, fun x hx => ?_⟩
  obtain ⟨y, hy, -, hj⟩ := hmem x hx
  rw [hj]
  exact h.jobs y hy

theorem Settled.advance (h : Settled map H J w) : Settled map H J (advance w) := by
  have hhead : ∀ {t : Txn} {later : List Txn}, w.txq = t :: later →
      (∃ jids n, t.job = .tails jids n) ∨ ∃ jid, t.job = .account jid :=
    fun ht => h.jobs _ (by rw [ht]; simp)
  have htail : ∀ {t : Txn} {later : List Txn}, w.txq = t :: later →
      Settled map H J (w.popped later) := fun ht =>
    ⟨h.lidToPn, h.keys, h.msgs, fun x hx => h.jobs x (by rw [ht]; exact mem_cons_of_mem _ hx)⟩
  have hran := ran_advance w
  generalize Whatsvelte.advance w = v at hran ⊢
  cases hran with
  | idle => exact h
  | tails tid jids m c later ht =>
    have hout := Outside.addHistoryMessages
      { w.popped later with nextRef := (tailRows (w.popped later) m (w.popped later).nextRef jids).2 }
      (tailRows (w.popped later) m (w.popped later).nextRef jids).1 false
    have hdb := addHistoryMessages_db
      { w.popped later with nextRef := (tailRows (w.popped later) m (w.popped later).nextRef jids).2 }
      (tailRows (w.popped later) m (w.popped later).nextRef jids).1 false
    exact (htail ht).of_frame hout.lidToPn hout.chats hdb.1 hdb.2
  | account tid jid c later ht => exact (htail ht).of_frame rfl rfl rfl rfl
  | _ => rcases hhead ‹_› with ⟨jids, n, hj⟩ | ⟨jid, hj⟩ <;> cases hj

/-! ## The stages of the boot -/

variable {D : Table UiMessage.key} {R : Table Chat.jid} {acc : Option (Option Jid)} {s : Session}
  {saved : Jid → Jid → Option Jid} {b : Boot}

/-- Nothing has been read yet. -/
structure Cold (D : Table UiMessage.key) (R : Table Chat.jid) (acc : Option (Option Jid)) (w : World) :
    Prop where
  msgs : w.msgs = D
  chatRows : w.chatRows = R
  account : w.account = acc
  chats : w.chats = .empty
  pending : w.q.pending = .empty
  txq : w.txq = []

/-- The map that `loadLidMap` loads. -/
def savedMap (saved : Jid → Jid → Option Jid) (s : Session) : Jid → Option Jid :=
  (loadLidMap World.init saved s).lidToPn

/-- A chat of the snapshot has this canonical key. -/
def Listed (map : Jid → Option Jid) (rows : List Chat) (j : Jid) : Prop :=
  ∃ c ∈ rows, j = canonicalIn map c.jid

/-- What holds while the boot waits for `phase`. -/
def Stage (map : Jid → Option Jid) (D : Table UiMessage.key) (R : Table Chat.jid)
    (acc : Option (Option Jid)) (w : World) : Phase → Prop
  | .frame => Cold D R acc w
  | .snapshot => Cold D R acc w ∧ w.lidToPn = map
  | .moves tids => ∃ n, tids = List.range' n (w.nextTid - n) ∧
      Moving map (rehomed map R.rows D.get) (Listed map R.rows) n w
  | .tails _ _ => Settled map (rehomed map R.rows D.get) (Listed map R.rows) w
  | .account _ => Settled map (rehomed map R.rows D.get) (Listed map R.rows) w
  | .done => Settled map (rehomed map R.rows D.get) (Listed map R.rows) w
  | _ => False

/-- A boot of a session whose account the database belongs to. -/
structure Hydrating (saved : Jid → Jid → Option Jid) (s : Session) (D : Table UiMessage.key)
    (R : Table Chat.jid) (acc : Option (Option Jid)) (b : Boot) : Prop where
  session : b.session = s
  maps : b.saved = saved
  stage : Stage (savedMap saved s) D R acc b.world b.phase

/-- A key of the chat list that is a LID has no mapping. -/
theorem Listed.unmapped (hp : Phones map) {rows : List Chat} {j : Jid} (h : Listed map rows j)
    (hj : isLid j = true) : map j = none := by
  obtain ⟨c, -, rfl⟩ := h
  by_cases hc : canonicalIn map c.jid = c.jid
  · rw [hc] at hj ⊢
    cases hm : map c.jid with
    | none => rfl
    | some p =>
      have hcan : canonicalIn map c.jid = p := by simp [canonicalIn, hj, hm]
      have := hp _ _ hm
      rw [← hcan, hc, hj] at this
      exact absurd this (by decide)
  · rw [isLid_canonicalIn hp hc] at hj
    exact absurd hj (by decide)

theorem Settled.unifyLids (hp : Phones map) {rows : List Chat} (jids : List Jid)
    (hj : ∀ j ∈ jids, Listed map rows j) : ∀ {w : World}, Settled map H (Listed map rows) w →
      Settled map H (Listed map rows) (jids.foldl (fun w jid => Whatsvelte.unifyLid w jid none) w) := by
  induction jids with
  | nil => exact fun h => h
  | cons j jids ih =>
    intro w h
    exact ih (fun i hi => hj i (mem_cons_of_mem _ hi))
      (h.unifyLid fun hl => (hj j mem_cons_self).unmapped hp hl)

theorem Settled.chatKeys (h : Settled map H J w) : ∀ j ∈ chatKeys w, J j := by
  intro j hj
  obtain ⟨c, hc, rfl⟩ := mem_map.1 hj
  exact (h.keys c.jid).1 (by rw [Table.get_of_mem hc]; rfl)

theorem hydrating_toAccount (hs : b.session = s) (hsv : b.saved = saved)
    (h : Settled (savedMap saved s) (rehomed (savedMap saved s) R.rows D.get)
      (Listed (savedMap saved s) R.rows) b.world) : Hydrating saved s D R acc b.toAccount := by
  unfold Boot.toAccount
  split
  · exact ⟨hs, hsv, h.enqueue (.inr ⟨_, rfl⟩)⟩
  · exact ⟨hs, hsv, h.of_frame rfl rfl rfl rfl⟩

theorem hydrating_restore (hp : Phones (savedMap saved s)) (hs : b.session = s) (hsv : b.saved = saved)
    (h : Settled (savedMap saved s) (rehomed (savedMap saved s) R.rows D.get)
      (Listed (savedMap saved s) R.rows) b.world) (jids : List Jid) :
    Hydrating saved s D R acc (b.restore jids) := by
  unfold Boot.restore
  split
  · exact hydrating_toAccount hs hsv (h.unifyLids hp _ h.chatKeys)
  · refine ⟨hs, hsv, ?_⟩
    have hstep : Settled (savedMap saved s) (rehomed (savedMap saved s) R.rows D.get)
        (Listed (savedMap saved s) R.rows) (b.world.step (.loadTails (jids.take CHUNK) 1)) := by
      unfold World.step
      dsimp only
      split
      · exact h
      · exact h.enqueue (.inl ⟨_, _, rfl⟩)
    exact hstep

/-- The rows are gone through in one go. -/
theorem hydrating_reconcile (hs : b.session = s) (hsv : b.saved = saved) (hr : s.registered = true)
    (h : Cold D R acc b.world) (hl : b.world.lidToPn = savedMap saved s)
    (hd : differentAccount (loadSnapshot b.world) s = false) :
    Hydrating saved s D R acc (b.reconcile (loadSnapshot b.world)) := by
  unfold Boot.reconcile
  rw [if_pos (by rwa [hs]), if_neg (by rw [hs, hd]; decide)]
  have hmoving : Moving (savedMap saved s) D.get (fun _ => False) b.world.nextTid b.world := by
    refine ⟨hl, h.pending, fun j => ?_, ?_, fun t ht => ?_, le_rfl⟩
    · simp [h.chats]
    · rw [World.base, World.jobs, h.txq, h.msgs]
      rfl
    · rw [h.txq] at ht
      exact absurd ht not_mem_nil
  have hrows : (loadSnapshot b.world).chats = R.rows := congrArg Table.rows h.chatRows
  refine ⟨hs, hsv, b.world.nextTid, rfl, ?_⟩
  have := hmoving.hydrateRows R.rows
  simp only [false_or] at this
  rwa [hrows]

/-- A step of the boot or of the queue: no event comes in, and nothing fails. -/
def BootStep.own : BootStep → Bool
  | .resume => true
  | .live (.call .openNext) => true
  | .live (.call .advance) => true
  | _ => false

/-- What leaves an idle state alone, and keeps the moves and what comes after them, keeps the stage. -/
theorem Stage.keep {f : World → World} (hidle : w.txq = [] → f w = w)
    (hmoving : ∀ {H J n}, Moving map H J n w → Moving map H J n (f w) ∧ (f w).nextTid = w.nextTid)
    (hsettled : ∀ {H J}, Settled map H J w → Settled map H J (f w)) {ph : Phase}
    (h : Stage map D R acc w ph) : Stage map D R acc (f w) ph := by
  cases ph with
  | frame =>
    have hc : Cold D R acc w := h
    rwa [hidle hc.txq]
  | snapshot =>
    have hc : Cold D R acc w := h.1
    rwa [hidle hc.txq]
  | moves =>
    obtain ⟨n, ht, hm⟩ := h
    obtain ⟨hm', htid⟩ := hmoving hm
    exact ⟨n, by rwa [htid], hm'⟩
  | tails | account | done => exact hsettled h
  | _ => exact h

theorem Stage.openNext {ph : Phase} (h : Stage map D R acc w ph) : Stage map D R acc (openNext w) ph :=
  h.keep (fun ht => by simp [Whatsvelte.openNext, ht]) Moving.openNext Settled.openNext

theorem Stage.advance {ph : Phase} (h : Stage map D R acc w ph) : Stage map D R acc (advance w) ph :=
  h.keep (fun ht => by simp [Whatsvelte.advance, ht]) Moving.advance Settled.advance

/-- The moves are over when none of their transactions is left. -/
theorem Moving.over (h : Moving map H J n w) (hw : w.waitsFor (List.range' n (w.nextTid - n)) = false) :
    w.txq = [] := by
  refine eq_nil_iff_forall_not_mem.2 fun t ht => ?_
  obtain ⟨-, h1, h2⟩ := h.moves t ht
  have hmem : t.tid ∈ List.range' n (w.nextTid - n) := mem_range'_1.2 ⟨h1, by omega⟩
  exact absurd hw (by simpa [World.waitsFor] using ⟨t, ht, by simpa using hmem⟩)

theorem hydrating_resume (hp : Phones (savedMap saved s)) (hr : s.registered = true)
    (hd : ∀ w, Cold D R acc w → differentAccount (loadSnapshot w) s = false)
    (h : Hydrating saved s D R acc b) : Hydrating saved s D R acc (b.step .resume) := by
  obtain ⟨hs, hm, hst⟩ := h
  unfold Boot.step
  cases hph : b.phase with
  | frame =>
    rw [hph] at hst
    refine ⟨hs, hm, { hst with }, ?_⟩
    rw [hs, hm]
    rfl
  | snapshot =>
    rw [hph] at hst
    exact hydrating_reconcile hs hm hr hst.1 hst.2 (hd _ hst.1)
  | moves =>
    rw [hph] at hst
    obtain ⟨n, rfl, hmov⟩ := hst
    dsimp only
    split
    · exact ⟨hs, hm, by rw [hph]; exact ⟨n, rfl, hmov⟩⟩
    · rename_i hw
      exact hydrating_restore hp hs hm (hmov.settled (hmov.over (by simpa using hw))) _
  | tails tid rest =>
    rw [hph] at hst
    dsimp only
    split
    · exact ⟨hs, hm, by rwa [hph]⟩
    · exact hydrating_restore hp hs hm hst rest
  | account =>
    rw [hph] at hst
    dsimp only
    split
    · exact ⟨hs, hm, by rwa [hph]⟩
    · exact ⟨hs, hm, Settled.of_frame hst rfl rfl rfl rfl⟩
  | done =>
    rw [hph] at hst
    exact ⟨hs, hm, by rwa [hph]⟩
  | _ =>
    rw [hph] at hst
    exact hst.elim

theorem hydrating_step (hp : Phones (savedMap saved s)) (hr : s.registered = true)
    (hd : ∀ w, Cold D R acc w → differentAccount (loadSnapshot w) s = false)
    (h : Hydrating saved s D R acc b) {e : BootStep} (he : e.own = true) :
    Hydrating saved s D R acc (b.step e) := by
  unfold BootStep.own at he
  split at he
  · exact hydrating_resume hp hr hd h
  · exact ⟨h.session, h.maps, h.stage.openNext⟩
  · exact ⟨h.session, h.maps, h.stage.advance⟩
  · exact absurd he (by decide)

/-- The session is known; nothing else has happened. -/
theorem hydrating_status (saved : Jid → Jid → Option Jid) (D : Table UiMessage.key) (R : Table Chat.jid)
    (acc : Option (Option Jid)) (hr : s.registered = true) :
    Hydrating saved s D R acc ((Boot.start saved D R acc).step (.status s)) := by
  have hcold : Cold D R acc (refreshStatus (Boot.start saved D R acc).world s) := by
    unfold refreshStatus learnLidMapping applyMerge
    dsimp only
    repeat' split
    · exact ⟨rfl, rfl, rfl, rfl, rfl, rfl⟩
    · exact ⟨rfl, rfl, rfl, rfl, rfl, rfl⟩
    · -- there is no chat to merge
      rename_i h
      exact absurd rfl h
    · exact ⟨rfl, rfl, rfl, rfl, rfl, rfl⟩
  unfold Boot.step
  dsimp only [Boot.start]
  rw [if_pos hr]
  exact ⟨rfl, rfl, hcold⟩

/-! ## What is reachable -/

/-- Every stored message is under its canonical key and has a row in the chat list there. -/
def Reached (w : World) : Prop :=
  ∀ m ∈ w.msgs.rows, w.chats.has (canonicalJid w m.chatJid) = true ∧ canonicalJid w m.chatJid = m.chatJid

instance (w : World) : Decidable (Reached w) := inferInstanceAs (Decidable (∀ m ∈ w.msgs.rows, _))

/-- Every stored message has a chat row that leads to its canonical key, and one under its own key if
that is a LID with a mapping. -/
def Rowed (map : Jid → Option Jid) (D : Table UiMessage.key) (R : Table Chat.jid) : Prop :=
  ∀ m ∈ D.rows, (∃ c ∈ R.rows, canonicalIn map m.chatJid = canonicalIn map c.jid) ∧
    (canonicalIn map m.chatJid ≠ m.chatJid → R.has m.chatJid = true)

instance (map : Jid → Option Jid) (D : Table UiMessage.key) (R : Table Chat.jid) :
    Decidable (Rowed map D R) := inferInstanceAs (Decidable (∀ m ∈ D.rows, _))

theorem forall_rows_iff {P : Jid → Prop} {D : Table UiMessage.key} :
    (∀ m ∈ D.rows, P m.chatJid) ↔ ∀ k, (D.get k).isSome = true → P k.chatJid := by
  refine ⟨fun h k hk => ?_, fun h m hm => ?_⟩
  · obtain ⟨m, hm, rfl⟩ := get_isSome.1 hk
    exact h m hm
  · exact h m.key (by rw [Table.get_of_mem hm]; rfl)

/-- After the moves the rows and the messages agree if they did before. -/
theorem rehomed_reached_iff (hp : Phones map) (D : Table UiMessage.key) (R : Table Chat.jid) :
    (∀ k, (rehomed map R.rows D.get k).isSome = true →
        Listed map R.rows (canonicalIn map k.chatJid) ∧ canonicalIn map k.chatJid = k.chatJid) ↔
      ∀ k, (D.get k).isSome = true → Listed map R.rows (canonicalIn map k.chatJid) ∧
        (canonicalIn map k.chatJid ≠ k.chatJid → R.has k.chatJid = true) := by
  constructor
  · intro h k hk
    have hleft : (canonicalIn map k.chatJid = k.chatJid ∨ ∀ c ∈ R.rows, c.jid ≠ k.chatJid) →
        Listed map R.rows (canonicalIn map k.chatJid) ∧ canonicalIn map k.chatJid = k.chatJid :=
      fun hA => h k ((isSome_rehomed hp R.rows D.get k).2 ⟨hA, .inl hk⟩)
    by_cases hc : canonicalIn map k.chatJid = k.chatJid
    · exact ⟨(hleft (.inl hc)).1, fun hne => absurd hc hne⟩
    · -- without a row the message would have stayed under the LID
      have hrow : ∃ c ∈ R.rows, c.jid = k.chatJid := by
        by_contra hno
        exact hc (hleft (.inr fun c hm heq => hno ⟨c, hm, heq⟩)).2
      obtain ⟨c, hm, heq⟩ := id hrow
      exact ⟨⟨c, hm, by rw [heq]⟩, fun _ => get_isSome.2 hrow⟩
  · intro h k hk
    obtain ⟨hA, hB | ⟨c, hm, hne, hcan, -⟩⟩ := (isSome_rehomed hp R.rows D.get k).1 hk
    · obtain ⟨h1, h2⟩ := h k hB
      refine ⟨h1, hA.elim id fun hno => ?_⟩
      by_contra hc
      obtain ⟨c, hm, heq⟩ := get_isSome.1 (h2 hc)
      exact hno c hm heq
    · have hcan' : canonicalIn map c.jid ≠ c.jid := fun h' => hne (h'.symm.trans hcan)
      have hfix : canonicalIn map k.chatJid = k.chatJid :=
        canonicalIn_phone (hcan ▸ isLid_canonicalIn hp hcan')
      exact ⟨⟨c, hm, by rw [hfix, hcan]⟩, hfix⟩

theorem Settled.reached_iff (hp : Phones map)
    (h : Settled map (rehomed map R.rows D.get) (Listed map R.rows) w) : Reached w ↔ Rowed map D R := by
  have hcan : ∀ j, canonicalJid w j = canonicalIn map j := by
    intro j
    rw [canonicalJid, h.lidToPn, canonicalIn]
  have hhas : ∀ j, w.chats.has j = true ↔ Listed map R.rows j := h.keys
  unfold Reached Rowed
  simp only [hcan, hhas]
  rw [forall_rows_iff (P := fun j => Listed map R.rows (canonicalIn map j) ∧ canonicalIn map j = j),
    h.msgs, rehomed_reached_iff hp D R]
  exact (forall_rows_iff (P := fun j => Listed map R.rows (canonicalIn map j) ∧
    (canonicalIn map j ≠ j → R.has j = true))).symm

/-- **What a boot reaches.** A boot of a registered session on the database of its account, with no
event in between and no error, ends with every stored message under its canonical key and with a row
there if and only if every message that it found had its rows. -/
theorem boot_reaches_iff (saved : Jid → Jid → Option Jid) (D : Table UiMessage.key) (R : Table Chat.jid)
    (acc : Option (Option Jid)) {s : Session} (hr : s.registered = true)
    (hd : differentAccount (loadSnapshot (Boot.start saved D R acc).world) s = false)
    (hp : Phones (savedMap saved s)) {bs : List BootStep} (hown : ∀ e ∈ bs, e.own = true)
    (hdone : ((Boot.start saved D R acc).run (.status s :: bs)).phase = .done) :
    Reached ((Boot.start saved D R acc).run (.status s :: bs)).world ↔ Rowed (savedMap saved s) D R := by
  have hacc : ∀ w, Cold D R acc w → differentAccount (loadSnapshot w) s = false := by
    intro w hw
    have : loadSnapshot w = loadSnapshot (Boot.start saved D R acc).world := by
      rw [loadSnapshot, hw.account, hw.chatRows, hw.msgs]
      rfl
    rwa [this]
  have hall : Along Boot.step (fun _ e => e.own = true) ((Boot.start saved D R acc).step (.status s)) bs :=
    along_of_forall (fun e he _ => hown e he) _
  have hend : Hydrating saved s D R acc ((Boot.start saved D R acc).run (.status s :: bs)) := by
    unfold Boot.run
    rw [run_cons]
    exact Along.inv (fun _ _ h he => hydrating_step hp hr hacc h he)
      (hydrating_status saved D R acc hr) hall
  have hst := hend.stage
  rw [hdone] at hst
  exact Settled.reached_iff hp hst

/-- The session of the runs below, and the map saved for it. -/
def sessionMe : Session := { jid := some "me@s.whatsapp.net", registered := true }

def savedA : Jid → Jid → Option Jid := fun _ l => if l = "7@lid" then some chatA else none

/-- A boot with one move and one read of tails. -/
def bootSteps : List BootStep :=
  [.status sessionMe, .resume, .resume, .live (.call .openNext), .live (.call .advance), .resume,
    .live (.call .openNext), .live (.call .advance), .resume,
    .live (.call .openNext), .live (.call .advance), .resume]

/-- A row and a message under a LID with a mapping: both are found under the phone number. -/
theorem boot_reaches_iff_lid :
    Reached ((Boot.start savedA (Table.empty.set { msgX with chatJid := "7@lid" })
      (Table.empty.set ⟨"7@lid", none, none, 5, 0, none, none, none, none⟩) none).run bootSteps).world := by
  refine (boot_reaches_iff savedA _ _ none rfl (by decide +kernel) ?_
    (by decide) (by decide +kernel)).2 (by decide +kernel)
  intro l p h
  have hsaved : savedMap savedA sessionMe l = savedA "me@s.whatsapp.net" l := rfl
  rw [hsaved, savedA] at h
  split at h
  · injection h with h
    subst h
    decide
  · cases h

/-- A message whose chat row was never written: the boot leaves the conversation out of the list. -/
theorem boot_misses_conversation :
    let b := (Boot.start (fun _ _ => none) (Table.empty.set msgX) .empty none).run
      [.status sessionMe, .resume, .resume, .resume, .live (.call .openNext), .live (.call .advance), .resume]
    b.phase = .done ∧ ¬ Reached b.world := by
  decide +kernel

end Whatsvelte
