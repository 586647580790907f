import Whatsvelte.Proof.Backend
import Whatsvelte.Spec.Sessions

/-!
# One client per database

`one_client_per_database`: whatever calls of the manager run at once and however their boots end, a
session id has at most one run task that was spawned and has not ended, its database files are
deleted or opened only while it has none, the successful `get_or_create` calls between two resets
return one session, and a failed boot leaves no entry.

The lock makes the calls take turns (`Locked`). What the one that has it knows is `Guarded`: a run
task is the one in the map, or the one that the reset in progress has taken out and waits for.
`reachable_toBackend`: what the manager does is a run of the backend's model.
-/

namespace Whatsvelte.Sessions

open Option (any_some bind_some isSome_none)
open Backend (SessionId)
open Function (update update_of_ne update_self)
open List

variable {s t : State} {id : SessionId} {n c : ℕ} {p : Progress} {a : Action} {ok : Bool}

/-! ## Who has the lock -/

/-- The call is past `sessions.lock().await` and has not returned. -/
def Progress.critical : Progress → Bool
  | .locking _ => false
  | .returned _ => false
  | _ => true

/-- Exactly the call that has the lock is past it. -/
structure Locked (s : State) : Prop where
  owner : ∀ c p, s.calls[c]? = some p → p.critical = true → s.lock = some c
  holder : ∀ c, s.lock = some c → ∃ p, s.calls[c]? = some p ∧ p.critical = true

/-- Where the call is that has the lock. -/
def State.holder (s : State) : Option Progress := s.lock.bind (s.calls[·]?)

theorem calls_goto (hc : s.calls[c]? = some p) (p' : Progress) (d : ℕ) :
    (s.goto c p').calls[d]? = if c = d then some p' else s.calls[d]? := by
  rw [State.goto, getElem?_set']
  refine ite_congr rfl (fun hcd => ?_) fun _ => rfl
  rw [← hcd, hc]
  rfl

/-- The call goes on with the lock, or returns and frees it. -/
theorem Locked.goto (h : Locked s) (hl : s.lock = none ∨ s.lock = some c) (hc : s.calls[c]? = some p)
    {p' : Progress} (htc : t.calls = (s.goto c p').calls)
    (ht : t.lock = if p'.critical then some c else none) :
    Locked t ∧ t.holder = if p'.critical then some p' else none := by
  have hcalls := calls_goto hc p'
  refine ⟨⟨fun d q hd hq => ?_, fun d hd => ?_⟩, ?_⟩
  · rw [htc, hcalls] at hd
    split at hd
    · rename_i hcd
      cases hd
      rw [ht, if_pos hq, hcd]
    · rename_i hcd
      -- no other call is past the lock
      have := h.owner d q hd hq
      rcases hl with hl | hl <;> rw [hl] at this
      · cases this
      · exact absurd (Option.some.inj this) hcd
  · rw [ht] at hd
    split at hd
    · rename_i hp
      cases hd
      exact ⟨p', by rw [htc, hcalls, if_pos rfl], hp⟩
    · cases hd
  · rw [State.holder, ht]
    split
    · rw [bind_some, htc, hcalls, if_pos rfl]
    · rfl

/-! ## What the holder knows -/

/-- The run task of the session was spawned for `id` and has not ended. -/
def Alive (booted : List Session) (id : SessionId) (n : ℕ) : Prop :=
  ∃ b, booted[n]? = some b ∧ b.id = id ∧ b.running = true

/-- The call has taken the session out of the map and not yet waited for its run task. -/
def Progress.ending (id : SessionId) (n : ℕ) : Progress → Prop
  | .disconnecting i old => i = id ∧ old = n
  | .joining i old => i = id ∧ old = n
  | _ => False

/-- The call replaces the session of `id`, or boots the first one. -/
def Progress.worksOn (id : SessionId) : Progress → Prop
  | .disconnecting i _ => i = id
  | .joining i _ => i = id
  | .deleting i _ _ => i = id
  | .opening call _ => call.id = id
  | .building call _ => call.id = id
  | _ => False

/-- The call deletes or opens the database files of `id`. -/
def Progress.touchesDb (id : SessionId) : Progress → Prop
  | .deleting i _ _ => i = id
  | .opening call _ => call.id = id
  | _ => False

theorem Progress.worksOn_of_ending {p : Progress} (h : p.ending id n) : p.worksOn id := by
  cases p with
  | disconnecting | joining => exact h.1
  | _ => exact h.elim

theorem Progress.ending_unique {p : Progress} {m : ℕ} (h : p.ending id n) (h' : p.ending id m) : n = m := by
  cases p with
  | disconnecting | joining => exact h.2.symm.trans h'.2
  | _ => exact h.elim

theorem Progress.of_touchesDb {p : Progress} (h : p.touchesDb id) :
    p.critical = true ∧ p.worksOn id ∧ ∀ n, ¬ p.ending id n := by
  cases p with
  | deleting | opening => exact ⟨rfl, h, fun _ he => he⟩
  | _ => exact h.elim

structure Guarded (sessions : SessionId → Option ℕ) (booted : List Session) (h : Option Progress) :
    Prop where
  entry : ∀ id n, sessions id = some n → ∃ b, booted[n]? = some b ∧ b.id = id ∧ b.runTask = true
  alive : ∀ id n, Alive booted id n → sessions id = some n ∨ ∃ p, h = some p ∧ p.ending id n
  absent : ∀ p id, h = some p → p.worksOn id → sessions id = none
  held : ∀ id n, h = some (.disconnecting id n) →
    ∃ b, booted[n]? = some b ∧ b.id = id ∧ b.runTask = true

/-! ## The log -/

/-- The session that the last successful `get_or_create` since the last reset returned. -/
def current (id : SessionId) : List Entry → Option ℕ
  | [] => none
  | .created i n :: log => if i = id then some n else current id log
  | .reset i :: log => if i = id then none else current id log
  | .failed _ :: log => current id log

/-- A `get_or_create` returns what the one before it returned, unless there was a reset. -/
def Agreed (log : List Entry) : Prop :=
  ∀ newer older id n, log = newer ++ .created id n :: older → ∀ m, current id older = some m → m = n

structure Logged (s : State) : Prop where
  current : ∀ id n, current id s.log = some n → s.sessions id = some n
  agreed : Agreed s.log

structure Inv (s : State) : Prop where
  locked : Locked s
  guarded : Guarded s.sessions s.booted s.holder
  logged : Logged s

theorem inv_init : Inv State.init where
  locked := ⟨fun _ _ hc => (nomatch hc), fun _ hc => (nomatch hc)⟩
  guarded := by
    refine ⟨fun _ _ h => (nomatch h), ?_, fun _ _ h => (nomatch h), fun _ _ h => (nomatch h)⟩
    rintro id n ⟨b, hb, -⟩
    cases hb
  logged := by
    refine ⟨fun _ _ h => (nomatch h), fun newer older id n h => ?_⟩
    exact absurd h (by simp [State.init])

/-! ## Steps of the guarded part -/

section Guarded

variable {sessions : SessionId → Option ℕ} {booted : List Session} {h : Option Progress}

/-- A change to one session that leaves its id. -/
theorem getElem?_modify_session (booted : List Session) (n m : ℕ) (f : Session → Session) :
    (booted.modify n f)[m]? = if n = m then (booted[m]?).map f else booted[m]? := by
  rw [getElem?_modify]
  split
  · rfl
  · exact Option.map_id'

/-- A run task ends. -/
theorem Guarded.ends (hg : Guarded sessions booted h) (n : ℕ) :
    Guarded sessions (booted.modify n ({ · with running := false })) h := by
  have hkeep : ∀ id (m : ℕ), (∃ b : Session, booted[m]? = some b ∧ b.id = id ∧ b.runTask = true) →
      ∃ b : Session, (booted.modify n ({ · with running := false }))[m]? = some b ∧ b.id = id ∧
        b.runTask = true := by
    rintro id m ⟨b, hb, hi, hr⟩
    rw [getElem?_modify_session, hb]
    split
    · exact ⟨_, rfl, hi, hr⟩
    · exact ⟨b, rfl, hi, hr⟩
  refine ⟨fun id m hs => hkeep id m (hg.entry id m hs), ?_, hg.absent,
    fun id m hh => hkeep id m (hg.held id m hh)⟩
  rintro id m ⟨b, hb, hi, hr⟩
  rw [getElem?_modify_session] at hb
  split at hb
  · obtain ⟨b', -, rfl⟩ := Option.map_eq_some_iff.1 hb
    cases hr
  · exact hg.alive id m ⟨b, hb, hi, hr⟩

/-- The holder goes on, and no session changes. -/
theorem Guarded.goto (hg : Guarded sessions booted h) (p' : Progress)
    (halive : ∀ id n p, h = some p → p.ending id n → Alive booted id n → p'.ending id n)
    (habsent : ∀ id, p'.worksOn id → sessions id = none)
    (hheld : ∀ id n, p' ≠ .disconnecting id n) : Guarded sessions booted (some p') where
  entry := hg.entry
  alive id n ha := by
    rcases hg.alive id n ha with hs | ⟨p, hp, he⟩
    · exact .inl hs
    · exact .inr ⟨p', rfl, halive id n p hp he ha⟩
  absent p id hp hw := by
    cases hp
    exact habsent id hw
  held id n hp := by
    cases hp
    exact absurd rfl (hheld id n)

/-- The holder returns without a session. -/
theorem Guarded.ret (hg : Guarded sessions booted h)
    (hend : ∀ id n p, h = some p → ¬ p.ending id n) : Guarded sessions booted none where
  entry := hg.entry
  alive id n ha := by
    rcases hg.alive id n ha with hs | ⟨p, hp, he⟩
    · exact .inl hs
    · exact absurd he (hend id n p hp)
  absent p id hp := nomatch hp
  held id n hp := nomatch hp

/-- `reset` takes the session out of the map. -/
theorem Guarded.remove (hg : Guarded sessions booted none) (hs : sessions id = some n) :
    Guarded (update sessions id none) booted (some (.disconnecting id n)) where
  entry i m hi := by
    rcases eq_or_ne i id with rfl | hne
    · rw [update_self] at hi
      cases hi
    · rw [update_of_ne hne] at hi
      exact hg.entry i m hi
  alive i m ha := by
    have hm : sessions i = some m := (hg.alive i m ha).resolve_right fun ⟨p, hp, _⟩ => nomatch hp
    rcases eq_or_ne i id with rfl | hne
    · rw [hs] at hm
      cases hm
      exact .inr ⟨_, rfl, rfl, rfl⟩
    · exact .inl (by rw [update_of_ne hne, hm])
  absent p i hp hw := by
    cases hp
    rw [show id = i from hw, update_self]
  held i m hp := by
    cases hp
    exact hg.entry _ _ hs

/-- The join handle is taken and the task aborted. -/
theorem Guarded.take (hg : Guarded sessions booted (some (.disconnecting id n))) :
    Guarded sessions (booted.modify n ({ · with runTask := false })) (some (.joining id n)) := by
  have hnone : sessions id = none := hg.absent _ id rfl rfl
  obtain ⟨old, hold, hid, -⟩ := hg.held id n rfl
  constructor
  · -- the session is in the map under no id
    intro i m hi
    obtain ⟨b, hb, hbi, hr⟩ := hg.entry i m hi
    have hnm : n ≠ m := by
      rintro rfl
      rw [hold] at hb
      cases hb
      rw [hid] at hbi
      rw [← hbi, hnone] at hi
      cases hi
    exact ⟨b, by rw [getElem?_modify_session, if_neg hnm, hb], hbi, hr⟩
  · rintro i m ⟨b, hb, hbi, hr⟩
    have ha : Alive booted i m := by
      rw [getElem?_modify_session] at hb
      split at hb
      · obtain ⟨b', hb', rfl⟩ := Option.map_eq_some_iff.1 hb
        exact ⟨b', hb', hbi, hr⟩
      · exact ⟨b, hb, hbi, hr⟩
    rcases hg.alive i m ha with hs | ⟨p, hp, he⟩
    · exact .inl hs
    · cases hp
      exact .inr ⟨_, rfl, he⟩
  · intro p i hp hw
    cases hp
    rw [← show id = i from hw, hnone]
  · intro i m hp
    cases hp

/-- `boot` has made a session. -/
theorem Guarded.spawn (hg : Guarded sessions booted h) (hs : sessions id = none)
    (hend : ∀ id n p, h = some p → ¬ p.ending id n) :
    Guarded (update sessions id (some booted.length)) (booted ++ [⟨id, true, true⟩]) none := by
  have hnew : (booted ++ [(⟨id, true, true⟩ : Session)])[booted.length]? = some ⟨id, true, true⟩ := by
    simp
  have hold : ∀ (m : ℕ) b, booted[m]? = some b → (booted ++ [(⟨id, true, true⟩ : Session)])[m]? = some b := by
    intro m b hb
    rw [getElem?_append_left (List.getElem?_eq_some_iff.1 hb).1, hb]
  constructor
  · intro i m hi
    rcases eq_or_ne i id with rfl | hne
    · rw [update_self] at hi
      cases hi
      exact ⟨_, hnew, rfl, rfl⟩
    · rw [update_of_ne hne] at hi
      obtain ⟨b, hb, hbi, hr⟩ := hg.entry i m hi
      exact ⟨b, hold m b hb, hbi, hr⟩
  · rintro i m ⟨b, hb, hbi, hr⟩
    left
    rcases Nat.lt_trichotomy m booted.length with hm | rfl | hm
    · rw [getElem?_append_left hm] at hb
      have hi : sessions i = some m := (hg.alive i m ⟨b, hb, hbi, hr⟩).resolve_right (by
        rintro ⟨p, hp, he⟩
        exact hend i m p hp he)
      have hne : i ≠ id := by
        rintro rfl
        rw [hs] at hi
        cases hi
      rw [update_of_ne hne, hi]
    · rw [hnew] at hb
      cases hb
      rw [← hbi, update_self]
    · rw [getElem?_eq_none (by simp; omega)] at hb
      cases hb
  · rintro p i ⟨⟩
  · rintro i m ⟨⟩

end Guarded

/-! ## The log grows -/

theorem Agreed.cons {log : List Entry} (h : Agreed log) (e : Entry)
    (he : ∀ id n m, e = .created id n → current id log = some m → m = n) : Agreed (e :: log) := by
  intro newer older id n hl m hm
  cases newer with
  | nil =>
    cases hl
    exact he id n m rfl hm
  | cons e' newer =>
    rw [cons_append] at hl
    injection hl with _ hl
    exact h newer older id n hl m hm

/-- The log before and after `e`, for a step that changes the map at `i` only. -/
theorem Logged.created (h : Logged s) (hl : t.log = .created id n :: s.log)
    (ht : t.sessions = update s.sessions id (some n))
    (hs : ∀ m, s.sessions id = some m → m = n) : Logged t where
  current i m hm := by
    rw [hl, Sessions.current] at hm
    rcases eq_or_ne i id with rfl | hne
    · rw [if_pos rfl] at hm
      rw [ht, update_self, hm]
    · rw [if_neg hne.symm] at hm
      rw [ht, update_of_ne hne, h.current i m hm]
  agreed := by
    rw [hl]
    refine h.agreed.cons _ fun i k m he hm => ?_
    cases he
    exact hs m (h.current id m hm)

theorem Logged.reset (h : Logged s) (hl : t.log = .reset id :: s.log)
    (ht : t.sessions = update s.sessions id none) : Logged t where
  current i m hm := by
    rw [hl, Sessions.current] at hm
    rcases eq_or_ne i id with rfl | hne
    · rw [if_pos rfl] at hm
      cases hm
    · rw [if_neg hne.symm] at hm
      rw [ht, update_of_ne hne, h.current i m hm]
  agreed := by
    rw [hl]
    exact h.agreed.cons _ fun i k m he => nomatch he

theorem Logged.failed (h : Logged s) (hl : t.log = .failed id :: s.log)
    (ht : t.sessions = s.sessions) : Logged t where
  current i m hm := by
    rw [hl, Sessions.current] at hm
    rw [ht, h.current i m hm]
  agreed := by
    rw [hl]
    exact h.agreed.cons _ fun i k m he => nomatch he

/-- A session goes into the map in place of none. -/
theorem Logged.spawn (h : Logged s) (hl : t.log = s.log)
    (ht : t.sessions = update s.sessions id (some n)) (hs : s.sessions id = none) : Logged t where
  current i m hm := by
    rw [hl] at hm
    have hi := h.current i m hm
    have hne : i ≠ id := by
      rintro rfl
      rw [hs] at hi
      cases hi
    rw [ht, update_of_ne hne, hi]
  agreed := by
    rw [hl]
    exact h.agreed

theorem Logged.same (h : Logged s) (hl : t.log = s.log) (ht : t.sessions = s.sessions) : Logged t where
  current i m hm := by
    rw [hl] at hm
    rw [ht, h.current i m hm]
  agreed := by
    rw [hl]
    exact h.agreed

/-! ## Steps -/

/-- The call at `c` goes on with the lock, or returns. -/
theorem Inv.goto (h : Inv s) (hl : s.lock = none ∨ s.lock = some c) (hc : s.calls[c]? = some p)
    {p' : Progress} (htc : t.calls = (s.goto c p').calls)
    (ht : t.lock = if p'.critical then some c else none)
    (hg : Guarded t.sessions t.booted (if p'.critical then some p' else none)) (hlog : Logged t) :
    Inv t := by
  obtain ⟨hlocked, hholder⟩ := h.locked.goto hl hc htc ht
  exact ⟨hlocked, by rwa [hholder], hlog⟩

/-- A call that is neither waiting nor returned has the lock. -/
theorem Inv.holds (h : Inv s) (hc : s.calls[c]? = some p) (hp : p.critical = true) :
    s.lock = some c ∧ s.holder = some p := by
  have hl := h.locked.owner c p hc hp
  exact ⟨hl, by rw [State.holder, hl, bind_some, hc]⟩

theorem Inv.guarded_free (h : Inv s) (hl : s.lock = none) : Guarded s.sessions s.booted none := by
  have hg := h.guarded
  rwa [State.holder, hl] at hg

theorem inv_getOrCreate (h : Inv s) (hl : s.lock = none) (hc : s.calls[c]? = some p) :
    Inv (getOrCreate { s with lock := some c } c id) := by
  have hg := h.guarded_free hl
  rw [getOrCreate]
  split
  · rename_i existing hs
    refine h.goto (.inl hl) hc rfl rfl hg (h.logged.created rfl ?_ fun m hm => ?_)
    · exact (Function.update_eq_self_iff.2 hs.symm).symm
    · exact Option.some.inj (hm.symm.trans hs)
  · rename_i hs
    refine h.goto (.inl hl) hc rfl rfl (hg.goto _ (fun i m q hq => nomatch hq) ?_ ?_)
      (h.logged.same rfl rfl)
    · rintro i rfl
      exact hs
    · exact fun i m he => nomatch he

theorem inv_reset (h : Inv s) (hl : s.lock = none) (hc : s.calls[c]? = some p) :
    Inv (reset { s with lock := some c } c id) := by
  have hg := h.guarded_free hl
  rw [reset]
  split
  · rename_i old hs
    exact h.goto (.inl hl) hc rfl rfl (hg.remove hs) (h.logged.reset rfl rfl)
  · rename_i hs
    refine h.goto (.inl hl) hc rfl rfl (hg.goto _ (fun i m q hq => nomatch hq) ?_ ?_)
      (h.logged.reset rfl (Function.update_eq_self_iff.2 hs.symm).symm)
    · rintro i rfl
      exact hs
    · exact fun i m he => nomatch he

/-- Both outcomes of `boot` leave no session of the call but the one that it has made. -/
theorem inv_booted (h : Inv s) (hl : s.lock = some c) (hc : s.calls[c]? = some p)
    (hp : s.holder = some p) (call : Call) (hw : p.worksOn call.id) (he : ∀ i n, ¬ p.ending i n) :
    Inv (booted s c call) := by
  have hs : s.sessions call.id = none := h.guarded.absent p _ hp hw
  have hend : ∀ i n q, s.holder = some q → ¬ q.ending i n := by
    intro i n q hq
    rw [hp] at hq
    cases hq
    exact he i n
  cases call with
  | getOrCreate id =>
    refine h.goto (.inr hl) hc rfl rfl (h.guarded.spawn hs hend) (h.logged.created rfl rfl ?_)
    intro m hm
    rw [show s.sessions id = none from hs] at hm
    cases hm
  | reset =>
    exact h.goto (.inr hl) hc rfl rfl (h.guarded.spawn hs hend) (h.logged.spawn rfl rfl hs)

theorem inv_fail (h : Inv s) (hl : s.lock = some c) (hc : s.calls[c]? = some p)
    (hp : s.holder = some p) (call : Call) (he : ∀ i n, ¬ p.ending i n) : Inv (s.fail c call) := by
  refine h.goto (.inr hl) hc rfl rfl (h.guarded.ret fun i n q hq => ?_) (h.logged.failed rfl rfl)
  rw [hp] at hq
  cases hq
  exact he i n

/-- From the end of the reset's wait on, no run task is left of what the holder works on. -/
theorem inv_goto (h : Inv s) (hl : s.lock = some c) (hc : s.calls[c]? = some p)
    (hp : s.holder = some p) {p' : Progress} (hcr : p'.critical = true)
    (hw : ∀ i, p'.worksOn i → p.worksOn i) (hd : ∀ i n, p' ≠ .disconnecting i n)
    (he : ∀ i n, p.ending i n → ¬ Alive s.booted i n) : Inv (s.goto c p') := by
  refine h.goto (.inr hl) hc rfl (by rw [if_pos hcr, ← hl]; rfl) ?_ (h.logged.same rfl rfl)
  rw [if_pos hcr]
  refine h.guarded.goto p' ?_ ?_ hd
  · intro i n q hq hqe ha
    rw [hp] at hq
    cases hq
    exact absurd ha (he i n hqe)
  · exact fun i hi => h.guarded.absent p i hp (hw i hi)

theorem inv_resume (h : Inv s) (hc : s.calls[c]? = some p) : Inv (resume s c ok p) := by
  cases p with
  | locking call =>
    by_cases hl : s.lock = none
    · cases call with
      | getOrCreate =>
        simp only [resume, hl, isSome_none, Bool.false_eq_true, if_false]
        exact inv_getOrCreate h hl hc
      | reset =>
        simp only [resume, hl, isSome_none, Bool.false_eq_true, if_false]
        exact inv_reset h hl hc
    · simpa only [resume, if_pos (Option.isSome_iff_ne_none.2 hl)] using h
  | disconnecting id old =>
    obtain ⟨hl, hp⟩ := h.holds hc rfl
    have hg := h.guarded
    rw [hp] at hg
    obtain ⟨b, hb, -, hr⟩ := hg.held id old rfl
    -- the join handle is still there: only a reset takes it, and it takes the session from the map
    rw [resume, hb, any_some, if_pos hr]
    exact h.goto (.inr hl) hc rfl hl hg.take (h.logged.same rfl rfl)
  | joining =>
    obtain ⟨hl, hp⟩ := h.holds hc rfl
    rw [resume]
    split
    · exact h
    · rename_i hend
      refine inv_goto h hl hc hp rfl (fun i hi => hi) (fun i n hd => nomatch hd) ?_
      rintro i n ⟨rfl, rfl⟩ ⟨b, hb, -, hr⟩
      exact hend (by rw [hb, any_some, hr])
  | deleting =>
    obtain ⟨hl, hp⟩ := h.holds hc rfl
    rw [resume]
    split <;> exact inv_goto h hl hc hp rfl (fun i hi => hi) (fun i n hd => nomatch hd) fun i n he => he.elim
  | opening call =>
    obtain ⟨hl, hp⟩ := h.holds hc rfl
    rw [resume]
    split
    · exact inv_goto h hl hc hp rfl (fun i hi => hi) (fun i n hd => nomatch hd) fun i n he => he.elim
    · exact inv_fail h hl hc hp call fun i n he => he
  | building call =>
    obtain ⟨hl, hp⟩ := h.holds hc rfl
    rw [resume]
    split
    · exact inv_booted h hl hc hp call rfl fun i n he => he
    · exact inv_fail h hl hc hp call fun i n he => he
  | returned => exact h

/-- A new call waits for the lock. -/
theorem Locked.call (h : Locked s) (call : Call) (hl : t.lock = s.lock)
    (htc : t.calls = s.calls ++ [.locking call]) : Locked t ∧ t.holder = s.holder := by
  have hkeep : ∀ (d : ℕ) p, s.calls[d]? = some p → t.calls[d]? = some p := by
    intro d p hd
    rw [htc, getElem?_append_left (List.getElem?_eq_some_iff.1 hd).1, hd]
  refine ⟨⟨fun d q hd hq => ?_, fun d hd => ?_⟩, ?_⟩
  · rw [htc, getElem?_append] at hd
    split at hd
    · rw [hl]
      exact h.owner d q hd hq
    · have hm := mem_of_getElem? hd
      rw [mem_singleton.1 hm] at hq
      cases hq
  · rw [hl] at hd
    obtain ⟨p, hp, hcr⟩ := h.holder d hd
    exact ⟨p, hkeep d p hp, hcr⟩
  · rw [State.holder, State.holder, hl]
    cases hs : s.lock with
    | none => rfl
    | some d =>
      obtain ⟨p, hp, -⟩ := h.holder d hs
      rw [bind_some, bind_some, hp, hkeep d p hp]

theorem inv_step (h : Inv s) (a : Action) : Inv (s.step a) := by
  cases a with
  | call call =>
    obtain ⟨hlocked, hholder⟩ := h.locked.call call (t := s.step (.call call)) rfl rfl
    exact ⟨hlocked, by rw [hholder]; exact h.guarded, h.logged.same rfl rfl⟩
  | poll =>
    simp only [State.step]
    split
    · rename_i p hc
      exact inv_resume h hc
    · exact h
  | ends n =>
    exact ⟨⟨h.locked.owner, h.locked.holder⟩, h.guarded.ends n, h.logged.same rfl rfl⟩

theorem inv_of_run (as : List Action) : Inv (run State.step State.init as) :=
  run_inv (I := Inv) (fun _ a h => inv_step h a) inv_init as

/-! ## The result -/

theorem current_of_no_reset {mid : List Entry} (hr : Entry.reset id ∉ mid) {log : List Entry}
    (hm : current id log = some n) (ha : Agreed (mid ++ log)) : current id (mid ++ log) = some n := by
  induction mid with
  | nil => exact hm
  | cons e mid ih =>
    have ih := ih (fun h => hr (mem_cons_of_mem _ h)) fun newer older i k hl =>
      ha (e :: newer) older i k (by rw [cons_append, cons_append, hl])
    cases e with
    | created i k =>
      rw [cons_append, current]
      split
      · rename_i hi
        subst hi
        rw [ha [] _ i k rfl n ih]
      · exact ih
    | reset i =>
      have hi : i ≠ id := fun hi => hr (by rw [hi]; exact mem_cons_self)
      rw [cons_append, current, if_neg hi, ih]
    | failed => exact ih

theorem Inv.alive_eq (h : Inv s) {m : ℕ} (hn : Alive s.booted id n) (hm : Alive s.booted id m) : n = m := by
  rcases h.guarded.alive id n hn with hs | ⟨p, hp, he⟩
  · rcases h.guarded.alive id m hm with hs' | ⟨p, hp, he⟩
    · exact Option.some.inj (hs.symm.trans hs')
    · have hnone := h.guarded.absent p id hp (Progress.worksOn_of_ending he)
      rw [hs] at hnone
      cases hnone
  · have hnone := h.guarded.absent p id hp (Progress.worksOn_of_ending he)
    rcases h.guarded.alive id m hm with hs' | ⟨p', hp', he'⟩
    · rw [hs'] at hnone
      cases hnone
    · rw [hp] at hp'
      cases hp'
      exact Progress.ending_unique he he'

/-- Only a boot records a failure. -/
theorem log_resume (s : State) (c : ℕ) (ok : Bool) (p : Progress) :
    (resume s c ok p).log = s.log ∨
    (∃ e, (resume s c ok p).log = e :: s.log ∧ ∀ i, e ≠ .failed i) ∨
    ∃ call, resume s c ok p = s.fail c call ∧ p.critical = true ∧ p.worksOn call.id := by
  cases p with
  | locking call =>
    simp only [resume]
    split
    · exact .inl rfl
    · cases call with
      | getOrCreate =>
        simp only [getOrCreate]
        split
        · exact .inr (.inl ⟨_, rfl, fun i h => nomatch h⟩)
        · exact .inl rfl
      | reset =>
        simp only [reset]
        split <;> exact .inr (.inl ⟨_, rfl, fun i h => nomatch h⟩)
  | disconnecting | joining | deleting =>
    rw [resume]
    split <;> exact .inl rfl
  | opening call =>
    rw [resume]
    split
    · exact .inl rfl
    · exact .inr (.inr ⟨call, rfl, rfl, rfl⟩)
  | building call =>
    rw [resume]
    split
    · cases call with
      | getOrCreate => exact .inr (.inl ⟨_, rfl, fun i h => nomatch h⟩)
      | reset => exact .inl rfl
    · exact .inr (.inr ⟨call, rfl, rfl, rfl⟩)
  | returned => exact .inl rfl

theorem sessions_of_failed (h : Inv s) (hl : (s.step a).log = .failed id :: s.log) :
    (s.step a).sessions id = none := by
  have hself : s.log ≠ .failed id :: s.log := (cons_ne_self _ _).symm
  cases a with
  | call | ends => exact absurd hl hself
  | poll c ok =>
    cases hc : s.calls[c]? with
    | none =>
      simp only [State.step, hc] at hl
      exact absurd hl hself
    | some p =>
      simp only [State.step, hc] at hl ⊢
      rcases log_resume s c ok p with hlog | ⟨e, hlog, he⟩ | ⟨call, hr, hcrit, hw⟩
      · exact absurd (hlog.symm.trans hl) hself
      · exact absurd (List.cons.inj (hlog.symm.trans hl)).1 (he id)
      · rw [hr] at hl ⊢
        injection (List.cons.inj hl).1 with hid
        rw [← hid]
        exact h.guarded.absent p _ (h.holds hc hcrit).2 hw

/-- **One client per database**. However the calls of the manager interleave and however their boots
and run tasks end, at any moment: (1) one run task of `id` at most is alive; (2) none is alive while
a call deletes or opens the files of `id`; (3) two successful `get_or_create` calls without a reset
between them returned the same session; (4) a boot that fails leaves no entry. -/
theorem one_client_per_database (as : List Action) (id : SessionId) :
    let s := run State.step State.init as
    (∀ n m, Alive s.booted id n → Alive s.booted id m → n = m) ∧
    (∀ (c : ℕ) p, s.calls[c]? = some p → p.touchesDb id → ∀ n, ¬ Alive s.booted id n) ∧
    (∀ newer mid older n m, s.log = newer ++ .created id m :: (mid ++ .created id n :: older) →
      Entry.reset id ∉ mid → n = m) ∧
    ∀ a, (s.step a).log = .failed id :: s.log → (s.step a).sessions id = none := by
  intro s
  have h : Inv s := inv_of_run as
  refine ⟨fun n m => h.alive_eq, fun c p hc hp n ha => ?_, fun newer mid older n m hl hr => ?_,
    fun a hl => ?_⟩
  · obtain ⟨hcrit, hworks, hend⟩ := Progress.of_touchesDb hp
    have hh := (h.holds hc hcrit).2
    rcases h.guarded.alive id n ha with hs | ⟨q, hq, he⟩
    · rw [h.guarded.absent p id hh hworks] at hs
      cases hs
    · rw [hh] at hq
      cases hq
      exact hend n he
  · refine h.logged.agreed newer _ id m hl n (current_of_no_reset hr ?_ ?_)
    · rw [current, if_pos rfl]
    · intro newer' older' i k hl'
      exact h.logged.agreed (newer ++ .created id m :: newer') older' i k (by rw [hl, hl']; simp)
  · exact sessions_of_failed h hl

/-! ## The backend's sessions -/

/-- The phase of the call that has the lock, as `Spec.Backend` names it. -/
def Progress.phase : Progress → Option (SessionId × Backend.Phase)
  | .disconnecting id old => some (id, .disconnect old)
  | .joining id old => some (id, .join old)
  | .deleting id old _ => some (id, .deleteDbFiles old)
  | .opening call old => some (call.id, .boot old)
  | .building call old => some (call.id, .boot old)
  | _ => none

/-- The session as the backend's model has it, with an empty channel. -/
def Session.toBackend (b : Session) : Backend.Session := ⟨b.id, b.running, [], []⟩

/-- The state without its waiting calls, as the backend's model has it. -/
def State.toBackend (s : State) : Backend.State where
  sessions := s.sessions
  booted := s.booted.map Session.toBackend
  lock := s.holder.bind Progress.phase
  waiting := []
  decoding := none
  emitted := []

theorem modify_toBackend (booted : List Session) (n : ℕ) {f : Session → Session}
    {g : Backend.Session → Backend.Session} (h : ∀ b, (f b).toBackend = g b.toBackend) :
    (booted.modify n f).map Session.toBackend = (booted.map Session.toBackend).modify n g := by
  rw [modify_eq_set_getElem?, modify_eq_set_getElem?, getElem?_map]
  cases booted[n]? with
  | none => rfl
  | some b => exact map_set.trans (congrArg _ (h b))

theorem runEnds_eq (b : Backend.State) (n : ℕ) : Backend.runEnds b n true = b.endRun n := by
  rw [Backend.runEnds, Backend.State.endRun, modify_eq_set_getElem?]
  cases hn : b.booted[n]? with
  | none => rfl
  | some x =>
    cases hr : x.running with
    | false =>
      -- ending a run loop that has ended changes nothing
      have hset : b.booted.set n { x with running := false } = b.booted := by
        obtain ⟨hlt, rfl⟩ := List.getElem?_eq_some_iff.1 hn
        rw [← hr]
        exact set_getElem_self hlt
      simp [hr, hset]
    | true => simp [hr, Backend.State.emit]

/-- The lock of the backend's model is free, or in the phase of the call that has it. -/
theorem lock_toBackend (h : Inv s) (hc : s.calls[c]? = some p) (hp : p.critical = true) :
    s.lock = some c ∧ s.toBackend.lock = p.phase := by
  obtain ⟨hl, hh⟩ := h.holds hc hp
  exact ⟨hl, by rw [State.toBackend, hh, bind_some]⟩

variable (mirror : Bool)

/-- What has happened from `s` to `t` is a run of the backend's model. -/
def Simulated (s t : State) : Prop :=
  ∃ es, t.toBackend = run (Backend.State.step mirror) s.toBackend es

theorem simulated_refl (h : t.toBackend = s.toBackend) : Simulated mirror s t := ⟨[], h⟩

/-- The call goes on or returns: the backend's model sees what changes in the map, and the new phase. -/
theorem simulated_goto (h : Inv s) (hl : s.lock = none ∨ s.lock = some c) (hc : s.calls[c]? = some p)
    {p' : Progress} (htc : t.calls = (s.goto c p').calls)
    (ht : t.lock = if p'.critical then some c else none) (es : List Backend.Step)
    (hes : run (Backend.State.step mirror) s.toBackend es =
      { s.toBackend with
        sessions := t.sessions
        booted := t.booted.map Session.toBackend
        lock := p'.phase }) : Simulated mirror s t := by
  obtain ⟨-, hh⟩ := h.locked.goto hl hc htc ht
  refine ⟨es, ?_⟩
  rw [hes, State.toBackend, hh]
  cases p' <;> rfl

theorem simulated_getOrCreate (h : Inv s) (hl : s.lock = none) (hc : s.calls[c]? = some p) :
    Simulated mirror s (getOrCreate { s with lock := some c } c id) := by
  have hlock : s.toBackend.lock = none := by rw [State.toBackend, State.holder, hl]; rfl
  rw [getOrCreate]
  split
  · refine simulated_goto mirror h (.inl hl) hc rfl rfl [] ?_
    rw [show Progress.phase (.returned _) = _ from hlock.symm]
    rfl
  · rename_i hs
    refine simulated_goto mirror h (.inl hl) hc rfl rfl [.getOrCreate id] ?_
    have hs : s.toBackend.sessions id = none := hs
    simp only [run_cons, run_nil, Backend.State.step, Backend.getOrCreate, hlock, hs]
    rfl

theorem simulated_reset (h : Inv s) (hl : s.lock = none) (hc : s.calls[c]? = some p) :
    Simulated mirror s (reset { s with lock := some c } c id) := by
  have hlock : s.toBackend.lock = none := by rw [State.toBackend, State.holder, hl]; rfl
  rw [reset]
  split
  all_goals
    rename_i hs
    refine simulated_goto mirror h (.inl hl) hc rfl rfl [.reset id] ?_
    simp only [run_cons, run_nil, Backend.State.step, Backend.reset, hlock,
      show s.toBackend.sessions id = _ from hs]
    rfl

theorem simulated_fail (h : Inv s) (hc : s.calls[c]? = some p) (hp : p.critical = true) {i : SessionId}
    {old : Option ℕ} (hphase : p.phase = some (i, .boot old)) (call : Call) :
    Simulated mirror s (s.fail c call) := by
  obtain ⟨hl, hlock⟩ := lock_toBackend h hc hp
  rw [hphase] at hlock
  refine simulated_goto mirror h (.inr hl) hc rfl rfl [.bootFails] ?_
  simp only [run_cons, run_nil, Backend.State.step, hlock]
  rfl

theorem simulated_booted (h : Inv s) {call : Call} {old : Option ℕ}
    (hc : s.calls[c]? = some (.building call old)) : Simulated mirror s (booted s c call) := by
  obtain ⟨hl, hlock⟩ := lock_toBackend h hc rfl
  have hbooted : (s.booted ++ [(⟨call.id, true, true⟩ : Session)]).map Session.toBackend =
      s.toBackend.booted ++ [⟨call.id, true, [], []⟩] := map_append
  have hlen : s.toBackend.booted.length = s.booted.length := length_map _
  have hes : run (Backend.State.step mirror) s.toBackend [.booted] = { s.toBackend with
      sessions := update s.sessions call.id (some s.booted.length)
      booted := (s.booted ++ [(⟨call.id, true, true⟩ : Session)]).map Session.toBackend
      lock := none } := by
    simp only [run_cons, run_nil, Backend.State.step, hlock, Progress.phase, Backend.boot, hlen, hbooted]
    rfl
  cases call <;> exact simulated_goto mirror h (.inr hl) hc rfl rfl _ hes

theorem simulated_resume (h : Inv s) (hc : s.calls[c]? = some p) : Simulated mirror s (resume s c ok p) := by
  cases p with
  | locking call =>
    by_cases hl : s.lock = none
    · simp only [resume, hl, isSome_none, Bool.false_eq_true, if_false]
      cases call with
      | getOrCreate => exact simulated_getOrCreate mirror h hl hc
      | reset => exact simulated_reset mirror h hl hc
    · simp only [resume, if_pos (Option.isSome_iff_ne_none.2 hl)]
      exact simulated_refl mirror rfl
  | disconnecting id old =>
    obtain ⟨hl, hlock⟩ := lock_toBackend h hc rfl
    have hg := h.guarded
    rw [(h.holds hc rfl).2] at hg
    obtain ⟨b, hb, -, hr⟩ := hg.held id old rfl
    rw [resume, hb, any_some, if_pos hr]
    refine simulated_goto mirror h (.inr hl) hc rfl hl [.disconnected] ?_
    -- the backend's model does not see the join handle
    have hhandle : (s.takeRunTask old).booted.map Session.toBackend = s.toBackend.booted :=
      (modify_toBackend s.booted old (f := ({ · with runTask := false })) fun _ => rfl).trans (modify_id _ _)
    rw [State.goto, hhandle]
    simp only [run_cons, run_nil, Backend.State.step, hlock, Progress.phase]
    rfl
  | joining id old =>
    obtain ⟨hl, hlock⟩ := lock_toBackend h hc rfl
    rw [resume]
    split
    · exact simulated_refl mirror rfl
    · refine simulated_goto mirror h (.inr hl) hc rfl hl [.joined] ?_
      have hend : ¬ (s.toBackend.booted[old]?).any (·.running) := by
        rwa [State.toBackend, getElem?_map, Option.any_map]
      simp only [run_cons, run_nil, Backend.State.step, hlock, Progress.phase, if_neg hend]
      rfl
  | deleting id old attempt =>
    obtain ⟨hl, hlock⟩ := lock_toBackend h hc rfl
    rw [resume]
    split
    · refine simulated_goto mirror h (.inr hl) hc rfl hl [.deletedDbFiles] ?_
      simp only [run_cons, run_nil, Backend.State.step, hlock, Progress.phase]
      rfl
    · refine simulated_goto mirror h (.inr hl) hc rfl hl [] ?_
      rw [show Progress.phase (.deleting id old (attempt + 1)) = _ from hlock.symm]
      rfl
  | opening call old =>
    obtain ⟨hl, hlock⟩ := lock_toBackend h hc rfl
    rw [resume]
    split
    · refine simulated_goto mirror h (.inr hl) hc rfl hl [] ?_
      rw [show Progress.phase (.building call old) = _ from hlock.symm]
      rfl
    · exact simulated_fail mirror h hc rfl rfl call
  | building call =>
    rw [resume]
    split
    · exact simulated_booted mirror h hc
    · exact simulated_fail mirror h hc rfl rfl call
  | returned => exact simulated_refl mirror rfl

theorem simulated_step (h : Inv s) (a : Action) : Simulated mirror s (s.step a) := by
  cases a with
  | call call =>
    obtain ⟨-, hholder⟩ := h.locked.call call (t := s.step (.call call)) rfl rfl
    refine simulated_refl mirror ?_
    rw [State.toBackend, hholder]
    rfl
  | poll =>
    simp only [State.step]
    split
    · rename_i p hc
      exact simulated_resume mirror h hc
    · exact simulated_refl mirror rfl
  | ends n =>
    refine ⟨[.runEnds n true], ?_⟩
    simp only [run_cons, run_nil, Backend.State.step, runEnds_eq, Backend.State.endRun]
    rw [State.toBackend, State.step,
      modify_toBackend s.booted n (g := ({ · with running := false })) fun _ => rfl]
    rfl

/-- Every run of the manager is one of the backend's model. -/
theorem reachable_toBackend (as : List Action) :
    Backend.Reachable mirror (run State.step State.init as).toBackend := by
  refine (run_inv (I := fun s => Inv s ∧ Backend.Reachable mirror s.toBackend) ?_
    ⟨inv_init, [], rfl⟩ as).2
  rintro s a ⟨h, es, hs⟩
  obtain ⟨es', hes'⟩ := simulated_step mirror h a
  exact ⟨inv_step h a, es ++ es', by rw [hes', hs, run_append]⟩

end Whatsvelte.Sessions
