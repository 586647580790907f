import Whatsvelte.Spec.Backend

/-!
# What a reset leaves running

`reset` waits for the run loop of the old client, and for nothing else: the tasks that are
detached from it, the channel they fill and the history decodes they cause live on.
`Drained n b` says that none of them holds anything that would still be emitted for boot `n`.

`silent_after_reset_iff`: after `reset` has returned, nothing of the old session is
emitted in any interleaving if and only if it was drained then. `old_event_after_reset`
is a run in which it was not.
-/

namespace Whatsvelte.Backend

open List

variable {mirror : Bool} {b c : State} {n : ℕ} {e : Step} {es : List Step}
variable {id : SessionId} {event : Event} {d : Decode}

/-! ## The log of emissions -/

/-- What a step emits. -/
def emits (mirror : Bool) (b : State) : Step → List Emission
  | .runEnds n loggedIn =>
    match b.booted[n]? with
    | some s => if s.running && !loggedIn then
        [⟨n, s.id, "wa://auth/dead"⟩, ⟨n, s.id, GLOBAL_TOPIC⟩] else []
    | none => []
  | .pump n =>
    match b.booted[n]? with
    | some ⟨id, _, event :: _, _⟩ => (event.topics mirror).map (⟨n, id, ·⟩)
    | _ => []
  | .chunk =>
    match b.decoding with
    | some ⟨n, id, _ + 1⟩ => [⟨n, id, "wa://history"⟩]
    | _ => []
  | _ => []

section handleEvent

variable (mirror : Bool) (b : State) (n : ℕ) (event : Event)

@[simp] theorem handleEvent_emitted : (handleEvent mirror b n event).emitted = b.emitted := by
  unfold handleEvent; split <;> rfl

@[simp] theorem handleEvent_decodes :
    (handleEvent mirror b n event).decoding = b.decoding ∧
      (handleEvent mirror b n event).waiting = b.waiting := by
  unfold handleEvent; split <;> exact ⟨rfl, rfl⟩

@[simp] theorem handleEvent_map :
    (handleEvent mirror b n event).sessions = b.sessions ∧ (handleEvent mirror b n event).lock = b.lock := by
  unfold handleEvent; split <;> exact ⟨rfl, rfl⟩

theorem handleEvent_booted (m : ℕ) : (handleEvent mirror b n event).booted[m]? =
    if n = m ∧ interest mirror event.kind = true then
      (b.booted[m]?).map fun s => { s with rx := s.rx ++ [event] }
    else b.booted[m]? := by
  unfold handleEvent
  by_cases hi : interest mirror event.kind = true <;> by_cases hm : n = m <;>
    simp [hi, hm]

end handleEvent

theorem emitted_step (mirror : Bool) (b : State) (e : Step) :
    (b.step mirror e).emitted = b.emitted ++ emits mirror b e := by
  cases e with
  | runEnds n loggedIn =>
    simp only [State.step, runEnds, emits]
    cases b.booted[n]? with
    | none => simp
    | some s => cases hs : s.running <;> cases loggedIn <;> simp [hs, State.emit, State.endRun]
  | pump n =>
    simp only [State.step, pump, emits]
    rcases b.booted[n]? with _ | ⟨id, running, _ | ⟨event, rx⟩, detached⟩
    · simp
    · simp
    · cases event <;> simp [State.emit, spawnHistoryDecode, Event.topics]
  | chunk =>
    simp only [State.step, chunk, emits]
    rcases b.decoding with _ | ⟨n, id, _ | left⟩ <;> simp [State.emit]
  | _ =>
    simp only [State.step, getOrCreate, reset, spawn, dispatch, lockDecode, emits]
    repeat' split
    all_goals simp [State.endRun, boot]

theorem emitted_run (mirror : Bool) (b : State) (es : List Step) :
    b.emitted <+: (run (State.step mirror) b es).emitted := by
  induction es generalizing b with
  | nil => exact prefix_rfl
  | cons e es ih =>
    have h := ih (b.step mirror e)
    rw [emitted_step] at h
    exact (prefix_append _ _).trans h

/-- What a run adds to the log. -/
def since (b c : State) : List Emission := c.emitted.drop b.emitted.length

theorem since_cons (mirror : Bool) (b : State) (e : Step) (es : List Step) :
    since b (run (State.step mirror) b (e :: es)) =
      emits mirror b e ++ since (b.step mirror e) (run (State.step mirror) (b.step mirror e) es) := by
  obtain ⟨l, hl⟩ := emitted_run mirror (b.step mirror e) es
  simp only [since, run_cons]
  rw [← hl, emitted_step]
  simp

/-! ## What a step does to a session -/

variable {s : Session}

/-- What one step can make of boot `n`. -/
structure Session.Goes (mirror : Bool) (b : State) (n : ℕ) (s s' : Session) : Prop where
  id : s'.id = s.id
  running : s'.running = true → s.running = true
  rx : ∀ event ∈ s'.rx, event ∈ s.rx ∨ s.running = true ∨
    event ∈ s.detached ∧ interest mirror event.kind = true
  detached : ∀ event ∈ s'.detached, event ∈ s.detached ∨ s.running = true ∨ b.sessions s.id = some n

theorem Session.Goes.refl : s.Goes mirror b n s := ⟨rfl, fun h => h, fun _ h => .inl h, fun _ h => .inl h⟩

/-- The decode task that `pump` spawns for an event. -/
def Event.spawned (n : ℕ) (id : SessionId) : Event → List Decode
  | .historySync conversations => [⟨n, id, conversations⟩]
  | _ => []

theorem pump_cons (mirror : Bool) {running : Bool} {rx detached : List Event}
    (h : b.booted[n]? = some ⟨id, running, event :: rx, detached⟩) :
    (pump mirror b n).booted = b.booted.set n ⟨id, running, rx, detached⟩ ∧
      (pump mirror b n).decoding = b.decoding ∧
      (pump mirror b n).waiting = b.waiting ++ event.spawned n id := by
  unfold pump
  rw [h]
  cases event <;> simp [State.emit, spawnHistoryDecode, Event.spawned]

theorem goes_of_booted (h : b.booted[n]? = some s) (hc : c.booted = b.booted) :
    ∃ s', c.booted[n]? = some s' ∧ s.Goes mirror b n s' := ⟨s, hc ▸ h, .refl⟩

theorem goes_modify {m : ℕ} {f : Session → Session} (h : b.booted[n]? = some s)
    (hc : c.booted = b.booted.modify m f) (hf : m = n → s.Goes mirror b n (f s)) :
    ∃ s', c.booted[n]? = some s' ∧ s.Goes mirror b n s' := by
  rw [hc, getElem?_modify, h]
  by_cases hm : m = n
  · exact ⟨f s, by simp [hm], hf hm⟩
  · exact ⟨s, by simp [hm], .refl⟩

theorem goes_endRun (h : b.booted[n]? = some s) (m : ℕ) (hc : c.booted = (b.endRun m).booted) :
    ∃ s', c.booted[n]? = some s' ∧ s.Goes mirror b n s' :=
  goes_modify h hc fun _ => ⟨rfl, nofun, fun _ h => .inl h, fun _ h => .inl h⟩

/-- **What a step does to a session**: its channel gets what the run loop or a detached task
dispatches, and there is no new detached task once the run loop has ended and the session is
out of the map. -/
theorem goes_step (h : b.booted[n]? = some s) (e : Step) :
    ∃ s', (b.step mirror e).booted[n]? = some s' ∧ s.Goes mirror b n s' := by
  cases e with
  | aborted =>
    simp only [State.step]
    split
    · exact goes_endRun h _ rfl
    · exact goes_of_booted h rfl
  | booted =>
    simp only [State.step]
    split
    · have hn := (List.getElem?_eq_some_iff.1 h).1
      exact ⟨s, (getElem?_append_left hn).trans h, .refl⟩
    · exact goes_of_booted h rfl
  | push =>
    simp only [State.step]
    split
    · rename_i hr
      rw [handleEvent_booted]
      split
      · rename_i hm
        obtain ⟨rfl, -⟩ := hm
        rw [h, Option.any_some] at hr
        rw [h, Option.map_some]
        exact ⟨_, rfl, rfl, fun h => h, fun _ _ => .inr (.inl hr), fun _ h => .inl h⟩
      · exact ⟨s, h, .refl⟩
    · exact goes_of_booted h rfl
  | spawn =>
    simp only [State.step, spawn]
    split
    · rename_i hr
      refine goes_modify h rfl ?_
      rintro rfl
      rw [h, Option.any_some, Bool.or_eq_true, decide_eq_true_eq] at hr
      exact ⟨rfl, fun h => h, fun _ h => .inl h, fun _ _ => .inr hr⟩
    · exact goes_of_booted h rfl
  | dispatch m =>
    simp only [State.step, dispatch]
    split
    · rename_i event hev
      rw [handleEvent_booted]
      by_cases hm : m = n
      · subst hm
        rw [h, Option.bind_some] at hev
        have hmem : event ∈ s.detached := mem_of_getElem? hev
        simp only [getElem?_modify, h, true_and, if_true, Option.map_some, Option.map_eq_map]
        split
        · rename_i hi
          refine ⟨_, rfl, rfl, fun h => h, fun x hx => ?_, fun _ h => .inl (mem_of_mem_eraseIdx h)⟩
          rcases mem_append.1 hx with hx | hx
          · exact .inl hx
          · rw [mem_singleton.1 hx]
            exact .inr (.inr ⟨hmem, hi⟩)
        · exact ⟨_, rfl, rfl, fun h => h, fun _ h => .inl h, fun _ h => .inl (mem_of_mem_eraseIdx h)⟩
      · exact ⟨s, by simp [hm, h], .refl⟩
    · exact goes_of_booted h rfl
  | runEnds m =>
    simp only [State.step, runEnds]
    split
    · split
      · exact goes_endRun h m rfl
      · exact goes_of_booted h rfl
    · exact goes_of_booted h rfl
  | pump m =>
    rcases hx : b.booted[m]? with _ | ⟨id, running, _ | ⟨event, rx⟩, detached⟩
    · exact goes_of_booted h (by simp only [State.step, pump, hx])
    · exact goes_of_booted h (by simp only [State.step, pump, hx])
    · rw [State.step, (pump_cons mirror hx).1, getElem?_set']
      split
      · rename_i hm
        subst hm
        rw [h] at hx ⊢
        cases hx
        exact ⟨_, rfl, rfl, fun h => h, fun _ h => .inl (mem_cons_of_mem _ h), fun _ h => .inl h⟩
      · exact ⟨s, h, .refl⟩
  | _ =>
    refine goes_of_booted h ?_
    simp only [State.step, getOrCreate, reset, lockDecode, chunk]
    repeat' split
    all_goals rfl

/-- What a step puts into the map is a new boot. -/
theorem sessions_step (h : (b.step mirror e).sessions id = some n) :
    b.sessions id = some n ∨ n = b.booted.length ∧ (b.step mirror e).booted[n]? = some ⟨id, true, [], []⟩ := by
  cases e with
  | reset =>
    simp only [State.step, reset] at h
    split at h
    · simp only [Function.update_apply] at h
      split at h
      · cases h
      · exact .inl h
    · exact .inl h
    · exact .inl h
  | booted =>
    simp only [State.step] at h ⊢
    split at h
    · simp only [boot, Function.update_apply] at h
      split at h
      · rename_i hid
        cases h
        exact .inr ⟨rfl, by simp [boot, hid]⟩
      · exact .inl h
    · exact .inl h
  | push | dispatch => simp only [State.step, dispatch] at h; split at h <;> simp_all
  | _ =>
    simp only [State.step, getOrCreate, spawn, runEnds, pump, lockDecode, chunk] at h
    repeat' split at h
    all_goals exact .inl h

/-! ## A session that is out of the map -/

/-- Boot `n` is the session `s`, which is not in the map. -/
def Unmapped (s : Session) (n : ℕ) (b : State) : Prop :=
  b.booted[n]? = some s ∧ ∀ id, b.sessions id ≠ some n

theorem Unmapped.step (mirror : Bool) (h : Unmapped s n b) (e : Step) :
    ∃ s', Unmapped s' n (b.step mirror e) ∧ s.Goes mirror b n s' := by
  obtain ⟨s', hs', hg⟩ := goes_step h.1 e
  refine ⟨s', ⟨hs', fun id hid => ?_⟩, hg⟩
  rcases sessions_step hid with hid | ⟨hn, -⟩
  · exact h.2 id hid
  · exact absurd (List.getElem?_eq_some_iff.1 h.1).1 (by omega)

/-- Besides, its run loop has ended. -/
def Ended (s : Session) (n : ℕ) (b : State) : Prop := Unmapped s n b ∧ s.running = false

/-- An ended session stays so, and only what detached tasks hold goes into its channel. -/
theorem Ended.step (mirror : Bool) (h : Ended s n b) (e : Step) : ∃ s', Ended s' n (b.step mirror e) ∧
    (∀ event ∈ s'.rx, event ∈ s.rx ∨ event ∈ s.detached ∧ interest mirror event.kind = true) ∧
      ∀ event ∈ s'.detached, event ∈ s.detached := by
  obtain ⟨s', hs', hg⟩ := h.1.step mirror e
  have hr : s'.running = false := by
    rw [← Bool.not_eq_true]
    intro hr
    have := hg.running hr
    rw [h.2] at this
    cases this
  refine ⟨s', ⟨hs', hr⟩, fun x hx => ?_, fun x hx => ?_⟩
  · simpa [h.2] using hg.rx x hx
  · simpa [h.2, h.1.2] using hg.detached x hx

/-! ## Nothing left to emit -/

/-- Nothing is emitted for the event, now or later. -/
def Event.silent (mirror : Bool) : Event → Bool
  | .historySync conversations => conversations = 0
  | event => event.topics mirror = []

theorem topics_of_silent (h : event.silent mirror = true) : event.topics mirror = [] := by
  cases event with
  | historySync => rfl
  | _ => exact of_decide_eq_true h

/-- The decode tasks that have not ended. -/
def State.decodes (b : State) : List Decode := b.decoding.toList ++ b.waiting

/-- Neither the channel of boot `n` nor a task that is detached from it nor a decode task it
caused holds anything that would be emitted. -/
structure Drained (mirror : Bool) (n : ℕ) (b : State) : Prop where
  channel : ∀ s, b.booted[n]? = some s → ∀ event ∈ s.rx, event.silent mirror = true
  detached : ∀ s, b.booted[n]? = some s → ∀ event ∈ s.detached, interest mirror event.kind = true →
    event.silent mirror = true
  decodes : ∀ d ∈ b.decodes, d.origin = n → d.left = 0

/-- What a step leaves of the decode tasks. -/
theorem decodes_step (hd : d ∈ (b.step mirror e).decodes) :
    (∃ d' ∈ b.decodes, d'.origin = d.origin ∧ (d'.left = 0 → d.left = 0)) ∨
      ∃ m id running rx detached, e = .pump m ∧
        b.booted[m]? = some ⟨id, running, .historySync d.left :: rx, detached⟩ ∧ d.origin = m := by
  have hold : d ∈ b.decodes →
      ∃ d' ∈ b.decodes, d'.origin = d.origin ∧ (d'.left = 0 → d.left = 0) := fun h =>
    ⟨d, h, rfl, fun h => h⟩
  cases e with
  | pump m =>
    rcases hx : b.booted[m]? with _ | ⟨id, running, _ | ⟨event, rx⟩, detached⟩
    · simp only [State.step, pump, hx] at hd
      exact .inl (hold hd)
    · simp only [State.step, pump, hx] at hd
      exact .inl (hold hd)
    · obtain ⟨-, h1, h2⟩ := pump_cons mirror hx
      simp only [State.step, State.decodes, h1, h2, ← append_assoc] at hd
      rcases mem_append.1 hd with hd | hd
      · exact .inl (hold hd)
      · cases event with
        | historySync =>
          rw [Event.spawned, mem_singleton] at hd
          subst hd
          exact .inr ⟨m, id, running, rx, detached, rfl, hx, rfl⟩
        | _ => cases hd
  | lockDecode =>
    simp only [State.step, lockDecode] at hd
    split at hd
    · rename_i d' hn hi
      refine .inl (hold ?_)
      rcases mem_cons.1 hd with rfl | hd
      · exact mem_append_right _ (mem_of_getElem? hi)
      · exact mem_append_right _ (mem_of_mem_eraseIdx hd)
    · exact .inl (hold hd)
  | chunk =>
    simp only [State.step, chunk] at hd
    split at hd
    · rename_i m id left hx
      rcases mem_cons.1 hd with rfl | hd
      · exact .inl ⟨⟨m, id, left + 1⟩, by simp [State.decodes, hx], rfl, nofun⟩
      · exact .inl (hold (mem_append_right _ hd))
    · exact .inl (hold hd)
  | decoded =>
    simp only [State.step] at hd
    split at hd
    · exact .inl (hold (mem_append_right _ hd))
    · exact .inl (hold hd)
  | push | dispatch =>
    simp only [State.step, dispatch] at hd
    split at hd
    · exact .inl (hold (by simpa [State.decodes] using hd))
    · exact .inl (hold hd)
  | _ =>
    simp only [State.step, getOrCreate, reset, spawn, runEnds] at hd
    repeat' split at hd
    all_goals exact .inl (hold hd)

/-- **Nothing of a drained session** is emitted by a step. -/
theorem silent_step (h : Ended s n b) (hd : Drained mirror n b) {x : Emission}
    (hx : x ∈ emits mirror b e) : x.origin ≠ n := by
  rintro rfl
  cases e with
  | runEnds m =>
    simp only [emits] at hx
    split at hx
    · rename_i s' hs
      split at hx
      · rename_i hr
        have hm : x.origin = m := by
          simp only [mem_cons, not_mem_nil, or_false] at hx
          rcases hx with rfl | rfl <;> rfl
        rw [hm] at h
        rw [h.1.1] at hs
        cases hs
        simp [h.2] at hr
      · cases hx
    · cases hx
  | pump =>
    simp only [emits] at hx
    split at hx
    · rename_i id running event rx detached hm
      obtain ⟨t, ht, rfl⟩ := mem_map.1 hx
      rw [topics_of_silent (hd.channel _ hm event mem_cons_self)] at ht
      cases ht
    · cases hx
  | chunk =>
    simp only [emits] at hx
    split at hx
    · rename_i m id left hm
      rw [mem_singleton] at hx
      subst hx
      exact absurd (hd.decodes ⟨m, id, left + 1⟩ (by simp [State.decodes, hm]) rfl) nofun
    · cases hx
  | _ => cases hx

theorem drained_step (h : Ended s n b) (hd : Drained mirror n b) : Drained mirror n (b.step mirror e) := by
  obtain ⟨s', hs', hrx, hdet⟩ := h.step mirror e
  refine ⟨fun t ht event hev => ?_, fun t ht event hev hi => ?_, fun d hmem ho => ?_⟩
  · rw [hs'.1.1] at ht
    cases ht
    rcases hrx event hev with hev | ⟨hev, hi⟩
    · exact hd.channel s h.1.1 event hev
    · exact hd.detached s h.1.1 event hev hi
  · rw [hs'.1.1] at ht
    cases ht
    exact hd.detached s h.1.1 event (hdet event hev) hi
  · rcases decodes_step hmem with ⟨d', hd', ho', hleft⟩ | ⟨m, id, running, rx, detached, -, hm, ho'⟩
    · exact hleft (hd.decodes d' hd' (ho'.trans ho))
    · rw [← ho', ho] at hm
      have := hd.channel _ hm _ mem_cons_self
      simpa [Event.silent] using this

/-- **A drained session stays silent** in every interleaving. -/
theorem silent_run (h : Ended s n b) (hd : Drained mirror n b) (es : List Step) :
    ∀ x ∈ since b (run (State.step mirror) b es), x.origin ≠ n := by
  induction es generalizing b s with
  | nil => simp [since]
  | cons e es ih =>
    obtain ⟨s', hs', -⟩ := h.step mirror e
    rw [since_cons]
    intro x hx
    rcases mem_append.1 hx with hx | hx
    · exact silent_step h hd hx
    · exact ih hs' (drained_step h hd) x hx

/-! ## Something left to emit -/

/-- In some interleaving something of boot `n` is emitted. -/
def Speaks (mirror : Bool) (n : ℕ) (b : State) : Prop :=
  ∃ es, ∃ x ∈ since b (run (State.step mirror) b es), x.origin = n

theorem Speaks.of_step (h : Speaks mirror n (b.step mirror e)) : Speaks mirror n b := by
  obtain ⟨es, x, hx, ho⟩ := h
  exact ⟨e :: es, x, by rw [since_cons]; exact mem_append_right _ hx, ho⟩

theorem speaks_of_emits (e : Step) {x : Emission} (hx : x ∈ emits mirror b e) : Speaks mirror x.origin b :=
  ⟨[e], x, by rw [since_cons]; exact mem_append_left _ hx, rfl⟩

theorem speaks_of_decoding (h : b.decoding = some d) (hl : d.left ≠ 0) : Speaks mirror d.origin b := by
  obtain ⟨n, id, left⟩ := d
  cases left with
  | zero => exact absurd rfl hl
  | succ => exact speaks_of_emits (x := ⟨n, id, "wa://history"⟩) .chunk (by simp [emits, h])

/-- A waiting task gets the lock once the task that holds it is through. -/
theorem speaks_of_waiting (h : d ∈ b.waiting) (hl : d.left ≠ 0) : Speaks mirror d.origin b := by
  have hfree : ∀ {b : State}, b.decoding = none → d ∈ b.waiting → Speaks mirror d.origin b := by
    intro b hb h
    obtain ⟨i, hi⟩ := mem_iff_getElem?.1 h
    refine Speaks.of_step (e := .lockDecode i) (speaks_of_decoding ?_ hl)
    simp [State.step, lockDecode, hb, hi]
  cases hb : b.decoding with
  | none => exact hfree hb h
  | some d' =>
    obtain ⟨m, id, left⟩ := d'
    induction left generalizing b with
    | zero =>
      refine Speaks.of_step (e := .decoded) (hfree ?_ ?_) <;> simp only [State.step, hb]
      exact h
    | succ left ih =>
      refine Speaks.of_step (e := .chunk) (ih ?_ ?_) <;>
        simp only [State.step, chunk, hb, State.emit]
      exact h

theorem speaks_of_channel {running : Bool} {rx detached : List Event}
    (h : b.booted[n]? = some ⟨id, running, rx, detached⟩) (hev : event ∈ rx)
    (hs : event.silent mirror = false) : Speaks mirror n b := by
  induction rx generalizing b with
  | nil => cases hev
  | cons first rx ih =>
    obtain ⟨h1, -, h2⟩ := pump_cons mirror h
    rcases mem_cons.1 hev with rfl | hev
    · by_cases ht : event.topics mirror = []
      · -- a history sync: its decode task is still to run
        cases event with
        | historySync conversations =>
          refine Speaks.of_step (e := .pump n) (speaks_of_waiting (d := ⟨n, id, conversations⟩) ?_ ?_)
          · change _ ∈ (pump mirror b n).waiting
            rw [h2]
            exact mem_append_right _ (mem_singleton.2 rfl)
          · simpa [Event.silent] using hs
        | _ => simp [Event.silent, ht] at hs
      · obtain ⟨t, ht⟩ := exists_mem_of_ne_nil _ ht
        refine speaks_of_emits (x := ⟨n, id, t⟩) (.pump n) ?_
        simp only [emits, h]
        exact mem_map.2 ⟨t, ht, rfl⟩
    · refine Speaks.of_step (e := .pump n) (ih ?_ hev)
      change (pump mirror b n).booted[n]? = _
      rw [h1, getElem?_set_self (List.getElem?_eq_some_iff.1 h).1]

/-- A detached task dispatches its event, and `pump` receives it. -/
theorem speaks_of_detached (h : b.booted[n]? = some s) (hev : event ∈ s.detached)
    (hi : interest mirror event.kind = true) (hs : event.silent mirror = false) : Speaks mirror n b := by
  obtain ⟨i, hget⟩ := mem_iff_getElem?.1 hev
  have hrx : (b.step mirror (.dispatch n i)).booted[n]? =
      some ⟨s.id, s.running, s.rx ++ [event], s.detached.eraseIdx i⟩ := by
    simp [State.step, dispatch, h, hget, handleEvent_booted, hi]
  exact Speaks.of_step (speaks_of_channel hrx (mem_append_right _ (mem_singleton.2 rfl)) hs)

theorem speaks_of_not_drained (h : ¬ Drained mirror n b) : Speaks mirror n b := by
  by_contra hno
  refine h ⟨fun s hs event hev => ?_, fun s hs event hev hi => ?_, fun d hd ho => ?_⟩
  · by_contra hsil
    exact hno (speaks_of_channel hs hev (by simpa using hsil))
  · by_contra hsil
    exact hno (speaks_of_detached hs hev hi (by simpa using hsil))
  · by_contra hl
    subst ho
    rcases mem_append.1 hd with hd | hd
    · exact hno (speaks_of_decoding (Option.mem_toList.1 hd) hl)
    · exact hno (speaks_of_waiting hd hl)

/-! ## Reachable states -/

/-- The session that a call in this phase has taken out of the map. -/
def Phase.old : Phase → Option ℕ
  | .disconnect old => some old
  | .join old => some old
  | .deleteDbFiles old => old
  | .boot old => old

/-- The phases behind the wait for the run loop. -/
def Phase.behindJoin : Phase → Bool
  | .disconnect _ => false
  | .join _ => false
  | _ => true

/-- The map and the call in progress know sessions that were booted, the old session is out
of the map, and its run loop has ended once it was waited for. -/
structure Inv (b : State) : Prop where
  sessions : ∀ id n, b.sessions id = some n → ∃ s, b.booted[n]? = some s ∧ s.id = id
  old : ∀ id phase n, b.lock = some (id, phase) → phase.old = some n →
    ∃ s, Unmapped s n b ∧ (phase.behindJoin = true → s.running = false)

/-- The map after a step. -/
theorem Inv.sessions_step (h : Inv b) (e : Step) (id : SessionId) (n : ℕ)
    (hn : (b.step mirror e).sessions id = some n) :
    ∃ s, (b.step mirror e).booted[n]? = some s ∧ s.id = id := by
  rcases Backend.sessions_step hn with hn | ⟨-, hn⟩
  · obtain ⟨s, hs, hid⟩ := h.sessions id n hn
    obtain ⟨s', hs', hg⟩ := goes_step hs e
    exact ⟨s', hs', hg.id.trans hid⟩
  · exact ⟨_, hn, rfl⟩

/-- The call in progress stays where it is, or goes on in a phase that is known to be reached. -/
theorem Inv.of_lock (h : Inv b) (e : Step)
    (hl : ∀ id phase n, (b.step mirror e).lock = some (id, phase) → phase.old = some n →
      ∃ s, Unmapped s n b ∧ (phase.behindJoin = true → s.running = false)) : Inv (b.step mirror e) := by
  refine ⟨h.sessions_step e, fun id phase n hp ho => ?_⟩
  obtain ⟨s, hs, hr⟩ := hl id phase n hp ho
  obtain ⟨s', hs', hg⟩ := hs.step mirror e
  refine ⟨s', hs', fun hj => ?_⟩
  rw [← Bool.not_eq_true]
  intro hrun
  exact absurd (hg.running hrun) (by simp [hr hj])

theorem inv_init : Inv State.init := ⟨nofun, nofun⟩

theorem inv_step (h : Inv b) (e : Step) : Inv (b.step mirror e) := by
  cases e with
  | reset id =>
    refine ⟨h.sessions_step _, fun i phase n hl ho => ?_⟩
    simp only [State.step, reset] at hl ⊢
    split at hl
    · -- the session that leaves the map is under no other id
      rename_i hm
      cases hl
      cases ho
      obtain ⟨s, hs, hid⟩ := h.sessions id n hm
      refine ⟨s, ⟨hs, fun j hj => ?_⟩, nofun⟩
      simp only [Function.update_apply] at hj
      split at hj
      · cases hj
      · rename_i hne
        obtain ⟨s', hs', hid'⟩ := h.sessions j n hj
        cases hs.symm.trans hs'
        exact hne (hid'.symm.trans hid)
    · cases hl
      cases ho
    · exact h.old i phase n hl ho
  | disconnected =>
    refine h.of_lock _ fun i phase n hl ho => ?_
    simp only [State.step] at hl
    split at hl
    · rename_i hb
      cases hl
      obtain ⟨s, hs, -⟩ := h.old _ _ n hb ho
      exact ⟨s, hs, nofun⟩
    · exact h.old i phase n hl ho
  | joined =>
    refine h.of_lock _ fun i phase n hl ho => ?_
    simp only [State.step] at hl
    split at hl
    · rename_i hb
      split at hl
      · exact h.old i phase n hl ho
      · rename_i hr
        cases hl
        cases ho
        obtain ⟨s, hs, -⟩ := h.old _ _ n hb rfl
        exact ⟨s, hs, fun _ => by simpa [hs.1] using hr⟩
    · exact h.old i phase n hl ho
  | deletedDbFiles =>
    refine h.of_lock _ fun i phase n hl ho => ?_
    simp only [State.step] at hl
    split at hl
    · rename_i hb
      cases hl
      obtain ⟨s, hs, hr⟩ := h.old _ _ n hb ho
      exact ⟨s, hs, fun _ => hr rfl⟩
    · exact h.old i phase n hl ho
  | getOrCreate =>
    refine h.of_lock _ fun i phase n hl ho => ?_
    simp only [State.step, getOrCreate] at hl
    split at hl
    · cases hl
      cases ho
    · exact h.old i phase n hl ho
  | _ =>
    -- the call ends, or another task goes on
    refine h.of_lock _ fun i phase n hl ho => h.old i phase n ?_ ho
    revert hl
    simp only [State.step, spawn, dispatch, runEnds, pump, lockDecode, chunk, State.endRun, boot]
    repeat' split
    all_goals simp [State.emit, spawnHistoryDecode]

theorem inv_of_reachable (h : Reachable mirror b) : Inv b := by
  obtain ⟨es, rfl⟩ := h
  exact run_inv (I := Inv) (fun _ e hi => inv_step hi e) inv_init es

/-! ## The return of a reset -/

/-- The two ways in which `reset` returns. -/
def Step.returns : Step → Bool
  | .booted => true
  | .bootFails => true
  | _ => false

/-- The return leaves the old session as it is. -/
theorem drained_of_returns (h : Ended s n b) (he : e.returns = true) :
    Drained mirror n (b.step mirror e) ↔ Drained mirror n b := by
  have hn := (List.getElem?_eq_some_iff.1 h.1.1).1
  have hb : (b.step mirror e).booted[n]? = b.booted[n]? ∧ (b.step mirror e).decodes = b.decodes := by
    cases e with
    | booted =>
      simp only [State.step]
      split
      · exact ⟨getElem?_append_left hn, rfl⟩
      · exact ⟨rfl, rfl⟩
    | bootFails => simp only [State.step]; split <;> exact ⟨rfl, rfl⟩
    | _ => cases he
  refine ⟨fun hdr => ⟨?_, ?_, hb.2 ▸ hdr.decodes⟩, drained_step h⟩
  · exact hb.1 ▸ hdr.channel
  · exact hb.1 ▸ hdr.detached

/-- **After a reset** has returned, nothing that derives from the old session `n` is
emitted in any interleaving, exactly if neither its channel nor a task detached from it nor a
history decode of it held anything to emit when `reset` was about to return. -/
theorem silent_after_reset_iff (mirror : Bool) (b : State) (hr : Reachable mirror b)
    (id : SessionId) (n : ℕ) (hl : b.lock = some (id, .boot (some n))) (e : Step)
    (he : e.returns = true) :
    (∀ es, ∀ x ∈ since (b.step mirror e) (run (State.step mirror) (b.step mirror e) es),
      x.origin ≠ n) ↔ Drained mirror n b := by
  obtain ⟨s, hu, hrun⟩ := (inv_of_reachable hr).old id _ n hl rfl
  have hs : Ended s n b := ⟨hu, hrun rfl⟩
  rw [← drained_of_returns hs he]
  constructor
  · intro hall
    by_contra hd
    obtain ⟨es, x, hx, ho⟩ := speaks_of_not_drained hd
    exact hall es x hx ho
  · intro hd es
    obtain ⟨s', hs', -⟩ := hs.step mirror e
    exact silent_run hs' hd es

/-- A session that is reset before it pushed anything. -/
theorem silent_after_reset_unpaired :
    ¬ Speaks false 0 (run (State.step false) State.init [.getOrCreate DEFAULT_SESSION, .booted,
      .reset DEFAULT_SESSION, .disconnected, .aborted, .joined, .deletedDbFiles, .booted]) := by
  rintro ⟨es, x, hx, ho⟩
  refine (silent_after_reset_iff false (run (State.step false) State.init
    [.getOrCreate DEFAULT_SESSION, .booted, .reset DEFAULT_SESSION, .disconnected, .aborted, .joined,
      .deletedDbFiles]) ⟨_, rfl⟩ DEFAULT_SESSION 0 rfl .booted rfl).2 ?_ es x hx ho
  exact ⟨fun s hs => by cases hs; simp, fun s hs => by cases hs; simp, by decide⟩

/-- A message that the old client pushed before it was stopped is emitted by its pump
after the reset has returned, under the session id of the new client. -/
theorem old_event_after_reset :
    ¬ ∀ (mirror : Bool) (b : State) (id : SessionId) (n : ℕ) (es : List Step),
      Reachable mirror b → b.lock = some (id, .boot (some n)) →
      ∀ x ∈ since (b.step mirror .booted) (run (State.step mirror) (b.step mirror .booted) es),
        x.origin ≠ n := by
  intro hall
  have := hall false (run (State.step false) State.init [.getOrCreate DEFAULT_SESSION, .booted,
      .push 0 (.message false false true), .reset DEFAULT_SESSION, .disconnected, .aborted, .joined,
      .deletedDbFiles]) DEFAULT_SESSION 0 [.pump 0] ⟨_, rfl⟩ rfl ⟨0, DEFAULT_SESSION, "wa://message"⟩
    (by decide)
  exact this rfl

end Whatsvelte.Backend
