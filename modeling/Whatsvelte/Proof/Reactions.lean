import Mathlib.Data.List.Induction
import Whatsvelte.Proof.Handlers
import Whatsvelte.Proof.Updates

/-!
# One reaction per person

The handler records a reaction under `normalizeJid (canonicalJid senderJid)`, as the map of LIDs is when
the event comes, and no record is re-keyed when a mapping is learned. `one_reaction_iff`: once everything
has settled, a person with the LID `l` and the phone number `p` has one entry, their last reaction, if
and only if the last reaction of theirs that was recorded under the other of the two keys was a removal
(`OtherRemoved`).
-/

namespace Whatsvelte

open List

variable {w : World} {k : Key} {l p x : Jid} {acts : List (Jid × String)} {R : StrMap}

/-! ## The map -/

/-- `emoji` of a reaction: an empty one is none. -/
def shown (emoji : String) : Option String := if emoji = "" then none else some emoji

/-- The reaction under the key `x`. -/
def StrMap.emoji (R : StrMap) (x : Jid) : Option String := (R.get x).map Prod.snd

def applyReact (R : StrMap) (a : Jid × String) : StrMap := if a.2 ≠ "" then R.set a else R.erase a.1

/-- The last reaction under the key `x`. -/
def lastOn (x : Jid) (acts : List (Jid × String)) : Option String :=
  (acts.filter (·.1 = x)).getLast?.map Prod.snd

theorem emoji_applyReact (R : StrMap) (a : Jid × String) (x : Jid) :
    (applyReact R a).emoji x = if a.1 = x then shown a.2 else R.emoji x := by
  unfold applyReact shown StrMap.emoji
  by_cases he : a.2 = ""
  · simp only [he, ne_eq, not_true_eq_false, if_false, if_true]
    rw [Table.get_erase]
    split_ifs <;> rfl
  · simp only [he, ne_eq, not_false_eq_true, if_true, if_false]
    rw [Table.get_set]
    split_ifs <;> rfl

theorem lastOn_append (x : Jid) (acts : List (Jid × String)) (a : Jid × String) :
    lastOn x (acts ++ [a]) = if a.1 = x then some a.2 else lastOn x acts := by
  unfold lastOn
  rw [filter_append, filter_singleton]
  by_cases h : a.1 = x <;> simp [h]

/-- A key shows its last reaction. -/
theorem emoji_foldl (R : StrMap) (acts : List (Jid × String)) (x : Jid) :
    (acts.foldl applyReact R).emoji x = (lastOn x acts).elim (R.emoji x) shown := by
  induction acts using List.reverseRecOn with
  | nil => rfl
  | append_singleton acts a ih =>
    rw [foldl_append, foldl_cons, foldl_nil, emoji_applyReact, lastOn_append, ih]
    split_ifs <;> rfl

/-! ## A person -/

/-- The reactions that were recorded for the person with the keys `l` and `p`. -/
def ofPerson (l p : Jid) (acts : List (Jid × String)) : List (Jid × String) :=
  acts.filter fun a => a.1 = l || a.1 = p

/-- The map has one entry for the person, their last reaction, or none if that was empty. -/
def OneReaction (l p : Jid) (acts : List (Jid × String)) (R : StrMap) : Prop :=
  match (ofPerson l p acts).getLast? with
  | none => R.emoji l = none ∧ R.emoji p = none
  | some a => R.emoji l = shown a.2 ∧ R.emoji p = none ∨ R.emoji l = none ∧ R.emoji p = shown a.2

/-- Under the key other than that of their last reaction, the person's last reaction was a removal. -/
def OtherRemoved (l p : Jid) (acts : List (Jid × String)) : Prop :=
  ∀ a ∈ (ofPerson l p acts).getLast?, ∀ x ∈ [l, p], x ≠ a.1 → ∀ emoji ∈ lastOn x acts, emoji = ""

instance (l p : Jid) (acts : List (Jid × String)) (R : StrMap) : Decidable (OneReaction l p acts R) := by
  unfold OneReaction
  split <;> infer_instance

instance (l p : Jid) (acts : List (Jid × String)) : Decidable (OtherRemoved l p acts) := by
  unfold OtherRemoved
  infer_instance

theorem lastOn_ofPerson (hx : x ∈ [l, p]) : lastOn x (ofPerson l p acts) = lastOn x acts := by
  unfold lastOn ofPerson
  rw [filter_filter]
  congr 2
  refine filter_congr fun a _ => ?_
  by_cases ha : a.1 = x
  · subst ha
    simpa using hx
  · simp [ha]

theorem shown_eq_none {emoji : String} : shown emoji = none ↔ emoji = "" := by
  unfold shown
  split_ifs with h <;> simp [h]

/-- Nothing is shown under a key exactly if its last reaction was a removal. -/
theorem elim_shown_eq_none {e : Option String} : e.elim none shown = none ↔ ∀ emoji ∈ e, emoji = "" := by
  cases e with
  | none => simp
  | some => simp [shown_eq_none]

/-- Two keys, one of which shows the last reaction. -/
theorem one_of_two {a b s : Option String} (ha : a = s) :
    (a = s ∧ b = none ∨ a = none ∧ b = s) ↔ b = none := by
  subst ha
  constructor
  · rintro (⟨-, hb⟩ | ⟨ha, hb⟩)
    · exact hb
    · rw [hb, ha]
  · exact fun hb => .inl ⟨rfl, hb⟩

theorem one_of_two' {a b s : Option String} (ha : a = s) :
    (b = s ∧ a = none ∨ b = none ∧ a = s) ↔ b = none := by
  rw [or_comm, and_comm, and_comm (a := b = s), one_of_two ha]

theorem oneReaction_iff (hlp : l ≠ p) (hl : R.emoji l = none) (hp : R.emoji p = none) :
    OneReaction l p acts (acts.foldl applyReact R) ↔ OtherRemoved l p acts := by
  have hemoji : ∀ x ∈ [l, p], (acts.foldl applyReact R).emoji x = (lastOn x acts).elim none shown := by
    intro x hx
    rw [emoji_foldl]
    rcases mem_pair.1 hx with rfl | rfl
    · rw [hl]
    · rw [hp]
  have hlast : ∀ x ∈ [l, p], lastOn x (ofPerson l p acts) = lastOn x acts := fun _ => lastOn_ofPerson
  unfold OneReaction OtherRemoved
  cases hg : (ofPerson l p acts).getLast? with
  | none =>
    rw [getLast?_eq_none_iff] at hg
    have hnone : ∀ x ∈ [l, p], (acts.foldl applyReact R).emoji x = none := by
      intro x hx
      rw [hemoji x hx, ← hlast x hx, hg]
      rfl
    simp [hnone l (by simp), hnone p (by simp)]
  | some a =>
    obtain ⟨pre, hpre⟩ := List.getLast?_eq_some_iff.1 hg
    have hmem : a ∈ ofPerson l p acts := by
      rw [hpre]
      simp
    have ha : a.1 ∈ [l, p] := by simpa using (mem_filter.1 hmem).2
    -- the key of the last reaction shows it
    have hself : (acts.foldl applyReact R).emoji a.1 = shown a.2 := by
      rw [hemoji _ ha, ← hlast _ ha, hpre, lastOn_append, if_pos rfl]
      rfl
    simp only [Option.mem_def, Option.some.injEq, forall_eq']
    rcases mem_pair.1 ha with hal | hap
    · rw [hal] at hself
      rw [one_of_two hself, hemoji p (by simp), elim_shown_eq_none, hal]
      simp [hlp.symm]
    · rw [hap] at hself
      rw [one_of_two' hself, hemoji l (by simp), elim_shown_eq_none, hap]
      simp [hlp]

/-! ## Runs of events -/

/-- The calls of a run of events. -/
def stepsOf : World → List Event → List Step
  | _, [] => []
  | w, ev :: evs => ev.steps w ++ stepsOf (w.handle ev) evs

theorem handleAll_eq_run (w : World) (evs : List Event) : w.handleAll evs = w.run (stepsOf w evs) := by
  induction evs generalizing w with
  | nil => rfl
  | cons ev evs ih =>
    rw [stepsOf, World.run, run_append]
    refine (ih (w.handle ev)).trans ?_
    rw [handle_eq_run]
    rfl

/-- The reaction to `k` that an event brings, with the key under which it is recorded. -/
def Event.reacts (k : Key) (w : World) : Event → Option (Jid × String)
  | .messageUpdate u =>
    if u.kind = .reaction ∧ (⟨canonicalJid w u.chatJid, u.targetId⟩ : Key) = k then
      some (normalizeJid (canonicalJid w (u.senderJid.getD "")), u.text.getD "")
    else none
  | .call (.applyReaction jid targetId reactor emoji) =>
    if (⟨jid, targetId⟩ : Key) = k then some (reactor, emoji) else none
  | _ => none

/-- The reactions to `k` in a run. -/
def reactionsOf (k : Key) : World → List Event → List (Jid × String)
  | _, [] => []
  | w, ev :: evs => (ev.reacts k w).toList ++ reactionsOf k (w.handle ev) evs

/-- Every update of `k` that the event brings is a reaction, and none is lost. -/
def ReactSafe (k : Key) (w : World) (ev : Event) : Prop :=
  (∀ fn ∈ updatesOf k (ev.steps w), ∃ reactor emoji, fn = .reaction reactor emoji) ∧
    Along World.step (UpdateSafe k) w (ev.steps w)

instance (k : Key) (w : World) (ev : Event) : Decidable (ReactSafe k w ev) :=
  @instDecidableAnd _ _ (decidable_of_iff
    (∀ fn ∈ updatesOf k (ev.steps w), (match fn with | .reaction .. => true | _ => false) = true)
    (by
      refine forall₂_congr fun fn _ => ?_
      cases fn <;> simp)) inferInstance

def toPatch (a : Jid × String) : Patch := .reaction a.1 a.2

theorem updatesOf_append (k : Key) (es es' : List Step) :
    updatesOf k (es ++ es') = updatesOf k es ++ updatesOf k es' := filterMap_append

theorem updatesOf_eq_nil {es : List Step} (h : ∀ e ∈ es, e.update k = none) : updatesOf k es = [] :=
  filterMap_eq_nil_iff.2 h

/-- The reaction that a call is. -/
def Step.reacts (k : Key) : Step → Option (Jid × String)
  | .applyReaction jid targetId reactor emoji =>
    if (⟨jid, targetId⟩ : Key) = k then some (reactor, emoji) else none
  | _ => none

theorem update_eq_reacts {e : Step} (h : ∀ fn, e.update k = some fn → ∃ reactor emoji,
    fn = .reaction reactor emoji) : e.update k = (e.reacts k).map toPatch := by
  cases hu : e.update k with
  | none =>
    cases e with
    | applyReaction =>
      simp only [Step.update] at hu
      split at hu
      · cases hu
      · rename_i hk
        rw [Step.reacts, if_neg hk]
        rfl
    | _ => rfl
  | some fn =>
    obtain ⟨reactor, emoji, rfl⟩ := h fn hu
    cases e with
    | applyReaction =>
      simp only [Step.update] at hu
      split at hu
      · rename_i hk
        cases hu
        rw [Step.reacts, if_pos hk]
        rfl
      · cases hu
    | applyRevoke | applyEdit | applyReceipt =>
      simp only [Step.update] at hu
      split at hu <;> cases hu
    | _ => cases hu

/-- An event that makes one call that can be an update. -/
theorem updatesOf_cons_reacts {e : Step} {es : List Step} (hes : updatesOf k es = [])
    (h : ∀ fn ∈ updatesOf k (e :: es), ∃ reactor emoji, fn = .reaction reactor emoji) :
    updatesOf k (e :: es) = (e.reacts k).toList.map toPatch := by
  have hcons : updatesOf k (e :: es) = (e.update k).toList := by
    rw [updatesOf_cons, hes, append_nil]
  rw [hcons] at h ⊢
  rw [update_eq_reacts fun fn hfn => h fn (by rw [hfn]; exact mem_singleton_self _)]
  cases e.reacts k <;> rfl

/-- The updates of a safe event are the reaction it brings. -/
theorem updatesOf_steps {ev : Event} (h : ∀ fn ∈ updatesOf k (ev.steps w), ∃ reactor emoji,
    fn = .reaction reactor emoji) : updatesOf k (ev.steps w) = (ev.reacts k w).toList.map toPatch := by
  cases ev with
  | message m => exact updatesOf_eq_nil fun e he => by cases handlerCall_of_mem (.message m) he <;> rfl
  | history d => exact updatesOf_eq_nil fun e he => by cases handlerCall_of_mem (.history d) he <;> rfl
  | receipt =>
    simp only [Event.steps] at h ⊢
    split at h
    · rename_i hl
      rw [if_pos hl]
      rfl
    · rename_i hl
      rw [if_neg hl]
      exact updatesOf_cons_reacts rfl h
  | chatFlags => rfl
  | messageUpdate u =>
    have hes : updatesOf k (.unifyLid u.chatJid none :: senderSteps (u.senderJid.getD "") u.chatJid) = [] := by
      unfold senderSteps
      split <;> rfl
    have hreacts : (updateStep w u).reacts k = Event.reacts k w (.messageUpdate u) := by
      simp only [updateStep, Event.reacts]
      cases u.kind <;> simp [Step.reacts]
    exact hreacts ▸ updatesOf_cons_reacts hes h
  | deleteForMe => rfl
  | call e =>
    have hreacts : e.reacts k = Event.reacts k w (.call e) := by
      cases e <;> rfl
    exact hreacts ▸ updatesOf_cons_reacts rfl h

theorem along_stepsOf {evs : List Event} (ha : Along World.handle (ReactSafe k) w evs) :
    Along World.step (UpdateSafe k) w (stepsOf w evs) ∧
      updatesOf k (stepsOf w evs) = (reactionsOf k w evs).map toPatch := by
  induction evs generalizing w with
  | nil => exact ⟨trivial, rfl⟩
  | cons ev evs ih =>
    obtain ⟨hev, hrest⟩ := ha
    obtain ⟨ih1, ih2⟩ := ih hrest
    refine ⟨?_, ?_⟩
    · rw [stepsOf, along_append]
      refine ⟨hev.2, ?_⟩
      rwa [show run World.step w (ev.steps w) = w.handle ev from (handle_eq_run w ev).symm]
    · rw [stepsOf, reactionsOf, updatesOf_append, updatesOf_steps hev.1, ih2, map_append]

/-- The reactions of a message after a run of reactions. -/
theorem reactions_foldl (c : Core) (acts : List (Jid × String)) :
    ((acts.map toPatch).foldl Core.apply c).reactions.getD .empty =
      acts.foldl applyReact (c.reactions.getD .empty) := by
  induction acts generalizing c with
  | nil => rfl
  | cons a acts ih => exact ih _

/-! ## The result -/

/-- **One reaction per person.** The message `m` is known and has no reaction of the person with the
keys `l` and `p`. After a run of events in which no update of it is lost, and in which reactions are the
only updates of it, once all is settled and flushed: the stored record, and the copy in memory if there
is one, have one entry for the person, their last reaction, if and only if the reactions were
`OtherRemoved`. -/
theorem one_reaction_iff (w : World) (hr : Reachable w) (hses : w.SameSession) (m : UiMessage)
    (hp : persistable m = true) (hm : w.eff m.key = some m)
    (hres : ∀ o, (w.slot m.key).resident = some o → o.msg = m) (l p : Jid) (hlp : l ≠ p)
    (hl : (m.reactions.getD .empty).emoji l = none) (hpn : (m.reactions.getD .empty).emoji p = none)
    (evs : List Event) (ha : Along World.handle (ReactSafe m.key) w evs)
    (htxq : (w.handleAll evs).txq = []) (hpend : (w.handleAll evs).q.pending.rows = []) :
    (∃ n, (w.handleAll evs).msgs.get m.key = some n) ∧
    ((∀ n, (w.handleAll evs).msgs.get m.key = some n ∨
        (∃ o, ((w.handleAll evs).slot m.key).resident = some o ∧ o.msg = n) →
      OneReaction l p (reactionsOf m.key w evs) (n.reactions.getD .empty)) ↔
        OtherRemoved l p (reactionsOf m.key w evs)) := by
  obtain ⟨hsteps, hupdates⟩ := along_stepsOf ha
  have hend := (tracks_run (id_of_persistable hp) (isTmp_of_persistable hp) ((inv_of_reachable hr).sound hses)
    (tracks_record hp hm hres) hsteps).2
  rw [hupdates, ← handleAll_eq_run] at hend
  -- a copy that holds the core has the reactions of the run
  have hiff : ∀ n, Holds (((reactionsOf m.key w evs).map toPatch).foldl Core.apply m.core) n →
      (OneReaction l p (reactionsOf m.key w evs) (n.reactions.getD .empty) ↔
        OtherRemoved l p (reactionsOf m.key w evs)) := by
    intro n hn
    rw [show n.reactions = n.core.reactions from rfl, hn.2, reactions_foldl]
    exact oneReaction_iff hlp hl hpn
  obtain ⟨n, hn, hholds⟩ := hend.record
  have hq : (w.handleAll evs).q.pending = .empty := Table.ext_rows hpend
  rw [eff_of_idle htxq, World.persisted, opsEff, hq] at hn
  have hadopt : ¬ (w.handleAll evs).adopting m.key = true := by
    simp [World.adopting, World.jobs, htxq]
  refine ⟨⟨n, hn⟩, fun h => (hiff n hholds).1 (h n (Or.inl hn)), fun hu n' hn' => ?_⟩
  rcases hn' with hn' | ⟨o, ho, rfl⟩
  · cases hn.symm.trans hn'
    exact (hiff n hholds).2 hu
  · exact (hiff o.msg (hend.settled hadopt o ho)).2 hu

/-- Somebody with a LID and a phone number, and their reactions to `msgX`. -/
def reactorL : Jid := "1@lid"

def reactorP : Jid := "2@s.whatsapp.net"

def reaction (sender : Jid) (emoji : String) : Event :=
  .messageUpdate ⟨chatA, "X", .reaction, some emoji, some sender, false, 9⟩

/-- `msgX` has been delivered. -/
def deliveredX : World := World.init.run [.addMessage msgX, .openNext, .advance]

def flushed1 : List Event := [.call .flushPendingWrites, .call .openNext, .call .advance]

/-- The mapping is known before the first reaction. -/
def mappedFirst : List Event :=
  [.call (.learnLidMapping reactorL reactorP), reaction reactorL "+", reaction reactorP "-"] ++ flushed1

theorem one_reaction_mapped :
    ∃ n, (deliveredX.handleAll mappedFirst).msgs.get msgX.key = some n ∧
      OneReaction reactorL reactorP (reactionsOf msgX.key deliveredX mappedFirst)
        (n.reactions.getD .empty) := by
  obtain ⟨⟨n, hn⟩, hiff⟩ := one_reaction_iff deliveredX ⟨_, rfl⟩ (by decide) (startUnread msgX) (by decide)
    (by decide) (by decide +kernel) reactorL reactorP (by decide) (by decide) (by decide) mappedFirst
    (by decide +kernel) (by decide +kernel) (by decide +kernel)
  exact ⟨n, hn, hiff.2 (by decide +kernel) n (Or.inl hn)⟩

/-- The first reaction comes before the answer to the handler's own question for the mapping. -/
def mappedBetween : List Event :=
  [reaction reactorL "+", .call (.unifyLidDone reactorL (some reactorP)), reaction reactorP "-"] ++ flushed1

/-- The mapping is known in the end, all has settled, and there are two reactions. -/
theorem reaction_twice :
    (deliveredX.handleAll mappedBetween).lidToPn reactorL = some reactorP ∧
    (deliveredX.handleAll mappedBetween).txq = [] ∧
    (deliveredX.handleAll mappedBetween).q.pending.rows = [] ∧
    ((deliveredX.handleAll mappedBetween).msgs.get msgX.key).map
      (fun n => (n.reactions.getD .empty).rows) = some [(reactorL, "+"), (reactorP, "-")] ∧
    ∀ n ∈ (deliveredX.handleAll mappedBetween).msgs.get msgX.key, ¬ OneReaction reactorL reactorP
      (reactionsOf msgX.key deliveredX mappedBetween) (n.reactions.getD .empty) := by
  decide +kernel

end Whatsvelte
