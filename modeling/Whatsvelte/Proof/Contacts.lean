import Whatsvelte.Spec.Contacts

/-!
# Learned names

`learnName` fills the map that is shown with the first name of a contact, and the cache that is saved with the
last one. `ensureContact` writes back the name that it saw before it asked the backend.

* **names_survive_iff**: a restart shows the same names if and only if the first and the last name learned for
  each contact are the same.
* **learned_names_kept_iff**: a run never takes a name away if and only if no answer without a name arrives for a
  contact whose name was learned after the request.
-/

namespace Whatsvelte.Contacts

open Function (update update_apply)
open List

variable {s : State} {key k : Jid} {nm : String} {jid name : Option String} {e : Step} {es : List Step}

/-! ## What a call learns -/

/-- The key and the name that `learnName` records. -/
def accepted (jid name : Option String) : Option (Jid × String) :=
  if truthy jid && truthy name then
    let key := normalizeJid (jid.getD "")
    if key = "" ∨ key = name.getD "" then none else some (key, name.getD "")
  else none

theorem truthy_getD (h : truthy name = true) : truthy (some (name.getD "")) = true := by
  cases name with
  | none => cases h
  | some => exact h

theorem truthy_of_accepted (h : accepted jid name = some (key, nm)) : truthy (some nm) = true := by
  unfold accepted at h
  split at h
  · rename_i ht
    dsimp only at h
    split at h
    · cases h
    · cases h
      exact truthy_getD (Bool.and_eq_true_iff.1 ht).2
  · cases h

theorem learnName_of_none (h : accepted jid name = none) : learnName s jid name = s := by
  unfold accepted at h
  unfold learnName
  cases ht : truthy jid && truthy name with
  | false =>
    rw [if_pos]
    rw [← Bool.not_and, ht]
    rfl
  | true =>
    rw [ht, if_pos rfl] at h
    dsimp only at h
    split at h
    · rename_i hk
      rw [if_neg (by rw [← Bool.not_and, ht]; simp), if_pos hk]
    · cases h

/-- The call is recorded: the cache takes the name, the map only if it has none. -/
structure Learns (key : Jid) (nm : String) (s t : State) : Prop where
  nameCache : t.nameCache = update s.nameCache key (some nm)
  nameOf : ∀ k, t.nameOf k = if k = key ∧ truthy (s.nameOf key) = false then some nm else s.nameOf k
  account : t.account = s.account
  storage : t.storage = s.storage
  saved : t.saveTimer = false → s.account.isSome = true → t = s

theorem nameOf_setName (s : State) (key : Jid) (nm : String) (k : Jid) :
    (s.setName key nm).nameOf k = if k = key then some nm else s.nameOf k := by
  unfold State.nameOf State.setName
  dsimp only
  rw [update_apply]
  split <;> rfl

theorem scheduleSave_frame (s : State) :
    (scheduleSave s).contacts = s.contacts ∧ (scheduleSave s).nameCache = s.nameCache ∧
      (scheduleSave s).account = s.account ∧ (scheduleSave s).storage = s.storage := by
  unfold scheduleSave
  split <;> exact ⟨rfl, rfl, rfl, rfl⟩

theorem saveTimer_scheduleSave (h : s.account.isSome = true) : (scheduleSave s).saveTimer = true := by
  unfold scheduleSave
  split
  · rename_i hn
    rcases Bool.or_eq_true_iff.1 hn with hn | hn
    · rw [Option.isNone_iff_eq_none.1 hn] at h
      cases h
    · exact hn
  · rfl

theorem learns_record (s : State) (key : Jid) (nm : String) :
    let t := scheduleSave { s with nameCache := update s.nameCache key (some nm) }
    Learns key nm s (if truthy (t.nameOf key) then t else t.setName key nm) := by
  intro t
  obtain ⟨hcon, hcache, hacc, hsto⟩ :=
    scheduleSave_frame { s with nameCache := update s.nameCache key (some nm) }
  have hname : ∀ k, t.nameOf k = s.nameOf k := by
    intro k
    rw [State.nameOf, hcon]
    rfl
  -- with an account the timer runs, so what is said of a stopped timer is void
  have htimer : s.account.isSome = true → t.saveTimer = true := fun ha =>
    saveTimer_scheduleSave ha
  rw [hname]
  split
  · rename_i hshown
    refine ⟨hcache, fun k => ?_, hacc, hsto, fun ht ha => ?_⟩
    · rw [hname, if_neg fun hn => absurd (hshown.symm.trans hn.2) (by simp)]
    · rw [htimer ha] at ht
      cases ht
  · rename_i hnot
    refine ⟨hcache, fun k => ?_, hacc, hsto, fun ht ha => ?_⟩
    · rw [nameOf_setName, hname]
      by_cases hkey : k = key
      · rw [if_pos hkey, if_pos ⟨hkey, Bool.eq_false_iff.2 hnot⟩]
      · rw [if_neg hkey, if_neg fun hn => hkey hn.1]
    · have ht' : t.saveTimer = false := ht
      rw [htimer ha] at ht'
      cases ht'

theorem learns_of_accepted (h : accepted jid name = some (key, nm)) : Learns key nm s (learnName s jid name) := by
  unfold accepted at h
  unfold learnName
  cases ht : truthy jid && truthy name with
  | false =>
    rw [ht] at h
    cases h
  | true =>
    rw [ht, if_pos rfl] at h
    dsimp only at h
    split at h
    · cases h
    rename_i hk
    cases h
    rw [if_neg (by rw [← Bool.not_and, ht]; simp), if_neg hk]
    split
    · -- nothing new
      rename_i hsame
      obtain ⟨hcache, hshown⟩ := Bool.and_eq_true_iff.1 hsame
      refine ⟨?_, fun k => ?_, rfl, rfl, fun _ _ => rfl⟩
      · rw [← of_decide_eq_true hcache, Function.update_eq_self]
      · rw [if_neg fun hn => absurd (hshown.symm.trans hn.2) (by simp)]
    · exact learns_record s _ _

/-! ## A restart -/

/-- What a step learns. -/
def Step.learns : Step → Option (Jid × String)
  | .learnName jid name => accepted jid name
  | _ => none

/-- The names learned for a contact, in order. -/
def learnedNames (key : Jid) (es : List Step) : List String :=
  ((es.filterMap Step.learns).filter (·.1 = key)).map (·.2)

theorem learnedNames_concat (es : List Step) (e : Step) : learnedNames key (es ++ [e]) =
    learnedNames key es ++ ((e.learns.filter (·.1 = key)).map (·.2)).toList := by
  unfold learnedNames
  rw [filterMap_append, filter_append, map_append]
  congr 1
  cases hl : e.learns with
  | none => simp [hl]
  | some kn =>
    by_cases hk : kn.1 = key <;> simp [hl, hk, Option.filter_some]

theorem truthy_learned (h : nm ∈ learnedNames key es) : truthy (some nm) = true := by
  obtain ⟨⟨k, n⟩, hkn, rfl⟩ := mem_map.1 h
  obtain ⟨e, -, he⟩ := mem_filterMap.1 (mem_filter.1 hkn).1
  cases e with
  | learnName => exact truthy_of_accepted he
  | _ => cases he

theorem truthy_head_learned (key : Jid) (es : List Step) :
    truthy (learnedNames key es).head? = !(learnedNames key es).isEmpty := by
  cases hl : learnedNames key es with
  | nil => rfl
  | cons nm =>
    have hnm : nm ∈ learnedNames key es := hl ▸ mem_cons_self
    exact truthy_learned hnm

/-- What the client knows after the calls `es`: the first names are shown, the last ones cached, and the cache
is saved unless a save is due. -/
structure Remembers (account : String) (es : List Step) (s : State) : Prop where
  owner : s.account = some account
  shown : ∀ key, s.nameOf key = (learnedNames key es).head?
  cached : ∀ key, s.nameCache key = (learnedNames key es).getLast?
  saved : s.saveTimer = false → s.storage account = some s.nameCache ∨
    s.storage account = none ∧ ∀ key, s.nameCache key = none

theorem remembers_learnName {account : String} (h : Remembers account es s) (jid name : Option String) :
    Remembers account (es ++ [.learnName jid name]) (learnName s jid name) := by
  cases ha : accepted jid name with
  | none =>
    rw [learnName_of_none ha]
    have hsame : ∀ key, learnedNames key (es ++ [.learnName jid name]) = learnedNames key es := by
      intro key
      rw [learnedNames_concat, Step.learns, ha]
      exact append_nil _
    exact ⟨h.owner, fun key => by rw [hsame, h.shown], fun key => by rw [hsame, h.cached], h.saved⟩
  | some kn =>
    obtain ⟨key, nm⟩ := kn
    have hl := learns_of_accepted (s := s) ha
    have hcat : ∀ k, learnedNames k (es ++ [.learnName jid name]) =
        if k = key then learnedNames k es ++ [nm] else learnedNames k es := by
      intro k
      rw [learnedNames_concat, Step.learns, ha]
      by_cases hk : k = key
      · rw [if_pos hk, hk]
        simp
      · rw [if_neg hk, Option.filter_some, if_neg (by simpa using Ne.symm hk)]
        exact append_nil _
    refine ⟨hl.account.trans h.owner, fun k => ?_, fun k => ?_, fun ht => ?_⟩
    · -- the first name that was learned stays on display
      rw [hl.nameOf, hcat, h.shown, h.shown, truthy_head_learned]
      by_cases hk : k = key
      · subst hk
        rw [if_pos rfl]
        cases learnedNames k es with
        | nil => exact if_pos ⟨rfl, rfl⟩
        | cons => exact if_neg fun hn => nomatch hn.2
      · rw [if_neg hk, if_neg fun hn => hk hn.1]
    · -- the cache holds the last one
      rw [hl.nameCache, hcat, update_apply, h.cached]
      split
      · rw [getLast?_concat]
      · rfl
    · have hsame := hl.saved ht (by rw [h.owner]; rfl)
      rw [hsame] at ht ⊢
      exact h.saved ht

theorem remembers_save {account : String} (h : Remembers account es s) :
    Remembers account (es ++ [.save]) (save s) := by
  have hsame : ∀ key, learnedNames key (es ++ [.save]) = learnedNames key es := by
    intro key
    rw [learnedNames_concat]
    exact append_nil _
  unfold save
  split
  · refine ⟨h.owner, fun key => by rw [hsame]; exact h.shown key, fun key => by rw [hsame]; exact h.cached key,
      fun _ => .inl ?_⟩
    rw [h.owner]
    exact Function.update_self _ _ _
  · exact ⟨h.owner, fun key => by rw [hsame, h.shown], fun key => by rw [hsame, h.cached], h.saved⟩

/-- A call of `learnName`, or the timer of the save. -/
def Step.names : Step → Bool
  | .learnName _ _ => true
  | .save => true
  | _ => false

theorem remembers_run {account : String} (hes : ∀ e ∈ es, e.names = true) : ∀ {past : List Step} {s : State},
    Remembers account past s → Remembers account (past ++ es) (s.run es) := by
  induction es with
  | nil =>
    intro past s h
    rwa [append_nil]
  | cons e es ih =>
    intro past s h
    have hstep : Remembers account (past ++ [e]) (s.step e) := by
      have he := hes e mem_cons_self
      cases e with
      | learnName jid name => exact remembers_learnName h jid name
      | save => exact remembers_save h
      | _ => cases he
    have hrest := ih (fun e he => hes e (mem_cons_of_mem _ he)) hstep
    rwa [append_assoc] at hrest

/-- The client right after a start with an account. -/
def started (account : String) (storage : String → Option (Jid → Option String)) : State :=
  loadNameCache (State.start storage) (some account)

section

variable {account : String} {storage : String → Option (Jid → Option String)}

theorem started_of_some {names : Jid → Option String} (ha : account ≠ "") (hs : storage account = some names) :
    started account storage = { State.start storage with
      account := some account, nameCache := names, contacts := seeded (fun _ => none) names } := by
  have ht : truthy (some account) = true := decide_eq_true ha
  simp only [started, loadNameCache, ht, if_true, Option.bind_some]
  simp only [State.start, hs]

theorem started_of_none (ha : account ≠ "") (hs : storage account = none) :
    started account storage = { State.start storage with account := some account } := by
  have ht : truthy (some account) = true := decide_eq_true ha
  simp only [started, loadNameCache, ht, if_true, Option.bind_some]
  simp only [State.start, hs]

theorem nameOf_started (ha : account ≠ "") (key : Jid) :
    (started account storage).nameOf key = (storage account).bind (· key) := by
  cases hs : storage account with
  | none =>
    rw [started_of_none ha hs]
    rfl
  | some names =>
    rw [started_of_some ha hs, State.nameOf]
    show (seeded (fun _ => none) names key).bind (·.name) = names key
    unfold seeded
    cases names key <;> rfl

theorem remembers_started (ha : account ≠ "") (hs : storage account = none) :
    Remembers account [] (started account storage) := by
  rw [started_of_none ha hs]
  exact ⟨rfl, fun _ => rfl, fun _ => rfl, fun _ => .inr ⟨hs, fun _ => rfl⟩⟩

end

/-- **Names over a restart.** After any calls of `learnName`, once the save has run, a restart shows the same
names if and only if the first and the last name learned for each contact are the same. -/
theorem names_survive_iff (account : String) (ha : account ≠ "") (storage : String → Option (Jid → Option String))
    (hs : storage account = none) (es : List Step) (hes : ∀ e ∈ es, e.names = true)
    (hsaved : ((started account storage).run es).saveTimer = false) :
    (∀ key, (started account ((started account storage).run es).storage).nameOf key =
        ((started account storage).run es).nameOf key) ↔
      ∀ key, (learnedNames key es).head? = (learnedNames key es).getLast? := by
  have h : Remembers account es ((started account storage).run es) := by
    have hrun := remembers_run hes (remembers_started ha hs)
    rwa [List.nil_append] at hrun
  have hcache : ∀ key, (started account ((started account storage).run es).storage).nameOf key =
      (learnedNames key es).getLast? := by
    intro key
    rw [nameOf_started ha, ← h.cached]
    rcases h.saved hsaved with hsto | ⟨hsto, hempty⟩
    · rw [hsto]
      rfl
    · rw [hsto, hempty]
      rfl
  constructor
  · intro heq key
    rw [← h.shown, ← hcache, heq]
  · intro heq key
    rw [hcache, h.shown, heq]

/-- Two contacts; one changes its name and changes it back. -/
theorem names_survive_iff_twice :
    let es : List Step := [.learnName (some chatA) (some "Ann"), .learnName (some "b@lid") (some "Bob"), .save,
      .learnName (some chatA) (some "Anna"), .learnName (some chatA) (some "Ann"), .save]
    ∀ key, (started "me" ((started "me" fun _ => none).run es).storage).nameOf key =
      ((started "me" fun _ => none).run es).nameOf key := by
  intro es
  refine (names_survive_iff "me" (by decide) (fun _ => none) rfl es (by decide) (by decide)).2 fun key => ?_
  have hall : es.filterMap Step.learns = [(chatA, "Ann"), ("b@lid", "Bob"), (chatA, "Anna"), (chatA, "Ann")] := by
    decide
  by_cases ha : chatA = key
  · subst ha
    rw [learnedNames, hall]
    decide
  · by_cases hb : "b@lid" = key <;> simp [learnedNames, hall, ha, hb]

/-- **A later name takes over after a restart**: the client shows the first one until then. -/
theorem later_name_replaces_first :
    ¬ ∀ (account : String) (es : List Step), account ≠ "" → (∀ e ∈ es, e.names = true) →
      ((started account fun _ => none).run es).saveTimer = false →
      ∀ key, (started account ((started account fun _ => none).run es).storage).nameOf key =
        ((started account fun _ => none).run es).nameOf key := by
  intro hall
  have hname := hall "me" [.learnName (some chatA) (some "Ann"), .learnName (some chatA) (some "Bob"), .save]
    (by decide) (by decide) (by decide) chatA
  exact absurd hname (by decide)

/-! ## Fetches -/

/-- No name goes. -/
def KeepsNames (s t : State) : Prop := ∀ k, (s.nameOf k).isSome = true → (t.nameOf k).isSome = true

theorem KeepsNames.of_contacts {t : State} (h : t.contacts = s.contacts) : KeepsNames s t := by
  intro k hk
  rwa [State.nameOf, h]

theorem keepsNames_learnName (s : State) (jid name : Option String) : KeepsNames s (learnName s jid name) := by
  intro k hk
  cases ha : accepted jid name with
  | none =>
    rwa [learnName_of_none ha]
  | some =>
    rw [(learns_of_accepted ha).nameOf]
    split
    · rfl
    · exact hk

theorem keepsNames_loadNameCache (s : State) (account : Option String) : KeepsNames s (loadNameCache s account) := by
  unfold loadNameCache
  dsimp only
  split
  · exact .of_contacts rfl
  · rename_i names _
    intro k hk
    show ((seeded s.contacts names k).bind (·.name)).isSome = true
    unfold seeded
    split
    · exact hk
    · dsimp only
      split
      · exact hk
      · rfl

/-- The map when an answer has been written, before the name in it is learned. -/
def State.answered (s : State) (key : Jid) (c : Contact) : State :=
  { s with contacts := update s.contacts key (some c) }

theorem nameOf_answered (s : State) (key : Jid) (c : Contact) (k : Jid) :
    (s.answered key c).nameOf k = if k = key then c.name else s.nameOf k := by
  unfold State.nameOf State.answered
  dsimp only
  rw [update_apply]
  split <;> rfl

/-- The name that an answer leaves under its key is its own, or the one seen before the request. -/
theorem nameOf_ensureContactDone {learned : Option String} (hin : s.inflight key = some learned)
    (answer : Option Contact) :
    ((ensureContactDone s key answer).nameOf key).isSome = ((answer.bind (·.name)).or learned).isSome ∧
      ∀ k, k ≠ key → (s.nameOf k).isSome = true → ((ensureContactDone s key answer).nameOf k).isSome = true := by
  unfold ensureContactDone
  rw [hin]
  cases answer with
  | none =>
    -- a failed request leaves the name that it found when it started
    have hname := nameOf_answered s key { name := learned, verifiedName := none, lid := none, pictureUrl := none }
    refine ⟨congrArg Option.isSome ((hname key).trans (if_pos rfl)), fun k hk hs => ?_⟩
    exact (congrArg Option.isSome ((hname k).trans (if_neg hk))).trans hs
  | some c =>
    have hname := nameOf_answered s key { c with name := c.name.or learned }
    have hkey : (s.answered key { c with name := c.name.or learned }).nameOf key = c.name.or learned :=
      (hname key).trans (if_pos rfl)
    have hother : ∀ k, k ≠ key → (s.answered key { c with name := c.name.or learned }).nameOf k = s.nameOf k :=
      fun k hk => (hname k).trans (if_neg hk)
    have hlearn := keepsNames_learnName (s.answered key { c with name := c.name.or learned }) (some key) c.name
    dsimp only
    split
    · rename_i ht
      have hsome : (c.name.or learned).isSome = true := by
        cases hn : c.name with
        | none =>
          rw [hn] at ht
          cases ht
        | some => rfl
      refine ⟨?_, fun k hk hs => hlearn k (by rwa [hother k hk])⟩
      exact (hlearn key (by rwa [hkey])).trans hsome.symm
    · exact ⟨congrArg Option.isSome hkey, fun k hk hs => (congrArg Option.isSome (hother k hk)).trans hs⟩

/-- An answer without a name comes for a contact that has a name only if the request saw one. -/
def NameSafe (s : State) : Step → Prop
  | .ensureContactDone key answer =>
    ∀ learned ∈ s.inflight key, answer.bind (·.name) = none → learned = none → s.nameOf key = none
  | _ => True

theorem keepsNames_ensureContactDone_iff (s : State) (key : Jid) (answer : Option Contact) :
    KeepsNames s (ensureContactDone s key answer) ↔ NameSafe s (.ensureContactDone key answer) := by
  cases hin : s.inflight key with
  | none =>
    have hsame : ensureContactDone s key answer = s := by
      unfold ensureContactDone
      rw [hin]
    rw [hsame, NameSafe, hin]
    exact ⟨fun _ _ h => (nomatch h), fun _ k hk => hk⟩
  | some learned =>
    obtain ⟨hkey, hother⟩ := nameOf_ensureContactDone hin answer
    have hsafe : NameSafe s (.ensureContactDone key answer) ↔
        ((s.nameOf key).isSome = true → ((answer.bind (·.name)).or learned).isSome = true) := by
      rw [NameSafe, hin]
      simp only [Option.mem_def, Option.some.injEq, forall_eq']
      cases answer.bind (·.name) <;> cases learned <;> cases s.nameOf key <;> simp
    rw [hsafe, ← hkey]
    constructor
    · exact fun h => h key
    · intro h k hk
      by_cases hkk : k = key
      · subst hkk
        exact h hk
      · exact hother k hkk hk

theorem keepsNames_step_iff (s : State) (e : Step) :
    (e = .clearNameCache ∨ KeepsNames s (s.step e)) ↔ NameSafe s e := by
  cases e with
  | ensureContactDone key answer =>
    rw [or_iff_right (by simp)]
    exact keepsNames_ensureContactDone_iff s key answer
  | clearNameCache => exact iff_of_true (.inl rfl) trivial
  | loadNameCache account => exact iff_of_true (.inr (keepsNames_loadNameCache s account)) trivial
  | learnName jid name => exact iff_of_true (.inr (keepsNames_learnName s jid name)) trivial
  | save =>
    refine iff_of_true (.inr (.of_contacts ?_)) trivial
    simp only [State.step, save]
    split <;> rfl
  | ensureContact =>
    refine iff_of_true (.inr (.of_contacts ?_)) trivial
    simp only [State.step, ensureContact]
    split <;> rfl
  | remap => exact iff_of_true (.inr (.of_contacts rfl)) trivial

/-- **Names and fetches.** No step of a run takes a name away, a clear apart, if and only if no answer without a
name comes for a contact whose name was learned after the request. -/
theorem learned_names_kept_iff (s : State) (es : List Step) :
    Along State.step (fun s e => e = .clearNameCache ∨ KeepsNames s (s.step e)) s es ↔
      Along State.step NameSafe s es :=
  ⟨Along.mono fun s e => (keepsNames_step_iff s e).1, Along.mono fun s e => (keepsNames_step_iff s e).2⟩

/-- **A learned name is lost**: it is learned between the request and an answer that has none. -/
theorem fetch_drops_name :
    ¬ ∀ es : List Step, Along State.step (fun s e => e = .clearNameCache ∨ KeepsNames s (s.step e))
      (State.start fun _ => none) es := by
  intro hall
  have hrun := hall [.ensureContact chatA, .learnName (some chatA) (some "Ann"), .ensureContactDone chatA none]
  have hlast := (hrun.2.2.1.resolve_left (by simp)) chatA (by decide)
  exact absurd hlast (by decide)

end Whatsvelte.Contacts
