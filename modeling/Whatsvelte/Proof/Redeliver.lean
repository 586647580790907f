import Whatsvelte.Proof.Updates

/-!
# Redelivery of a stored message

A message that is stored but not resident looks new when the server delivers it again. Its
write is insert-only, and the copy in memory adopts the stored one as soon as that is read.
`redelivery_keeps`: if nothing is done to the message before the adoption, the record stays what
it was, with the updates and the read marks that follow applied, and with media and thumbnail
filled in. `redelivery_resets`: a receipt that comes in before the adoption writes the fresh copy
over the record.
-/

namespace Whatsvelte

variable {w v : World} {k : Key} {e : Step} {m m' n : UiMessage} {fn : Patch}

/-! ## What happens to a record -/

/-- What a step has to say about a record. -/
inductive Touch
  | patch (fn : Patch)
  /-- The message is marked read. -/
  | read
  deriving DecidableEq

def Touch.apply (n : UiMessage) : Touch → UiMessage
  | .patch fn => (fn.apply n).getD n
  | .read => if n.unread = some true then { n with unread := some false } else n

def Step.touch (k : Key) (e : Step) : Option Touch :=
  match e with
  | .markMessageRead jid id => if (⟨jid, id⟩ : Key) = k then some .read else none
  | e => (e.update k).map .patch

/-- What the steps of a run have to say about the record of `k`. -/
def touchesOf (k : Key) (es : List Step) : List Touch := es.filterMap (·.touch k)

/-- The record `n`, with media and thumbnail filled in if it had none. -/
def Fills (n m : UiMessage) : Prop :=
  ∃ media thumbnail, m = { n with media := media, thumbnail := thumbnail } ∧
    (n.media.isSome = true → media = n.media) ∧ (n.thumbnail.isSome = true → thumbnail = n.thumbnail)

theorem Fills.refl (n : UiMessage) : Fills n n := ⟨n.media, n.thumbnail, rfl, fun _ => rfl, fun _ => rfl⟩

theorem Fills.adopted (h : Fills n m) (fresh : UiMessage) : Fills n (adopted m fresh) := by
  obtain ⟨media, thumbnail, rfl, hm, ht⟩ := h
  refine ⟨media.or fresh.media, thumbnail.or fresh.thumbnail, rfl, fun hs => ?_, fun hs => ?_⟩
  · rw [hm hs]
    exact Option.or_of_isSome hs
  · rw [ht hs]
    exact Option.or_of_isSome hs

/-- The filled record is updated as the record is. -/
theorem Fills.patch (h : Fills n m) (fn : Patch) :
    Fills ((fn.apply n).getD n) ((fn.apply m).getD m) ∧ (fn.apply m = none → (fn.apply n).getD n = n) := by
  obtain ⟨media, thumbnail, rfl, hm, ht⟩ := h
  cases fn with
  | revoke => exact ⟨⟨media, none, rfl, hm, fun _ => rfl⟩, by rintro ⟨⟩⟩
  | edit | reaction => exact ⟨⟨media, thumbnail, rfl, hm, ht⟩, by rintro ⟨⟩⟩
  | receipt =>
    simp only [Patch.apply]
    split
    · exact ⟨⟨media, thumbnail, rfl, hm, ht⟩, by rintro ⟨⟩⟩
    · exact ⟨⟨media, thumbnail, rfl, hm, ht⟩, fun _ => rfl⟩

theorem Fills.read (h : Fills n m) (hu : m.unread = some true) :
    Fills (Touch.read.apply n) { m with unread := some false } := by
  obtain ⟨media, thumbnail, rfl, hm, ht⟩ := h
  rw [Touch.apply, if_pos hu]
  exact ⟨media, thumbnail, rfl, hm, ht⟩

theorem Fills.unread (h : Fills n m) : m.unread = n.unread := by
  obtain ⟨media, thumbnail, rfl, -, -⟩ := h
  rfl

theorem Fills.reactions (h : Fills n m) : m.reactions = n.reactions := by
  obtain ⟨media, thumbnail, rfl, -, -⟩ := h
  rfl

/-- The message is to be persisted, and is the record `n`, filled in. -/
def Filled (n m : UiMessage) : Prop := persistable m = true ∧ Fills n m

theorem Filled.adopted (fresh : UiMessage) (h : Filled n m) : Filled n (adopted m fresh) :=
  ⟨persistable_adopted h.1, h.2.adopted fresh⟩

theorem Filled.apply (h : Filled n m) (hb : fn.blanks = false) (ha : fn.apply m = some m') :
    Filled ((Touch.patch fn).apply n) m' := by
  have hp := (h.2.patch fn).1
  rw [ha] at hp
  exact ⟨persistable_apply h.1 hb ha, hp⟩

/-! ## When a redelivery is left alone -/

/-- The step leaves a redelivered message alone until it has adopted its record, and loses no
update of it after that. -/
def Undisturbed (k : Key) (w : World) : Step → Prop
  | .advance => MoveSafe k w ∧ Step.advance.plants w ≠ some k ∧ w.reads k.chatJid = false
  | .flushFails _ => False
  | .resetAll => False
  | .markMessageRead jid id =>
    (⟨jid, id⟩ : Key) = k → w.adopting k = false ∧ (w.slot k).resident.isSome = true
  | e => StepSafe k w e ∧ e.flags k = false ∧ (∀ m ∈ e.delivers, m.key ≠ k) ∧
      ∀ fn ∈ e.update k, fn.blanks = false

instance (k : Key) (w : World) (e : Step) : Decidable (Undisturbed k w e) := by
  unfold Undisturbed
  induction e using Step.casesOn <;> infer_instance

theorem Undisturbed.ordinary (h : Undisturbed k w e) : e.ordinary = true := by
  cases e with
  | flushFails | resetAll => exact h.elim
  | _ => rfl

/-! ## One step -/

theorem filled_updated {f : Option Fallback} (ht : Both (Filled n) k w)
    (hr : ∀ o, (w.slot k).resident = some o → Filled n o.msg) (hb : fn.blanks = false)
    (hu : Updated fn f k w v) : Both (Filled ((Touch.patch fn).apply n)) k v := by
  refine both_updated ht hr (fun m m' hm ha => hm.apply hb ha) (fun x m hx hn hm => ?_)
    (fun x m m' hx ha _ => .inl (hx.apply hb ha).1) hu
  rwa [Touch.apply, (hx.2.patch fn).2 hn]

theorem filled_sync (h : w.Wf) (hid : k.id ≠ "") (htmp : isTmp k.id = false) (he : e.sync = true)
    (ht : Both (Filled n) k w) (hs : StepSafe k w e) (hf : e.flags k = false)
    (hd : ∀ m ∈ e.delivers, m.key ≠ k) (hb : ∀ fn ∈ e.update k, fn.blanks = false) :
    Both (Filled (((e.update k).map .patch).elim n (Touch.apply n))) k (w.step e) := by
  cases hu : e.update k with
  | none =>
    refine both_sync (fun hf' => ?_) (fun m hm hk => absurd hk (hd m hm)) h hid htmp he hu ht hs
    rw [hf] at hf'
    cases hf'
  | some fn =>
    exact filled_updated ht (ht.of_update hs hu) (hb fn hu) (updated_step h hid hu)

/-- Another message is marked read, or this one is. -/
theorem filled_read (h : w.Wf) (hid : k.id ≠ "") {jid : Jid} {id : MsgId} (ht : Both (Filled n) k w)
    (hs : (⟨jid, id⟩ : Key) = k → w.adopting k = false ∧ (w.slot k).resident.isSome = true) :
    Both (Filled (((Step.markMessageRead jid id).touch k).elim n (Touch.apply n))) k
      (markMessageRead w jid id) := by
  obtain ⟨-, hsync, hk⟩ := markMessageRead_spec h jid id
  simp only [Step.touch]
  split
  · rename_i hkey
    obtain ⟨hw, hres⟩ := hs hkey
    have hr := ht.settled (ne_true_of_eq_false hw)
    obtain ⟨m, hm, hc⟩ := ht.record
    rcases hk k hid with ⟨hk, hread⟩ | ⟨-, x, o, hx, hunread, ho, hwr⟩
    · obtain ⟨x, hx⟩ := Option.isSome_iff_exists.1 hres
      have hn : (Touch.read).apply n = n := by
        refine if_neg fun hun => hread hkey.symm x hx ?_
        rwa [(hr x hx).2.unread]
      simp only [Option.elim_some, hn]
      exact both_calm False.elim ⟨m, hm, hc⟩ hr (.inl hk)
    · have hp : Filled (Touch.read.apply n) o.msg := by
        rw [ho]
        refine ⟨?_, (hr x hx).2.read hunread⟩
        exact persistable_of (hr x hx).1 rfl rfl (status_of_persistable (hr x hx).1)
          (blank_of_persistable (hr x hx).1)
      exact both_writes hp (.inl hp.1) hwr
  · rename_i hkey
    rcases hk k hid with ⟨hk, -⟩ | ⟨hk, -⟩
    · exact ht.keeps hk fun _ _ ha => ha.sync hsync
    · exact absurd hk.symm hkey

/-- **One step** applies what it says about the record, and nothing else. -/
theorem filled_step (hid : k.id ≠ "") (htmp : isTmp k.id = false) (h : Sound w)
    (ht : Both (Filled n) k w) (hs : Undisturbed k w e) :
    Sound (w.step e) ∧ Both (Filled ((e.touch k).elim n (Touch.apply n))) k (w.step e) := by
  refine ⟨sound_step h hs.ordinary, ?_⟩
  cases e with
  | advance =>
    obtain ⟨hmove, hplants, hreads⟩ := hs
    refine both_advance (fun hr => ?_) (fun _ fresh hc => hc.adopted fresh) h hid ht hmove
      fun hp => absurd hp hplants
    rw [hreads] at hr
    cases hr
  | openNext => exact both_openNext h ht
  | wipe => rwa [World.step, wipe, h.wiping]
  | flushFails | resetAll => exact hs.elim
  | markMessageRead => exact filled_read h.wf hid ht hs
  | _ =>
    obtain ⟨hstep, hf, hd, hb⟩ := hs
    exact filled_sync h.wf hid htmp rfl ht hstep hf hd hb

theorem filled_run (hid : k.id ≠ "") (htmp : isTmp k.id = false) {es : List Step} (h : Sound w)
    (ht : Both (Filled n) k w) (ha : Along World.step (Undisturbed k) w es) :
    Both (Filled ((touchesOf k es).foldl Touch.apply n)) k (w.run es) := by
  induction es generalizing w n with
  | nil => exact ht
  | cons e es ih =>
    obtain ⟨h1, h2⟩ := filled_step hid htmp h ht ha.1
    have hrest := ih h1 h2 ha.2
    unfold touchesOf at hrest ⊢
    cases hu : e.touch k with
    | none => rw [hu] at hrest; rwa [List.filterMap_cons_none hu]
    | some => rw [hu] at hrest; rwa [List.filterMap_cons_some hu]

/-! ## Every run -/

/-- **A redelivery keeps the stored copy**: once it is settled, the record and the copy in memory
are what was stored, with everything applied that the run had to say about it. -/
theorem redelivery_keeps (w : World) (hr : Reachable w) (hses : w.SameSession) (s : UiMessage)
    (hp : persistable s = true) (hs : w.eff s.key = some s) (hres : (w.slot s.key).resident = none)
    (m : UiMessage) (hk : m.key = s.key) (hd : RedeliverSafe w m) (es : List Step)
    (ha : Along World.step (Undisturbed s.key) (w.step (.addMessage m)) es)
    (hset : ((w.step (.addMessage m)).run es).adopting s.key = false) :
    ∃ r, ((w.step (.addMessage m)).run es).eff s.key = some r ∧
      Fills ((touchesOf s.key es).foldl Touch.apply s) r ∧
      ∀ o, (((w.step (.addMessage m)).run es).slot s.key).resident = some o →
        Fills ((touchesOf s.key es).foldl Touch.apply s) o.msg := by
  have hsound := (inv_of_reachable hr).sound hses
  have hid : s.key.id ≠ "" := id_of_persistable hp
  have htmp : isTmp s.key.id = false := isTmp_of_persistable hp
  have hnone : ∀ o : Obj, (w.slot m.key).resident ≠ some o := fun o ho => by
    rw [hk, hres] at ho
    cases ho
  have hboth : Both (Filled s) m.key w := by
    rw [hk]
    exact ⟨⟨s, hs, hp, .refl s⟩, fun o ho => by rw [hres] at ho; cases ho⟩
  obtain ⟨htouch, hdel⟩ := addMessage_spec hsound.wf m
  have hadded : Both (Filled s) m.key (w.step (.addMessage m)) :=
    both_delivered (fun x hx => absurd hx (hnone x)) (fun _ fresh hc => hc.adopted fresh) hboth
      (fun x hx => absurd hx (hnone x)) (fun _ => hd)
      (hdel fun hm => hid ((congrArg Key.id hk).symm.trans hm)) htouch.sync
  rw [hk] at hadded
  have hrun := filled_run hid htmp (sound_step hsound rfl) hadded ha
  obtain ⟨r, hrec, hfill⟩ := hrun.record
  exact ⟨r, hrec, hfill.2, fun o ho => (hrun.settled (ne_true_of_eq_false hset) o ho).2⟩

/-- `msgX` with a reaction, stored and then trimmed out of the list of its chat. -/
def trimmedX : List Step :=
  [.addMessage msgX, .openNext, .advance, .applyReaction chatA "X" "u" "+",
    .addHistoryMessages newerThanX, .flushPendingWrites, .openNext, .advance, .selectChat chatA]

/-- The record of `msgX` after `trimmedX`. -/
def storedX : UiMessage :=
  { msgX with unread := some false, reactions := some ((Table.empty).set ("u", "+")) }

theorem stored_of_trimmedX : (World.init.run trimmedX).SameSession ∧
    (World.init.run trimmedX).eff storedX.key = some storedX ∧
    ((World.init.run trimmedX).slot storedX.key).resident = none := by
  decide +kernel

/-- The redelivery is adopted, then come a receipt and a read mark. -/
theorem redelivery_keeps_reaction :
    ∃ r, (((World.init.run trimmedX).step (.addMessage msgX)).run [.openNext, .advance,
        .applyReceipt chatA ["X"] .delivered, .markMessageRead chatA "X"]).eff storedX.key = some r ∧
      Fills { storedX with status := some .delivered } r := by
  obtain ⟨hses, heff, hres⟩ := stored_of_trimmedX
  have hsafe : RedeliverSafe (World.init.run trimmedX) msgX ∧
      Along World.step (Undisturbed storedX.key) ((World.init.run trimmedX).step (.addMessage msgX))
        [.openNext, .advance, .applyReceipt chatA ["X"] .delivered, .markMessageRead chatA "X"] ∧
      (((World.init.run trimmedX).step (.addMessage msgX)).run [.openNext, .advance,
        .applyReceipt chatA ["X"] .delivered, .markMessageRead chatA "X"]).adopting storedX.key = false := by
    decide +kernel
  obtain ⟨r, hr, hf, -⟩ := redelivery_keeps (World.init.run trimmedX) ⟨_, rfl⟩ hses storedX
    (by decide) heff hres msgX rfl hsafe.1 _ hsafe.2.1 hsafe.2.2
  exact ⟨r, hr, hf⟩

/-- What the record of a redelivered message meets: updates, read marks and flushes. -/
def Step.concerns (k : Key) : Step → Bool
  | .markMessageRead jid id => (⟨jid, id⟩ : Key) = k
  | .flushPendingWrites => true
  | .msgTimer => true
  | .openNext => true
  | .advance => true
  | e => (e.update k).isSome

/-- A receipt that comes in before the adoption writes the fresh copy over the record: the
reaction is gone. -/
theorem redelivery_resets :
    ¬ ∀ (w : World) (s m : UiMessage) (es : List Step), Reachable w → w.SameSession →
      persistable s = true → w.eff s.key = some s → (w.slot s.key).resident = none →
      m.key = s.key → persistable m = true → (∀ e ∈ es, e.concerns s.key = true) →
      ((w.step (.addMessage m)).run es).adopting s.key = false →
      ∃ r, ((w.step (.addMessage m)).run es).eff s.key = some r ∧
        Fills ((touchesOf s.key es).foldl Touch.apply s) r := by
  intro hall
  obtain ⟨hses, heff, hres⟩ := stored_of_trimmedX
  have hlost : (((World.init.run trimmedX).step (.addMessage msgX)).run
      [.applyReceipt chatA ["X"] .delivered, .openNext, .advance]).adopting storedX.key = false ∧
      (((World.init.run trimmedX).step (.addMessage msgX)).run
        [.applyReceipt chatA ["X"] .delivered, .openNext, .advance]).eff storedX.key =
          some { msgX with unread := some true, status := some .delivered } := by
    decide +kernel
  obtain ⟨r, hr, hf⟩ := hall (World.init.run trimmedX) storedX msgX
    [.applyReceipt chatA ["X"] .delivered, .openNext, .advance] ⟨_, rfl⟩ hses (by decide) heff hres rfl
    (by decide) (by decide) hlost.1
  cases hlost.2.symm.trans hr
  exact absurd hf.reactions (by decide +kernel)

end Whatsvelte
