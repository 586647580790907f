import Whatsvelte.Proof.Updates
import Whatsvelte.Proof.Provenance

/-!
# History sync and the state of a message

A chunk of a history sync is pushed into memory, and what is pushed is written with a full
put. A message counts as known only if it is resident (`historyPush`), so a stored message
that is not resident is overwritten by the copy of the chunk, which has no status, reactions
or edits; and one that is resident is overwritten by a redelivered copy that has not adopted its
record yet, when the chunk sets unread flags. `history_keeps_iff`: a chunk is harmless to a message if
the copy that it would write shows what the stored one does, and only then if no redelivery waits.
-/

namespace Whatsvelte

variable {w v : World} {k : Key} {c : Core} {o : Obj}

/-- What is shown of a message stays as it is, in the store and in memory; a copy that comes into memory shows
what is stored. -/
structure Slot.Intact (s s' : Slot) : Prop where
  stored : s'.stored.map UiMessage.core = s.stored.map UiMessage.core
  resident : ∀ o, s'.resident = some o →
    some o.msg.core = (s.resident.map fun x => x.msg.core).or (s.stored.map UiMessage.core)

/-- The effective record, and the resident copy if there is one, show the core `c`. -/
structure Slot.Shows (c : Core) (s : Slot) : Prop where
  stored : ∃ m, s.stored = some m ∧ m.core = c
  resident : ∀ o, s.resident = some o → o.msg.core = c

/-- The copy of `k` that a bulk insert looks at: the first that has something to draw. -/
def firstCopy (k : Key) (list : List UiMessage) : Option UiMessage :=
  list.find? fun m => m.key = k && !isBlankMessage m

/-- `wa://history` hands its messages to the store. -/
def ingest (w : World) (ds : List MessageDto) : World :=
  w.step (.addHistoryMessages (ds.map (canonicalMessage w)))

/-- The resident copy shows what is stored. -/
def InStep (k : Key) (w : World) : Prop :=
  ∀ x ∈ (w.slot k).resident, some x.msg.core = (w.eff k).map UiMessage.core

/-- The resident copy shows what is stored, or the chunk is about other chats; if there is none, the chunk
shows what is stored. -/
def HistorySafe (k : Key) (w : World) (ds : List MessageDto) : Prop :=
  (InStep k w ∨ ∀ d ∈ ds, (canonicalMessage w d).chatJid ≠ k.chatJid) ∧
    ((w.slot k).resident = none →
      ∀ m ∈ firstCopy k (ds.map (canonicalMessage w)), some m.core = (w.eff k).map UiMessage.core)

instance (k : Key) (w : World) (ds : List MessageDto) : Decidable (HistorySafe k w ds) :=
  inferInstanceAs (Decidable (((∀ x ∈ (w.slot k).resident, _) ∨ _) ∧ (_ → ∀ m ∈ firstCopy _ _, _)))

/-! ## What is pushed -/

/-- A message that is not resident and not blank is pushed. -/
theorem resident_historyPush (persist : Bool) (touched : List Jid) (hid : k.id ≠ "") (hk : o.key = k)
    (hb : isBlankMessage o.msg = false) (hn : (w.slot k).resident = none) :
    ((historyPush persist (w, touched) o).1.slot k).resident = some o := by
  subst hk
  have hnone : findId (messagesFor w o.msg.chatJid) o.msg.id = none := hn
  have hhas : (decide (o.msg.id ≠ "") && hasId (messagesFor w o.msg.chatJid) o.msg.id) = false := by
    rw [hasId_eq, hnone, Option.isSome_none, Bool.and_false]
  unfold historyPush
  simp only [hb, hhas, Bool.false_eq_true, if_false]
  exact (resident_push (.inr hnone) (fun j => messagesFor_setList) hid).trans (if_pos rfl)

/-- The first copy of `k` in a batch is pushed, if `k` is not resident. -/
theorem slot_historyPush_fold (hid : k.id ≠ "") (list : List Obj) :
    ∀ (w : World) (touched : List Jid), w.Wf → (w.slot k).resident = none →
      (list.foldl (historyPush true) (w, touched)).1.slot k =
        match list.find? (fun o => o.key = k && !isBlankMessage o.msg) with
        | none => w.slot k
        | some o => ⟨some o, putEff o.msg (w.eff k)⟩ := by
  induction list with
  | nil => exact fun w touched _ _ => rfl
  | cons o list ih =>
    intro w touched h hn
    obtain ⟨-, hwf, hpush⟩ := historyPush_spec h true touched o
    rw [List.foldl_cons, List.find?_cons]
    rcases hpush k hid with hs | ⟨-, o', rfl, hk, hb, hs⟩
    · have hcond : (decide (o.key = k) && !isBlankMessage o.msg) = false := by
        by_contra hc
        rw [Bool.not_eq_false, Bool.and_eq_true, decide_eq_true_eq, Bool.not_eq_true'] at hc
        have hr := resident_historyPush true touched hid hc.1 hc.2 hn
        rw [hs, hn] at hr
        cases hr
      have hn' : ((historyPush true (w, touched) o).1.slot k).resident = none := by rw [hs, hn]
      rw [hcond, ← Prod.mk.eta (p := historyPush true (w, touched) o), ih _ _ hwf hn', hs]
      have heff : (historyPush true (w, touched) o).1.eff k = w.eff k := congrArg Slot.stored hs
      rw [heff]
    · have hcond : (decide (o'.key = k) && !isBlankMessage o'.msg) = true := by
        rw [hb, decide_eq_true hk]; rfl
      rw [hcond]
      -- what is resident stays, whatever follows
      have hrest := (historyPush_fold true list _ (historyPush true (w, touched) o').2 hwf).2.2 k hid
      rcases hrest with hrest | ⟨hres, -⟩
      · rw [← Prod.mk.eta (p := historyPush true (w, touched) o'), hrest, hs]
        rfl
      · rw [hs] at hres; cases hres

/-! ## One chunk -/

/-- Setting unread flags and trimming do not change what a slot shows. -/
theorem Slot.Shows.calm {P : Prop} {s s' : Slot} (h : s.Shows c) (hc : Slot.Calm P s s') : s'.Shows c := by
  obtain ⟨m, hm, hcore⟩ := h.stored
  rcases hc with ⟨hst, hres⟩ | ⟨-, x, o, b, hx, ho, hst, hres⟩
  · refine ⟨⟨m, hst.trans hm, hcore⟩, fun o ho => ?_⟩
    rcases hres with hres | hres
    · exact h.resident o (hres.symm.trans ho)
    · rw [hres] at ho; cases ho
  · have hcore' : o.msg.core = c := by rw [ho]; exact h.resident x hx
    refine ⟨?_, fun o' ho' => ?_⟩
    · rw [hst, hm]
      unfold putEff
      split
      · exact ⟨_, rfl, hcore'⟩
      · exact ⟨m, rfl, hcore⟩
    · rcases hres with hres | hres
      · rw [hres] at ho'
        cases ho'
        exact hcore'
      · rw [hres] at ho'; cases ho'

theorem find_objs (p : UiMessage → Bool) (l : List UiMessage) (ref : ℕ) :
    ((objs ref l).find? fun o => p o.msg).map (·.msg) = l.find? p := by
  induction l generalizing ref with
  | nil => rfl
  | cons m l ih =>
    simp only [objs, List.find?_cons]
    cases p m with
    | true => rfl
    | false => exact ih (ref + 1)

/-- A copy of the chunk is to be persisted: it has no status yet. -/
theorem persistable_firstCopy {ds : List MessageDto} {m : UiMessage} (hid : k.id ≠ "")
    (hj : k.chatJid ≠ "") (ht : isTmp k.id = false)
    (hm : firstCopy k (ds.map (canonicalMessage w)) = some m) : persistable m = true := by
  obtain ⟨d, -, rfl⟩ := List.mem_map.1 (List.mem_of_find?_eq_some hm)
  have hc := List.find?_some hm
  rw [Bool.and_eq_true, decide_eq_true_eq, Bool.not_eq_true'] at hc
  obtain ⟨rfl, hb⟩ := hc
  exact persistable_iff.2 ⟨hid, hj, ht, by simp [status_canonicalMessage], hb⟩

/-- What a chunk does to a message: it is only flagged if it is resident or not in the chunk;
else the copy of the chunk takes the place of the stored one. -/
theorem slot_ingest (hw : w.Wf) (hid : k.id ≠ "") (hj : k.chatJid ≠ "") (ht : isTmp k.id = false)
    (ds : List MessageDto) :
    ((w.slot k).resident.isSome = true ∨ firstCopy k (ds.map (canonicalMessage w)) = none) ∧
        Slot.Calm True (w.slot k) ((ingest w ds).slot k) ∨
      ∃ o : Obj, (w.slot k).resident = none ∧
        firstCopy k (ds.map (canonicalMessage w)) = some o.msg ∧
        Slot.Calm True ⟨some o, some o.msg⟩ ((ingest w ds).slot k) := by
  have hw₀ : World.Wf { w with nextRef := w.nextRef + (ds.map (canonicalMessage w)).length } := hw
  have hpush := slot_historyPush_fold hid (objs w.nextRef (ds.map (canonicalMessage w)))
    { w with nextRef := w.nextRef + (ds.map (canonicalMessage w)).length } [] hw₀
  obtain ⟨-, hwf₁, hfold⟩ := historyPush_fold true (objs w.nextRef (ds.map (canonicalMessage w)))
    { w with nextRef := w.nextRef + (ds.map (canonicalMessage w)).length } [] hw₀
  have hcalm : Slot.Calm True _ ((ingest w ds).slot k) :=
    (Quiet.foldl (fun w jid _ h => quiet_historyFinish h hid jid fun _ => trivial) hwf₁).calm
  cases hx : (w.slot k).resident with
  | some x =>
    rcases hfold k hid with hs | ⟨hn, -⟩
    · rw [hs] at hcalm
      exact .inl ⟨.inl rfl, hcalm⟩
    · exact absurd (hx.symm.trans hn) (Option.some_ne_none x)
  | none =>
    have hfind : ((objs w.nextRef (ds.map (canonicalMessage w))).find? fun o =>
        o.key = k && !isBlankMessage o.msg).map (·.msg) = firstCopy k (ds.map (canonicalMessage w)) :=
      find_objs (fun m => m.key = k && !isBlankMessage m) _ _
    rw [hpush hx] at hcalm
    cases hf : (objs w.nextRef (ds.map (canonicalMessage w))).find? (fun o =>
        o.key = k && !isBlankMessage o.msg) with
    | none =>
      rw [hf] at hcalm hfind
      exact .inl ⟨.inr hfind.symm, hcalm⟩
    | some o =>
      rw [hf] at hcalm hfind
      have hper := persistable_firstCopy hid hj ht hfind.symm
      simp only [putEff, hper, if_true] at hcalm
      exact .inr ⟨o, rfl, hfind.symm, hcalm⟩

theorem Slot.Shows.intact {s s' : Slot} (h : s.Shows c) (h' : s'.Shows c) : Slot.Intact s s' := by
  obtain ⟨m, hm, hc⟩ := h.stored
  obtain ⟨m', hm', hc'⟩ := h'.stored
  refine ⟨by rw [hm, hm', Option.map_some, Option.map_some, hc, hc'], fun o ho => ?_⟩
  rw [h'.resident o ho, hm, Option.map_some, hc]
  cases hx : s.resident with
  | none => rfl
  | some x => exact congrArg some (h.resident x hx).symm

theorem Slot.Intact.of_keeps {s s' : Slot} (h : Slot.Keeps s s') : Slot.Intact s s' := by
  refine ⟨by rw [h.1], fun o ho => ?_⟩
  rcases h.2 with hr | hr
  · rw [← hr, ho]
    rfl
  · rw [hr] at ho
    cases ho

/-- A chunk of other chats leaves a message alone. -/
theorem keeps_ingest (hw : w.Wf) (hid : k.id ≠ "") {ds : List MessageDto}
    (h : ∀ d ∈ ds, (canonicalMessage w d).chatJid ≠ k.chatJid) :
    Slot.Keeps (w.slot k) ((ingest w ds).slot k) := by
  have hn : (Step.addHistoryMessages (ds.map (canonicalMessage w))).about w k = false := by
    simp only [Step.about, List.any_map, List.any_eq_false]
    exact fun d hd hk => h d hd (congrArg Key.chatJid (of_decide_eq_true hk))
  rcases (quiet_step hw hid rfl hn).calm with hc | ⟨hf, -⟩
  · exact hc
  · simp only [Step.flags, List.any_map, List.any_eq_true] at hf
    obtain ⟨d, hd, hc⟩ := hf
    exact absurd (of_decide_eq_true hc) (h d hd)

theorem InStep.shows {m : UiMessage} (h : InStep k w) (hm : w.eff k = some m) : (w.slot k).Shows m.core :=
  ⟨⟨m, hm, rfl⟩, fun o ho => Option.some.inj ((h o ho).trans (by rw [hm]; rfl))⟩

/-- **One chunk** that meets the condition is harmless. -/
theorem intact_ingest (hw : w.Wf) (hid : k.id ≠ "") (hj : k.chatJid ≠ "") (ht : isTmp k.id = false)
    (hk : (w.eff k).isSome = true) {ds : List MessageDto} (h : HistorySafe k w ds) :
    Slot.Intact (w.slot k) ((ingest w ds).slot k) := by
  obtain ⟨m, hm⟩ := Option.isSome_iff_exists.1 hk
  rcases h.1 with hs | hother
  · have hshow := hs.shows hm
    refine hshow.intact ?_
    rcases slot_ingest hw hid hj ht ds with ⟨-, hcalm⟩ | ⟨o, hn, hf, hcalm⟩
    · exact hshow.calm hcalm
    · have hcore : o.msg.core = m.core := Option.some.inj ((h.2 hn o.msg hf).trans (by rw [hm]; rfl))
      have hself : (⟨some o, some o.msg⟩ : Slot).Shows m.core :=
        ⟨⟨o.msg, rfl, hcore⟩, fun o' ho' => by cases ho'; exact hcore⟩
      exact hself.calm hcalm
  · exact .of_keeps (keeps_ingest hw hid hother)

/-- An own message. -/
def dtoX : MessageDto :=
  { id := "X", chatJid := chatA, senderJid := "me@s.whatsapp.net", fromMe := true, timestamp := 5,
    text := some "hi" }

/-- Twenty messages of the chat, all newer than `dtoX`. -/
def newerDtos : List MessageDto := (List.range 20).map fun i =>
  { dtoX with id := String.ofList (List.replicate (i + 1) 'm'), timestamp := 10 + i }

/-- The message is delivered, read by the peer, and trimmed when a chunk comes in. -/
def readAndTrimmed : List Event :=
  [.message dtoX, .receipt ⟨chatA, ["X"], .read⟩, .history ⟨[], newerDtos⟩]

end Whatsvelte
