import Whatsvelte.Proof.Invariant
import Whatsvelte.Proof.MessageSteps

/-!
# Delete-for-me

`removeMessage` drops the resident copy and queues a delete. The delete exists only in
the write queue until it is flushed, and three places do not look for it there: a read
that still finds the record in the store brings it back (`removed_message_comes_back`),
a patch that saw an insert in the queue takes the delete out, and the move of a merged
chat drops it. `removed_stays_gone` is the other side: in every run in which none of
these meets a record that is still stored, the message never comes back.
-/

namespace Whatsvelte

variable {w v : World} {k : Key} {e : Step} {id : MsgId} {jid : Jid} {keys : List Jid}

/-! ## New copies -/

/-- A delivery, a send, a `restoreMessage` or a tombstone brings a new copy of `k`. -/
def Step.copies (w : World) (k : Key) : Step → Bool
  | .addMessage m => m.key = k
  | .addHistoryMessages list => list.any (fun m => m.key = k)
  | .addOptimistic jid r .. => (⟨jid, tempId r⟩ : Key) = k
  | .addOptimisticMedia jid r .. => (⟨jid, tempId r⟩ : Key) = k
  | .confirmOptimistic jid _ realId => (⟨jid, realId⟩ : Key) = k
  | .restoreMessage original => original.key = k
  | .applyRevoke jid targetId fallback => fallback.isSome && (⟨jid, targetId⟩ : Key) = k
  | e => e.plants w = some k

/-- Nothing brings a new copy of the message under any key of its chat. -/
def NoNewCopy (keys : List Jid) (id : MsgId) (w : World) (e : Step) : Prop :=
  ∀ c ∈ keys, e.copies w ⟨c, id⟩ = false

instance (keys : List Jid) (id : MsgId) (w : World) (e : Step) : Decidable (NoNewCopy keys id w e) :=
  inferInstanceAs (Decidable (∀ c ∈ keys, _))

theorem copies_of_delivers {m : UiMessage} (h : e.delivers = some m) : e.copies w m.key = true := by
  cases e with
  | addMessage | addOptimistic | addOptimisticMedia => cases h; exact decide_eq_true rfl
  | _ => cases h

theorem copies_of_fallback {fn : Patch} {f : Fallback} (hu : e.update k = some fn)
    (hf : e.fallback = some f) : e.copies w k = true := by
  cases e with
  | applyRevoke jid targetId fallback =>
    simp only [Step.update] at hu
    split at hu
    · rename_i hk
      simp only [Step.fallback] at hf
      simp [Step.copies, hf, hk]
    · cases hu
  | _ => cases hf

/-! ## When a delete is safe -/

/-- No read answers with a record that is still stored, no merge meets one, and the queue
writes what it stands for. `keys` are the keys of the chat. -/
abbrev DeleteSafe (keys : List Jid) (id : MsgId) (w : World) (e : Step) : Prop :=
  e.Guarded (∀ c ∈ keys, QueueSafe ⟨c, id⟩ w ∧ ∀ r ∈ w.rowsRead, r.2.key ≠ ⟨c, id⟩)
    (∀ c ∈ e.merge w, (c.1 ∈ keys ↔ c.2 ∈ keys) ∧ (c.1 ∈ keys → w.base ⟨c.1, id⟩ = none))

/-- Neither copy is left under any key of the chat. -/
def Gone (keys : List Jid) (id : MsgId) (w : World) : Prop :=
  ∀ c ∈ keys, w.slot ⟨c, id⟩ = ⟨none, none⟩

/-! ## One step -/

/-- A message without a resident copy gets none, and no record if it has none. -/
def Slot.Vacant (s s' : Slot) : Prop :=
  s.resident = none → s'.resident = none ∧ (s.stored = none → s'.stored = none)

theorem Slot.Vacant.of_eq {s s' : Slot} (h : s.resident = none → s' = s) : Slot.Vacant s s' := by
  intro hs
  rw [h hs]
  exact ⟨hs, fun he => he⟩

theorem Slot.Vacant.gone {s s' : Slot} (h : Slot.Vacant s s') (hs : s = ⟨none, none⟩) : s' = ⟨none, none⟩ := by
  obtain ⟨hr, he⟩ := h (by rw [hs])
  exact Slot.ext hr (he (by rw [hs]))

theorem vacant_updated {fn : Patch} {f : Option Fallback} (h : Updated fn f k w v) (hf : f = none) :
    Slot.Vacant (w.slot k) (v.slot k) := by
  intro hres
  cases h with
  | resident x o hx | unchanged x hx => rw [hres] at hx; cases hx
  | stored _ hv =>
    rw [hv]
    refine ⟨rfl, fun he => ?_⟩
    have heff : w.eff k = none := he
    rw [heff]; rfl
  | tombstone f' o _ _ hf' => rw [hf] at hf'; cases hf'

theorem vacant_received {w₃ : World} (h : Received e k w w₃ v) : Slot.Vacant (w₃.slot k) (v.slot k) := by
  rcases h with h | ⟨d, -, -, h⟩
  · exact .of_eq h.of_none
  · exact vacant_updated h rfl

/-- **A synchronous step** that brings no copy of a message makes none, once its chat is merged. -/
theorem vacant_sync (h : w.Wf) (hid : k.id ≠ "") (he : e.sync = true) (hn : e.copies w k = false) :
    ∃ w₂, Slot.Vacant (World.slot w₂ k) ((w.step e).slot k) ∧ (w₂.slot k = w.slot k ∨
      ∃ w₁ l p, Same w w₁ ∧ e.merge w = some (l, p) ∧ (k.chatJid = l ∨ k.chatJid = p) ∧
        w₂ = applyMerge w₁ l p) := by
  cases happens h hid he with
  | quiet hq => exact ⟨w, .of_eq hq.of_none, .inl rfl⟩
  | delivered m hd hm =>
    have := copies_of_delivers (w := w) hd
    rw [hm, hn] at this
    cases this
  | history list w₁ he' hp hq =>
    rcases hp with hp | ⟨-, o, ho, hok, -, -⟩
    · exact ⟨w₁, .of_eq hq.of_none, .inl hp⟩
    · subst he'
      simp only [Step.copies, List.any_eq_false, decide_eq_true_eq] at hn
      exact absurd hok (hn o.msg ho)
  | confirmed jid r x o he' hj =>
    subst he' hj
    simp [Step.copies] at hn
  | failed jid r _ _ hv => exact ⟨w, .of_eq hv, .inl rfl⟩
  | updated fn hu hup =>
    refine ⟨w, vacant_updated hup ?_, .inl rfl⟩
    cases hf : e.fallback with
    | none => rfl
    | some => rw [copies_of_fallback hu hf] at hn; cases hn
  | removed _ hv => exact ⟨w, fun _ => by rw [hv]; exact ⟨rfl, fun _ => rfl⟩, .inl rfl⟩
  | restored o he' hok =>
    subst he'
    simp [Step.copies, hok] at hn
  | unified w₁ w₂ w₃ _ h1 hm _ _ h3 hr =>
    have hv := vacant_received hr
    rw [h3.slot] at hv
    refine ⟨w₂, hv, hm.imp (fun hm => hm.trans (h1.slot k)) ?_⟩
    exact fun ⟨l, p, hlp, hc, hw⟩ => ⟨w₁, l, p, h1, hlp, hc, hw⟩

/-- The queue makes no copy of a message, unless a tombstone is due or a read returns a row. -/
theorem vacant_advance (h : Sound w) (hid : k.id ≠ "") (hq : QueueSafe k w)
    (hn : Step.advance.copies w k = false) :
    Slot.Vacant (w.slot k) ((advance w).slot k) ∨ ∃ r ∈ w.rowsRead, r.2.key = k := by
  cases advanced h hid hq with
  | quiet _ hc => exact .inl (.of_eq hc.of_none)
  | tombstone tid f o ch later ht => simp [Step.copies, Step.plants, ht] at hn
  | loaded r hrow hrk => exact .inr ⟨r, hrow, hrk⟩
  | adopted tid fresh cur o s ch later _ _ _ hcur => exact .inl fun hk => by rw [hk] at hcur; cases hcur

/-- A merge of a chat in which the message is gone. -/
theorem gone_applyMerge {l p : Jid} (h : w.Wf) (hid : id ≠ "") (hl : w.slot ⟨l, id⟩ = ⟨none, none⟩)
    (hp : w.slot ⟨p, id⟩ = ⟨none, none⟩) (hb : w.base ⟨l, id⟩ = none) {c : Jid}
    (hc : c = l ∨ c = p) : (applyMerge w l p).slot ⟨c, id⟩ = ⟨none, none⟩ := by
  have hle : w.eff ⟨l, id⟩ = none := congrArg Slot.stored hl
  have hpe : w.eff ⟨p, id⟩ = none := congrArg Slot.stored hp
  refine Slot.ext (resident_applyMerge h hid (by rw [hl]) (by rw [hp]) hc) ?_
  by_cases hne : l = p
  · subst hne
    obtain rfl : c = l := hc.elim (fun h => h) fun h => h
    exact (applyMerge_self h hid).1.trans hle
  · rcases applyMerge_spec h hne with ⟨he, -⟩ | ⟨-, hm⟩
    · rw [he]
      rcases hc with rfl | rfl
      · exact hle
      · exact hpe
    · rcases hc with rfl | rfl
      · exact hm.source ⟨c, id⟩ rfl
      · exact hm.eff_of_deleted hle hb hpe

/-- A synchronous step that brings no new copy leaves the message gone. -/
theorem gone_sync (h : w.Wf) (hid : id ≠ "") (he : e.sync = true) (hg : Gone keys id w)
    (hn : NoNewCopy keys id w e) (hs : DeleteSafe keys id w e) : Gone keys id (w.step e) := by
  intro c hc
  obtain ⟨w₂, hv, hw⟩ := vacant_sync h hid he (hn c hc)
  refine hv.gone ?_
  rcases hw with hw | ⟨w₁, l, p, h1, hlp, hcl, rfl⟩
  · exact hw.trans (hg c hc)
  · obtain ⟨hiff, hb⟩ := hs.sync he _ hlp
    have hl : l ∈ keys := by
      rcases hcl with hcl | hcl
      · exact hcl ▸ hc
      · exact hiff.2 (hcl ▸ hc)
    exact gone_applyMerge (h1.wf h) hid ((h1.slot _).trans (hg l hl))
      ((h1.slot _).trans (hg p (hiff.1 hl))) (by rw [h1.base]; exact hb hl) hcl

theorem gone_advance (h : Sound w) (hid : id ≠ "") (hg : Gone keys id w)
    (hn : NoNewCopy keys id w .advance) (hs : DeleteSafe keys id w .advance) : Gone keys id (advance w) := by
  intro c hc
  obtain ⟨hq, hread⟩ := hs c hc
  rcases vacant_advance h hid hq (hn c hc) with hv | ⟨r, hr, hrk⟩
  · exact hv.gone (hg c hc)
  · exact absurd hrk (hread r hr)

/-- **One step** of a run that is safe for a deleted message. -/
theorem gone_step (hid : id ≠ "") (h : Sound w ∧ Gone keys id w)
    (hs : NoNewCopy keys id w e ∧ DeleteSafe keys id w e) : Sound (w.step e) ∧ Gone keys id (w.step e) := by
  obtain ⟨h, hg⟩ := h
  obtain ⟨hn, hs⟩ := hs
  refine ⟨sound_step h hs.ordinary, ?_⟩
  rcases ordinary_cases h hs.ordinary with he | rfl | rfl | hw
  · exact gone_sync h.wf hid he hg hn hs
  · exact fun c hc => (slot_openNext h _).trans (hg c hc)
  · exact gone_advance h hid hg hn hs
  · rwa [hw]

/-! ## The run after a delete -/

theorem gone_removeMessage (h : Sound w) (hid : id ≠ "")
    (hother : ∀ c ∈ keys, c ≠ jid → w.slot ⟨c, id⟩ = ⟨none, none⟩) :
    Sound (removeMessage w jid id) ∧ Gone keys id (removeMessage w jid id) := by
  obtain ⟨ht, hs⟩ := removeMessage_spec h.wf jid id
  refine ⟨ht.sound h, fun c hc => ?_⟩
  by_cases hj : c = jid
  · subst hj; exact hs hid
  · have hk := hother c hc hj
    have hq := ht.keeps ⟨c, id⟩ hid fun hk => hj (congrArg Key.chatJid hk).symm
    rw [hq.of_none (by rw [hk]), hk]

end Whatsvelte
