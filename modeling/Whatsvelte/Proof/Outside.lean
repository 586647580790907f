import Whatsvelte.Proof.Acts
import Whatsvelte.Proof.Advance

/-!
# What the message store leaves alone

`Outside w v`: the chat list and the LID map are the same in `v` as in `w`. Everything that
the message store and the write queue do leaves them alone, except that reading messages
lowers the unread count of a chat, and that a merge moves a chat row.

`canonicalJid_step`: the canonical key of a chat only changes when the chat is merged.
-/

namespace Whatsvelte

variable {w v u : World}

/-- The chat list and the LID map are left alone. -/
structure Outside (w v : World) : Prop where
  chats : v.chats = w.chats
  activeJid : v.activeJid = w.activeJid
  lidToPn : v.lidToPn = w.lidToPn
  resolving : v.resolving = w.resolving

namespace Outside

theorem refl (w : World) : Outside w w := ⟨rfl, rfl, rfl, rfl⟩

theorem trans (h : Outside w v) (h' : Outside v u) : Outside w u :=
  ⟨h'.chats.trans h.chats, h'.activeJid.trans h.activeJid, h'.lidToPn.trans h.lidToPn,
    h'.resolving.trans h.resolving⟩

theorem after (h' : Outside v u) (h : Outside w v) : Outside w u := h.trans h'

theorem of_acts {s : Scope} (h : Acts s w v) : Outside w v := by
  induction h with
  | refl => exact .refl w
  | tail _ ha ih =>
    refine ih.trans ?_
    cases ha with
    | early =>
      unfold rememberEarlyReceipt
      repeat' split
      all_goals exact ⟨rfl, rfl, rfl, rfl⟩
    | _ => exact ⟨rfl, rfl, rfl, rfl⟩

theorem addMessage (w : World) (m : UiMessage) : Outside w (addMessage w m) :=
  .of_acts (s := .any) (acts_addMessage (.any w m))

theorem addHistoryMessages (w : World) (list : List Obj) (persist : Bool) :
    Outside w (addHistoryMessages w list persist) :=
  .of_acts (s := .any) (acts_addHistoryMessages w persist fun _ _ => ⟨trivial, trivial, fun _ => trivial⟩)

theorem afterPatch (w : World) (k : Key) (found : Bool) (after : AfterPatch) :
    Outside w (afterPatch w k found after) :=
  .of_acts (s := .any) (acts_afterPatch w found (fun _ _ _ => ⟨trivial, trivial⟩) fun _ _ _ => trivial)

theorem applyReceipt (w : World) (jid : Jid) (ids : List MsgId) (status : MessageStatus) :
    Outside w (applyReceipt w jid ids status) :=
  .of_acts (s := .any) (acts_applyReceipt w jid status fun _ _ => trivial)

theorem openNext (w : World) : Outside w (openNext w) := by
  unfold Whatsvelte.openNext
  repeat' split
  all_goals first
    | exact ⟨rfl, rfl, rfl, rfl⟩
    | exact (Outside.afterPatch _ _ _ _).after ⟨rfl, rfl, rfl, rfl⟩

theorem advance (w : World) : Outside w (advance w) := by
  have hr := ran_advance w
  generalize Whatsvelte.advance w = v at hr ⊢
  cases hr with
  | idle => exact .refl w
  | flush =>
    unfold flushSlice
    dsimp only
    repeat' split
    all_goals exact ⟨rfl, rfl, rfl, rfl⟩
  | patch => exact ⟨rfl, rfl, rfl, rfl⟩
  | patched => exact (Outside.afterPatch _ _ _ _).after ⟨rfl, rfl, rfl, rfl⟩
  | page => exact (Outside.of_acts (acts_openChatDone (s := .any) _ _)).after ⟨rfl, rfl, rfl, rfl⟩
  | tails => exact (Outside.addHistoryMessages _ _ _).after ⟨rfl, rfl, rfl, rfl⟩
  | adopt =>
    exact (Outside.of_acts (acts_adoptStoredDone (s := .any) _ fun _ _ _ _ => trivial)).after ⟨rfl, rfl, rfl, rfl⟩
  | _ => exact ⟨rfl, rfl, rfl, rfl⟩

/-- The steps of the transaction queue. -/
theorem queue {e : Step} (hs : e.sync = false) (he : e ≠ .resetAll) : Outside w (w.step e) := by
  cases e with
  | openNext => exact .openNext w
  | advance => exact .advance w
  | flushFails =>
    simp only [World.step, flushFails]
    repeat' split
    all_goals exact ⟨rfl, rfl, rfl, rfl⟩
  | wipe =>
    simp only [World.step, wipe]
    repeat' split
    all_goals exact ⟨rfl, rfl, rfl, rfl⟩
  | resetAll => exact absurd rfl he
  | _ => cases hs

end Outside

/-! ## The canonical key of a chat -/

variable {e : Step} {jid : Jid}

theorem canonicalJid_congr (h : v.lidToPn = w.lidToPn) (jid : Jid) :
    canonicalJid v jid = canonicalJid w jid := by rw [canonicalJid, canonicalJid, h]

theorem Outside.canonicalJid (h : Outside w v) (jid : Jid) :
    canonicalJid v jid = canonicalJid w jid := canonicalJid_congr h.lidToPn jid

theorem canonicalJid_learn (w : World) (l p jid : Jid) :
    canonicalJid (w.learn l p) jid = if l = jid ∧ isLid jid = true then p else canonicalJid w jid := by
  unfold canonicalJid World.learn
  simp only [Function.update_apply]
  by_cases hj : isLid jid = true
  · by_cases hl : jid = l
    · simp [hl, hl ▸ hj]
    · simp [hl, Ne.symm hl]
  · simp [hj]

/-- The LID map and the requests to the backend are left alone. -/
structure Unasked (w v : World) : Prop where
  lidToPn : v.lidToPn = w.lidToPn
  resolving : v.resolving = w.resolving

theorem Unasked.trans (h : Unasked w v) (h' : Unasked v u) : Unasked w u :=
  ⟨h'.lidToPn.trans h.lidToPn, h'.resolving.trans h.resolving⟩

theorem Unasked.after (h' : Unasked v u) (h : Unasked w v) : Unasked w u := h.trans h'

theorem Outside.unasked (h : Outside w v) : Unasked w v := ⟨h.lidToPn, h.resolving⟩

theorem Unasked.of_chats (h : ChatsOnly w v) : Unasked w v := by
  obtain ⟨c, t, a, rfl⟩ := h
  exact ⟨rfl, rfl⟩

theorem unasked_applyMerge (w : World) (l p : Jid) : Unasked w (applyMerge w l p) := by
  have h1 : Unasked w (mergeMessages w l p) := by
    unfold mergeMessages
    dsimp only
    split <;> exact ⟨rfl, rfl⟩
  have h2 := h1.trans (.of_chats (.mergeChats _ l p))
  unfold applyMerge movePersistedChat
  split
  · exact ⟨rfl, rfl⟩
  · split <;> exact ⟨h2.lidToPn, h2.resolving⟩

theorem lidToPn_applyMerge (w : World) (l p : Jid) : (applyMerge w l p).lidToPn = w.lidToPn :=
  (unasked_applyMerge w l p).lidToPn

theorem unasked_thenReceipt (w : World) (r : Option ReceiptDto) : Unasked w (thenReceipt w r) := by
  cases r with
  | none => exact ⟨rfl, rfl⟩
  | some => exact (Outside.applyReceipt w _ _ _).unasked

theorem lidToPn_thenReceipt (w : World) (r : Option ReceiptDto) :
    (thenReceipt w r).lidToPn = w.lidToPn := (unasked_thenReceipt w r).lidToPn

/-- **Only unification and a reset** change the LID map, and only unification asks the backend. -/
theorem unasked_step (hu : e.unifies = false) (he : e ≠ .resetAll) : Unasked w (w.step e) := by
  cases hs : e.sync with
  | true =>
    have hc := calls_step hs (e.within_any w)
    generalize w.step e = v at hc ⊢
    cases hc with
    | store h => exact (Outside.of_acts h).unasked
    | read h jid n => exact (Outside.of_acts h).unasked.trans (.of_chats (.decrementUnread _ jid n))
    | confirm t h => exact (Outside.of_acts h).unasked.after ⟨rfl, rfl⟩
    | history => exact (Outside.addHistoryMessages _ _ _).unasked.after ⟨rfl, rfl⟩
    | chat op => exact .of_chats (.chat w op)
    | unify h => rw [hu] at h; cases h
    | _ => exact ⟨rfl, rfl⟩
  | false => exact (Outside.queue hs he).unasked

theorem lidToPn_step (hu : e.unifies = false) (he : e ≠ .resetAll) :
    (w.step e).lidToPn = w.lidToPn := (unasked_step hu he).lidToPn

/-- **The canonical key** of a chat is the target of the last merge of the chat. -/
theorem canonicalJid_step (he : e ≠ .resetAll) (jid : Jid) :
    canonicalJid (w.step e) jid = match e.merge w with
      | some (l, p) => if l = jid ∧ isLid jid = true then p else canonicalJid w jid
      | none => canonicalJid w jid := by
  cases hu : e.unifies with
  | false =>
    have hm : e.merge w = none := by cases e <;> first | rfl | cases hu
    rw [hm]
    exact canonicalJid_congr (lidToPn_step hu he) jid
  | true =>
    cases e with
    | learnLidMapping lid pn =>
      simp only [World.step, learnLidMapping, Step.merge]
      by_cases h : isLid (normalizeJid lid) = true ∧
          w.lidToPn (normalizeJid lid) ≠ some (normalizeJid pn)
      · rw [if_pos h, if_neg (by simp [h.1, h.2])]
        exact (canonicalJid_congr (lidToPn_applyMerge _ _ _) jid).trans (canonicalJid_learn _ _ _ _)
      · rw [if_neg h, if_pos]
        simpa [imp_iff_not_or] using h
    | unifyLid l =>
      simp only [World.step, unifyLid, Step.merge]
      by_cases hl : isLid l = true
      · simp only [hl, Bool.not_true, Bool.false_eq_true, if_false, if_true]
        cases hk : w.lidToPn l with
        | none =>
          simp only [Option.map_none]
          split
          · exact canonicalJid_congr (lidToPn_thenReceipt _ _) jid
          · rfl
        | some known =>
          -- the mapping was known: the key is the canonical one already
          simp only [Option.map_some]
          rw [canonicalJid_congr ((lidToPn_thenReceipt _ _).trans (lidToPn_applyMerge _ _ _)) jid]
          split
          · rename_i hj
            rw [canonicalJid, if_pos hj.2, ← hj.1, hk]; rfl
          · rfl
      · simp only [hl, Bool.not_false, if_true, Bool.false_eq_true, if_false]
        exact canonicalJid_congr (lidToPn_thenReceipt _ _) jid
    | unifyLidDone l pn =>
      simp only [World.step, unifyLidDone]
      cases hr : w.resolving.get l with
      | none =>
        have hm : (Step.unifyLidDone l pn).merge w = none := by
          cases pn with
          | none => rfl
          | some => exact if_neg fun h => by simp [Table.has, hr] at h
        rw [hm]
      | some =>
        have hhas : w.resolving.has l = true := by simp [Table.has, hr]
        rw [canonicalJid_congr (lidToPn_thenReceipt _ _) jid]
        cases pn with
        | none => rfl
        | some p =>
          simp only [Step.merge, hhas, true_and]
          by_cases hp : p = "" ∨ p = l
          · simp only [if_pos hp, if_neg (not_not.2 hp)]; rfl
          · simp only [if_neg hp, if_pos hp]
            exact (canonicalJid_congr (lidToPn_applyMerge _ _ _) jid).trans (canonicalJid_learn _ _ _ _)
    | _ => cases hu

end Whatsvelte
