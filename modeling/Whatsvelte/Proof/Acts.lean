import Mathlib.Logic.Relation
import Whatsvelte.Proof.Steps

/-!
# The acts of the message store

A function of `stores/messages.svelte.ts` acts in a few ways, one after the other: it edits a list and
publishes it, sorted and trimmed by `commit` or as it is, starts a lookup or a page, patches a queued write,
or remembers a receipt. `Acts s w v` says that `v` comes from `w` by such acts; the scope `s` bounds what
the code is handed. What holds of the acts holds of every function (`acts_addMessage` and the others), so a
frame or an invariant of the store is checked for the acts only.

`calls_step` does the same for **the synchronous steps**, apart from unification.
-/

namespace Whatsvelte

/-- What the code of the store may be handed. -/
structure Scope where
  /-- The chats that may get a list. -/
  lists : Jid → Prop
  /-- The messages that may be put into a list, in the place of another one or at its end. -/
  fresh : Option UiMessage → UiMessage → Prop
  /-- The lists that may be published as they are. -/
  publish : Jid → List Obj → Prop
  /-- The ids whose receipts may be remembered. -/
  early : MsgId → Prop
  /-- The bubbles that may be taken out. -/
  drops : MsgId → Prop

/-- What takes the place of a message. -/
inductive Remade (s : Scope) (m : UiMessage) : UiMessage → Prop
  | patch (fn : Patch) {m' : UiMessage} (h : fn.apply m = some m') : Remade s m m'
  | unread (b : Bool) : Remade s m { m with unread := some b }
  | media (media : Option MediaDto) (thumbnail : Option String) :
      Remade s m { m with media := media, thumbnail := thumbnail }
  | fresh {m' : UiMessage} (h : s.fresh (some m) m') : Remade s m m'

/-- A list after an edit, and the messages that the edit wrote. -/
inductive Edited (s : Scope) (arr : List Obj) : List Obj → List Obj → Prop
  | same : Edited s arr arr []
  | append {o : Obj} (ho : s.fresh none o.msg) : Edited s arr (arr ++ [o]) [o]
  | sweep {arr₀ arr' written : List Obj} (hp : arr₀.Perm arr) (hs : Sweeps (Remade s) arr₀ arr' written) :
      Edited s arr arr' written
  | erase {id : MsgId} (h : isTmp id = true) (hd : s.drops id) : Edited s arr (arr.eraseP (fun o => o.msg.id = id)) []

/-- One act of the store. -/
inductive Act (s : Scope) (w : World) : World → Prop
  | commit {jid : Jid} {arr arr' written : List Obj} {q : Queue} (ref : ℕ) (ha : messagesFor w jid = arr)
      (hj : w.byChat jid = none → s.lists jid) (he : Edited s arr arr' written)
      (hq : q = w.q ∨ q = persistAll w.q written) :
      Act s w (commit { w with q := q, nextRef := ref } jid arr')
  | setList {jid : Jid} {arr arr' written : List Obj} {q : Queue} (ref : ℕ) (ha : messagesFor w jid = arr)
      (hj : w.byChat jid = none → s.lists jid) (he : Edited s arr arr' written)
      (hq : q = w.q ∨ q = persistAll w.q written)
      (hp : arr'.map (·.msg.timestamp) = arr.map (·.msg.timestamp) ∨ s.publish jid arr') :
      Act s w ({ w with q := q, nextRef := ref }.setList jid arr')
  | insert {o : Obj} {arr : List Obj} (ha : messagesFor w o.msg.chatJid = arr) (hj : s.lists o.msg.chatJid)
      (ho : s.fresh none o.msg) :
      Act s w (commit { w with q := persistMessageInsert w.q o } o.msg.chatJid (arr ++ [o]))
  | adopt {fresh : Obj} (h : s.fresh none fresh.msg) : Act s w (w.enqueue (.adopt fresh))
  | page (jid : Jid) (limit : ℕ) (beforeTs : Option ℤ) : Act s w (w.enqueue (.page jid limit beforeTs))
  | patch (k : Key) {queued : Option Obj} (fn : Patch) {after : AfterPatch}
      (hq : ∀ m ∈ queued, w.q.pending.get k = some (.add m))
      (hf : ∀ f, after = .tombstone (some f) → s.fresh none (tombstone k f))
      (hi : ∀ status, after = .early status → s.early k.id) :
      Act s w (w.enqueue (.patch w.epoch k queued fn after))
  | put {k : Key} {m : Obj} {next : UiMessage} (fn : Patch) (hp : w.q.pending.get k = some (.put m))
      (hn : fn.apply m.msg = some next) :
      Act s w { w with q := { w.q with pending := w.q.pending.set (.put ⟨w.nextRef, next⟩) },
                       nextRef := w.nextRef + 1 }
  | early {id : MsgId} (h : s.early id) (status : MessageStatus) :
      Act s w (rememberEarlyReceipt w id status)
  | flags (loading opening : Jid → Bool) (ref : ℕ) :
      Act s w { w with loadingOlder := loading, opening := opening, nextRef := ref }

/-- Some acts of the store, one after the other. -/
abbrev Acts (s : Scope) : World → World → Prop := Relation.ReflTransGen (Act s)

variable {s : Scope} {w v : World} {jid : Jid} {k : Key} {id : MsgId} {o x : Obj}
  {arr arr' : List Obj}

/-- A loop that leaves something of every message alone. -/
theorem Sweeps.map_eq {R : UiMessage → UiMessage → Prop} {written : List Obj} {β : Type} {f : UiMessage → β}
    (hR : ∀ m m', R m m' → f m' = f m) (h : Sweeps R arr arr' written) :
    arr'.map (fun o => f o.msg) = arr.map (fun o => f o.msg) := by
  induction h with
  | nil => rfl
  | keep x _ ih => simp [ih]
  | write x o hr _ ih => simp [ih, hR _ _ hr]

theorem Sweeps.refl {R : UiMessage → UiMessage → Prop} : ∀ arr : List Obj, Sweeps R arr arr []
  | [] => .nil
  | x :: arr => .keep x (refl arr)

/-- One message is replaced. -/
theorem Sweeps.of_find {R : UiMessage → UiMessage → Prop} {p : Obj → Bool} (hx : arr.find? p = some x)
    (hr : R x.msg o.msg) : Sweeps R arr (replaceFirst p o arr) [o] := by
  obtain ⟨pre, post, rfl, he⟩ := replaceFirst_of_find hx
  rw [he]
  clear hx he
  induction pre with
  | nil => exact .write x o hr (.refl post)
  | cons y pre ih => exact .keep y ih

theorem Edited.replace {p : Obj → Bool} (hx : arr.find? p = some x) (ho : Remade s x.msg o.msg) :
    Edited s arr (replaceFirst p o arr) [o] := .sweep .rfl (.of_find hx ho)

/-- A message is replaced by one with the same time. -/
theorem times_replaceFirst {p : Obj → Bool} (h : ∀ x, arr.find? p = some x →
    o.msg.timestamp = x.msg.timestamp) :
    (replaceFirst p o arr).map (·.msg.timestamp) = arr.map (·.msg.timestamp) := by
  cases hx : arr.find? p with
  | none => rw [replaceFirst_of_none o hx]
  | some x =>
    exact (Sweeps.of_find hx (h x hx)).map_eq fun _ _ => id

theorem Sweeps.mono {R Q : UiMessage → UiMessage → Prop} {arr' written : List Obj}
    (hR : ∀ m m', R m m' → Q m m') (h : Sweeps R arr arr' written) : Sweeps Q arr arr' written := by
  induction h with
  | nil => exact .nil
  | keep x _ ih => exact .keep x ih
  | write x o hr _ ih => exact .write x o (hR _ _ hr) ih

theorem Remade.of_unread (m m' : UiMessage) (h : Unread m m') : Remade s m m' := by
  obtain ⟨b, rfl⟩ := h
  exact .unread b

/-- A message that is found by its id is replaced, and the list committed. -/
theorem acts_replaced (hx : findId (messagesFor w jid) id = some x) (ho : Remade s x.msg o.msg) (ref : ℕ)
    {q : Queue} (hq : q = w.q ∨ q = persistMessage w.q o) :
    Acts s w (commit { w with q := q, nextRef := ref } jid (replaceId (messagesFor w jid) id o)) :=
  .single (.commit ref rfl (fun hn => by rw [byChat_of_find hx] at hn; cases hn) (.replace hx ho) hq)

/-- A message that is found by its id is replaced by one with its time. -/
theorem acts_placed (hx : findId (messagesFor w jid) id = some x) (ho : Remade s x.msg o.msg)
    (ht : o.msg.timestamp = x.msg.timestamp) (ref : ℕ) {q : Queue} (hq : q = w.q ∨ q = persistMessage w.q o) :
    Acts s w ({ w with q := q, nextRef := ref }.setList jid (replaceId (messagesFor w jid) id o)) := by
  refine .single (.setList ref rfl (fun hn => by rw [byChat_of_find hx] at hn; cases hn) (.replace hx ho) hq
    (.inl (times_replaceFirst fun y hy => ?_)))
  have hxy : some x = some y := hx.symm.trans hy
  cases hxy
  exact ht

/-- The list of a chat is swept over and committed. -/
theorem acts_swept {arr₀ arr' written : List Obj} (hb : w.byChat jid = none → s.lists jid)
    (hp : arr₀.Perm (messagesFor w jid)) (hs : Sweeps Unread arr₀ arr' written) (ref : ℕ) :
    Acts s w (commit { w with q := persistAll w.q written, nextRef := ref } jid arr') :=
  .single (.commit ref rfl hb (.sweep hp (hs.mono Remade.of_unread)) (.inr rfl))

/-! ## Deliveries -/

theorem acts_adoptStoredDone (w : World) {fresh : Obj} {stored : Option UiMessage}
    (h : ∀ st ∈ stored, ∀ x, x.id = fresh.msg.id → s.fresh (some x) (adopted st fresh.msg)) :
    Acts s w (adoptStoredDone w fresh stored) := by
  rcases adoptStoredDone_cases w fresh stored with ⟨he, -⟩ | ⟨st, cur, rfl, hcur, -, he⟩
  · rw [he]
  · rw [he]
    refine acts_replaced hcur (.fresh (h st rfl _ (findId_id hcur))) _ ?_
    -- the adopted copy is written back only if its media is news
    split
    · exact .inr rfl
    · exact .inl rfl

/-- What a delivery of the message may put into a list. -/
structure Scope.Takes (s : Scope) (w : World) (m : UiMessage) : Prop where
  list : s.lists m.chatJid
  fresh : s.fresh none (startUnread m)
  sent : m.fromMe = true → (m.id ≠ "" → findId (messagesFor w m.chatJid) m.id = none) →
    ∀ x ∈ (messagesFor w m.chatJid).find? (matchesEcho (startUnread m)),
      s.fresh (some x.msg) { startUnread m with status := some .sent }
  adopted : ∀ st, w.q.pending.get m.key = some (.put st) → ∀ x, x.id = m.id →
    s.fresh (some x) (adopted st.msg (startUnread m))

/-- An insert of the message itself is no full write. -/
theorem acts_insertNew (ha : messagesFor w o.msg.chatJid = arr) (hl : s.lists o.msg.chatJid)
    (hf : s.fresh none o.msg)
    (hst : ∀ st, w.q.pending.get o.key = some (.put st) → ∀ x, x.id = o.msg.id →
      s.fresh (some x) (adopted st.msg o.msg)) :
    Acts s w (insertNew w o arr) := by
  have hc : Acts s w (commit { w with q := persistMessageInsert w.q o } o.msg.chatJid (arr ++ [o])) :=
    .single (.insert ha hl hf)
  unfold insertNew
  dsimp only
  split
  · refine hc.trans ?_
    unfold adoptStored
    split
    · rename_i m hm
      refine acts_adoptStoredDone _ fun st hs x => ?_
      cases hs
      exact hst m (get_insert_put.1 hm) x
    · exact .refl
    · exact .single (.adopt hf)
  · exact hc

theorem acts_addMessage {m : UiMessage} (h : s.Takes w m) : Acts s w (addMessage w m) := by
  unfold addMessage
  split
  · exact .refl
  dsimp only
  have hl : Acts s w (w.setList m.chatJid (messagesFor w m.chatJid)) :=
    .single (.setList w.nextRef rfl (fun _ => h.list) .same (.inl rfl) (.inl rfl))
  have harr : messagesFor (w.setList m.chatJid (messagesFor w m.chatJid)) (startUnread m).chatJid =
      messagesFor w m.chatJid := by rw [messagesFor_setList, if_pos (startUnread_chatJid m)]
  have hlist : s.lists (startUnread m).chatJid := startUnread_chatJid m ▸ h.list
  refine hl.trans ?_
  split
  · rename_i x hx
    unfold refreshMedia
    split
    · split at hx
      · exact .single (.commit _ harr (fun _ => hlist) (.replace hx (.media _ _)) (.inr rfl))
      · cases hx
    · exact .refl
  · rename_i hn
    split
    · rename_i hecho
      have hme : m.fromMe = true := by
        rw [← fromMe_startUnread]
        exact (Bool.and_eq_true_iff.1 hecho).1
      have hnew : m.id ≠ "" → findId (messagesFor w m.chatJid) m.id = none := fun hid => by
        rwa [startUnread_id, if_pos hid] at hn
      have hany : ∃ x, (messagesFor w m.chatJid).find? (matchesEcho (startUnread m)) = some x := by
        rw [← Option.isSome_iff_exists, List.find?_isSome]
        simpa using (Bool.and_eq_true_iff.1 hecho).2
      obtain ⟨x, hx⟩ := hany
      exact .single (.commit _ harr (fun _ => hlist) (.replace hx (.fresh (h.sent hme hnew x hx))) (.inr rfl))
    · refine .head (.flags _ _ (w.nextRef + 1)) (acts_insertNew harr hlist h.fresh fun st hst => ?_)
      rw [startUnread_id]
      exact h.adopted st (startUnread_key m ▸ hst)

theorem acts_historyPush (persist : Bool) (st : World × List Jid) (hl : s.lists o.msg.chatJid)
    (hf : s.fresh none o.msg) (hp : ∀ arr, s.publish o.msg.chatJid arr) :
    Acts s st.1 (historyPush persist st o).1 := by
  unfold historyPush
  dsimp only
  split
  · exact .refl
  · split
    · exact .single (.setList st.1.nextRef rfl (fun _ => hl) .same (.inl rfl) (.inl rfl))
    · refine .single (.setList (q := if persist then persistMessage st.1.q o else st.1.q)
        st.1.nextRef rfl (fun _ => hl) (.append hf) ?_ (.inr (hp _)))
      cases persist with
      | true => exact .inr rfl
      | false => exact .inl rfl

theorem acts_historyFinish (w : World) (hl : s.lists jid) : Acts s w (historyFinish w jid) :=
  acts_swept (fun _ => hl) (sortByTime_perm _) (sweep_sweeps setUnread_unread _ _ _) _

/-- The chats that a batch touches are those of its messages. -/
theorem mem_touched {persist : Bool} {st : World × List Jid} {j : Jid} (h : j ∈ (historyPush persist st o).2) :
    j ∈ st.2 ∨ j = o.msg.chatJid := by
  unfold historyPush at h
  have hmem : j ∈ (if o.msg.chatJid ∈ st.2 then st.2 else st.2 ++ [o.msg.chatJid]) →
      j ∈ st.2 ∨ j = o.msg.chatJid := by
    intro h
    split at h
    · exact .inl h
    · simpa using h
  dsimp only at h
  split at h
  · exact .inl h
  · split at h <;> exact hmem h

theorem acts_addHistoryMessages (w : World) {list : List Obj} (persist : Bool)
    (h : ∀ o ∈ list, s.lists o.msg.chatJid ∧ s.fresh none o.msg ∧ ∀ arr, s.publish o.msg.chatJid arr) :
    Acts s w (addHistoryMessages w list persist) := by
  have hpush : ∀ st : World × List Jid, (∀ j ∈ st.2, s.lists j) →
      Acts s st.1 (list.foldl (historyPush persist) st).1 ∧
        ∀ j ∈ (list.foldl (historyPush persist) st).2, s.lists j := by
    induction list with
    | nil => exact fun st hst => ⟨.refl, hst⟩
    | cons o list ih =>
      intro st hst
      obtain ⟨hl, hf, hp⟩ := h o List.mem_cons_self
      obtain ⟨h1, h2⟩ := ih (fun x hx => h x (List.mem_cons_of_mem _ hx)) (historyPush persist st o)
        fun j hj => (mem_touched hj).elim (hst j) fun hj => hj ▸ hl
      exact ⟨(acts_historyPush persist st hl hf hp).trans h1, h2⟩
  obtain ⟨h1, h2⟩ := hpush (w, []) (List.forall_mem_nil _)
  exact List.foldlRecOn _ _ h1 fun v hv j hj => hv.trans (acts_historyFinish v (h2 j hj))

/-! ## Sends -/

theorem acts_confirmOptimistic {tempId realId : MsgId} (ht : isTmp tempId = true) (hd : s.drops tempId)
    (h : ∀ x ∈ findId (messagesFor w jid) tempId, s.fresh (some x.msg) (confirmed w x realId).msg) :
    ∃ t, Acts s { w with earlyReceipts := t } (confirmOptimistic w jid tempId realId) := by
  rcases confirmOptimistic_cases w jid tempId realId with ⟨-, hv⟩ | ⟨x, hx, ⟨-, hv⟩ | ⟨-, hv⟩⟩
  · exact ⟨w.earlyReceipts, by rw [hv]⟩
  · refine ⟨w.earlyReceipts, ?_⟩
    rw [hv]
    refine .single (.commit w.nextRef rfl (fun hn => ?_) (.erase ht hd) (.inl rfl))
    rw [byChat_of_find hx] at hn
    cases hn
  · refine ⟨w.earlyReceipts.erase realId, ?_⟩
    rw [hv]
    exact acts_replaced (w := { w with earlyReceipts := w.earlyReceipts.erase realId })
      hx (.fresh (h x hx)) _ (.inr rfl)

theorem acts_failOptimistic {tempId : MsgId}
    (h : ∀ x ∈ findId (messagesFor w jid) tempId, s.fresh (some x.msg) { x.msg with status := some .failed }) :
    Acts s w (failOptimistic w jid tempId) := by
  unfold failOptimistic
  split
  · exact .refl
  · rename_i arr hb
    have harr := messagesFor_of_some hb
    subst harr
    split
    · exact .refl
    · rename_i x hx
      exact acts_placed (o := ⟨w.nextRef, { x.msg with status := some .failed }⟩) hx (.fresh (h x hx)) rfl _
        (.inl rfl)

/-- What a message that is put back may take the place of. -/
structure Scope.Restores (s : Scope) (w : World) (o : Obj) : Prop where
  list : s.lists o.msg.chatJid
  fresh : s.fresh none o.msg
  placed : ∀ x, x.id = o.msg.id → s.fresh (some x) o.msg
  publish : s.publish o.msg.chatJid (replaceId (messagesFor w o.msg.chatJid) o.msg.id o)

theorem acts_restoreMessage (h : s.Restores w o) : Acts s w (restoreMessage w o) := by
  unfold restoreMessage
  dsimp only
  split
  · rename_i hold
    obtain ⟨x, hx⟩ := Option.isSome_iff_exists.1 ((hasId_eq _ _).symm.trans hold)
    exact .single (.setList w.nextRef rfl (fun _ => h.list) (.replace hx (.fresh (h.placed _ (findId_id hx))))
      (.inr rfl) (.inr h.publish))
  · exact .single (.commit w.nextRef rfl (fun _ => h.list) (.append h.fresh) (.inr rfl))

/-! ## Updates -/

theorem acts_afterPatch (w : World) (found : Bool) {after : AfterPatch}
    (hf : ∀ f, found = false → after = .tombstone (some f) → s.lists k.chatJid ∧ s.fresh none (tombstone k f))
    (hi : ∀ status, found = false → after = .early status → s.early k.id) :
    Acts s w (afterPatch w k found after) := by
  cases after with
  | ignore => exact .refl
  | tombstone fallback =>
    cases fallback with
    | none => exact .refl
    | some f =>
      cases found with
      | true => exact .refl
      | false =>
        obtain ⟨hl, hf⟩ := hf f rfl rfl
        simp only [afterPatch, insertTombstone, Bool.false_eq_true, if_false]
        split
        · exact .single (.setList w.nextRef rfl (fun _ => hl) .same (.inl rfl) (.inl rfl))
        · exact .single (.commit (w.nextRef + 1) rfl (fun _ => hl) (.append hf)
            (.inr rfl))
  | early status =>
    cases found with
    | true => exact .refl
    | false => exact .single (.early (hi status rfl rfl) status)

theorem acts_patchThen (w : World) (fn : Patch) {after : AfterPatch}
    (hf : ∀ f, after = .tombstone (some f) → s.lists k.chatJid ∧ s.fresh none (tombstone k f))
    (hi : ∀ status, after = .early status → s.early k.id) : Acts s w (patchThen w k fn after) := by
  have hstart : ∀ queued : Option Obj, (∀ m ∈ queued, w.q.pending.get k = some (.add m)) →
      Acts s w (w.enqueue (.patch w.epoch k queued fn after)) :=
    fun queued hq => .single (.patch k fn hq (fun f h => (hf f h).2) hi)
  have hafter : ∀ w found, Acts s w (afterPatch w k found after) :=
    fun w found => acts_afterPatch w found (fun f _ => hf f) fun status _ => hi status
  unfold patchThen patchPersistedMessage
  cases hp : w.q.pending.get k with
  | none => exact hstart none fun m hm => (nomatch hm)
  | some op =>
    cases op with
    | put m =>
      dsimp only
      cases hn : fn.apply m.msg with
      | none => exact hafter w true
      | some => exact .head (.put fn hp hn) (hafter _ true)
    | add m => exact hstart (some m) fun x hx => by cases hx; exact hp
    | del => exact hafter w false

theorem acts_applyRevoke (w : World) {fallback : Option Fallback}
    (h : findId (messagesFor w jid) id = none →
      ∀ f ∈ fallback, s.lists jid ∧ s.fresh none (tombstone ⟨jid, id⟩ f)) :
    Acts s w (applyRevoke w jid id fallback) := by
  unfold applyRevoke
  cases hx : findId (messagesFor w jid) id with
  | none =>
    refine acts_patchThen w _ (fun f hf => ?_) fun _ hs => (nomatch hs)
    cases hf
    exact h hx f rfl
  | some =>
    rw [byChat_of_find hx]
    exact acts_replaced hx (.patch .revoke rfl) _ (.inr rfl)

theorem acts_updateMessage (w : World) (jid : Jid) (id : MsgId) (fn : Patch) :
    Acts s w (updateMessage w jid id fn) := by
  unfold updateMessage
  split
  · rename_i x arr hx hb
    have harr := messagesFor_of_some hb
    subst harr
    split
    · exact .refl
    · rename_i m hm
      exact acts_placed hx (.patch _ hm) (Patch.apply_key hm).2 _ (.inr rfl)
  · exact acts_patchThen w fn (fun _ hf => (nomatch hf)) fun _ hs => (nomatch hs)

/-- The lookups of a receipt. -/
theorem acts_lookups (w : World) (jid : Jid) {ids : List MsgId} (status : MessageStatus)
    (h : ∀ id ∈ ids, s.early id) :
    Acts s w (ids.foldl (fun w id => patchThen w ⟨jid, id⟩ (.receipt status) (.early status)) w) :=
  List.foldlRecOn _ _ .refl fun v hv id hid =>
    hv.trans (acts_patchThen v _ (fun _ hf => (nomatch hf)) fun _ _ => h id hid)

/-- A receipt raises what is resident and looks the other ids up. -/
theorem acts_applyReceipt (w : World) (jid : Jid) {ids : List MsgId} (status : MessageStatus)
    (h : ∀ id ∈ ids, s.early id) : Acts s w (applyReceipt w jid ids status) := by
  have hsw := (sweeps_upgrade status ids (messagesFor w jid) w.nextRef).mono
    (Q := Remade s) fun _ _ hr => .patch _ hr.2
  have htimes := (sweeps_upgrade status ids (messagesFor w jid) w.nextRef).map_eq
    fun _ _ hr => (Patch.apply_key hr.2).2
  have hmiss := (missing_of_sweep status (messagesFor w jid) (idSet ids) w.nextRef (nodup_idSet ids)).2
  refine Relation.ReflTransGen.trans ?_ (acts_lookups _ jid status fun id hid =>
    h id (mem_idSet.1 ((hmiss id).1 hid).1))
  generalize sweep (upgrade status) (idSet ids) w.nextRef (messagesFor w jid) = r at hsw htimes ⊢
  obtain ⟨arr, written, missing, ref⟩ := r
  cases written with
  | nil => exact .single (.flags _ _ ref)
  | cons =>
    refine .single (.setList ref rfl (fun hn => ?_) (.sweep .rfl hsw) (.inr rfl) (.inl htimes))
    -- without a list there is nothing to upgrade
    rw [messagesFor, hn] at hsw
    cases hsw

/-! ## Reading and paging -/

theorem acts_syncUnreadFlagForChat (w : World) (jid : Jid) : Acts s w (syncUnreadFlagForChat w jid) := by
  unfold syncUnreadFlagForChat
  split
  · exact .refl
  · rename_i arr hb
    dsimp only
    split
    · exact .refl
    · refine acts_swept (fun hn => ?_) (by rw [messagesFor_of_some hb])
        (sweep_sweeps setUnread_unread arr _ w.nextRef) _
      rw [hb] at hn
      cases hn

theorem acts_markMessageRead (w : World) (jid : Jid) (id : MsgId) : ∃ v, Acts s w v ∧
    (markMessageRead w jid id = v ∨ ∃ n, markMessageRead w jid id = decrementUnread v jid n) := by
  unfold markMessageRead
  split
  · exact ⟨w, .refl, .inl rfl⟩
  · rename_i arr hb
    have harr := messagesFor_of_some hb
    subst harr
    split
    · exact ⟨w, .refl, .inl rfl⟩
    · rename_i x hx
      split
      · exact ⟨_, acts_replaced hx (.unread false)
          (w.nextRef + 1) (.inr rfl), .inr ⟨1, rfl⟩⟩
      · exact ⟨w, .refl, .inl rfl⟩

theorem acts_markMessagesRead (w : World) (jid : Jid) (ids : List MsgId) : ∃ v, Acts s w v ∧
    (markMessagesRead w jid ids = v ∨ ∃ n, markMessagesRead w jid ids = decrementUnread v jid n) := by
  unfold markMessagesRead
  split
  · exact ⟨w, .refl, .inl rfl⟩
  · rename_i arr hb
    dsimp only
    split
    · refine ⟨_, acts_swept (fun hn => ?_) (by rw [messagesFor_of_some hb])
        (sweep_sweeps (markRead_unread ids) arr 0 w.nextRef) _, .inr ⟨_, rfl⟩⟩
      rw [hb] at hn
      cases hn
    · exact ⟨w, .refl, .inl rfl⟩

theorem acts_loadOlder (w : World) (jid : Jid) (count : ℕ) : Acts s w (loadOlder w jid count) := by
  unfold loadOlder
  split
  · exact .refl
  · exact .head (.flags _ w.opening w.nextRef) (.single (.page _ _ _))

theorem acts_openChat (w : World) (jid : Jid) : Acts s w (openChat w jid) := by
  unfold openChat
  dsimp only
  split
  · exact .head (.flags w.loadingOlder _ w.nextRef) (acts_loadOlder _ jid _)
  · exact acts_syncUnreadFlagForChat w jid

theorem acts_openChatDone (w : World) (jid : Jid) : Acts s w (openChatDone w jid) := by
  unfold openChatDone
  split
  · exact .head (.flags w.loadingOlder _ w.nextRef) (acts_syncUnreadFlagForChat _ jid)
  · exact .refl

/-! ## Steps -/

/-- What a synchronous step is handed is within the scope. -/
def Step.Within (s : Scope) (w : World) : Step → Prop
  | .addMessage m => s.Takes w m
  | .addOptimistic jid r now text quoted => s.Takes w (textBubble jid r now text quoted)
  | .addOptimisticMedia jid r now kind text thumbnail => s.Takes w (mediaBubble jid r now kind text thumbnail)
  | .confirmOptimistic jid r realId => s.drops (tempId r) ∧
    ∀ x ∈ findId (messagesFor w jid) (tempId r), s.fresh (some x.msg) (confirmed w x realId).msg
  | .failOptimistic jid r =>
    ∀ x ∈ findId (messagesFor w jid) (tempId r), s.fresh (some x.msg) { x.msg with status := some .failed }
  | .applyRevoke jid id fallback => findId (messagesFor w jid) id = none →
    ∀ f ∈ fallback, s.lists jid ∧ s.fresh none (tombstone ⟨jid, id⟩ f)
  | .applyReceipt _ ids _ => ∀ id ∈ ids, s.early id
  | .restoreMessage original => s.Restores w original
  | _ => True

/-- The transactions that hold no message. -/
def Job.plain : Job → Bool
  | .tails .. => true
  | .chats _ => true
  | .account _ => true
  | _ => false

/-- How a synchronous step goes. -/
inductive Called (s : Scope) (w : World) : Step → World → Prop
  | store {e : Step} {v : World} (h : Acts s w v) : Called s w e v
  | read {e : Step} {v : World} (h : Acts s w v) (jid : Jid) (n : ℕ) : Called s w e (decrementUnread v jid n)
  | confirm {jid : Jid} {r : String} {realId : MsgId} {v : World} (t : Table Prod.fst)
      (h : Acts s { w with earlyReceipts := t } v) : Called s w (.confirmOptimistic jid r realId) v
  | cut {e : Step} {jid : Jid} {arr : List Obj} (hb : w.byChat jid = some arr) (n : ℕ) (hn : n < arr.length)
      (he : e = .closeChat jid ∧ w.activeJid ≠ some jid ∧ n = RESIDENT_TAIL ∨ e = .trimChat jid n) :
      Called s w e ({ w with exhausted := Function.update w.exhausted jid false }.setList jid (lastN n arr))
  | history (list : List UiMessage) : Called s w (.addHistoryMessages list)
      (addHistoryMessages { w with nextRef := w.nextRef + list.length } (objs w.nextRef list) true)
  | remove (jid : Jid) (id : MsgId) : Called s w (.removeMessage jid id) (removeMessage w jid id)
  | chat (op : ChatOp) : Called s w (.chat op) (op.run w)
  | flags {e : Step} (active : Option Jid) (enabled timer chatsTimer : Bool) :
      Called s w e { w with activeJid := active, chatsTimer := chatsTimer,
                            q := { w.q with enabled := enabled, msgTimer := timer } }
  | start {e : Step} {job : Job} (h : job.plain = true) (chatsTimer : Bool) :
      Called s w e ({ w with chatsTimer := chatsTimer }.enqueue job)
  | flush {e : Step} (h : e = .flushPendingWrites ∨ e = .msgTimer ∧ w.q.msgTimer = true) :
      Called s w e (flushPendingWrites w)
  | unify {e : Step} (h : e.unifies = true) : Called s w e (w.step e)

theorem calls_read {e : Step} {f : World} (h : ∃ v, Acts s w v ∧ (f = v ∨ ∃ n, f = decrementUnread v jid n)) :
    Called s w e f := by
  obtain ⟨v, hv, rfl | ⟨n, rfl⟩⟩ := h
  · exact .store hv
  · exact .read hv jid n

/-- **A synchronous step** is a call of the message store, of the chat list or of the write queue, or
a step of unification. -/
theorem calls_step {e : Step} (he : e.sync = true) (h : e.Within s w) : Called s w e (w.step e) := by
  cases e with
  | addMessage => exact .store (acts_addMessage h)
  | addHistoryMessages list => exact .history list
  | addOptimistic | addOptimisticMedia => exact .store (acts_addMessage h)
  | confirmOptimistic jid r =>
    obtain ⟨t, ht⟩ := acts_confirmOptimistic (isTmp_tempId r) h.1 h.2
    exact .confirm t ht
  | failOptimistic => exact .store (acts_failOptimistic h)
  | applyRevoke => exact .store (acts_applyRevoke w h)
  | applyEdit jid id text editedAt => exact .store (acts_updateMessage w jid id (.edit text editedAt))
  | applyReaction jid id reactor emoji => exact .store (acts_updateMessage w jid id (.reaction reactor emoji))
  | applyReceipt jid ids status => exact .store (acts_applyReceipt w jid status h)
  | removeMessage jid id => exact .remove jid id
  | restoreMessage => exact .store (acts_restoreMessage h)
  | markMessageRead jid id => exact calls_read (acts_markMessageRead w jid id)
  | markMessagesRead jid ids => exact calls_read (acts_markMessagesRead w jid ids)
  | syncUnreadFlagForChat jid => exact .store (acts_syncUnreadFlagForChat w jid)
  | loadOlder jid count => exact .store (acts_loadOlder w jid count)
  | openChat jid => exact .store (acts_openChat w jid)
  | closeChat =>
    simp only [World.step, closeChat]
    repeat' split
    all_goals first | exact .store .refl | exact .cut ‹_› RESIDENT_TAIL ‹_› (.inl ⟨rfl, ‹_›, rfl⟩)
  | trimChat jid keep =>
    simp only [World.step, trimChat]
    repeat' split
    all_goals first | exact .store .refl | exact .cut ‹_› keep (Nat.lt_of_not_le ‹_›) (.inr rfl)
  | selectChat jid => exact .flags (some jid) w.q.enabled w.q.msgTimer w.chatsTimer
  | loadTails =>
    simp only [World.step]
    split
    · exact .store .refl
    · exact .start rfl w.chatsTimer
  | chat op => exact .chat op
  | learnLidMapping | unifyLid | unifyLidDone => exact .unify rfl
  | enablePersistence => exact .flags w.activeJid true _ _
  | flushPendingWrites => exact .flush (.inl rfl)
  | msgTimer =>
    simp only [World.step]
    split
    · exact .flush (.inr ⟨rfl, ‹_›⟩)
    · exact .store .refl
  | chatsTimer =>
    simp only [World.step]
    split
    · exact .start rfl false
    · exact .store .refl
  | setAccount => exact .start rfl w.chatsTimer
  | _ => cases he

/-- The scope that bounds the receipts only. -/
def Scope.receipts (early : MsgId → Prop) : Scope :=
  ⟨fun _ => True, fun _ _ => True, fun _ _ => True, early, fun _ => True⟩

/-- The scope without bounds. -/
def Scope.any : Scope := .receipts fun _ => True

theorem Scope.Takes.any {early : MsgId → Prop} (w : World) (m : UiMessage) : (Scope.receipts early).Takes w m :=
  ⟨trivial, trivial, fun _ _ _ _ => trivial, fun _ _ _ _ => trivial⟩

/-- A scope that bounds the receipts and the lists that are published as they are. -/
theorem Step.within_of {e : Step} (hl : ∀ j, s.lists j) (hf : ∀ x m, s.fresh x m) (hd : ∀ id, s.drops id)
    (hp : ∀ o, e = .restoreMessage o →
      s.publish o.msg.chatJid (replaceId (messagesFor w o.msg.chatJid) o.msg.id o))
    (hi : ∀ jid ids status, e = .applyReceipt jid ids status → ∀ id ∈ ids, s.early id) : e.Within s w := by
  have htakes : ∀ m, s.Takes w m := fun m => ⟨hl _, hf _ _, fun _ _ _ _ => hf _ _, fun _ _ _ _ => hf _ _⟩
  cases e with
  | addMessage m => exact htakes m
  | addOptimistic | addOptimisticMedia => exact htakes _
  | confirmOptimistic => exact ⟨hd _, fun _ _ => hf _ _⟩
  | failOptimistic => exact fun _ _ => hf _ _
  | applyRevoke => exact fun _ _ _ => ⟨hl _, hf _ _⟩
  | applyReceipt jid ids status => exact hi jid ids status rfl
  | restoreMessage original => exact ⟨hl _, hf _ _, fun _ _ => hf _ _, hp original rfl⟩
  | _ => trivial

theorem Step.within_any (w : World) (e : Step) : e.Within .any w :=
  within_of (fun _ => trivial) (fun _ _ => trivial) (fun _ => trivial) (fun _ _ => trivial) fun _ _ _ _ _ _ => trivial

end Whatsvelte
