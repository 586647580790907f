import Whatsvelte.Proof.Acts

/-!
# A key that is left alone

After a merge the stores should hold nothing under the LID. Whatever code runs then, it leaves the
list and the chat row of the LID absent and starts no transaction that could put a row under it, as
long as it is not handed the LID itself. `Shuns` says so; `shuns_step` is about the synchronous steps.
-/

namespace Whatsvelte

open Function (update update_of_ne update_self)
open List Table

variable {w v u : World} {l jid : Jid} {k : Key} {e : Step}

/-! ## Writes under a key -/

/-- The operation writes a row of the chat. -/
def PendingOp.fills (l : Jid) : PendingOp → Bool
  | .put m => m.msg.chatJid = l
  | .add m => m.msg.chatJid = l
  | .del _ _ => false

/-- The transaction may put a row under `l` where none is. -/
def Job.fills (l : Jid) : Job → Bool
  | .flush _ ops => ops.rows.any (·.fills l)
  | .patch _ _ queued _ _ => queued.any (·.msg.chatJid = l)
  | .move _ _ toJid => toJid = l
  | _ => false

/-- No row of the chat waits to be written. -/
def World.FreeOf (w : World) (l : Jid) : Prop := ∀ op ∈ w.q.pending.rows, op.fills l = false

/-- Code that is not about `l`: list and chat row stay absent, and what it starts writes nothing
under `l`. The database itself is left alone. -/
structure Shuns (l : Jid) (w v : World) : Prop where
  lists : w.byChat l = none → v.byChat l = none
  chat : w.chats.get l = none → v.chats.get l = none
  txq : ∃ ts, v.txq = w.txq ++ ts ∧ ∀ t ∈ ts, t.job.fills l = false ∧ t.chats = []
  msgs : v.msgs = w.msgs
  chatRows : v.chatRows = w.chatRows

namespace Shuns

theorem of_chats (hb : w.byChat l = none → v.byChat l = none)
    (hc : w.chats.get l = none → v.chats.get l = none) (ht : v.txq = w.txq) (hm : v.msgs = w.msgs)
    (hr : v.chatRows = w.chatRows) : Shuns l w v :=
  ⟨hb, hc, ⟨[], by rw [ht, append_nil], forall_mem_nil _⟩, hm, hr⟩

theorem of_same (hb : v.byChat = w.byChat := by rfl) (hc : v.chats = w.chats := by rfl)
    (ht : v.txq = w.txq := by rfl) (hm : v.msgs = w.msgs := by rfl) (hr : v.chatRows = w.chatRows := by rfl) :
    Shuns l w v :=
  .of_chats (by rw [hb]; exact id) (by rw [hc]; exact id) ht hm hr

theorem refl (w : World) : Shuns l w w := .of_same

theorem trans (h : Shuns l w v) (h' : Shuns l v u) : Shuns l w u := by
  obtain ⟨ts, h1, h2⟩ := h.txq
  obtain ⟨ts', h1', h2'⟩ := h'.txq
  refine ⟨fun hb => h'.lists (h.lists hb), fun hc => h'.chat (h.chat hc),
    ⟨ts ++ ts', by rw [h1', h1, append_assoc], fun t ht => ?_⟩, h'.msgs.trans h.msgs,
    h'.chatRows.trans h.chatRows⟩
  rcases mem_append.1 ht with ht | ht
  · exact h2 t ht
  · exact h2' t ht

theorem after (h' : Shuns l v u) (h : Shuns l w v) : Shuns l w u := h.trans h'

/-- One list is published; if it is that of `l`, then there was one. -/
theorem of_list (jid : Jid) {x : Option (List Obj)} (hj : jid = l → w.byChat jid ≠ none)
    (hb : v.byChat = update w.byChat jid x) (hc : v.chats = w.chats) (ht : v.txq = w.txq)
    (hm : v.msgs = w.msgs) (hr : v.chatRows = w.chatRows) : Shuns l w v := by
  refine .of_chats (fun hn => ?_) (by rw [hc]; exact id) ht hm hr
  by_cases hjl : jid = l
  · exact absurd (hjl ▸ hn) (hj hjl)
  · rw [hb, update_of_ne (Ne.symm hjl), hn]

/-- The list of a chat that has one is published again. -/
theorem of_known {arr : List Obj} {x : Option (List Obj)} (hs : w.byChat jid = some arr)
    (hb : v.byChat = update w.byChat jid x) (hc : v.chats = w.chats) (ht : v.txq = w.txq)
    (hm : v.msgs = w.msgs) (hr : v.chatRows = w.chatRows) : Shuns l w v :=
  .of_list jid (fun _ hn => by rw [hs] at hn; cases hn) hb hc ht hm hr

/-- A chat row is written; if it is that of `l`, then there was one. -/
theorem setChat (w : World) {c : Chat} (hc : c.jid = l → w.chats.get l ≠ none) : Shuns l w (w.setChat c) := by
  refine .of_chats (fun h => h) (fun hn => ?_) rfl rfl rfl
  rw [World.setChat, get_set]
  split
  · rename_i hcl
    exact absurd hn (hc hcl)
  · exact hn

theorem enqueue (w : World) {job : Job} (h : job.fills l = false) : Shuns l w (w.enqueue job) :=
  ⟨fun hb => hb, fun hc => hc, ⟨[_], rfl, forall_mem_singleton.2 ⟨h, rfl⟩⟩, rfl, rfl⟩

end Shuns

/-- The queued inserts are not under `l`. -/
def World.NoInsert (w : World) (l : Jid) : Prop := ∀ m, PendingOp.add m ∈ w.q.pending.rows → m.msg.chatJid ≠ l

theorem World.FreeOf.noInsert (h : w.FreeOf l) : w.NoInsert l := fun _ hm => of_decide_eq_false (h _ hm)

/-- A queued operation that is no insert. -/
theorem World.NoInsert.set (h : w.NoInsert l) {op : PendingOp} (ho : ∀ m, op = .add m → m.msg.chatJid ≠ l)
    (hq : v.q.pending = w.q.pending.set op) : v.NoInsert l := by
  intro m hm
  rw [hq] at hm
  rcases mem_upsert hm with rfl | hm
  · exact ho m rfl
  · exact h m hm

theorem World.NoInsert.persistAll (h : w.NoInsert l) (written : List Obj)
    (hq : v.q = Whatsvelte.persistAll w.q written) : v.NoInsert l := by
  induction written generalizing w with
  | nil => exact fun m hm => h m (by rwa [hq] at hm)
  | cons o written ih =>
    refine ih (w := { w with q := persistMessage w.q o }) ?_ hq
    by_cases hp : persistable o.msg = true
    · refine h.set ?_ (by simp [persistMessage, hp, scheduleFlushMessages]; rfl)
      exact fun _ ho => (nomatch ho)
    · exact fun m hm => h m (by simpa [persistMessage, hp] using hm)

/-- Code of the message store that is not handed `l`. -/
def Scope.but (l : Jid) : Scope :=
  ⟨(· ≠ l), fun x m => x = none → m.chatJid ≠ l, fun _ _ => True, fun _ => True, fun _ => True⟩

namespace Shuns

theorem of_act (h : Act (.but l) w v) (hw : w.NoInsert l) : Shuns l w v ∧ v.NoInsert l := by
  have hq : ∀ {q : Queue} {written : List Obj}, q = w.q ∨ q = persistAll w.q written →
      ∀ {v : World}, v.q = q → v.NoInsert l := by
    rintro q written (rfl | rfl) v hv
    · exact fun m hm => hw m (hv ▸ hm)
    · exact hw.persistAll written hv
  cases h with
  | commit ref ha hj he h | setList ref ha hj he h =>
    exact ⟨.of_list _ (fun hl hn => hj hn hl) rfl rfl rfl rfl rfl, hq h rfl⟩
  | insert ha hj ho =>
    rename_i o arr
    refine ⟨.of_list _ (fun hl => absurd hl hj) rfl rfl rfl rfl rfl, fun m hm => ?_⟩
    simp only [Whatsvelte.commit, persistMessageInsert] at hm
    split at hm
    · split at hm
      · exact hw m hm
      · exact hw.set (v := { w with q := { w.q with pending := w.q.pending.set (.add o) } })
          (fun m hm => by cases hm; exact hj) rfl m hm
    · exact hw m hm
  | adopt | page => exact ⟨.enqueue w rfl, hw⟩
  | patch k fn hadd hf hi =>
    rename_i queued after
    refine ⟨.enqueue w ?_, hw⟩
    cases queued with
    | none => rfl
    | some m => exact decide_eq_false (hw m (Table.get_mem (hadd m rfl)))
  | put =>
    refine ⟨.of_same, hw.set ?_ rfl⟩
    exact fun _ ho => by cases ho
  | early =>
    unfold rememberEarlyReceipt
    repeat' split
    all_goals exact ⟨.of_same, hw⟩
  | flags => exact ⟨.of_same, hw⟩

theorem of_acts (h : Acts (.but l) w v) (hf : w.FreeOf l) : Shuns l w v := by
  have hacts : Shuns l w v ∧ v.NoInsert l := by
    induction h with
    | refl => exact ⟨.refl w, hf.noInsert⟩
    | tail _ ha ih =>
      obtain ⟨h1, h2⟩ := of_act ha ih.2
      exact ⟨ih.1.trans h1, h2⟩
  exact hacts.1

/-! ## Chats and unification -/

/-- A row that is in the chat list is written again. -/
theorem rewriteChat (w : World) {c c' : Chat} (hg : w.chats.get jid = some c) (hc : c'.jid = c.jid) :
    Shuns l w (schedulePersistChats (w.setChat c')) := by
  refine Shuns.trans (.setChat w fun hl hn => ?_) (.of_same)
  have hjid : c.jid = jid := get_key hg
  rw [← hl, hc, hjid, hg] at hn
  cases hn

theorem decrementUnread (w : World) (jid : Jid) (amount : ℕ) : Shuns l w (decrementUnread w jid amount) := by
  unfold Whatsvelte.decrementUnread
  split
  · exact .refl w
  · rename_i c hg
    split
    · exact .refl w
    · exact .rewriteChat w hg rfl

end Shuns

/-- The chat row that a call makes if there is none. -/
def ChatOp.makes : ChatOp → Option Jid
  | .upsertChatFromDto d => some d.jid
  | .touchChat jid .. => some jid
  | .hydrateChat c => some c.jid
  | .ensureChat jid .. => some jid
  | _ => none

namespace Shuns

theorem newChat (w : World) {c : Chat} (hc : c.jid ≠ l) : Shuns l w (schedulePersistChats (w.setChat c)) :=
  (Shuns.setChat w fun h => absurd h hc).trans (.of_same)

theorem chatOp (w : World) {op : ChatOp} (h : op.makes ≠ some l) : Shuns l w (op.run w) := by
  have hne : ∀ {c : Jid}, op.makes = some c → c ≠ l := fun hc hcl => h (hcl ▸ hc)
  cases op with
  | upsertChatFromDto | touchChat => exact .newChat w (hne rfl)
  | hydrateChat =>
    simp only [ChatOp.run, hydrateChat]
    split
    · exact .setChat w fun hc => absurd hc (hne rfl)
    · rename_i prev hg
      split
      · refine .setChat w fun hc => absurd ((get_key hg).symm.trans hc) (hne rfl)
      · exact .setChat w fun hc => absurd hc (hne rfl)
  | ensureChat =>
    simp only [ChatOp.run, ensureChat]
    split
    · exact .refl w
    · exact .newChat w (hne rfl)
  | markChatAsRead =>
    simp only [ChatOp.run, markChatAsRead]
    split
    · exact .refl w
    · rename_i hg
      split
      · exact .refl w
      · exact .rewriteChat w hg rfl
  | applyChatFlags =>
    simp only [ChatOp.run, applyChatFlags]
    split
    · exact .refl w
    · rename_i hg
      exact .rewriteChat w hg rfl
  | setChatFlag jid flag =>
    simp only [ChatOp.run, setChatFlag]
    split
    · exact .refl w
    · rename_i hg
      exact .rewriteChat w hg (by cases flag <;> rfl)
  | setChatName =>
    simp only [ChatOp.run, setChatName]
    split
    · exact .refl w
    · rename_i hg
      split
      · exact .refl w
      · exact .rewriteChat w hg rfl

/-- A merge into another key. -/
theorem applyMerge (w : World) (a : Jid) {b : Jid} (hb : b ≠ l) : Shuns l w (applyMerge w a b) := by
  have h1 : Shuns l w (mergeMessages w a b) := by
    have hsrc : w.byChat l = none → update w.byChat a none l = none := by
      intro hn
      by_cases hal : l = a
      · rw [hal, update_self]
      · rw [update_of_ne hal, hn]
    unfold mergeMessages
    dsimp only
    split
    · exact .of_chats hsrc (fun hc => hc) rfl rfl rfl
    · refine Shuns.after (.of_list b (fun h => absurd h hb) rfl rfl rfl rfl rfl)
        ?_
      exact .of_chats hsrc (fun hc => hc) rfl rfl rfl
  have h2 : ∀ w : World, Shuns l w (mergeChats w a b) := by
    intro w
    unfold mergeChats
    split
    · exact .refl w
    · rename_i src hg
      refine .of_chats (fun h => h) (fun hn => ?_) rfl rfl rfl
      have hjid : (mergedChat b src (w.chats.get b)).jid = b := by
        unfold mergedChat
        split <;> rfl
      change ((w.chats.set (mergedChat b src (w.chats.get b))).erase a).get l = none
      rw [get_erase, get_set, hjid, if_neg hb, hn, ite_self]
  have h3 : ∀ w : World, Shuns l w (movePersistedChat w a b) := by
    intro w
    unfold movePersistedChat
    split
    · exact .refl w
    · refine Shuns.trans ?_ (.enqueue _ (decide_eq_false hb))
      exact .of_same
  unfold Whatsvelte.applyMerge
  split
  · exact .refl w
  · exact (h1.trans ((h2 _).trans (h3 _))).trans (.of_same)

end Shuns

theorem FreeOf.set {q : Table PendingOp.key} {op : PendingOp} (h : ∀ op ∈ q.rows, op.fills l = false)
    (ho : op.fills l = false) : ∀ op' ∈ (q.set op).rows, op'.fills l = false := by
  intro op' hop'
  rcases mem_upsert hop' with rfl | hop'
  · exact ho
  · exact h op' hop'

theorem FreeOf.erase {q : Table PendingOp.key} (h : ∀ op ∈ q.rows, op.fills l = false) (k : Key) :
    ∀ op ∈ (q.erase k).rows, op.fills l = false :=
  fun op hop => h op (mem_filter.1 hop).1

/-- A merge into another key moves no queued operation to `l`. -/
theorem freeOf_applyMerge (h : w.FreeOf l) (a : Jid) {b : Jid} (hb : b ≠ l) :
    (applyMerge w a b).FreeOf l := by
  have h1 : (mergeMessages w a b).q.pending = w.q.pending := by
    unfold mergeMessages
    dsimp only
    split <;> rfl
  have h2 : ∀ w : World, w.FreeOf l → (movePersistedChat w a b).FreeOf l := by
    intro w hw
    unfold movePersistedChat
    split
    · exact hw
    · refine List.foldlRecOn (motive := fun t : Table PendingOp.key × ℕ =>
        ∀ op ∈ t.1.rows, op.fills l = false) _ _ hw fun t ht op _ => ?_
      have herase := FreeOf.erase ht op.key
      unfold movePendingOp
      split
      · exact ht
      · cases op with
        | put | add => exact FreeOf.set herase (decide_eq_false hb)
        | del => exact herase
  unfold applyMerge
  split
  · exact h
  · refine h2 _ ?_
    rwa [World.FreeOf, (Same.mergeChats _ a b).pending, h1]

/-! ## Steps -/

/-- The step is handed the key `l` and would make a list, a chat row or a record under it. -/
def Step.brings (l : Jid) (w : World) : Step → Bool
  | .addMessage m => m.chatJid = l
  | .addHistoryMessages list => list.any (·.chatJid = l)
  | .addOptimistic jid .. => jid = l
  | .addOptimisticMedia jid .. => jid = l
  | .restoreMessage original => original.msg.chatJid = l
  | .applyRevoke jid _ fallback => fallback.isSome && jid = l
  | .chat op => op.makes = some l
  | e => (e.merge w).any (·.2 = l)

theorem Shuns.of_twin (h : Twin w v) : Shuns l w v :=
  .of_same h.byChat h.chats h.txq h.msgs h.chatRows

/-- A merge into another key, or none. -/
theorem shuns_merged (w : World) {m : Option (Jid × Jid)} (hm : ∀ c ∈ m, c.2 ≠ l) :
    Shuns l w (w.merged m) ∧ (w.FreeOf l → (w.merged m).FreeOf l) := by
  cases m with
  | none => exact ⟨.refl w, fun hf => hf⟩
  | some c => exact ⟨.applyMerge w c.1 (hm c rfl), fun hf => freeOf_applyMerge hf c.1 (hm c rfl)⟩

theorem shuns_received {r : Option ReceiptDto} (hr : ReceiptApplied r w v) (hf : w.FreeOf l) : Shuns l w v := by
  rcases hr with rfl | ⟨d, -, rfl⟩
  · exact .refl _
  · exact .of_acts (acts_applyReceipt w _ _ fun _ _ => trivial) hf

theorem shuns_unify (he : e.unifies = true) (hf : w.FreeOf l) (hb : ∀ c ∈ e.merge w, c.2 ≠ l) :
    Shuns l w (w.step e) := by
  obtain ⟨w₁, w₃, h1, h3, hr⟩ := unify_step he
  obtain ⟨hm, hfree⟩ := shuns_merged w₁ hb
  -- the receipt that waited comes after the merge
  have hw₃ : Shuns l w w₃ := ((Shuns.of_twin h1).trans hm).trans (.of_twin h3)
  refine hw₃.trans (shuns_received hr ?_)
  rw [World.FreeOf, h3.pending]
  refine hfree ?_
  rwa [World.FreeOf, h1.pending]

theorem merge_of_brings (hu : e.unifies = true) (hb : e.brings l w = false) : ∀ c ∈ e.merge w, c.2 ≠ l := by
  intro c hc hcl
  have hany : e.brings l w = (e.merge w).any (·.2 = l) := by
    cases e with
    | learnLidMapping | unifyLid | unifyLidDone => rfl
    | _ => cases hu
  rw [hany, show e.merge w = some c from hc] at hb
  exact of_decide_eq_false hb hcl

theorem within_but (hb : e.brings l w = false) : e.Within (.but l) w := by
  have htakes : ∀ m : UiMessage, m.chatJid ≠ l → (Scope.but l).Takes w m := fun m hm =>
    ⟨hm, fun _ => by rwa [startUnread_chatJid], fun _ _ _ _ h => (nomatch h), fun _ _ _ _ h => (nomatch h)⟩
  cases e with
  | addMessage m => exact htakes m (of_decide_eq_false hb)
  | addOptimistic | addOptimisticMedia => exact htakes _ (of_decide_eq_false hb)
  | confirmOptimistic => exact ⟨trivial, fun _ _ h => (nomatch h)⟩
  | failOptimistic => exact fun _ _ h => (nomatch h)
  | applyRevoke jid =>
    intro _ f hf
    cases hf
    have hj : jid ≠ l := of_decide_eq_false (by simpa [Step.brings] using hb)
    exact ⟨hj, fun _ => hj⟩
  | applyReceipt => exact fun _ _ => trivial
  | restoreMessage original =>
    have ho : original.msg.chatJid ≠ l := of_decide_eq_false hb
    exact ⟨ho, fun _ => ho, fun _ _ h => (nomatch h), trivial⟩
  | _ => trivial

/-- **A synchronous step** that is not handed the key. -/
theorem shuns_step (he : e.sync = true) (hf : w.FreeOf l) (hb : e.brings l w = false) :
    Shuns l w (w.step e) := by
  have hcall := calls_step he (within_but hb)
  generalize hv : w.step e = v at hcall
  cases hcall with
  | store h => exact .of_acts h hf
  | read h jid n => exact (Shuns.of_acts h hf).trans (.decrementUnread _ jid n)
  | confirm t h => exact (Shuns.of_acts h hf).after (.of_same)
  | cut hb => exact .of_known hb rfl rfl rfl rfl rfl
  | history list =>
    refine Shuns.after (.of_acts (acts_addHistoryMessages _ _ fun o ho => ?_) hf) (.of_same)
    have hmem : o.msg ∈ list := mem_objs ho
    have ho : o.msg.chatJid ≠ l := of_decide_eq_false (any_eq_false.1 hb o.msg hmem |> Bool.eq_false_iff.2)
    exact ⟨ho, fun _ => ho, fun _ => trivial⟩
  | remove jid =>
    refine .of_chats (fun hn => ?_) (fun hc => hc) rfl rfl rfl
    by_cases hj : jid = l
    · subst hj
      simp only [removeMessage, update_self, hn, Option.map_none]
    · exact (update_of_ne (Ne.symm hj) _ _).trans hn
  | chat => exact .chatOp w (of_decide_eq_false hb)
  | start h =>
    refine Shuns.trans (.of_same) (.enqueue _ ?_)
    cases ‹Job› <;> first | rfl | cases h
  | flush =>
    refine Shuns.trans ?_ (.enqueue _ (any_eq_false.2 fun op hop => by rw [hf op hop]; simp))
    exact .of_same
  | unify h => exact shuns_unify h hf (merge_of_brings h hb)
  | flags => exact .of_same

end Whatsvelte
