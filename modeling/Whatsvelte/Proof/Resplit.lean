import Whatsvelte.Proof.Copies
import Whatsvelte.Proof.Deleted
import Whatsvelte.Proof.Handlers
import Whatsvelte.Proof.VacantKey

/-!
# A unified conversation stays whole

After the merge of a LID chat into its phone-number form nothing should come up under the LID
again. Events are canonicalized, so they never do it. What captured the LID before the merge can:
a page that was being read, a tombstone that a revoke still has to insert, the later slices of a
flush, a message that a failed action puts back (`resplit_by_page`).

`unified_stays_whole`: without these, whatever events come, the LID has no list and no chat row, and
once the queue has run no record and no stored chat row.

The database side is one flag, `World.leaves`: whether something can be stored under the key when
the outstanding transactions have run. The move of the merge resets it.
-/

namespace Whatsvelte

open List Table

variable {w v : World} {l : Jid} {e : Step} {t : Txn} {ts : List Txn} {there there' : Bool}

/-! ## What the queue leaves under a key -/

/-- Whether something may be stored under `l` after the transaction, given whether there is before. -/
def Txn.leaves (l : Jid) (there : Bool) (t : Txn) : Bool :=
  match t.job with
  | .move _ fromJid toJid => if fromJid = l then false else there || toJid = l
  | .chats _ => there || t.chats.any (·.jid = l)
  | .clear => false
  | job => there || job.fills l

/-- Whether something is stored under `l`. -/
def World.stores (w : World) (l : Jid) : Bool := w.msgs.rows.any (·.chatJid = l) || w.chatRows.has l

/-- Whether something may be stored under `l` when the queue has run. -/
def World.leaves (w : World) (l : Jid) : Bool := w.txq.foldl (Txn.leaves l) (w.stores l)

theorem leaves_mono (h : there' = true → there = true) (hl : t.leaves l there' = true) :
    t.leaves l there = true := by
  obtain ⟨tid, opened, job, chats⟩ := t
  cases job with
  | move =>
    simp only [Txn.leaves] at hl ⊢
    split at hl
    · cases hl
    · rename_i ha
      rw [if_neg ha]
      simp only [Bool.or_eq_true] at hl ⊢
      exact hl.imp_left h
  | clear => cases hl
  | _ =>
    simp only [Txn.leaves, Bool.or_eq_true] at hl ⊢
    exact hl.imp_left h

theorem leaves_foldl_mono (h : there' = true → there = true)
    (hl : ts.foldl (Txn.leaves l) there = false) : ts.foldl (Txn.leaves l) there' = false := by
  induction ts generalizing there there' with
  | nil =>
    cases there' with
    | false => rfl
    | true => exact absurd (h rfl) (by rw [show there = false from hl]; simp)
  | cons t ts ih => exact ih (leaves_mono h) hl

/-- A transaction that writes nothing under `l`. -/
theorem leaves_bare (hf : t.job.fills l = false) (hc : t.chats = []) : t.leaves l false = false := by
  obtain ⟨tid, opened, job, chats⟩ := t
  cases hc
  cases job with
  | move =>
    simp only [Txn.leaves, Bool.false_or]
    split
    · rfl
    · exact hf
  | chats | clear => rfl
  | _ => exact hf

theorem leaves_append (h : ts.foldl (Txn.leaves l) there = false) {ts' : List Txn}
    (hn : ∀ t ∈ ts', t.job.fills l = false ∧ t.chats = []) :
    (ts ++ ts').foldl (Txn.leaves l) there = false := by
  rw [foldl_append, h]
  induction ts' with
  | nil => rfl
  | cons t ts' ih =>
    obtain ⟨hf, hc⟩ := hn t mem_cons_self
    rw [foldl_cons, leaves_bare hf hc]
    exact ih fun t ht => hn t (mem_cons_of_mem _ ht)

theorem Shuns.leaves (h : Shuns l w v) (hw : w.leaves l = false) : v.leaves l = false := by
  obtain ⟨ts, ht, hts⟩ := h.txq
  rw [World.leaves, ht, World.stores, h.msgs, h.chatRows]
  exact leaves_append hw hts

theorem stores_eq_false : w.stores l = false ↔
    (∀ m ∈ w.msgs.rows, m.chatJid ≠ l) ∧ w.chatRows.get l = none := by
  simp only [World.stores, Bool.or_eq_false_iff, any_eq_false, decide_eq_true_eq, Table.has,
    Option.isSome_eq_false_iff, Option.isNone_iff_eq_none]

/-! ## The invariant -/

/-- Nothing is known under `l`, and when the queue has run nothing is stored under it. -/
structure Unsplit (l : Jid) (w : World) : Prop where
  list : w.byChat l = none
  chat : w.chats.get l = none
  free : w.FreeOf l
  store : w.leaves l = false

/-- The history has nothing under a key that the queue leaves empty. -/
theorem jobsEff_of_leaves (hp : ∀ t ∈ ts, t.job.proper = true) {H : History} {id : MsgId}
    (hH : there = false → H ⟨l, id⟩ = none) (h : ts.foldl (Txn.leaves l) there = false) :
    jobsEff (ts.map (·.job)) H ⟨l, id⟩ = none := by
  induction ts generalizing H there with
  | nil => exact hH h
  | cons t ts ih =>
    rw [map_cons, jobsEff_cons]
    refine ih (fun t ht => hp t (mem_cons_of_mem _ ht)) (fun ht => ?_) h
    have hproper := hp t mem_cons_self
    obtain ⟨tid, opened, job, chats⟩ := t
    cases job with
    | flush s ops =>
      simp only [Txn.leaves, Job.fills, Bool.or_eq_false_iff, any_eq_false] at ht
      change opsEff ops H ⟨l, id⟩ = none
      rw [opsEff]
      cases hg : ops.get ⟨l, id⟩ with
      | none => exact hH ht.1
      | some op =>
        have hkey : op.key.chatJid = l := congrArg Key.chatJid (get_key hg)
        have hop := ht.2 op (Table.get_mem hg)
        cases op with
        | put | add => exact absurd (decide_eq_true hkey) hop
        | del => rfl
    | patch s k queued =>
      simp only [Txn.leaves, Job.fills, Bool.or_eq_false_iff] at ht
      change Function.update H k _ ⟨l, id⟩ = none
      by_cases hk : (⟨l, id⟩ : Key) = k
      · subst hk
        rw [Function.update_self, hH ht.1]
        cases queued with
        | none => rfl
        | some m =>
          have hm : m.key = ⟨l, id⟩ := of_decide_eq_true hproper
          exact absurd (congrArg Key.chatJid hm) (of_decide_eq_false ht.2)
      · rw [Function.update_of_ne hk, hH ht.1]
    | move s a b =>
      have hne : a ≠ b := of_decide_eq_true hproper
      simp only [Txn.leaves] at ht
      change moveEff a b H ⟨l, id⟩ = none
      rw [moveEff]
      split at ht
      · rename_i ha
        subst ha
        rw [if_neg hne, if_pos rfl]
      · rename_i ha
        rw [Bool.or_eq_false_iff] at ht
        rw [if_neg (Ne.symm (of_decide_eq_false ht.2)), if_neg (Ne.symm ha)]
        exact hH ht.1
    | clear => rfl
    | _ =>
      simp only [Txn.leaves, Bool.or_eq_false_iff] at ht
      exact hH ht.1

theorem Unsplit.slot (h : Unsplit l w) (hs : Sound w) (id : MsgId) : w.slot ⟨l, id⟩ = ⟨none, none⟩ := by
  have hbase : w.base ⟨l, id⟩ = none := by
    refine jobsEff_of_leaves (fun t ht => (hs.fresh t ht).2) (fun hst => ?_) h.store
    refine get_eq_none.2 fun m hm hk => (stores_eq_false.1 hst).1 m hm ?_
    exact congrArg Key.chatJid hk
  have heff : w.eff ⟨l, id⟩ = none := by
    rw [eff_apply]
    cases hg : w.q.pending.get ⟨l, id⟩ with
    | none => exact hbase
    | some op =>
      have hkey : op.key.chatJid = l := congrArg Key.chatJid (get_key hg)
      have hop := h.free op (Table.get_mem hg)
      cases op with
      | put | add => exact absurd hkey (of_decide_eq_false hop)
      | del => rfl
  have hres : (w.slot ⟨l, id⟩).resident = none := by
    rw [slot_resident, messagesFor, h.list]
    rfl
  exact congrArg₂ Slot.mk hres heff

/-! ## Synchronous steps -/

/-- Every message that is stored or waits to be stored has an id. -/
def World.Named (w : World) : Prop := Holding (fun _ => True) (fun m => m.id ≠ "") w

theorem closedUnder_named : ClosedUnder (fun _ => True) (fun m : UiMessage => m.id ≠ "") where
  load _ _ := trivial
  persist _ _ := id_of_persistable
  patch fn m m' h := ⟨fun _ => trivial, fun hm => by
    rwa [show m'.id = m.id from congrArg Key.id (Patch.apply_key h).1]⟩
  unread _ _ _ := trivial
  media _ _ _ _ := trivial
  rekey m p := ⟨fun _ => trivial, fun hm => hm⟩

theorem named_step (hwf : w.Wf) (h : w.Named) : (w.step e).Named := by
  refine holding_step closedUnder_named hwf h ?_
  cases e <;> simp [Brings]

/-- What the effective history does not have under a key does not wait to be written. -/
theorem freeOf_of_slot (hn : w.Named) (hs : ∀ id, id ≠ "" → w.slot ⟨l, id⟩ = ⟨none, none⟩) : w.FreeOf l := by
  have hput : ∀ (op : PendingOp) (m : Obj), op ∈ w.q.pending.rows → op.key = m.key →
      (∀ r, (op.eff r).isSome = true) → m.msg.id ≠ "" → m.msg.chatJid ≠ l := by
    rintro op m hop hkey hsome hid rfl
    have heff : w.eff m.key = none := congrArg Slot.stored (hs m.msg.id hid)
    rw [eff_apply, ← hkey, Table.get_of_mem hop] at heff
    have := hsome (w.base op.key)
    rw [show op.eff (w.base op.key) = none from heff] at this
    cases this
  intro op hop
  have hid := hn.pending op hop
  cases op with
  | put m => exact decide_eq_false (hput _ m hop rfl (fun _ => rfl) hid)
  | add m => exact decide_eq_false (hput _ m hop rfl (fun r => by cases r <;> rfl) hid)
  | del => rfl

theorem applyMerge_of_absent (hb : w.byChat l = none) (hc : w.chats.get l = none) (p : Jid) :
    applyMerge w l p = w := by
  rw [applyMerge, if_pos (by simp [Table.has, hb, hc])]

/-- A receipt makes no record. -/
theorem slot_received {r : Option ReceiptDto} {k : Key} (hr : ReceiptApplied r w v) (h : w.Wf)
    (hid : k.id ≠ "") (hs : w.slot k = ⟨none, none⟩) : v.slot k = ⟨none, none⟩ := by
  rcases hr.slot h hid with hk | ⟨d, -, -, hu⟩
  · rw [hk.of_none (by rw [hs]), hs]
  · exact (vacant_updated hu rfl).gone hs

/-- A merge into another key; one of `l` finds nothing. -/
theorem slot_unify (h : w.Wf) {id : MsgId} (hid : id ≠ "") (he : e.unifies = true)
    (hlist : w.byChat l = none) (hchat : w.chats.get l = none) (hb : ∀ c ∈ e.merge w, c.2 ≠ l)
    (hs : w.slot ⟨l, id⟩ = ⟨none, none⟩) : (w.step e).slot ⟨l, id⟩ = ⟨none, none⟩ := by
  obtain ⟨w₁, w₃, h1, h3, hr⟩ := unify_step he
  have hs₁ : w₁.slot ⟨l, id⟩ = ⟨none, none⟩ := (h1.slot _).trans hs
  have hm : (w₁.merged (e.merge w)).Wf ∧ (w₁.merged (e.merge w)).slot ⟨l, id⟩ = ⟨none, none⟩ := by
    cases hmg : e.merge w with
    | none => exact ⟨h1.wf h, hs₁⟩
    | some c =>
      obtain ⟨a, b⟩ := c
      obtain ⟨-, hwf, hother⟩ := applyMerge_frame (h1.wf h) a b
      refine ⟨hwf, ?_⟩
      by_cases ha : a = l
      · subst ha
        change (applyMerge w₁ a b).slot _ = _
        rw [applyMerge_of_absent (by rw [h1.byChat, hlist]) (by rw [h1.chats, hchat]), hs₁]
      · exact (hother ⟨l, id⟩ (Ne.symm ha) (Ne.symm (hb (a, b) hmg))).trans hs₁
  exact slot_received hr (h3.wf hm.1) hid ((h3.slot _).trans hm.2)

/-- A copy under `l` comes from a step that is handed `l`, or from a confirm. -/
theorem brings_of_copies {id : MsgId} (he : e.sync = true) (h : e.copies w ⟨l, id⟩ = true) :
    e.brings l w = true ∨ ∃ r, e = .confirmOptimistic l r id := by
  have hjid : ∀ {j : Jid} {i : MsgId}, (decide ((⟨j, i⟩ : Key) = ⟨l, id⟩)) = true → j = l :=
    fun h => congrArg Key.chatJid (of_decide_eq_true h)
  cases e with
  | addMessage => exact .inl (decide_eq_true (congrArg Key.chatJid (of_decide_eq_true h)))
  | addHistoryMessages =>
    obtain ⟨m, hm, hk⟩ := any_eq_true.1 h
    refine .inl (any_eq_true.2 ⟨m, hm, decide_eq_true ?_⟩)
    exact congrArg Key.chatJid (of_decide_eq_true hk)
  | addOptimistic | addOptimisticMedia => exact .inl (decide_eq_true (hjid h))
  | confirmOptimistic jid r =>
    obtain ⟨rfl, rfl⟩ := Key.mk.inj (of_decide_eq_true h)
    exact .inr ⟨r, rfl⟩
  | restoreMessage =>
    exact .inl (decide_eq_true (congrArg Key.chatJid (of_decide_eq_true h)))
  | applyRevoke =>
    simp only [Step.copies, Bool.and_eq_true] at h
    refine .inl ?_
    simp only [Step.brings, Bool.and_eq_true]
    exact ⟨h.1, decide_eq_true (hjid h.2)⟩
  | openNext | advance => cases he
  | _ => cases h

theorem merge_of_not_unifies (h : ¬ e.unifies = true) : e.merge w = none := by
  cases e with
  | learnLidMapping | unifyLid | unifyLidDone => exact absurd rfl h
  | _ => rfl

theorem slot_sync (h : w.Wf) (hu : Unsplit l w) {id : MsgId} (hid : id ≠ "") (he : e.sync = true)
    (hb : e.brings l w = false) (hs : w.slot ⟨l, id⟩ = ⟨none, none⟩) :
    (w.step e).slot ⟨l, id⟩ = ⟨none, none⟩ := by
  by_cases hun : e.unifies = true
  · exact slot_unify h hid hun hu.list hu.chat (merge_of_brings hun hb) hs
  · by_cases hconf : ∃ r, e = .confirmOptimistic l r id
    · -- the bubble is gone with the list
      obtain ⟨r, rfl⟩ := hconf
      have hw : w.step (.confirmOptimistic l r id) = w := by
        rw [World.step, confirmOptimistic, hu.list]
      rw [hw, hs]
    · have hg : Gone [l] id w := fun c hc => by rwa [mem_singleton.1 hc]
      have hn : NoNewCopy [l] id w e := by
        intro c hc
        rw [mem_singleton.1 hc, ← Bool.not_eq_true]
        intro hcopy
        rcases brings_of_copies he hcopy with h' | h'
        · rw [hb] at h'
          cases h'
        · exact hconf h'
      have hdel : DeleteSafe [l] id w e := by
        refine .of_sync he fun c hc => ?_
        rw [merge_of_not_unifies hun] at hc
        cases hc
      exact gone_sync h hid he hg hn hdel l mem_cons_self

theorem unsplit_sync (h : Sound w) (hn : w.Named) (hu : Unsplit l w) (he : e.sync = true)
    (hb : e.brings l w = false) : Unsplit l (w.step e) := by
  have hsh := shuns_step he hu.free hb
  refine ⟨hsh.lists hu.list, hsh.chat hu.chat, ?_, hsh.leaves hu.store⟩
  exact freeOf_of_slot (named_step h.wf hn) fun id hid => slot_sync h.wf hu hid he hb (hu.slot h id)

/-! ## The queue moves on -/

/-- What a flush at the head of the queue writes in later slices, behind what waits now. -/
def World.laterSlices (w : World) : List PendingOp :=
  match w.txq with
  | ⟨_, true, .flush _ ops, _⟩ :: _ => (ops.drop FLUSH_SLICE).rows
  | _ => []

/-- No tombstone is inserted under `l`, no page or tail of `l` is read while rows are stored under
it, and no later slice of a flush writes one. -/
@[mk_iff]
structure AdvanceSafe (l : Jid) (w : World) : Prop where
  plants : ∀ k ∈ Step.advance.plants w, k.chatJid ≠ l
  reads : w.reads l = true → ∀ m ∈ w.msgs.rows, m.chatJid ≠ l
  slices : ∀ op ∈ w.laterSlices, op.fills l = false

instance (l : Jid) (w : World) : Decidable (AdvanceSafe l w) :=
  decidable_of_iff _ (advanceSafe_iff l w).symm

theorem reads_of_rowsRead {r : Option ℤ × Obj} (h : r ∈ w.rowsRead) : w.reads r.2.msg.chatJid = true := by
  unfold World.rowsRead at h
  split at h
  · rename_i ht
    obtain ⟨o, ho, rfl⟩ := mem_map.1 h
    rw [World.reads, ht]
    exact decide_eq_true (mem_loadLatestMessages ho).1
  · rename_i ht
    obtain ⟨o, ho, rfl⟩ := mem_map.1 h
    obtain ⟨jid, hj, ref, ho⟩ := mem_tailRows _ _ ho
    rw [World.reads, ht]
    have hc : o.msg.chatJid = jid := (mem_loadLatestMessages ho).1
    exact decide_eq_true (hc ▸ hj)
  · cases h

/-- The rows that a read returns are not of `l`. -/
theorem chatJid_of_row (hf : w.FreeOf l) {b : Option ℤ} {o : Obj} (hr : Row w b o)
    (hm : o.msg.chatJid = l → ∀ m ∈ w.msgs.rows, m.chatJid ≠ l) : o.msg.chatJid ≠ l := by
  intro hl
  rcases hr with ⟨hp | hp, -⟩ | ⟨hg, -⟩
  · exact of_decide_eq_false (hf _ (Table.get_mem hp)) hl
  · exact of_decide_eq_false (hf _ (Table.get_mem hp)) hl
  · exact hm hl _ (Table.get_mem hg) hl

theorem shuns_loadOlderDone (hf : w.FreeOf l) (jid : Jid) (limit : ℕ) (beforeTs : Option ℤ)
    (hm : jid = l → ∀ m ∈ w.msgs.rows, m.chatJid ≠ l) : Shuns l w (loadOlderDone w jid limit beforeTs) := by
  refine .of_chats (fun hn => ?_) (fun hc => hc) rfl rfl rfl
  by_cases hj : jid = l
  · -- a page of `l` is empty
    have hnil : loadLatestMessages w jid limit beforeTs = [] := by
      refine eq_nil_iff_forall_not_mem.2 fun o ho => ?_
      have hc := (mem_loadLatestMessages ho).1
      exact chatJid_of_row hf (row_of_load ho) (fun _ => hm hj) (hc.trans hj)
    simp only [loadOlderDone, hnil, filter_nil, isEmpty_nil, if_true]
    exact hn
  · simp only [loadOlderDone]
    split
    · exact hn
    · rw [Function.update_of_ne (Ne.symm hj), hn]

theorem shuns_loadTailsDone (hf : w.FreeOf l) (jids : List Jid) (n : ℕ)
    (hm : l ∈ jids → ∀ m ∈ w.msgs.rows, m.chatJid ≠ l) : Shuns l w (loadTailsDone w jids n) := by
  refine Shuns.after (.of_acts (acts_addHistoryMessages _ false fun o ho => ?_) hf) (.of_same)
  have hne : o.msg.chatJid ≠ l := by
    refine chatJid_of_row hf (row_of_tail jids _ ho) fun hl => hm ?_
    obtain ⟨jid, hj, ref, hmem⟩ := mem_tailRows jids _ ho
    rwa [← hl, (mem_loadLatestMessages hmem).1]
  exact ⟨hne, fun _ => hne, fun _ => trivial⟩

variable {later : List Txn} {tid started : ℕ} {ops : Table PendingOp.key} {c : List Chat}

/-- The rest of the queue, once the head has run. -/
theorem leaves_popped (hw : w.leaves l = false) (ht : w.txq = t :: later)
    (hst : v.stores l = true → t.leaves l (w.stores l) = true) :
    later.foldl (Txn.leaves l) (v.stores l) = false := by
  rw [World.leaves, ht, foldl_cons] at hw
  exact leaves_foldl_mono hst hw

/-- A continuation that leaves `l` alone. -/
theorem unsplit_continuation (hu : Unsplit l w) (ht : w.txq = t :: later)
    (hstay : t.leaves l (w.stores l) = w.stores l) (hsh : Shuns l (w.popped later) v)
    (hfree : v.FreeOf l) : Unsplit l v := by
  refine ⟨hsh.lists hu.list, hsh.chat hu.chat, hfree, hsh.leaves ?_⟩
  exact leaves_popped hu.store ht fun h => by rwa [hstay]

/-- The head of the queue writes to the database only. -/
theorem unsplit_write {later ts : List Txn} (hu : Unsplit l w) (ht : w.txq = t :: later)
    (hb : v.byChat = w.byChat) (hc : v.chats = w.chats) (hf : ∀ op ∈ v.q.pending.rows, op ∈ w.q.pending.rows)
    (hv : v.txq = later ++ ts) (hts : ∀ t ∈ ts, t.job.fills l = false ∧ t.chats = [])
    (hst : v.stores l = true → t.leaves l (w.stores l) = true) : Unsplit l v := by
  refine ⟨by rw [hb, hu.list], by rw [hc, hu.chat], fun op hop => hu.free op (hf op hop), ?_⟩
  rw [World.leaves, hv]
  exact leaves_append (leaves_popped hu.store ht hst) hts

theorem unsplit_done (hu : Unsplit l w) (ht : w.txq = t :: later)
    (hb : v.byChat = w.byChat) (hc : v.chats = w.chats) (hq : v.q.pending = w.q.pending)
    (hv : v.txq = later) (hst : v.stores l = true → t.leaves l (w.stores l) = true) : Unsplit l v :=
  unsplit_write hu ht hb hc (fun _ hop => hq ▸ hop) (hv.trans (append_nil later).symm)
    (forall_mem_nil _) hst

/-- The rows of `l` after some operations. -/
theorem any_applyOps {msgs : Table UiMessage.key} {ops : List PendingOp}
    (h : (applyOps msgs ops).rows.any (·.chatJid = l) = true) :
    msgs.rows.any (·.chatJid = l) = true ∨ ops.any (·.fills l) = true := by
  induction ops generalizing msgs with
  | nil => exact .inl h
  | cons op ops ih =>
    have hset : ∀ m : Obj, ((msgs.set (toRecord m.msg m.msg.chatJid)).rows.any (·.chatJid = l) = true) →
        msgs.rows.any (·.chatJid = l) = true ∨ decide (m.msg.chatJid = l) = true := by
      intro m hm
      obtain ⟨r, hr, hrl⟩ := any_eq_true.1 hm
      rcases mem_upsert hr with rfl | hr
      · exact .inr hrl
      · exact .inl (any_eq_true.2 ⟨r, hr, hrl⟩)
    rw [any_cons, Bool.or_eq_true]
    rcases ih h with h | h
    · cases op with
      | put m => exact (hset m h).imp_right Or.inl
      | add m =>
        simp only [applyOp, Table.add] at h
        split at h
        · exact .inl h
        · exact (hset m h).imp_right Or.inl
      | del =>
        obtain ⟨r, hr, hrl⟩ := any_eq_true.1 h
        exact .inl (any_eq_true.2 ⟨r, (mem_filter.1 hr).1, hrl⟩)
    · exact .inr (.inr h)

/-- A flush has written some of its operations. -/
theorem le_leaves_flush {opened : Bool} {done : List PendingOp} (hsub : ∀ op ∈ done, op ∈ ops.rows)
    (hm : v.msgs = applyOps w.msgs done)
    (hr : v.chatRows = w.chatRows) (hv : v.stores l = true) :
    (⟨tid, opened, .flush started ops, c⟩ : Txn).leaves l (w.stores l) = true := by
  simp only [World.stores, hm, hr, Bool.or_eq_true] at hv
  simp only [Txn.leaves, World.stores, Job.fills, Bool.or_eq_true]
  rcases hv with hv | hv
  · rcases any_applyOps hv with hv | hv
    · exact .inl (.inl hv)
    · obtain ⟨op, hop, hf⟩ := any_eq_true.1 hv
      exact .inr (any_eq_true.2 ⟨op, hsub op hop, hf⟩)
  · exact .inl (.inr hv)

theorem unsplit_flushSlice (hu : Unsplit l w) (ht : w.txq = ⟨tid, true, .flush started ops, c⟩ :: later)
    (hmore : ∀ op ∈ (ops.drop FLUSH_SLICE).rows, op.fills l = false) :
    Unsplit l (flushSlice w tid started ops later) := by
  have hsub : ∀ op ∈ (ops.take FLUSH_SLICE).rows, op ∈ ops.rows := fun _ => mem_of_mem_take
  unfold flushSlice
  dsimp only
  split
  · exact unsplit_done hu ht rfl rfl rfl rfl (le_leaves_flush hsub rfl rfl)
  · split
    · exact unsplit_done hu ht rfl rfl rfl rfl (le_leaves_flush hsub rfl rfl)
    · refine unsplit_write hu ht rfl rfl (fun _ h => h) rfl (forall_mem_singleton.2 ⟨?_, rfl⟩)
        (le_leaves_flush hsub rfl rfl)
      exact any_eq_false.2 fun op hop => by rw [hmore op hop]; simp

theorem unsplit_patchRequests (hu : Unsplit l w) {k : Key} {queued : Option Obj} {fn : Patch} {after : AfterPatch}
    (ht : w.txq = ⟨tid, true, .patch started k queued fn after, c⟩ :: later) :
    Unsplit l (patchRequests w tid k queued fn after later) := by
  obtain ⟨msgs, he, hm⟩ := patchRequests_eq w tid k queued fn after later
  have hst : (patchRequests w tid k queued fn after later).stores l = true →
      (⟨tid, true, .patch started k queued fn after, c⟩ : Txn).leaves l (w.stores l) = true := by
    rw [he]
    intro hv
    simp only [Txn.leaves, World.stores, Job.fills, Bool.or_eq_true] at hv ⊢
    rcases hm with rfl | ⟨current, next, hcur, hnext, rfl⟩
    · exact .inl hv
    · rcases hv with hv | hv
      · obtain ⟨r, hr, hrl⟩ := any_eq_true.1 hv
        rcases mem_upsert hr with rfl | hr
        · -- the row that is written has the chat of the row that was found
          have hchat : current.chatJid = l :=
            (congrArg Key.chatJid (Patch.apply_key hnext).1).symm.trans (of_decide_eq_true hrl)
          rcases Option.or_eq_some_iff.1 hcur with hg | ⟨-, hq⟩
          · exact .inl (.inl (any_eq_true.2 ⟨current, Table.get_mem hg, decide_eq_true hchat⟩))
          · obtain ⟨m, hm, rfl⟩ := Option.map_eq_some_iff.1 hq
            rw [hm]
            exact .inr (decide_eq_true hchat)
        · exact .inl (.inl (any_eq_true.2 ⟨r, hr, hrl⟩))
      · exact .inl (.inr hv)
  have hrest := leaves_popped hu.store ht hst
  rw [he] at hrest ⊢
  refine ⟨hu.list, hu.chat, fun op hop => ?_, ?_⟩
  · split at hop
    · exact hu.free op (mem_filter.1 hop).1
    · exact hu.free op hop
  · rw [World.leaves, foldl_cons]
    simp only [Txn.leaves, Job.fills, Bool.or_false]
    exact hrest

theorem unsplit_move (hu : Unsplit l w) {a b : Jid}
    (ht : w.txq = ⟨tid, true, .move started a b, c⟩ :: later) (hne : a ≠ b) :
    Unsplit l { w with txq := later, msgs := moveRows w.msgs a b, chatRows := w.chatRows.erase a } := by
  refine unsplit_done hu ht rfl rfl rfl rfl fun hv => ?_
  -- a row of `l` after the move
  have hrow : (moveRows w.msgs a b).rows.any (·.chatJid = l) = true →
      a ≠ l ∧ (w.msgs.rows.any (·.chatJid = l) = true ∨ b = l) := by
    intro hany
    obtain ⟨m, hm, hml⟩ := any_eq_true.1 hany
    have hg : (moveRows w.msgs a b).get m.key = some m := Table.get_of_mem hm
    have hkl : m.key.chatJid = l := of_decide_eq_true hml
    rw [get_moveRows hne, moveEff] at hg
    split at hg
    · rename_i hb
      exact ⟨fun ha => hne (ha.trans (hkl.symm.trans hb)), .inr (hb.symm.trans hkl)⟩
    · split at hg
      · cases hg
      · rename_i ha
        refine ⟨fun hal => ha (hkl.trans hal.symm), .inl ?_⟩
        exact any_eq_true.2 ⟨m, Table.get_mem hg, hml⟩
  have hchat : (w.chatRows.erase a).has l = true → a ≠ l ∧ w.chatRows.has l = true := by
    rw [Table.has, get_erase]
    split
    · intro h; cases h
    · rename_i ha
      exact fun h => ⟨ha, h⟩
  simp only [World.stores, Bool.or_eq_true] at hv
  simp only [Txn.leaves]
  rcases hv with hv | hv
  · obtain ⟨ha, h⟩ := hrow hv
    rw [if_neg ha]
    simp only [World.stores, Bool.or_eq_true, decide_eq_true_eq]
    exact h.imp_left Or.inl
  · obtain ⟨ha, h⟩ := hchat hv
    rw [if_neg ha]
    simp only [World.stores, Bool.or_eq_true]
    exact .inl (.inr h)

theorem unsplit_chats (hu : Unsplit l w) (ht : w.txq = ⟨tid, true, .chats started, c⟩ :: later) :
    Unsplit l { w with txq := later, chatRows := c.foldl Table.set w.chatRows } := by
  refine unsplit_done hu ht rfl rfl rfl rfl fun hv => ?_
  simp only [World.stores, Table.has, get_foldl_set, Bool.or_eq_true, Option.isSome_or] at hv
  simp only [Txn.leaves, World.stores, Bool.or_eq_true]
  rcases hv with hv | hv | hv
  · exact .inl (.inl hv)
  · obtain ⟨r, hr, hrl⟩ := List.find?_isSome.1 hv
    exact .inr (any_eq_true.2 ⟨r, mem_reverse.1 hr, hrl⟩)
  · exact .inl (.inr hv)

/-- **One move of the queue.** -/
theorem unsplit_advance (h : Sound w) (hn : w.Named) (hu : Unsplit l w) (hs : AdvanceSafe l w) :
    Unsplit l (advance w) := by
  -- a continuation persists nothing under `l`
  have hfree : (∀ id, QueueSafe ⟨l, id⟩ w) → (advance w).FreeOf l := by
    intro hq
    refine freeOf_of_slot (named_step (e := .advance) h.wf hn) fun id hid => ?_
    have hgone : Gone [l] id w := fun c hc => by
      rw [mem_singleton.1 hc]
      exact hu.slot h id
    have hcopy : NoNewCopy [l] id w .advance := fun c hc => by
      rw [mem_singleton.1 hc]
      exact decide_eq_false fun hp => hs.plants _ hp rfl
    have hdel : DeleteSafe [l] id w .advance := fun c hc => by
      rw [mem_singleton.1 hc]
      refine ⟨hq id, fun r hr hk => ?_⟩
      have hl : r.2.msg.chatJid = l := congrArg Key.chatJid hk
      exact chatJid_of_row hu.free (row_of_rowsRead hr) (fun _ => hs.reads (hl ▸ reads_of_rowsRead hr)) hl
    exact gone_advance h hid hgone hcopy hdel l mem_cons_self
  have hran := ran_advance w
  generalize advance w = v at hfree hran ⊢
  cases hran with
  | idle => exact hu
  | flush tid started ops c later ht =>
    exact unsplit_flushSlice hu ht fun op hop => hs.slices op (by rwa [World.laterSlices, ht])
  | patch tid started k queued fn after c later ht => exact unsplit_patchRequests hu ht
  | patched tid k found after c later ht =>
    refine unsplit_continuation hu ht (Bool.or_false _) (.of_acts (acts_afterPatch _ found (fun f hf ha => ?_)
      fun _ _ _ => trivial) hu.free)
      (hfree fun id => by rw [QueueSafe, ht]; trivial)
    subst hf ha
    have hk := hs.plants k (by rw [Step.plants, ht]; rfl)
    exact ⟨hk, fun _ => hk⟩
  | move tid started a b c later ht => exact unsplit_move hu ht (of_decide_eq_true (h.head ht).2)
  | page tid jid limit beforeTs c later ht =>
    have hpage := shuns_loadOlderDone (w := w.popped later) hu.free jid limit beforeTs fun hj =>
      hs.reads (by rw [World.reads, ht]; exact decide_eq_true hj.symm)
    exact unsplit_continuation hu ht (Bool.or_false _) (hpage.trans (.of_acts (acts_openChatDone _ jid) hu.free))
      (hfree fun id => by rw [QueueSafe, ht]; trivial)
  | tails tid jids n c later ht =>
    have htails := shuns_loadTailsDone (w := w.popped later) hu.free jids n fun hl =>
      hs.reads (by rw [World.reads, ht]; exact decide_eq_true hl)
    exact unsplit_continuation hu ht (Bool.or_false _) htails (hfree fun id => by rw [QueueSafe, ht]; trivial)
  | adopt tid fresh c later ht =>
    exact unsplit_continuation hu ht (Bool.or_false _)
      (.of_acts (acts_adoptStoredDone _ fun _ _ _ _ hx => by cases hx) hu.free)
      (hfree fun id => by rw [QueueSafe, ht]; trivial)
  | chats tid started c later ht => exact unsplit_chats hu ht
  | account tid jid c later ht =>
    exact unsplit_done hu ht rfl rfl rfl rfl fun hv => (Bool.or_false _).trans hv
  | clear tid c later ht =>
    exact unsplit_done hu ht rfl rfl rfl rfl fun hv => by cases hv

theorem unsplit_openNext (h : Sound w) (hu : Unsplit l w) : Unsplit l (openNext w) := by
  rcases openNext_cases w with hv | ⟨before, t, later, ht, -, ⟨-, hv⟩ | ⟨hst, -⟩⟩
  · rwa [hv]
  · rw [hv]
    refine ⟨hu.list, hu.chat, hu.free, ?_⟩
    have hstore := hu.store
    rw [World.leaves, ht, foldl_append, foldl_cons] at hstore
    change (before ++ ⟨t.tid, true, t.job, w.chats.rows⟩ :: later).foldl (Txn.leaves l) (w.stores l) = false
    rw [foldl_append, foldl_cons]
    refine leaves_foldl_mono (fun hl => ?_) hstore
    -- the chat list that is captured has no row of `l`
    have hcap : w.chats.rows.any (·.jid = l) = false := by
      refine any_eq_false.2 fun c hc => ?_
      have := get_eq_none.1 hu.chat c hc
      simpa using this
    obtain ⟨tid, opened, job, chats⟩ := t
    cases job with
    | chats =>
      simp only [Txn.leaves, hcap, Bool.or_false] at hl ⊢
      rw [hl, Bool.true_or]
    | _ => exact hl
  · rw [(h.fresh t (by rw [ht]; simp)).1] at hst
    cases hst

theorem unsplit_flushFails (hu : Unsplit l w) (f : FlushFailure) : Unsplit l (flushFails w f) := by
  have hr := failed_flushFails w f
  generalize flushFails w f = v at hr ⊢
  cases hr with
  | idle => exact hu
  | hit before later ht hf hdone hb =>
    rcases hb with rfl | rfl
    · refine ⟨hu.list, hu.chat, hu.free, ?_⟩
      have hstore := hu.store
      rw [World.leaves, ht, foldl_append, foldl_cons] at hstore
      change (before ++ later).foldl (Txn.leaves l) (w.stores l) = false
      rw [foldl_append]
      refine leaves_foldl_mono (fun h => ?_) hstore
      simp only [Txn.leaves, h, Bool.true_or]
    · subst hdone
      exact unsplit_done hu ht rfl rfl rfl rfl (le_leaves_flush (fun _ => mem_of_written) rfl rfl)

theorem sound_flushFails (h : Sound w) (f : FlushFailure) : Sound (flushFails w f) := by
  have hr := failed_flushFails w f
  generalize flushFails w f = v at hr ⊢
  cases hr with
  | idle => exact h
  | hit before later ht => exact h.of_txq rfl rfl rfl fun t hm => h.fresh t (by rw [ht]; exact mem_removed hm)

/-! ## Steps and events -/

/-- The call is handed `l`, or maps another key to it. -/
def Step.carries (l : Jid) : Step → Bool
  | .addMessage m => m.chatJid = l
  | .addHistoryMessages list => list.any (·.chatJid = l)
  | .addOptimistic jid .. => jid = l
  | .addOptimisticMedia jid .. => jid = l
  | .restoreMessage original => original.msg.chatJid = l
  | .applyRevoke jid _ fallback => fallback.isSome && jid = l
  | .chat op => op.makes = some l
  | .learnLidMapping _ pn => normalizeJid pn = l
  | .unifyLidDone _ pn => pn = some l
  | _ => false

/-- The call does not bring `l` back. -/
def CallSafe (l : Jid) (w : World) : Step → Prop
  | .advance => AdvanceSafe l w
  | .resetAll => False
  | e => e.carries l = false

instance (l : Jid) (w : World) (e : Step) : Decidable (CallSafe l w e) := by
  unfold CallSafe
  induction e using Step.casesOn <;> infer_instance

/-- Events need no care, except for what is called directly. -/
def EventSafe (l : Jid) (w : World) : Event → Prop
  | .call e => CallSafe l w e
  | _ => True

instance (l : Jid) (w : World) (ev : Event) : Decidable (EventSafe l w ev) := by
  unfold EventSafe
  induction ev using Event.casesOn <;> infer_instance

/-- The state after a merge of `l`, and ever after. -/
structure Whole (l : Jid) (w : World) : Prop where
  sound : Sound w
  named : w.Named
  aside : ∀ jid, canonicalJid w jid ≠ l
  unsplit : Unsplit l w

theorem brings_of_carries (ha : ∀ jid, canonicalJid w jid ≠ l) (h : e.carries l = false) :
    e.brings l w = false := by
  cases e with
  | learnLidMapping =>
    simp only [Step.brings, Step.merge]
    split
    · exact h
    · rfl
  | unifyLid jid =>
    simp only [Step.brings, Step.merge]
    split
    · rename_i hl
      cases hk : w.lidToPn jid with
      | none => rfl
      | some =>
        have hcan := ha jid
        rw [canonicalJid, if_pos hl, hk] at hcan
        exact decide_eq_false hcan
    · rfl
  | unifyLidDone jid pn =>
    cases pn with
    | none => rfl
    | some pn =>
      simp only [Step.brings, Step.merge]
      split
      · refine decide_eq_false fun hp => of_decide_eq_false h ?_
        rw [show pn = l from hp]
      · rfl
  | _ => exact h

theorem aside_step (ha : ∀ jid, canonicalJid w jid ≠ l) (he : e ≠ .resetAll)
    (hm : ∀ c ∈ e.merge w, c.2 ≠ l) (jid : Jid) : canonicalJid (w.step e) jid ≠ l := by
  rw [canonicalJid_step he]
  cases hmg : e.merge w with
  | none => exact ha jid
  | some c =>
    dsimp only
    split
    · exact hm c hmg
    · exact ha jid

theorem CallSafe.carries (h : CallSafe l w e) (he : e.sync = true) : e.carries l = false := by
  unfold CallSafe at h
  split at h
  · cases he
  · cases he
  · exact h

theorem whole_step (h : Whole l w) (hs : CallSafe l w e) : Whole l (w.step e) := by
  have hreset : e ≠ .resetAll := by
    rintro rfl
    exact hs
  have hmerge : ∀ c ∈ e.merge w, c.2 ≠ l := by
    by_cases hun : e.unifies = true
    · have he : e.sync = true := by cases e <;> first | rfl | cases hun
      exact merge_of_brings hun (brings_of_carries h.aside (hs.carries he))
    · rw [merge_of_not_unifies hun]
      exact fun c hc => (nomatch hc)
  refine ⟨?_, named_step h.sound.wf h.named, aside_step h.aside hreset hmerge, ?_⟩
  · cases e with
    | flushFails f => exact sound_flushFails h.sound f
    | resetAll => exact absurd rfl hreset
    | _ => exact sound_step h.sound rfl
  · cases he : e.sync with
    | true => exact unsplit_sync h.sound h.named h.unsplit he (brings_of_carries h.aside (hs.carries he))
    | false =>
      cases e with
      | openNext => exact unsplit_openNext h.sound h.unsplit
      | advance => exact unsplit_advance h.sound h.named h.unsplit hs
      | flushFails f => exact unsplit_flushFails h.unsplit f
      | wipe => rw [World.step, wipe, h.sound.wiping]; exact h.unsplit
      | resetAll => exact absurd rfl hreset
      | _ => cases he

/-- **Events are canonicalized**: no handler is handed a key that is nobody's canonical one. -/
theorem steps_safe (ha : ∀ jid, canonicalJid w jid ≠ l) {ev : Event} (hev : ∀ e, ev ≠ .call e) :
    ∀ e ∈ ev.steps w, e.sync = true ∧ e.carries l = false := by
  have hcm : ∀ m : MessageDto, (canonicalMessage w m).chatJid ≠ l := fun m => by
    rw [canonicalMessage_chatJid]
    exact ha _
  intro e he
  cases handlerCall_of_mem _ he with
  | add m => exact ⟨rfl, decide_eq_false (hcm m)⟩
  | touch m => exact ⟨rfl, decide_eq_false fun h => hcm m (Option.some.inj h)⟩
  | upsert => exact ⟨rfl, decide_eq_false fun h => ha _ (Option.some.inj h)⟩
  | batch d =>
    refine ⟨rfl, any_eq_false.2 fun m hm => ?_⟩
    obtain ⟨d, -, rfl⟩ := mem_map.1 hm
    simpa using hcm d
  | revoke => exact ⟨rfl, decide_eq_false (ha _)⟩
  | call => exact absurd rfl (hev e)
  | _ => exact ⟨rfl, rfl⟩

theorem whole_event (h : Whole l w) {ev : Event} (hs : EventSafe l w ev) : Whole l (w.handle ev) := by
  refine handle_inv (fun _ _ => whole_step) h ?_
  by_cases hcall : ∃ e, ev = .call e
  · obtain ⟨e, rfl⟩ := hcall
    exact ⟨hs, trivial⟩
  · refine along_of_forall (fun e he v => ?_) w
    obtain ⟨hsync, hcar⟩ := steps_safe h.aside (fun e h => hcall ⟨e, h⟩) e he
    unfold CallSafe
    split
    · cases hsync
    · cases hsync
    · exact hcar

/-! ## The merge -/

variable {p : Jid}

theorem applyMerge_of_known (p : Jid) (hk : w.chats.has l = true ∨ (w.byChat l).isSome = true) :
    applyMerge w l p =
      schedulePersistChats (movePersistedChat (mergeChats (mergeMessages w l p) l p) l p) := by
  refine if_neg ?_
  rcases hk with hk | hk
  · rw [hk]; simp
  · rw [Option.isNone_eq_false_iff.2 hk]; simp

theorem txq_applyMerge (hne : l ≠ p) (hk : w.chats.has l = true ∨ (w.byChat l).isSome = true) :
    ∃ tid s, (applyMerge w l p).txq = w.txq ++ [⟨tid, false, .move s l p, []⟩] := by
  have h1 : (mergeMessages w l p).txq = w.txq := by
    unfold mergeMessages
    dsimp only
    split <;> rfl
  refine ⟨(mergeChats (mergeMessages w l p) l p).nextTid, (mergeChats (mergeMessages w l p) l p).epoch, ?_⟩
  rw [applyMerge_of_known p hk, movePersistedChat, if_neg hne]
  change (mergeChats (mergeMessages w l p) l p).txq ++ _ = _
  rw [(Same.mergeChats _ l p).txq, h1]

theorem absent_applyMerge (hne : l ≠ p) (hk : w.chats.has l = true ∨ (w.byChat l).isSome = true) :
    (applyMerge w l p).byChat l = none ∧ (applyMerge w l p).chats.get l = none := by
  have h1 : (mergeMessages w l p).byChat l = none ∧ (mergeMessages w l p).chats = w.chats := by
    unfold mergeMessages
    dsimp only
    split
    · exact ⟨Function.update_self .., rfl⟩
    · exact ⟨(Function.update_of_ne hne _ _).trans (Function.update_self ..), rfl⟩
  have h2 : ∀ w : World, (mergeChats w l p).byChat = w.byChat ∧ (mergeChats w l p).chats.get l = none := by
    intro w
    unfold mergeChats
    split
    · rename_i hg
      exact ⟨rfl, hg⟩
    · refine ⟨rfl, ?_⟩
      change (Table.erase _ l).get l = none
      rw [get_erase, if_pos rfl]
  have h3 : ∀ w : World, (movePersistedChat w l p).byChat = w.byChat ∧
      (movePersistedChat w l p).chats = w.chats := by
    intro w
    unfold movePersistedChat
    split <;> exact ⟨rfl, rfl⟩
  rw [applyMerge_of_known p hk]
  constructor
  · change (movePersistedChat _ l p).byChat l = none
    rw [(h3 _).1, (h2 _).1, h1.1]
  · change (movePersistedChat _ l p).chats.get l = none
    rw [(h3 _).2, (h2 _).2]

/-- **The merge** leaves nothing under `l`, and its move clears the rest. -/
theorem unsplit_applyMerge (h : w.Wf) (hn : w.Named) (hne : l ≠ p)
    (hk : w.chats.has l = true ∨ (w.byChat l).isSome = true) : Unsplit l (applyMerge w l p) := by
  obtain ⟨hlist, hchat⟩ := absent_applyMerge hne hk
  refine ⟨hlist, hchat, ?_, ?_⟩
  · refine freeOf_of_slot (holding_applyMerge closedUnder_named h hn l p) fun id hid => ?_
    rcases applyMerge_spec h hne with ⟨-, hb, hc⟩ | ⟨hg, hm⟩
    · rcases hk with hk | hk
      · rw [hc] at hk
        cases hk
      · rw [hb] at hk
        cases hk
    · exact congrArg₂ Slot.mk (hg.source ⟨l, id⟩ hid rfl) (hm.source ⟨l, id⟩ rfl)
  · obtain ⟨tid, s, ht⟩ := txq_applyMerge hne hk
    rw [World.leaves, ht, foldl_append, foldl_cons, foldl_nil, Txn.leaves]
    exact if_pos rfl

theorem Unsplit.of_twin (h : Unsplit l w) (ht : Twin w v) : Unsplit l v := by
  refine ⟨by rw [ht.byChat, h.list], by rw [ht.chats, h.chat], ?_, ?_⟩
  · rw [World.FreeOf, ht.pending]
    exact h.free
  · rw [World.leaves, World.stores, ht.txq, ht.msgs, ht.chatRows]
    exact h.store

theorem named_of_reachable (h : Reachable w) : w.Named := by
  obtain ⟨es, rfl⟩ := h
  exact (run_inv (I := fun w => Inv w ∧ w.Named)
    (fun w e hi => ⟨inv_step hi.1 e, named_step hi.1.wf hi.2⟩) ⟨inv_init, holding_init⟩ es).2

theorem whole_merge (h : Sound w) (hn : w.Named) (hlid : isLid l = true) (hne : l ≠ p)
    (hm : e.merge w = some (l, p)) (hk : w.chats.has l = true ∨ (w.byChat l).isSome = true)
    (hkeys : ∀ jid, canonicalJid w jid = l → jid = l) : Whole l (w.step e) := by
  have hun : e.unifies = true := unifies_of_merge hm
  have hsync : e.sync = true := by cases e <;> first | rfl | cases hun
  have hreset : e ≠ .resetAll := by
    rintro rfl
    cases hun
  obtain ⟨hs, hwf⟩ := sync_step h.wf hsync
  obtain ⟨w₁, w₃, h1, h3, hr⟩ := unify_step hun
  rw [hm] at h3
  have hwf₁ := h1.wf h.wf
  have hu₂ : Unsplit l (applyMerge w₁ l p) :=
    unsplit_applyMerge hwf₁ (hn.of_same h1.toSame) hne (by rwa [h1.chats, h1.byChat])
  obtain ⟨hs₂, hwf₂, -⟩ := applyMerge_frame hwf₁ l p
  have hsound₂ : Sound (applyMerge w₁ l p) := (h1.sync.trans hs₂).sound hwf₂ h
  have hu₃ : Unsplit l w₃ := hu₂.of_twin h3
  -- the receipt that waited is the last thing
  have hsh := shuns_received hr hu₃.free
  refine ⟨hs.sound hwf h, named_step h.wf hn, fun jid => ?_, hsh.lists hu₃.list, hsh.chat hu₃.chat, ?_,
    hsh.leaves hu₃.store⟩
  · rw [canonicalJid_step hreset, hm]
    dsimp only
    split
    · exact hne.symm
    · rename_i hjid
      intro hcan
      have hj := hkeys jid hcan
      exact hjid ⟨hj.symm, hj ▸ hlid⟩
  · refine freeOf_of_slot (named_step h.wf hn) fun id hid => ?_
    exact slot_received hr (h3.wf hwf₂) hid ((h3.slot _).trans (hu₂.slot hsound₂ id))

/-- **A unified conversation stays whole**: whatever events come after the merge of `l` into `p`,
nothing is known under `l`, and when the queue has run nothing is stored under it. -/
theorem unified_stays_whole (w : World) (hr : Reachable w) (hses : w.SameSession) (l p : Jid)
    (hlid : isLid l = true) (hne : l ≠ p) (e : Step) (hm : e.merge w = some (l, p))
    (hk : w.chats.has l = true ∨ (w.byChat l).isSome = true)
    (hkeys : ∀ jid, canonicalJid w jid = l → jid = l) (evs : List Event)
    (ha : Along World.handle (EventSafe l) (w.step e) evs) :
    ((w.step e).handleAll evs).chats.get l = none ∧ ((w.step e).handleAll evs).byChat l = none ∧
      (((w.step e).handleAll evs).txq = [] →
        (∀ m ∈ ((w.step e).handleAll evs).msgs.rows, m.chatJid ≠ l) ∧
          ((w.step e).handleAll evs).chatRows.get l = none) := by
  have hwhole := whole_merge ((inv_of_reachable hr).sound hses) (named_of_reachable hr) hlid hne hm hk hkeys
  have hend : Whole l ((w.step e).handleAll evs) :=
    ha.inv (fun _ _ h hs => whole_event h hs) hwhole
  refine ⟨hend.unsplit.chat, hend.unsplit.list, fun hidle => stores_eq_false.1 ?_⟩
  have hstore := hend.unsplit.store
  rwa [World.leaves, hidle, List.foldl_nil] at hstore

/-- Without unification every key is its own. -/
theorem canonicalJid_unmapped {es : List Step}
    (h : ∀ e ∈ es, e.unifies = false ∧ e.ordinary = true) (jid : Jid) :
    canonicalJid (World.init.run es) jid = jid := by
  have hmap : Along World.step (fun _ e => e.unifies = false ∧ e.ordinary = true) World.init es :=
    along_of_forall (fun e he _ => h e he) _
  have hnone : (World.init.run es).lidToPn = World.init.lidToPn := by
    refine hmap.inv (I := fun w => w.lidToPn = World.init.lidToPn) (fun w e hw he => ?_) rfl
    rw [lidToPn_step he.1 (by rintro rfl; cases he.2), hw]
  rw [canonicalJid, hnone]
  split <;> rfl

/-- A message of a LID chat. -/
def lidX : UiMessage := { msgX with chatJid := "7@lid" }

/-- A message and a receipt that are addressed to the LID; then the queue runs. -/
def lateEvents : List Event :=
  [.message { id := "Y", chatJid := "7@lid", senderJid := "7@lid", fromMe := false, timestamp := 6 },
    .receipt ⟨"7@lid", ["X"], .read⟩, .call .openNext, .call .advance, .call .openNext, .call .advance]

/-- Events that are addressed to the LID after the merge. -/
theorem unified_stays_whole_events :
    (((World.init.run [.addMessage lidX, .openNext, .advance]).step
        (.learnLidMapping "7@lid" chatA)).handleAll lateEvents).byChat "7@lid" = none ∧
      ∀ m ∈ (((World.init.run [.addMessage lidX, .openNext, .advance]).step
        (.learnLidMapping "7@lid" chatA)).handleAll lateEvents).msgs.rows, m.chatJid ≠ "7@lid" := by
  have hkeys : ∀ jid, canonicalJid (World.init.run [.addMessage lidX, .openNext, .advance]) jid =
      "7@lid" → jid = "7@lid" := by
    intro jid h
    rwa [canonicalJid_unmapped (by decide)] at h
  obtain ⟨-, hlist, hrows⟩ := unified_stays_whole
    (World.init.run [.addMessage lidX, .openNext, .advance]) ⟨_, rfl⟩ (by decide +kernel) "7@lid" chatA
    (by decide) (by decide) (.learnLidMapping "7@lid" chatA) (by decide +kernel) (by decide +kernel)
    hkeys lateEvents (by decide +kernel)
  exact ⟨hlist, (hrows (by decide +kernel)).1⟩

/-- A page of the LID chat was being read when the mapping arrived: it brings the list back. -/
theorem resplit_by_page :
    ¬ ∀ (w : World) (l p : Jid) (e : Step) (evs : List Event), Reachable w → w.SameSession →
      isLid l = true → l ≠ p → e.merge w = some (l, p) →
      (w.chats.has l = true ∨ (w.byChat l).isSome = true) →
      (∀ jid, canonicalJid w jid = l → jid = l) →
      (∀ ev ∈ evs, ev = .call .openNext ∨ ev = .call .advance) →
      ((w.step e).handleAll evs).txq = [] → ((w.step e).handleAll evs).byChat l = none := by
  intro h
  let es : List Step := [.addMessage lidX, .openNext, .advance, .flushPendingWrites, .openNext,
    .advance, .loadOlder "7@lid" 50]
  have hkeys : ∀ jid, canonicalJid (World.init.run es) jid = "7@lid" → jid = "7@lid" := by
    intro jid h
    rwa [canonicalJid_unmapped (by decide)] at h
  have hback := h (World.init.run es) "7@lid" chatA (.learnLidMapping "7@lid" chatA)
    [.call .openNext, .call .advance, .call .openNext, .call .advance] ⟨es, rfl⟩ (by decide +kernel)
    (by decide) (by decide) (by decide +kernel) (by decide +kernel) hkeys (by simp) (by decide +kernel)
  exact absurd hback (by decide +kernel)

end Whatsvelte
