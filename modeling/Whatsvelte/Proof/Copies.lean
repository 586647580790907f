import Whatsvelte.Proof.Acts
import Whatsvelte.Proof.Invariant

/-!
# All copies of all messages

A message may be held in memory, in the write queue, by an outstanding transaction and in
the database. `Holding R S w` says that every copy outside memory has the property `S` and
every copy in memory the property `R`. `ClosedUnder R S` lists what the two properties have to be
closed under, and `holding_step` is the rule: a step keeps `Holding R S` if what it brings
in has the property `R` (`Brings`).

Nothing here says what `R` and `S` are.
-/

namespace Whatsvelte

open List Table

/-! ## Where copies are -/

/-- The message that a queued operation writes. -/
def PendingOp.Holds (S : UiMessage → Prop) : PendingOp → Prop
  | .put m => S m.msg
  | .add m => S m.msg
  | .del _ _ => True

/-- The tombstone that the continuation of a revoke may insert. -/
def AfterPatch.Holds (R : UiMessage → Prop) (k : Key) : AfterPatch → Prop
  | .tombstone (some f) => R (Whatsvelte.tombstone k f)
  | _ => True

/-- The copies that an outstanding operation has captured. -/
def Job.Holds (R S : UiMessage → Prop) : Job → Prop
  | .flush _ ops => ∀ op ∈ ops.rows, op.Holds S
  | .patch _ k queued _ after => (∀ m ∈ queued, S m.msg) ∧ after.Holds R k
  | .patched k _ after => after.Holds R k
  | .adopt fresh => R fresh.msg
  | _ => True

/-- Every copy in memory has the property `R`, every other one the property `S`. -/
structure Holding (R S : UiMessage → Prop) (w : World) : Prop where
  resident : ∀ jid, ∀ o ∈ messagesFor w jid, R o.msg
  pending : ∀ op ∈ w.q.pending.rows, op.Holds S
  jobs : ∀ job ∈ w.jobs, job.Holds R S
  msgs : ∀ m ∈ w.msgs.rows, S m

/-- What the stores do to a message keeps the two properties. -/
structure ClosedUnder (R S : UiMessage → Prop) : Prop where
  load : ∀ m, S m → R m
  persist : ∀ m, R m → persistable m = true → S m
  patch : ∀ (fn : Patch) m m', fn.apply m = some m' → (R m → R m') ∧ (S m → S m')
  unread : ∀ m (b : Bool), R m → R { m with unread := some b }
  media : ∀ m (media : Option MediaDto) (thumbnail : Option String), R m →
    R { m with media := media, thumbnail := thumbnail }
  rekey : ∀ m p, (R m → R (rekey m.chatJid p m)) ∧ (S m → S (rekey m.chatJid p m))

variable {R S : UiMessage → Prop} {w v : World} {k : Key} {jid : Jid} {arr : List Obj} {o x : Obj}
  {e : Step}
variable {later : List Txn} {arr' written : List Obj} {t : Table PendingOp.key} {after : AfterPatch}
  {tid started : ℕ}

theorem holding_init : Holding R S World.init where
  resident _ _ h := nomatch h
  pending _ h := nomatch h
  jobs _ h := nomatch h
  msgs _ h := nomatch h

namespace Holding

/-- Only the lists change. -/
theorem with_lists (h : Holding R S w) (hl : ∀ jid, ∀ o ∈ messagesFor v jid, R o.msg)
    (hq : v.q.pending = w.q.pending) (ht : v.txq = w.txq) (hm : v.msgs = w.msgs) : Holding R S v where
  resident := hl
  pending := by rw [hq]; exact h.pending
  jobs := by rw [World.jobs, ht]; exact h.jobs
  msgs := by rw [hm]; exact h.msgs

/-- Only the write queue changes. -/
theorem with_queue (h : Holding R S w) (hb : v.byChat = w.byChat)
    (hq : ∀ op ∈ v.q.pending.rows, op.Holds S) (ht : v.txq = w.txq) (hm : v.msgs = w.msgs) :
    Holding R S v where
  resident jid o ho := by
    rw [messagesFor, hb] at ho
    exact h.resident jid o ho
  pending := hq
  jobs := by rw [World.jobs, ht]; exact h.jobs
  msgs := by rw [hm]; exact h.msgs

/-- Nothing changes that holds a copy. -/
theorem of_eq (h : Holding R S w) (hb : v.byChat = w.byChat) (hq : v.q.pending = w.q.pending)
    (ht : v.txq = w.txq) (hm : v.msgs = w.msgs) : Holding R S v :=
  h.with_queue hb (by rw [hq]; exact h.pending) ht hm

theorem of_same (h : Holding R S w) (hs : Same w v) : Holding R S v :=
  h.with_lists (fun jid o ho => h.resident jid o (hs.lists jid ▸ ho)) hs.pending hs.txq hs.msgs

/-- One list is published. -/
theorem update (h : Holding R S w) (ha : ∀ o ∈ arr, R o.msg)
    (hb : v.byChat = Function.update w.byChat jid (some arr)) (hq : v.q.pending = w.q.pending)
    (ht : v.txq = w.txq) (hm : v.msgs = w.msgs) : Holding R S v := by
  refine h.with_lists (fun j o ho => ?_) hq ht hm
  rw [messagesFor, hb, messagesFor_update] at ho
  split at ho
  · exact ha o ho
  · exact h.resident j o ho

theorem setList (h : Holding R S w) (ha : ∀ o ∈ arr, R o.msg) : Holding R S (w.setList jid arr) :=
  h.update ha rfl rfl rfl rfl

theorem commit (h : Holding R S w) (ha : ∀ o ∈ arr, R o.msg) : Holding R S (commit w jid arr) :=
  h.update (fun o ho => ha o ((sortByTime_perm arr).subset ((committed_sublist w jid arr).subset ho)))
    rfl rfl rfl rfl

theorem enqueue (h : Holding R S w) {job : Job} (hj : job.Holds R S) : Holding R S (w.enqueue job) where
  resident := h.resident
  pending := h.pending
  jobs j hj' := by
    rw [jobs_enqueue, mem_append, mem_singleton] at hj'
    rcases hj' with hj' | rfl
    · exact h.jobs j hj'
    · exact hj
  msgs := h.msgs

theorem popped {t : Txn} (h : Holding R S w) (ht : w.txq = t :: later) : Holding R S (w.popped later) where
  resident := h.resident
  pending := h.pending
  jobs j hj := h.jobs j (by rw [World.jobs, ht]; exact mem_cons_of_mem _ hj)
  msgs := h.msgs

theorem find (h : Holding R S w) {id : MsgId} (hx : findId (messagesFor w jid) id = some x) :
    R x.msg := h.resident jid x (findId_mem hx)

end Holding

theorem holds_append (ha : ∀ x ∈ arr, R x.msg) (ho : R o.msg) : ∀ x ∈ arr ++ [o], R x.msg := by
  intro x hx
  rcases mem_append.1 hx with hx | hx
  · exact ha x hx
  · rwa [mem_singleton.1 hx]

/-- A loop that keeps the property. -/
theorem Sweeps.holds {Q : UiMessage → UiMessage → Prop}
    (h : Sweeps Q arr arr' written) (hQ : ∀ m m', Q m m' → R m → R m') (ha : ∀ x ∈ arr, R x.msg) :
    ∀ x ∈ arr', R x.msg := by
  induction h with
  | nil => exact ha
  | keep y _ ih =>
    intro x hx
    rcases mem_cons.1 hx with rfl | hx
    · exact ha x mem_cons_self
    · exact ih (fun z hz => ha z (mem_cons_of_mem _ hz)) x hx
  | write y o hr _ ih =>
    intro x hx
    rcases mem_cons.1 hx with rfl | hx
    · exact hQ _ _ hr (ha y mem_cons_self)
    · exact ih (fun z hz => ha z (mem_cons_of_mem _ hz)) x hx

/-! ## The write queue -/

theorem holds_set {op : PendingOp} (h : ∀ op ∈ t.rows, op.Holds S)
    (ho : op.Holds S) : ∀ op' ∈ (t.set op).rows, op'.Holds S := by
  intro op' hop'
  rcases mem_upsert hop' with rfl | hop'
  · exact ho
  · exact h op' hop'

theorem holds_erase (h : ∀ op ∈ t.rows, op.Holds S) (k : Key) :
    ∀ op ∈ (t.erase k).rows, op.Holds S := fun op hop => h op (mem_of_mem_filter hop)

variable (hK : ClosedUnder R S)
include hK

theorem holds_persistMessage {q : Queue} (h : ∀ op ∈ q.pending.rows, op.Holds S) (ho : R o.msg) :
    ∀ op ∈ (persistMessage q o).pending.rows, op.Holds S := by
  unfold persistMessage
  split
  · rename_i hp
    exact holds_set h (hK.persist _ ho hp)
  · exact h

theorem holds_persistMessageInsert {q : Queue} (h : ∀ op ∈ q.pending.rows, op.Holds S)
    (ho : R o.msg) : ∀ op ∈ (persistMessageInsert q o).pending.rows, op.Holds S := by
  unfold persistMessageInsert
  split
  · rename_i hp
    split
    · exact h
    · exact holds_set h (hK.persist _ ho hp)
  · exact h

theorem holds_persistAll {written : List Obj} (ho : ∀ x ∈ written, R x.msg) :
    ∀ q : Queue, (∀ op ∈ q.pending.rows, op.Holds S) →
      ∀ op ∈ (persistAll q written).pending.rows, op.Holds S := by
  induction written with
  | nil => intro q h; exact h
  | cons x written ih =>
    intro q h
    exact ih (fun y hy => ho y (mem_cons_of_mem _ hy)) _ (holds_persistMessage hK h (ho x mem_cons_self))

/-! ## The acts of the store -/

omit hK in
/-- Code of the message store that is handed messages with the property. -/
def Scope.holds (R : UiMessage → Prop) : Scope :=
  ⟨fun _ => True, fun _ m => R m, fun _ _ => True, fun _ => True, fun _ => True⟩

theorem Remade.holds {m m' : UiMessage} (h : Remade (.holds R) m m') (hm : R m) : R m' := by
  cases h with
  | patch fn h => exact (hK.patch fn _ _ h).1 hm
  | unread b => exact hK.unread m b hm
  | media media thumbnail => exact hK.media m media thumbnail hm
  | fresh h => exact h

theorem Edited.holds (h : Edited (.holds R) arr arr' written) (ha : ∀ x ∈ arr, R x.msg) :
    (∀ x ∈ arr', R x.msg) ∧ ∀ x ∈ written, R x.msg := by
  cases h with
  | same => exact ⟨ha, forall_mem_nil _⟩
  | append ho => exact ⟨holds_append ha ho, forall_mem_singleton.2 ho⟩
  | sweep hp hs =>
    have harr := hs.holds (fun _ _ hr => hr.holds hK) fun x hx => ha x (hp.subset hx)
    exact ⟨harr, fun x hx => harr x (hs.sublist.subset hx)⟩
  | erase => exact ⟨fun x hx => ha x (mem_of_mem_eraseP hx), forall_mem_nil _⟩

theorem holding_act (h : Holding R S w) (ha : Act (.holds R) w v) : Holding R S v := by
  -- an edit leaves the list and the queue with the property
  have hedit : ∀ {jid : Jid} {arr arr' written : List Obj} {q : Queue} (ref : ℕ), messagesFor w jid = arr →
      Edited (.holds R) arr arr' written → q = w.q ∨ q = persistAll w.q written →
      Holding R S { w with q := q, nextRef := ref } ∧ ∀ o ∈ arr', R o.msg := by
    rintro jid arr arr' written q ref rfl he hq
    obtain ⟨harr, hwritten⟩ := he.holds hK (h.resident jid)
    refine ⟨h.with_queue rfl ?_ rfl rfl, harr⟩
    rcases hq with rfl | rfl
    · exact h.pending
    · exact holds_persistAll hK hwritten w.q h.pending
  cases ha with
  | commit ref ha hj he hq => exact (hedit ref ha he hq).1.commit (hedit ref ha he hq).2
  | setList ref ha hj he hq => exact (hedit ref ha he hq).1.setList (hedit ref ha he hq).2
  | insert ha hj ho =>
    subst ha
    refine Holding.commit ?_ (holds_append (h.resident _) ho)
    exact h.with_queue rfl (holds_persistMessageInsert hK h.pending ho) rfl rfl
  | adopt hf => exact h.enqueue hf
  | page => exact h.enqueue trivial
  | patch k fn hq hf =>
    refine h.enqueue ⟨fun m hm => h.pending _ (Table.get_mem (hq m hm)), ?_⟩
    unfold AfterPatch.Holds
    split
    · exact hf _ rfl
    · trivial
  | put fn hp hn =>
    exact h.with_queue rfl (holds_set h.pending ((hK.patch fn _ _ hn).2 (h.pending _ (Table.get_mem hp)))) rfl rfl
  | early _ status => exact h.of_same (.rememberEarlyReceipt w _ status)
  | flags => exact h.of_eq rfl rfl rfl rfl

theorem holding_acts (h : Holding R S w) (ha : Acts (.holds R) w v) : Holding R S v := by
  induction ha with
  | refl => exact h
  | tail _ ha ih => exact holding_act hK ih ha

theorem holding_adoptStoredDone (h : Holding R S w) {fresh : Obj} {stored : Option UiMessage}
    (hs : ∀ s ∈ stored, S s) : Holding R S (adoptStoredDone w fresh stored) :=
  holding_acts hK h (acts_adoptStoredDone w fun s hst _ _ => hK.media s _ _ (hK.load s (hs s hst)))

theorem holding_addHistoryMessages (h : Holding R S w) {list : List Obj} (persist : Bool)
    (hlist : ∀ o ∈ list, R o.msg) : Holding R S (addHistoryMessages w list persist) :=
  holding_acts hK h (acts_addHistoryMessages w persist fun o ho => ⟨trivial, hlist o ho, fun _ => trivial⟩)

theorem holding_afterPatch (h : Holding R S w) (ho : after.Holds R k)
    (found : Bool) : Holding R S (afterPatch w k found after) := by
  refine holding_acts hK h (acts_afterPatch w found (fun f _ hf => ?_) fun _ _ _ => trivial)
  subst hf
  exact ⟨trivial, ho⟩

omit hK in
theorem holding_removeMessage (h : Holding R S w) (jid : Jid) (id : MsgId) :
    Holding R S (removeMessage w jid id) := by
  have hq : ∀ op ∈ (persistMessageDelete w.q jid id).pending.rows, op.Holds S := by
    unfold persistMessageDelete
    split
    · exact h.pending
    · exact holds_set h.pending trivial
  refine (h.with_queue (v := { w with q := persistMessageDelete w.q jid id }) rfl hq rfl rfl).with_lists
    (fun j o ho => ?_) rfl rfl rfl
  rw [messagesFor_removeMessage] at ho
  split at ho
  · exact h.resident jid o (mem_of_mem_filter ho)
  · exact h.resident j o ho

/-! ## Paging -/

/-- What a read returns. -/
theorem Holding.row {limit : ℕ} {beforeTs : Option ℤ} (h : Holding R S w)
    (ho : o ∈ loadLatestMessages w jid limit beforeTs) : R o.msg := by
  refine hK.load _ ?_
  rcases (mem_loadLatestMessages ho).2 with ⟨hp | hp, -⟩ | ⟨hm, -⟩
  · exact h.pending _ (Table.get_mem hp)
  · exact h.pending _ (Table.get_mem hp)
  · exact h.msgs _ (Table.get_mem hm)

theorem holding_loadOlderDone (h : Holding R S w) (jid : Jid) (limit : ℕ) (beforeTs : Option ℤ) :
    Holding R S (loadOlderDone w jid limit beforeTs) := by
  obtain ⟨l, hl, hm⟩ := messagesFor_loadOlderDone w jid limit beforeTs
  refine h.with_lists (fun j o ho => ?_) rfl rfl rfl
  rw [hm] at ho
  split at ho
  · rcases mem_append.1 (hl.subset ho) with ho | ho
    · exact h.row hK (mem_of_mem_filter ho)
    · exact h.resident jid o ho
  · exact h.resident j o ho

/-! ## Unification -/

theorem holds_mergePush {l p : Jid} {src : List Obj} (hsrc : ∀ x ∈ src, R x.msg ∧ x.msg.chatJid = l) :
    ∀ st : List Obj × ℕ, (∀ x ∈ st.1, R x.msg) →
      ∀ x ∈ (src.foldl (mergePush l p) st).1, R x.msg := by
  intro st hst
  refine List.foldlRecOn (motive := fun st : List Obj × ℕ => ∀ x ∈ st.1, R x.msg) _ _ hst ?_
  intro st hst y hy
  obtain ⟨hR, rfl⟩ := hsrc y hy
  unfold mergePush
  split
  · exact hst
  · exact holds_append hst ((hK.rekey _ p).1 hR)

theorem holding_mergeMessages (hwf : w.Wf) (h : Holding R S w) (l p : Jid) :
    Holding R S (mergeMessages w l p) := by
  have hsrc : Holding R S { w with
      byChat := Function.update w.byChat l none
      exhausted := Function.update w.exhausted l false } := by
    refine h.with_lists (fun j o ho => ?_) rfl rfl rfl
    rw [messagesFor, messagesFor_update] at ho
    split at ho
    · cases ho
    · exact h.resident j o ho
  unfold mergeMessages
  dsimp only
  split
  · exact hsrc
  · refine Holding.commit ?_ (holds_mergePush hK
      (fun x hx => ⟨h.resident l x hx, (hwf l).chat x hx⟩) _ (hsrc.resident p))
    exact hsrc.of_eq rfl rfl rfl rfl

theorem holding_movePersistedChat (h : Holding R S w) (l p : Jid) :
    Holding R S (movePersistedChat w l p) := by
  unfold movePersistedChat
  split
  · exact h
  · have hmoved : ∀ op ∈ (w.q.pending.rows.foldl (movePendingOp l p) (w.q.pending, w.nextRef)).1.rows,
        op.Holds S := by
      refine List.foldlRecOn (motive := fun t : Table PendingOp.key × ℕ => ∀ op ∈ t.1.rows, op.Holds S)
        _ _ h.pending ?_
      intro t ht op hop
      have hS := h.pending op hop
      unfold movePendingOp
      split
      · exact ht
      · rename_i hc
        rw [ne_eq, not_not] at hc
        subst hc
        cases op with
        | put | add => exact holds_set (holds_erase ht _) ((hK.rekey _ p).2 hS)
        | del => exact holds_erase ht _
    refine Holding.enqueue ?_ trivial
    exact h.with_queue rfl hmoved rfl rfl

theorem holding_applyMerge (hwf : w.Wf) (h : Holding R S w) (l p : Jid) : Holding R S (applyMerge w l p) := by
  unfold applyMerge
  split
  · exact h
  · have hm := holding_mergeMessages hK hwf h l p
    have hc : Holding R S (mergeChats (mergeMessages w l p) l p) := by
      unfold mergeChats
      split
      · exact hm
      · exact hm.of_eq rfl rfl rfl rfl
    exact (holding_movePersistedChat hK hc l p).of_eq rfl rfl rfl rfl

theorem holding_unify (hwf : w.Wf) (h : Holding R S w) (he : e.unifies = true) : Holding R S (w.step e) := by
  obtain ⟨w₁, w₃, h1, h3, hr⟩ := unify_step he
  have hs₁ := h.of_same h1.toSame
  have hs₂ : Holding R S (w₁.merged (e.merge w)) := by
    unfold World.merged
    split
    · exact hs₁
    · exact holding_applyMerge hK (h1.wf hwf) hs₁ _ _
  have hs₃ := hs₂.of_same h3.toSame
  rcases hr with hr | ⟨d, -, hr⟩
  · rwa [hr]
  · rw [hr]; exact holding_acts hK hs₃ (acts_applyReceipt w₃ _ _ fun _ _ => trivial)

/-! ## The queue -/

omit hK in
/-- Entries leave the transaction queue. -/
theorem Holding.fewer (h : Holding R S w) (hb : v.byChat = w.byChat)
    (hq : v.q.pending = w.q.pending) (ht : ∀ t ∈ v.txq, ∃ t₀ ∈ w.txq, t₀.job = t.job)
    (hm : ∀ m ∈ v.msgs.rows, S m) : Holding R S v where
  resident jid o ho := by
    rw [messagesFor, hb] at ho
    exact h.resident jid o ho
  pending := by rw [hq]; exact h.pending
  jobs job hj := by
    obtain ⟨t, htv, rfl⟩ := mem_map.1 hj
    obtain ⟨t₀, ht₀, he⟩ := ht t htv
    rw [← he]
    exact h.jobs _ (mem_map_of_mem ht₀)
  msgs := hm

theorem holding_openNext (h : Holding R S w) : Holding R S (openNext w) := by
  rcases openNext_cases w with he | ⟨before, t, later, ht, -, hcase⟩
  · rwa [he]
  · have hmem : t ∈ w.txq := by rw [ht]; simp
    have hdrop : Holding R S { w with txq := before ++ later } :=
      h.fewer rfl rfl (fun y hy => ⟨y, by rw [ht]; exact mem_removed hy, rfl⟩) h.msgs
    rcases hcase with ⟨-, he⟩ | ⟨-, ⟨s, k, q, fn, after, hj, he⟩ | ⟨-, he⟩⟩
    · rw [he]
      refine h.fewer rfl rfl (fun y hy => ?_) h.msgs
      rcases mem_replaced hy with rfl | hy
      · exact ⟨t, hmem, rfl⟩
      · exact ⟨y, by rwa [ht], rfl⟩
    · rw [he]
      have hafter := h.jobs t.job (mem_map_of_mem hmem)
      rw [hj] at hafter
      exact holding_afterPatch hK hdrop hafter.2 false
    · rwa [he]

omit hK in
theorem holds_applyOps {ops : List PendingOp} (hops : ∀ op ∈ ops, op.Holds S) :
    ∀ t : Table UiMessage.key, (∀ m ∈ t.rows, S m) → ∀ m ∈ (applyOps t ops).rows, S m := by
  intro t ht
  refine List.foldlRecOn (motive := fun t : Table UiMessage.key => ∀ m ∈ t.rows, S m) _ _ ht ?_
  intro t ht op hop
  have hS := hops op hop
  have hset : ∀ x : UiMessage, S x → ∀ m ∈ (t.set x).rows, S m := by
    intro x hx m hm
    rcases mem_upsert hm with rfl | hm
    · exact hx
    · exact ht m hm
  cases op with
  | put => exact hset _ hS
  | add =>
    simp only [applyOp, Table.add]
    split
    · exact ht
    · exact hset _ hS
  | del => exact fun m hm => ht m (mem_of_mem_filter hm)

theorem holds_moveRows {l p : Jid} (t : Table UiMessage.key) (ht : ∀ m ∈ t.rows, S m) :
    ∀ m ∈ (moveRows t l p).rows, S m := by
  refine List.foldlRecOn (motive := fun t : Table UiMessage.key => ∀ m ∈ t.rows, S m) _ _ ht ?_
  intro t' ht' row hrow m hm
  obtain ⟨hmem, hl⟩ := mem_filter.1 hrow
  have hl' : row.chatJid = l := of_decide_eq_true hl
  subst hl'
  rcases mem_upsert (mem_of_mem_filter hm) with rfl | hm
  · exact (hK.rekey _ p).2 (ht row hmem)
  · exact ht' m hm

omit hK in
/-- A slice of a flush. -/
theorem holding_flushSlice (h : Holding R S w) {ops : Table PendingOp.key}
    {c : List Chat} (ht : w.txq = ⟨tid, true, .flush started ops, c⟩ :: later) :
    Holding R S (flushSlice w tid started ops later) := by
  have hops : ∀ op ∈ ops.rows, op.Holds S :=
    h.jobs (.flush started ops) (by rw [World.jobs, ht]; exact mem_cons_self)
  have hslice : ∀ op ∈ (ops.take FLUSH_SLICE).rows, op.Holds S := fun op hop => hops op (mem_of_mem_take hop)
  have hmsgs := holds_applyOps hslice w.msgs h.msgs
  have hlater : ∀ t ∈ later, ∃ t₀ ∈ w.txq, t₀.job = t.job :=
    fun t ht' => ⟨t, by rw [ht]; exact mem_cons_of_mem _ ht', rfl⟩
  have hdone : Holding R S { w with msgs := applyOps w.msgs (ops.take FLUSH_SLICE).rows, txq := later } :=
    h.fewer rfl rfl hlater hmsgs
  unfold flushSlice
  dsimp only
  split
  · exact hdone.of_eq rfl rfl rfl rfl
  · split
    · exact hdone
    · refine ⟨hdone.resident, hdone.pending, fun job hj => ?_, hdone.msgs⟩
      rw [World.jobs, map_append, mem_append] at hj
      rcases hj with hj | hj
      · exact hdone.jobs job hj
      · rw [mem_singleton.1 hj]
        exact fun op hop => hops op (mem_of_mem_drop hop)

theorem holding_patchRequests (h : Holding R S w) {queued : Option Obj} {fn : Patch} {c : List Chat}
    (ht : w.txq = ⟨tid, true, .patch started k queued fn after, c⟩ :: later) :
    Holding R S (patchRequests w tid k queued fn after later) := by
  obtain ⟨hqueued, hafter⟩ : (∀ m ∈ queued, S m.msg) ∧ after.Holds R k :=
    h.jobs (.patch started k queued fn after) (by rw [World.jobs, ht]; exact mem_cons_self)
  obtain ⟨msgs, he, hm⟩ := patchRequests_eq w tid k queued fn after later
  rw [he]
  refine ⟨h.resident, ?_, fun job hj => ?_, ?_⟩
  · split
    · exact holds_erase h.pending k
    · exact h.pending
  · rcases mem_cons.1 hj with rfl | hj
    · exact hafter
    · exact h.jobs job (by rw [World.jobs, ht]; exact mem_cons_of_mem _ hj)
  · rcases hm with rfl | ⟨current, next, hcur, hnext, rfl⟩
    · exact h.msgs
    · intro m hm
      rcases mem_upsert hm with rfl | hm
      · refine (hK.patch fn _ _ hnext).2 ?_
        rcases Option.or_eq_some_iff.1 hcur with hg | ⟨-, hq⟩
        · exact h.msgs _ (Table.get_mem hg)
        · obtain ⟨o, ho, rfl⟩ := Option.map_eq_some_iff.1 hq
          exact hqueued o ho
      · exact h.msgs m hm

/-- The transaction at the head of the queue runs. -/
theorem holding_advance (h : Holding R S w) : Holding R S (advance w) := by
  have hr := ran_advance w
  generalize advance w = v at hr ⊢
  cases hr with
  | idle => exact h
  | flush tid started ops c later ht => exact holding_flushSlice h ht
  | patch tid started k₀ queued fn after c later ht => exact holding_patchRequests hK h ht
  | patched tid k₀ found after c later ht =>
    have hafter : after.Holds R k₀ :=
      h.jobs (.patched k₀ found after) (by rw [World.jobs, ht]; exact mem_cons_self)
    exact holding_afterPatch hK (h.popped ht) hafter found
  | move tid started l p c later ht =>
    have hp := h.popped ht
    exact ⟨hp.resident, hp.pending, hp.jobs, holds_moveRows hK w.msgs h.msgs⟩
  | page tid jid limit beforeTs c later ht =>
    exact holding_acts hK (holding_loadOlderDone hK (h.popped ht) jid limit beforeTs) (acts_openChatDone _ jid)
  | tails tid jids n c later ht =>
    have hp : Holding R S { w.popped later with
        nextRef := (tailRows (w.popped later) n w.nextRef jids).2 } := (h.popped ht).of_eq rfl rfl rfl rfl
    refine holding_addHistoryMessages hK hp false fun o ho => ?_
    obtain ⟨jid, -, ref, ho⟩ := mem_tailRows jids _ ho
    refine Holding.row hK ?_ ho
    exact (h.popped ht).of_eq rfl rfl rfl rfl
  | adopt tid fresh c later ht =>
    exact holding_adoptStoredDone hK (h.popped ht) fun s hs => h.msgs s (Table.get_mem hs)
  | chats tid started c later ht | account tid jid c later ht => exact (h.popped ht).of_eq rfl rfl rfl rfl
  | clear tid c later ht =>
    have hp := h.popped ht
    exact ⟨hp.resident, hp.pending, hp.jobs, fun _ hm => by cases hm⟩

omit hK in
theorem holding_flushFails (h : Holding R S w) (f : FlushFailure) : Holding R S (flushFails w f) := by
  have hr := failed_flushFails w f
  generalize flushFails w f = v at hr ⊢
  cases hr with
  | idle => exact h
  | @hit before later _ started _ ops _ _ ht hf hdone =>
    subst hdone
    refine h.fewer rfl rfl (fun t hm => ⟨t, by rw [ht]; exact mem_removed hm, rfl⟩)
      (holds_applyOps (fun op hop => ?_) w.msgs h.msgs)
    exact h.jobs (.flush started ops) (by rw [World.jobs, ht]; simp) op (mem_of_written hop)

omit hK in
theorem holding_flushPendingWrites (h : Holding R S w) : Holding R S (flushPendingWrites w) := by
  have hq : Holding R S { w with q := { w.q with msgTimer := false, pending := .empty } } :=
    h.with_queue rfl (fun _ hop => nomatch hop) rfl rfl
  have hj : (Job.flush w.epoch w.q.pending).Holds R S := h.pending
  exact hq.enqueue hj

/-! ## Steps -/

/-- What a step brings into memory has the property. -/
def Brings (R : UiMessage → Prop) (w : World) : Step → Prop
  | .addMessage m => R (startUnread m) ∧ R { startUnread m with status := some .sent }
  | .addHistoryMessages list => ∀ m ∈ list, R m
  | .addOptimistic jid r now text quoted =>
    R (textBubble jid r now text quoted) ∧
      R { textBubble jid r now text quoted with status := some .sent }
  | .addOptimisticMedia jid r now kind text thumbnail =>
    R (mediaBubble jid r now kind text thumbnail) ∧
      R { mediaBubble jid r now kind text thumbnail with status := some .sent }
  | .confirmOptimistic jid r realId =>
    ∀ x ∈ findId (messagesFor w jid) (tempId r), R (confirmed w x realId).msg
  | .failOptimistic jid r =>
    ∀ x ∈ findId (messagesFor w jid) (tempId r), R { x.msg with status := some .failed }
  | .applyRevoke jid targetId fallback =>
    findId (messagesFor w jid) targetId = none → ∀ f ∈ fallback, R (tombstone ⟨jid, targetId⟩ f)
  | .restoreMessage original => R original.msg
  | _ => True

theorem within_holds (h : Holding R S w) (hb : Brings R w e) : e.Within (.holds R) w := by
  have htakes : ∀ m : UiMessage, R (startUnread m) → R { startUnread m with status := some .sent } →
      (Scope.holds R).Takes w m := fun m hm hm' =>
    ⟨trivial, hm, fun _ _ _ _ => hm',
      fun st hst _ _ => hK.media st.msg _ _ (hK.load _ (h.pending _ (Table.get_mem hst)))⟩
  cases e with
  | addMessage m => exact htakes m hb.1 hb.2
  | addOptimistic jid r now text quoted => exact htakes (textBubble jid r now text quoted) hb.1 hb.2
  | addOptimisticMedia jid r now kind text thumbnail =>
    exact htakes (mediaBubble jid r now kind text thumbnail) hb.1 hb.2
  | confirmOptimistic => exact ⟨trivial, hb⟩
  | failOptimistic => exact hb
  | applyRevoke => exact fun hn f hf => ⟨trivial, hb hn f hf⟩
  | applyReceipt => exact fun _ _ => trivial
  | restoreMessage => exact ⟨trivial, hb, fun _ _ => hb, trivial⟩
  | _ => trivial

/-- **The rule**: a step keeps the property of all copies if what it brings in has it. -/
theorem holding_step (hwf : w.Wf) (h : Holding R S w) (hb : Brings R w e) : Holding R S (w.step e) := by
  cases hs : e.sync with
  | true =>
    have hc := calls_step hs (within_holds hK h hb)
    generalize hv : w.step e = v at hc
    cases hc with
    | store ha => exact holding_acts hK h ha
    | read ha jid n => exact (holding_acts hK h ha).of_same (.decrementUnread _ jid n)
    | confirm t ha =>
      refine holding_acts hK ?_ ha
      exact h.of_eq rfl rfl rfl rfl
    | cut hb =>
      have harr := messagesFor_of_some hb
      subst harr
      exact h.update (fun o ho => h.resident _ o (mem_of_mem_lastN ho)) rfl rfl rfl rfl
    | history =>
      refine holding_addHistoryMessages hK ?_ true fun o ho => hb _ (mem_objs ho)
      exact h.of_eq rfl rfl rfl rfl
    | remove jid id => exact holding_removeMessage h jid id
    | chat op => exact h.of_same (.chat w op)
    | flags => exact h.of_eq rfl rfl rfl rfl
    | start =>
      refine Holding.enqueue ?_ ?_
      · exact h.of_eq rfl rfl rfl rfl
      · cases ‹Job› <;> trivial
    | flush => exact holding_flushPendingWrites h
    | unify hu => exact hv ▸ holding_unify hK hwf h hu
  | false =>
    cases e with
    | openNext => exact holding_openNext hK h
    | advance => exact holding_advance hK h
    | flushFails f => exact holding_flushFails h f
    | resetAll => exact ⟨fun _ _ ho => (nomatch ho), fun _ hop => (nomatch hop), h.jobs, h.msgs⟩
    | wipe =>
      simp only [World.step, wipe]
      split
      · exact h
      · split
        · exact h
        · refine Holding.enqueue ?_ trivial
          exact h.of_eq rfl rfl rfl rfl
    | _ => cases hs

end Whatsvelte
