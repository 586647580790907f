import Whatsvelte.Proof.Resident

/-!
# One message at a time

The `Slot` of a key is what the client holds of one message: the resident copy and the
effective persisted copy. The specification of a store function is what it does to
the slot of every key.

`Sync` is the part of the state that synchronous code leaves alone: it only adds to
the transaction queue, at the end. `Quiet P k` says that a piece of synchronous code is
not about the message `k`: it may drop the resident copy (trimming) or, if `P`, rewrite
its unread flag on both sides, nothing else. Quiet pieces compose (`Quiet.trans`).
-/

namespace Whatsvelte

/-- What the client holds under one key. -/
@[ext] structure Slot where
  resident : Option Obj
  stored : Option UiMessage

def World.slot (w : World) (k : Key) : Slot := ⟨findId (messagesFor w k.chatJid) k.id, w.eff k⟩

theorem slot_resident (w : World) (k : Key) :
    (w.slot k).resident = findId (messagesFor w k.chatJid) k.id := rfl

/-- Every resident list is well formed. -/
def World.Wf (w : World) : Prop := ∀ jid, ListOK jid (messagesFor w jid)

/-! ## Synchronous code -/

/-- A job that the stores start: a move is between two different chats, and the write
that a patch saw in the queue is one of its own key. -/
def Job.proper : Job → Bool
  | .patch _ k queued _ _ => queued.all (fun m => m.key = k)
  | .move _ fromJid toJid => fromJid ≠ toJid
  | .adopt fresh => fresh.msg.id ≠ ""
  | _ => true

/-- What synchronous code can do to the database side of the state. -/
structure Sync (w v : World) : Prop where
  msgs : v.msgs = w.msgs
  chatRows : v.chatRows = w.chatRows
  account : v.account = w.account
  epoch : v.epoch = w.epoch
  wiping : v.wiping = w.wiping
  tid : w.nextTid ≤ v.nextTid
  txq : ∃ ts : List Txn, v.txq = w.txq ++ ts ∧ ∀ t ∈ ts, t.opened = false ∧
    w.nextTid ≤ t.tid ∧ t.tid < v.nextTid ∧ t.job.stale w.epoch = false ∧ t.job.proper = true

namespace Sync

variable {w v u : World}

theorem refl (w : World) : Sync w w :=
  ⟨rfl, rfl, rfl, rfl, rfl, le_rfl, [], by simp, by simp⟩

theorem trans (h : Sync w v) (h' : Sync v u) : Sync w u := by
  obtain ⟨ts, ht, hts⟩ := h.txq
  obtain ⟨ts', ht', hts'⟩ := h'.txq
  refine ⟨h'.msgs.trans h.msgs, h'.chatRows.trans h.chatRows, h'.account.trans h.account,
    h'.epoch.trans h.epoch, h'.wiping.trans h.wiping, h.tid.trans h'.tid, ts ++ ts', ?_, ?_⟩
  · rw [ht', ht, List.append_assoc]
  · intro t hm
    rcases List.mem_append.1 hm with hm | hm
    · obtain ⟨h1, h2, h3, h4⟩ := hts t hm
      exact ⟨h1, h2, h3.trans_le h'.tid, h4⟩
    · obtain ⟨h1, h2, h3, h4⟩ := hts' t hm
      exact ⟨h1, h.tid.trans h2, h3, h.epoch ▸ h4⟩

/-- Code that only changes the stores and the write queue. -/
theorem of_same (h1 : v.msgs = w.msgs := by rfl) (h2 : v.chatRows = w.chatRows := by rfl)
    (h3 : v.account = w.account := by rfl) (h4 : v.epoch = w.epoch := by rfl) (h5 : v.wiping = w.wiping := by rfl)
    (h6 : v.nextTid = w.nextTid := by rfl) (h7 : v.txq = w.txq := by rfl) : Sync w v :=
  ⟨h1, h2, h3, h4, h5, h6.ge, [], by simp [h7], by simp⟩

theorem enqueue (w : World) {job : Job} (h : job.stale w.epoch = false) (hp : job.proper = true) :
    Sync w (w.enqueue job) := by
  refine ⟨rfl, rfl, rfl, rfl, rfl, Nat.le_succ _, [⟨w.nextTid, false, job, []⟩], rfl, ?_⟩
  intro t ht
  rw [List.mem_singleton.1 ht]
  exact ⟨rfl, le_rfl, Nat.lt_succ_self _, h, hp⟩

theorem jobs (h : Sync w v) : ∃ js, v.jobs = w.jobs ++ js := by
  obtain ⟨ts, ht, -⟩ := h.txq
  exact ⟨ts.map (·.job), by simp [World.jobs, ht]⟩

end Sync

/-! ## What happens to a slot -/

namespace Slot

variable {s s' s'' : Slot}

/-- The resident copy stays or is dropped. -/
def Keeps (s s' : Slot) : Prop :=
  s'.stored = s.stored ∧ (s'.resident = s.resident ∨ s'.resident = none)

/-- The resident copy is rewritten to `o` on both sides, and may be dropped then. -/
def Writes (o : Obj) (s s' : Slot) : Prop :=
  s'.stored = putEff o.msg s.stored ∧ (s'.resident = some o ∨ s'.resident = none)

/-- The unread flag of the resident copy is set on both sides. -/
def Flags (s s' : Slot) : Prop :=
  ∃ x o b, s.resident = some x ∧ o.msg = { x.msg with unread := some b } ∧ Writes o s s'

/-- What code that is not about a message can do to it; `P` says whether it may set unread
flags. -/
def Calm (P : Prop) (s s' : Slot) : Prop := Keeps s s' ∨ P ∧ Flags s s'

theorem Keeps.refl (s : Slot) : Keeps s s := ⟨rfl, .inl rfl⟩

theorem Keeps.trans (h : Keeps s s') (h' : Keeps s' s'') : Keeps s s'' := by
  refine ⟨h'.1.trans h.1, ?_⟩
  rcases h'.2 with h' | h'
  · rw [h']; exact h.2
  · exact .inr h'

theorem Writes.keeps {o : Obj} (h : Writes o s s') (h' : Keeps s' s'') : Writes o s s'' := by
  refine ⟨h'.1.trans h.1, ?_⟩
  rcases h'.2 with h' | h'
  · rw [h']; exact h.2
  · exact .inr h'

theorem persistable_unread (m : UiMessage) (b : Option Bool) :
    persistable { m with unread := b } = persistable m := rfl

theorem Calm.trans {P : Prop} (h : Calm P s s') (h' : Calm P s' s'') : Calm P s s'' := by
  rcases h with h | ⟨hP, x, o, b, hx, ho, hw⟩ <;>
    rcases h' with h' | ⟨hP', x', o', b', hx', ho', hv⟩
  · exact .inl (h.trans h')
  · refine .inr ⟨hP', x', o', b', ?_, ho', h.1 ▸ hv.1, hv.2⟩
    rcases h.2 with h | h <;> rw [← hx', h]
    rw [h] at hx'; cases hx'
  · exact .inr ⟨hP, x, o, b, hx, ho, hw.keeps h'⟩
  · refine .inr ⟨hP, x, o', b', hx, ?_, ?_, hv.2⟩
    · rcases hw.2 with h | h <;> rw [h] at hx'
      · cases hx'; rw [ho', ho]
      · cases hx'
    · rw [hv.1, hw.1]
      have hx' : x' = o := by
        rcases hw.2 with h | h <;> rw [h] at hx' <;> cases hx'
        rfl
      subst hx'
      unfold putEff
      rw [ho', persistable_unread]
      split <;> rfl

theorem Calm.mono {P Q : Prop} (h : Calm P s s') (hPQ : P → Q) : Calm Q s s' :=
  h.imp_right fun hf => ⟨hPQ hf.1, hf.2⟩

theorem Calm.keeps {P : Prop} (h : Calm P s s') (hP : ¬ P) : Keeps s s' :=
  h.resolve_right fun hf => hP hf.1

end Slot

/-- A piece of code that is not about the message `k`. -/
structure Quiet (P : Prop) (k : Key) (w v : World) : Prop where
  wf : v.Wf
  sync : Sync w v
  calm : Slot.Calm P (w.slot k) (v.slot k)

theorem Quiet.refl {P : Prop} {k : Key} {w : World} (h : w.Wf) : Quiet P k w w :=
  ⟨h, Sync.refl w, .inl (Slot.Keeps.refl _)⟩

theorem Quiet.trans {P : Prop} {k : Key} {w v u : World} (h : Quiet P k w v)
    (h' : Quiet P k v u) : Quiet P k w u := ⟨h'.wf, h.sync.trans h'.sync, h.calm.trans h'.calm⟩

theorem Quiet.mono {P Q : Prop} {k : Key} {w v : World} (h : Quiet P k w v) (hPQ : P → Q) :
    Quiet Q k w v := ⟨h.wf, h.sync, h.calm.mono hPQ⟩

theorem Quiet.foldl {P : Prop} {k : Key} {β : Type} {f : World → β → World} {l : List β} {w : World}
    (hf : ∀ w b, b ∈ l → w.Wf → Quiet P k w (f w b)) (h : w.Wf) : Quiet P k w (l.foldl f w) := by
  induction l generalizing w with
  | nil => exact .refl h
  | cons b l ih =>
    have hb := hf w b List.mem_cons_self h
    exact hb.trans (ih (fun w b hb => hf w b (List.mem_cons_of_mem _ hb)) hb.wf)

/-! ## The effective copy under synchronous code -/

variable {w v : World} {k : Key} {o : Obj}

theorem eff_congr (h1 : v.q.pending.get k = w.q.pending.get k) (h2 : v.base k = w.base k) :
    v.eff k = w.eff k := by
  rw [eff_apply, eff_apply, h1, h2]

/-- A job that leaves the record under `k` alone. -/
def Job.Inert (k : Key) (job : Job) : Prop := ∀ H : History, job.eff H k = H k

theorem base_enqueue_of_inert {job : Job} (h : job.Inert k) : (w.enqueue job).base k = w.base k := by
  rw [base_enqueue]; exact h _

/-- A write of one message, whatever else changes in memory. -/
theorem eff_persistMessage (hq : v.q = persistMessage w.q o) (hb : v.base = w.base) :
    v.eff k = if o.key = k then putEff o.msg (w.eff k) else w.eff k := by
  rw [eff_apply, eff_apply, hq, hb, get_persistMessage]
  by_cases hk : o.key = k
  · by_cases hp : persistable o.msg <;> simp [hk, hp, putEff, PendingOp.eff]
  · simp [hk]

theorem eff_persistAll_of_ne {written : List Obj} (hq : v.q = persistAll w.q written)
    (hb : v.base = w.base) (h : ∀ x ∈ written, x.key ≠ k) : v.eff k = w.eff k :=
  eff_congr (by rw [hq, get_persistAll_of_ne h]) (by rw [hb])

theorem eff_persistAll_of_mem {written : List Obj} (hq : v.q = persistAll w.q written)
    (hb : v.base = w.base) (ho : o ∈ written) (hu : ∀ x ∈ written, x.key = o.key → x = o) :
    v.eff o.key = putEff o.msg (w.eff o.key) := by
  rw [eff_apply, eff_apply, hq, hb, get_persistAll_of_mem ho hu]
  by_cases hp : persistable o.msg <;> simp [hp, putEff, PendingOp.eff]

/-! ## Publishing a list -/

variable {jid : Jid} {arr arr' written : List Obj}

/-- `v` holds under `jid` some of the messages `arr`, and the other lists of `w`. -/
def Publishes (w v : World) (jid : Jid) (arr : List Obj) : Prop :=
  ∃ l l', l'.Perm arr ∧ l.Sublist l' ∧
    ∀ j, messagesFor v j = if j = jid then l else messagesFor w j

theorem publishes_commit (hb : v.byChat = w.byChat) : Publishes w (commit v jid arr) jid arr := by
  refine ⟨committed v jid arr, sortByTime arr, sortByTime_perm arr, committed_sublist v jid arr, ?_⟩
  intro j
  rw [messagesFor_commit, messagesFor, messagesFor, hb]

theorem publishes_setList (hb : v.byChat = w.byChat) (hs : arr'.Sublist arr) :
    Publishes w (v.setList jid arr') jid arr := by
  refine ⟨arr', arr, .refl _, hs, fun j => ?_⟩
  rw [messagesFor_setList, messagesFor, messagesFor, hb]

namespace Publishes

theorem wf (hp : Publishes w v jid arr) (h : w.Wf) (ha : ListOK jid arr) : v.Wf := by
  obtain ⟨l, l', hl', hl, hm⟩ := hp
  intro j
  rw [hm]
  split
  · rename_i hj; rw [hj]; exact (ha.perm hl'.symm).sublist hl
  · exact h j

theorem resident (hp : Publishes w v jid arr) (ha : ListOK jid arr) (hid : k.id ≠ "") (hk : k.chatJid = jid) :
    (v.slot k).resident = findId arr k.id ∨ (v.slot k).resident = none := by
  obtain ⟨l, l', hl', hl, hm⟩ := hp
  simp only [World.slot, hm, hk, if_true]
  rw [← findId_perm ha hid hl'.symm]
  exact findId_sublist (ha.perm hl'.symm) hid hl

theorem resident_of_ne (hp : Publishes w v jid arr) (hk : k.chatJid ≠ jid) :
    (v.slot k).resident = (w.slot k).resident := by
  obtain ⟨l, l', hl', hl, hm⟩ := hp
  simp only [World.slot, hm, hk, if_false]

/-- Publishing a list that holds `k` as before, or no longer. -/
theorem keeps (hp : Publishes w v jid arr) (ha : ListOK jid arr) (hid : k.id ≠ "")
    (he : v.eff k = w.eff k) (hf : k.chatJid = jid →
      findId arr k.id = findId (messagesFor w jid) k.id ∨ findId arr k.id = none) :
    Slot.Keeps (w.slot k) (v.slot k) := by
  refine ⟨he, ?_⟩
  by_cases hk : k.chatJid = jid
  · rcases hp.resident ha hid hk with h1 | h1
    · rw [h1, World.slot, hk]; exact hf hk
    · exact .inr h1
  · exact .inl (hp.resident_of_ne hk)

theorem writes (hp : Publishes w v jid arr) (ha : ListOK jid arr) (hid : k.id ≠ "")
    (hk : k.chatJid = jid) (he : v.eff k = putEff o.msg (w.eff k))
    (hf : findId arr k.id = some o) : Slot.Writes o (w.slot k) (v.slot k) :=
  ⟨he, hf ▸ hp.resident ha hid hk⟩

end Publishes

/-! ## Rewriting messages in place -/

/-- One message is replaced by `o`, which has its key. -/
theorem replace_one {x : Obj} (h : w.Wf) (hx : findId (messagesFor w jid) o.msg.id = some x)
    (hc : o.msg.chatJid = jid) (hp : Publishes w v jid (replaceId (messagesFor w jid) o.msg.id o)) :
    v.Wf ∧ ∀ k : Key, k.id ≠ "" →
      (o.key ≠ k → v.eff k = w.eff k → Slot.Keeps (w.slot k) (v.slot k)) ∧
      (o.key = k → (v.slot k).resident = some o ∨ (v.slot k).resident = none) := by
  have ha := (h jid).replaceId hx rfl hc
  refine ⟨hp.wf h ha, fun k hid => ?_⟩
  have hf := findId_replaceId (h jid) hx rfl hid
  refine ⟨fun hk he => hp.keeps ha hid he fun hj => .inl ?_, fun hk => ?_⟩
  · rw [hf, if_neg]
    exact fun hi => hk (by rw [Obj.key, UiMessage.key, hi, hc, ← hj])
  · subst hk
    rw [← show findId (replaceId (messagesFor w jid) o.msg.id o) o.key.id = some o by
      rw [hf]; exact if_pos rfl]
    exact hp.resident ha hid hc

/-- **A loop over a chat** rewrites some of its messages and persists those. -/
theorem write_swept {R : UiMessage → UiMessage → Prop} (h : w.Wf)
    (hsw : Sweeps R arr arr' written) (hR : ∀ m m', R m m' → m'.key = m.key)
    (hperm : arr.Perm (messagesFor w jid)) (hq : v.q = persistAll w.q written)
    (hb : v.base = w.base) (hp : Publishes w v jid arr') :
    v.Wf ∧ ∀ k : Key, k.id ≠ "" →
      (Slot.Keeps (w.slot k) (v.slot k) ∧ ∀ o ∈ written, o.key ≠ k) ∨
      k.chatJid = jid ∧ ∃ x o, (w.slot k).resident = some x ∧ R x.msg o.msg ∧
        Slot.Writes o (w.slot k) (v.slot k) := by
  have hok := (h jid).perm hperm.symm
  have ha := hsw.listOK hR hok
  have hkey : ∀ y ∈ written, y.msg.chatJid = jid := fun y hy => ha.chat y (hsw.sublist.subset hy)
  refine ⟨hp.wf h ha, fun k hid => ?_⟩
  by_cases hj : k.chatJid = jid
  · have hfind := findId_perm (h jid) hid hperm.symm
    rcases hsw.find hR hok hid with ⟨h1, h2⟩ | ⟨x, o, h1, h2, h3, h4⟩
    · have hne : ∀ y ∈ written, y.key ≠ k := by
        rintro y hy rfl
        exact h2 y hy rfl
      exact .inl ⟨hp.keeps ha hid (eff_persistAll_of_ne hq hb hne) fun _ => .inl (h1.trans hfind), hne⟩
    · have hid' := findId_id h2
      have hk : o.key = k := by rw [Obj.key, UiMessage.key, hid', hkey o h3, ← hj]
      subst hk
      refine .inr ⟨hj, x, o, ?_, h4, hp.writes ha hid hj (eff_persistAll_of_mem hq hb h3 ?_) h2⟩
      · rw [World.slot, hj]; exact hfind.symm.trans h1
      · intro y hy hky
        have hi : y.msg.id = o.msg.id := congrArg Key.id hky
        exact ha.eq_of_id (hsw.sublist.subset hy) (findId_mem h2) hi (hi ▸ hid)
  · have hne : ∀ y ∈ written, y.key ≠ k := by
      rintro y hy rfl
      exact hj (hkey y hy)
    exact .inl ⟨hp.keeps ha hid (eff_persistAll_of_ne hq hb hne) fun hj' => absurd hj' hj, hne⟩

end Whatsvelte
