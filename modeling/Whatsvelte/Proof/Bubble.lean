import Whatsvelte.Proof.Copies
import Whatsvelte.Proof.Deleted
import Whatsvelte.Proof.Sorted

/-!
# A bubble that waits

Until its send is confirmed a bubble is one message of a list that is sorted, trimmed and merged into.
`floats_sync`, `floats_advance`: a step that is not about the bubble leaves it in the list, or leaves the list full of
messages that are as new as the bubble or were handed to the step.
-/

namespace Whatsvelte

open List

variable {w v : World} {e : Step} {m m' : UiMessage} {o : Obj} {arr arr' written : List Obj} {later : List Txn}

/-- A bubble, and the step that it has to get through: the ids that the step is handed, and how
many messages it keeps if it cuts the list. -/
structure Bubble where
  jid : Jid
  id : MsgId
  time : ℤ
  others : List MsgId
  limit : Option ℕ

variable {b : Bubble}

/-- The list holds the bubble, or it was cut and is full of messages that are as new or handed in. -/
structure Bubble.Floats (b : Bubble) (arr : List Obj) : Prop where
  same : ∀ o ∈ arr, o.msg.id = b.id → o.msg.timestamp = b.time ∧ o.msg.kind ≠ .other
  kept : hasId arr b.id = true ∨ ∃ n, b.limit = some n ∧ n ≤ arr.length ∧
    ∀ o ∈ arr, b.time ≤ o.msg.timestamp ∨ o.msg.id ∈ b.others

/-- What takes the place of a message: a version of it, or a message handed in that does not
take the place of the bubble. -/
def Bubble.Swaps (b : Bubble) (m m' : UiMessage) : Prop :=
  m'.id = m.id ∧ m'.timestamp = m.timestamp ∧ m'.kind = m.kind ∨ m'.id ∈ b.others ∧ m'.id ≠ b.id ∧ m.id ≠ b.id

/-- Code that is handed the messages of `b.others`. -/
def Bubble.scope (b : Bubble) : Scope :=
  ⟨fun _ => True, fun x m => x.elim (m.id ∈ b.others ∧ m.id ≠ b.id) (b.Swaps · m), fun _ _ => True, fun _ => True,
    fun _ => False⟩

theorem Patch.apply_kind {fn : Patch} (h : fn.apply m = some m') : m'.kind = m.kind := by
  cases fn with
  | receipt =>
    simp only [Patch.apply] at h
    split at h <;> cases h
    rfl
  | _ => cases h; rfl

theorem Remade.swaps (h : Remade b.scope m m') : b.Swaps m m' := by
  cases h with
  | patch fn h => exact .inl ⟨congrArg Key.id (Patch.apply_key h).1, (Patch.apply_key h).2, Patch.apply_kind h⟩
  | unread | media => exact .inl ⟨rfl, rfl, rfl⟩
  | fresh h => exact h

namespace Bubble.Floats

/-- Messages are handed in, and the list is put in order. -/
theorem add (h : b.Floats arr) {l : List Obj} (hl : ∀ o ∈ l, o.msg.id ∈ b.others ∧ o.msg.id ≠ b.id)
    (hp : arr'.Perm (l ++ arr)) : b.Floats arr' := by
  have hmem : ∀ o ∈ arr', o ∈ l ∨ o ∈ arr := fun o ho => mem_append.1 (hp.subset ho)
  refine ⟨fun o ho hi => ?_, h.kept.imp (fun hb => ?_) ?_⟩
  · exact (hmem o ho).elim (fun ho => absurd hi (hl o ho).2) fun ho => h.same o ho hi
  · obtain ⟨x, hx, hi⟩ := hasId_iff.1 hb
    exact hasId_iff.2 ⟨x, hp.symm.subset (mem_append_right l hx), hi⟩
  · rintro ⟨n, hn, hlen, hall⟩
    refine ⟨n, hn, ?_, fun o ho => (hmem o ho).elim (fun ho => .inr (hl o ho).1) (hall o)⟩
    rw [hp.length_eq, length_append]
    omega

theorem push (h : b.Floats arr) (ho : o.msg.id ∈ b.others ∧ o.msg.id ≠ b.id) : b.Floats (arr ++ [o]) :=
  h.add (forall_mem_singleton.2 ho) perm_append_comm

/-- Messages are rewritten. -/
theorem swept (h : b.Floats arr) (hs : Sweeps b.Swaps arr arr' written) : b.Floats arr' := by
  have hids := hs.map_eq (f := fun m => decide (m.id = b.id)) fun m m' hr => by
    rcases hr with ⟨hi, -⟩ | ⟨-, h1, h2⟩
    · rw [hi]
    · simp [h1, h2]
  refine ⟨hs.holds (R := fun m => m.id = b.id → m.timestamp = b.time ∧ m.kind ≠ .other)
    (fun m m' hr hm hi => ?_) h.same, h.kept.imp (fun hb => ?_) ?_⟩
  · rcases hr with ⟨hid, ht, hk⟩ | ⟨-, hne, -⟩
    · rw [ht, hk]
      exact hm (hid ▸ hi)
    · exact absurd hi hne
  · have hany := congrArg (·.any fun p => p) hids
    simp only [any_map] at hany
    exact hany.trans hb
  · rintro ⟨n, hn, hlen, hall⟩
    have hlen' := congrArg length hids
    simp only [length_map] at hlen'
    refine ⟨n, hn, hlen'.ge.trans' hlen, hs.holds (R := fun m => b.time ≤ m.timestamp ∨ m.id ∈ b.others)
      (fun m m' hr hm => ?_) hall⟩
    rcases hr with ⟨hid, ht, -⟩ | ⟨ho, -⟩
    · rwa [hid, ht]
    · exact .inr ho

/-- The end of a sorted list is kept. -/
theorem cut (h : b.Floats arr) (hs : ByTime arr) {n : ℕ} (hn : ∃ k ≤ n, b.limit = some k) (hlen : n ≤ arr.length) :
    b.Floats (lastN n arr) := by
  obtain ⟨k, hkn, hk'⟩ := hn
  refine ⟨fun o ho => h.same o (mem_of_mem_lastN ho), ?_⟩
  by_cases hk : hasId (lastN n arr) b.id = true
  · exact .inl hk
  refine .inr ⟨k, hk', by rw [length_lastN]; omega, fun o ho => ?_⟩
  rcases h.kept with hb | ⟨-, -, -, hall⟩
  · obtain ⟨x, hx, hi⟩ := hasId_iff.1 hb
    rw [← (h.same x hx hi).1]
    exact .inl (le_of_cut hs hx (fun hx' => hk (hasId_iff.2 ⟨x, hx', hi⟩)) ho)
  · exact hall o (mem_of_mem_lastN ho)

theorem committed (h : b.Floats arr) (hc : w.activeJid ≠ some b.jid → ∃ k ≤ RESIDENT_TAIL, b.limit = some k) :
    b.Floats (committed w b.jid arr) := by
  have hp := h.add (forall_mem_nil _) (sortByTime_perm arr)
  unfold Whatsvelte.committed
  split
  · rename_i ht
    simp only [trims, Bool.and_eq_true, decide_eq_true_eq] at ht
    exact hp.cut (byTime_sortByTime arr) (hc ht.1) (by rw [(sortByTime_perm arr).length_eq]; exact ht.2.le)
  · exact hp

theorem edited (h : b.Floats arr) (he : Edited b.scope arr arr' written) : b.Floats arr' := by
  cases he with
  | same => exact h
  | append ho => exact h.push ho
  | sweep hp hs => exact (h.add (forall_mem_nil _) hp).swept (hs.mono fun _ _ => Remade.swaps)
  | erase _ hd => exact hd.elim

end Bubble.Floats

/-- The store functions keep the bubble afloat; a list that is not cut is the open one. -/
theorem Bubble.listInv (b : Bubble) {a : Option Jid} (hc : a ≠ some b.jid → ∃ k ≤ RESIDENT_TAIL, b.limit = some k) :
    ListInv b.scope a (fun j arr => j = b.jid → b.Floats arr) (fun j arr => j = b.jid → b.Floats arr) where
  draft h := h
  edited h he hj := (h hj).edited he
  placed _ h _ := h
  committed hw h hj := by
    subst hj
    exact (h rfl).committed (hw ▸ hc)

/-! ## Steps -/

/-- How many messages of the chat a step keeps at least if it cuts the list. -/
def Step.limit (w : World) (jid : Jid) (e : Step) : Option ℕ :=
  match e with
  | .trimChat _ keep => some (min keep RESIDENT_TAIL)
  | _ => if w.activeJid = some jid then none else some RESIDENT_TAIL

/-- An own message that is new to its chat takes the place of the bubble `id`. -/
def Takes (w : World) (id : MsgId) (m : UiMessage) : Prop :=
  m.fromMe = true ∧ (m.id ≠ "" → findId (messagesFor w m.chatJid) m.id = none) ∧
    ∃ x ∈ (messagesFor w m.chatJid).find? (matchesEcho (startUnread m)), x.msg.id = id

instance (w : World) (id : MsgId) (m : UiMessage) : Decidable (Takes w id m) := by
  unfold Takes
  infer_instance

/-- What a step other than a confirm is handed. -/
theorem within_scope (hid : b.id ∉ b.others) (hb : b.others = e.handed w) (hecho : ∀ m ∈ e.delivers, ¬ Takes w b.id m)
    (hc : ∀ jid r realId, e ≠ .confirmOptimistic jid r realId) : e.Within b.scope w := by
  have hother : ∀ i ∈ b.others, i ≠ b.id := fun i hi h => hid (h ▸ hi)
  have htakes : ∀ m : UiMessage, m.id ∈ b.others → ¬ Takes w b.id m → b.scope.Takes w m := by
    intro m hm hn
    have hs : (startUnread m).id ∈ b.others := (startUnread_id m).symm ▸ hm
    refine ⟨trivial, ⟨hs, hother _ hs⟩, fun hme hnew x hx => .inr ⟨hs, hother _ hs, fun hi => ?_⟩,
      fun st hst x hx => ?_⟩
    · exact hn ⟨hme, hnew, x, hx, hi⟩
    · have hk : st.msg.id = m.id := congrArg Key.id (get_op_key hst)
      exact .inr ⟨hk.symm ▸ hm, hother _ (hk.symm ▸ hm), hother _ (hx.symm ▸ hm)⟩
  cases e with
  | addMessage m => exact htakes m (hb ▸ mem_singleton_self _) (hecho m rfl)
  | addOptimistic | addOptimisticMedia => exact htakes _ (hb ▸ mem_singleton_self _) (hecho _ rfl)
  | confirmOptimistic jid r realId => exact absurd rfl (hc jid r realId)
  | failOptimistic => exact fun _ _ => .inl ⟨rfl, rfl, rfl⟩
  | applyRevoke =>
    exact fun _ f _ => ⟨trivial, hb ▸ mem_singleton_self _, hother _ (hb ▸ mem_singleton_self _)⟩
  | applyReceipt => exact fun _ _ => trivial
  | restoreMessage original =>
    have ho : original.msg.id ∈ b.others := hb ▸ mem_singleton_self _
    exact ⟨trivial, ⟨ho, hother _ ho⟩, fun x hx => .inr ⟨ho, hother _ ho, hother _ (hx.symm ▸ ho)⟩, trivial⟩
  | _ => trivial

section

variable (hf : b.Floats (messagesFor w b.jid)) (hc : w.activeJid ≠ some b.jid → ∃ k ≤ RESIDENT_TAIL, b.limit = some k)
  (hid : b.id ∉ b.others)

include hf hc hid

/-- A confirm of another send. -/
theorem floats_confirm (hk : hasId (messagesFor w b.jid) b.id = true) {jid : Jid} {r : String} {realId : MsgId}
    (hb : realId ∈ b.others) (hne : b.id ≠ tempId r) :
    b.Floats (messagesFor (confirmOptimistic w jid (tempId r) realId) b.jid) := by
  have hcommit : ∀ {v : World} {arr : List Obj}, v.byChat = w.byChat → v.activeJid = w.activeJid →
      (jid = b.jid → b.Floats arr) → b.Floats (messagesFor (commit v jid arr) b.jid) := fun hv ha harr =>
    (b.listInv hc).commit (fun _ hj => hj ▸ hf) hv ha harr b.jid rfl
  rcases confirmOptimistic_cases w jid (tempId r) realId with ⟨-, hv⟩ | ⟨x, hx, ⟨-, hv⟩ | ⟨-, hv⟩⟩
  · rwa [hv]
  · rw [hv]
    refine hcommit rfl rfl fun hj => ?_
    subst hj
    obtain ⟨y, hy, hi⟩ := hasId_iff.1 hk
    refine ⟨fun o ho => hf.same o (mem_of_mem_eraseP ho), .inl (hasId_iff.2 ⟨y, ?_, hi⟩)⟩
    exact (mem_eraseP_of_neg (by simpa [hi] using hne)).2 hy
  · rw [hv]
    refine hcommit rfl rfl fun hj => ?_
    subst hj
    refine hf.swept (.of_find hx (.inr ⟨hb, fun hi => hid (hi ▸ hb), fun hi => hne ?_⟩))
    exact hi.symm.trans (findId_id hx)

theorem floats_sync (hk : hasId (messagesFor w b.jid) b.id = true) (hb : b.others = e.handed w) (he : e.sync = true)
    (hl : b.limit = e.limit w b.jid) (hs : b.limit ≠ none → ByTime (messagesFor w b.jid))
    (hm : ∀ c ∈ e.merge w, c.1 ≠ b.jid) (hecho : ∀ m ∈ e.delivers, ¬ Takes w b.id m) :
    b.Floats (messagesFor (w.step e) b.jid) := by
  by_cases hconf : ∃ jid r realId, e = .confirmOptimistic jid r realId
  · obtain ⟨jid, r, realId, rfl⟩ := hconf
    rw [hb] at hid
    exact floats_confirm hf hc (hb ▸ hid) hk (by simp [hb, Step.handed]) fun hi => hid (by simp [Step.handed, hi])
  have hcut : ∀ {n}, (∃ k ≤ n, b.limit = some k) → n < (messagesFor w b.jid).length →
      b.Floats (lastN n (messagesFor w b.jid)) := by
    rintro n ⟨k, hkn, hk⟩ hlen
    exact hf.cut (hs (hk ▸ Option.some_ne_none k)) ⟨k, hkn, hk⟩ hlen.le
  refine all_sync (b.listInv hc) (fun _ hj => hj ▸ hf) he (within_scope hid hb hecho fun jid r realId hh =>
    hconf ⟨jid, r, realId, hh⟩) (fun m hm => ⟨hb ▸ hm, fun hi => hid (hi ▸ hb ▸ hm)⟩) ?_ b.jid rfl
  cases e with
  | closeChat =>
    rintro ha hlen rfl
    exact hcut (hc ha) hlen
  | trimChat jid keep =>
    rintro hlen rfl
    exact hcut ⟨_, min_le_left keep RESIDENT_TAIL, hl⟩ hlen
  | removeMessage =>
    rintro rfl
    obtain ⟨y, hy, hi⟩ := hasId_iff.1 hk
    refine ⟨fun o ho => hf.same o (mem_of_mem_filter ho), .inl (hasId_iff.2 ⟨y, ?_, hi⟩)⟩
    refine mem_filter.2 ⟨hy, decide_eq_true fun hy => hid ?_⟩
    rw [← hi, hy, hb]
    exact mem_singleton_self _
  | _ => exact fun c hc hj => absurd hj (hm c hc)

theorem floats_advance (hb : b.others = Step.advance.handed w) : b.Floats (messagesFor (advance w) b.jid) := by
  have hother : ∀ i ∈ Step.advance.handed w, i ∈ b.others ∧ i ≠ b.id :=
    fun i hi => ⟨hb ▸ hi, fun hh => hid (hh ▸ hb ▸ hi)⟩
  refine all_advance (b.listInv hc) (fun _ hj => hj ▸ hf) (fun _ => trivial) (fun _ => trivial)
    (fun m hm => hother _ hm) (fun x m hm hx => .inr ⟨(hother _ hm).1, (hother _ hm).2, hx ▸ (hother _ hm).2⟩) ?_
    b.jid rfl
  unfold Republishes
  dsimp only
  split
  · rename_i ht
    rintro rfl
    refine hf.add (fun o ho => hother _ ?_) (sortByTime_perm _)
    simp only [Step.handed, ht, World.rowsRead, map_map]
    exact mem_map_of_mem (mem_of_mem_filter ho)
  · trivial

end

end Whatsvelte
