import Whatsvelte.Proof.Invariant
import Whatsvelte.Proof.MessageSteps
import Whatsvelte.Proof.Outside

/-!
# What the store functions do to a list

A function of `stores/messages.svelte.ts` publishes a part of the list it found (`closeChat`, `trimChat`,
`removeMessage`), puts a message in the place of another one with the same time, or edits a list and hands it to
`commit`, which sorts it and trims it unless the chat is open. A property of lists that survives this (`ListInv`)
survives every step (`all_sync`, `all_advance`). If it survives any cut, nothing is left to check (`all_step`) but two
cases: a page is published as it is, and `restoreMessage` may put a message in the place of another one with another
time.
-/

namespace Whatsvelte

open List

variable {w v : World} {jid : Jid} {arr arr' : List Obj} {o x : Obj} {e : Step} {a : Option Jid}
  {s : Scope} {P Q : Jid → List Obj → Prop}

/-- A property `P` of resident lists that the store functions keep while the chat `a` is open. `Q` is what holds of
a list that they have not published yet. -/
structure ListInv (s : Scope) (a : Option Jid) (P Q : Jid → List Obj → Prop) : Prop where
  draft : ∀ {jid arr}, P jid arr → Q jid arr
  edited : ∀ {jid arr arr' written}, Q jid arr → Edited s arr arr' written → Q jid arr'
  placed : ∀ {jid arr arr'}, P jid arr → Q jid arr' →
    arr'.map (·.msg.timestamp) = arr.map (·.msg.timestamp) ∨ s.publish jid arr' → P jid arr'
  committed : ∀ {w : World} {jid arr}, w.activeJid = a → Q jid arr → P jid (committed w jid arr)

/-- Every resident list has the property. -/
def World.All (P : Jid → List Obj → Prop) (w : World) : Prop := ∀ jid, P jid (messagesFor w jid)

/-! ## Publishing a list -/

theorem all_of_byChat (h : w.All P) (hb : v.byChat = w.byChat) : v.All P := by
  intro j
  rw [messagesFor, hb]
  exact h j

theorem all_of_same (h : w.All P) (hs : Same w v) : v.All P := by
  intro j
  rw [hs.lists]
  exact h j

/-- One list is published, the others stay. -/
theorem all_publish (h : w.All P) (hp : P jid arr)
    (hb : ∀ j, messagesFor v j = if j = jid then arr else messagesFor w j) : v.All P := by
  intro j
  rw [hb]
  split
  · rename_i hj
    rwa [hj]
  · exact h j

theorem ListInv.commit (hi : ListInv s a P Q) (h : w.All P) (hb : v.byChat = w.byChat) (hv : v.activeJid = a)
    (hq : Q jid arr) : (commit v jid arr).All P :=
  all_publish (all_of_byChat h hb) (hi.committed hv hq) fun _ => messagesFor_commit

section

variable (hi : ListInv s a P Q) (h : w.All P) (ha : w.activeJid = a)

include hi h ha

/-! ## The acts of the store -/

theorem all_act (hact : Act s w v) : v.All P := by
  cases hact with
  | commit ref harr hj he hq =>
    subst harr
    exact hi.commit h rfl ha (hi.edited (hi.draft (h _)) he)
  | setList ref harr hj he hq hp =>
    subst harr
    exact all_publish h (hi.placed (h _) (hi.edited (hi.draft (h _)) he) hp) fun _ => messagesFor_setList
  | insert harr hj ho =>
    subst harr
    exact hi.commit h rfl ha (hi.edited (hi.draft (h _)) (.append ho))
  | early _ status => exact all_of_same h (.rememberEarlyReceipt w _ status)
  | _ => exact all_of_byChat h rfl

theorem all_acts (hacts : Acts s w v) : v.All P := by
  induction hacts with
  | refl => exact h
  | tail hacts hact ih => exact all_act hi ih ((Outside.of_acts hacts).activeJid.trans ha) hact

/-! ## Merges -/

omit h ha in
theorem draft_mergePush {l p : Jid} (src : List Obj) (hs : ∀ o ∈ src, s.fresh none (rekey l p o.msg)) :
    ∀ st : List Obj × ℕ, Q p st.1 → Q p (src.foldl (mergePush l p) st).1 := by
  induction src with
  | nil => exact fun _ h => h
  | cons o src ih =>
    intro st h
    refine ih (fun x hx => hs x (mem_cons_of_mem _ hx)) _ ?_
    unfold mergePush
    split
    · exact h
    · exact hi.edited h (.append (o := ⟨st.2, rekey l p o.msg⟩) (hs o mem_cons_self))

theorem all_applyMerge {l p : Jid} (hl : P l []) (hs : ∀ o ∈ messagesFor w l, s.fresh none (rekey l p o.msg)) :
    (applyMerge w l p).All P := by
  have hm : (mergeMessages w l p).All P := by
    obtain ⟨w₁, rfl, he⟩ := mergeMessages_eq w l p
    have hsrc : ({ w with
        byChat := Function.update w.byChat l none
        exhausted := Function.update w.exhausted l false } : World).All P :=
      all_publish h hl fun _ => messagesFor_update w.byChat none
    rw [he]
    split
    · exact hsrc
    · exact hi.commit hsrc rfl ha (draft_mergePush hi _ hs _ (hi.draft (hsrc p)))
  replace hm := all_of_same hm (.mergeChats _ l p)
  unfold applyMerge movePersistedChat
  split
  · exact h
  · split <;> exact all_of_byChat hm rfl

end

/-! ## Batches of history -/

/-- A push edits one list, and those of the chats that are not touched stay. -/
theorem draft_historyPush (hi : ListInv s a P Q) (persist : Bool) (st : World × List Jid) (ho : s.fresh none o.msg)
    (hq : st.1.All Q) : (historyPush persist st o).1.All Q ∧ ∀ j ∉ (historyPush persist st o).2,
      j ∉ st.2 ∧ messagesFor (historyPush persist st o).1 j = messagesFor st.1 j := by
  unfold historyPush
  split
  · exact ⟨hq, fun j hj => ⟨hj, rfl⟩⟩
  have hout : ∀ j ∉ if o.msg.chatJid ∈ st.2 then st.2 else st.2 ++ [o.msg.chatJid],
      j ∉ st.2 ∧ j ≠ o.msg.chatJid := by
    intro j hj
    split at hj
    · exact ⟨hj, fun heq => hj (heq ▸ ‹_›)⟩
    · simpa using hj
  have hset : ∀ {v : World} {arr : List Obj}, Q o.msg.chatJid arr →
      (∀ j, messagesFor v j = if j = o.msg.chatJid then arr else messagesFor st.1 j) →
      v.All Q ∧ ∀ j ∉ if o.msg.chatJid ∈ st.2 then st.2 else st.2 ++ [o.msg.chatJid],
        j ∉ st.2 ∧ messagesFor v j = messagesFor st.1 j :=
    fun harr hv => ⟨all_publish hq harr hv, fun j hj => ⟨(hout j hj).1, (hv j).trans (if_neg (hout j hj).2)⟩⟩
  dsimp only
  split
  · exact hset (hq _) fun _ => messagesFor_setList
  · exact hset (hi.edited (hq _) (.append ho)) fun _ => messagesFor_setList

/-- The chats that a batch has not touched keep their lists. -/
theorem all_push (hi : ListInv s a P Q) (persist : Bool) {list : List Obj} (hl : ∀ o ∈ list, s.fresh none o.msg) :
    ∀ st : World × List Jid, (∀ j, j ∉ st.2 → P j (messagesFor st.1 j)) → st.1.All Q →
    (∀ j, j ∉ (list.foldl (historyPush persist) st).2 → P j (messagesFor (list.foldl (historyPush persist) st).1 j)) ∧
      (list.foldl (historyPush persist) st).1.All Q ∧
      (list.foldl (historyPush persist) st).1.activeJid = st.1.activeJid := by
  induction list with
  | nil => exact fun st h hq => ⟨h, hq, rfl⟩
  | cons o list ih =>
    intro st h hq
    have hactive := (Outside.of_acts (acts_historyPush (s := .any) (o := o) persist st trivial trivial
      fun _ => trivial)).activeJid
    rw [foldl_cons, ← hactive]
    obtain ⟨hq', hsame⟩ := draft_historyPush hi persist st (hl o mem_cons_self) hq
    refine ih (fun x hx => hl x (mem_cons_of_mem _ hx)) _ (fun j hj => ?_) hq'
    rw [(hsame j hj).2]
    exact h j (hsame j hj).1

/-- Every touched chat is committed in the end. -/
theorem all_finish (hi : ListInv s a P Q) : ∀ (touched : List Jid) (w : World), w.activeJid = a → w.All Q →
    (∀ j, j ∉ touched → P j (messagesFor w j)) → (touched.foldl historyFinish w).All P := by
  intro touched
  induction touched with
  | nil => exact fun w _ _ h j => h j not_mem_nil
  | cons c touched ih =>
    intro w ha hq h
    have hlists : ∀ j, messagesFor (historyFinish w c) j = if j = c then _ else messagesFor w j :=
      fun _ => messagesFor_commit
    have hflagged : Q c (applyUnreadFlags w c (sortByTime (messagesFor w c))).arr := hi.edited (hq c)
      (.sweep (sortByTime_perm _) ((sweep_sweeps setUnread_unread _ _ _).mono Remade.of_unread))
    have hp := hi.committed ha hflagged
    refine ih (historyFinish w c) ha (all_publish hq (hi.draft hp) hlists) fun j hj => ?_
    rw [hlists]
    split
    · rename_i hjc
      rw [hjc]
      exact hp
    · rename_i hjc
      exact h j (by simp [hjc, hj])

theorem all_addHistoryMessages (hi : ListInv s a P Q) (h : w.All P) (ha : w.activeJid = a) {list : List Obj}
    (hl : ∀ o ∈ list, s.fresh none o.msg) (persist : Bool) : (addHistoryMessages w list persist).All P := by
  obtain ⟨hpush, hq, hactive⟩ := all_push hi persist hl (w, []) (fun j _ => h j) fun j => hi.draft (h j)
  exact all_finish hi _ _ (hactive.trans ha) hq hpush

/-! ## Receipts and pages -/

/-- Receipts rewrite messages in place, whichever chat is open. -/
theorem all_applyReceipt (hi : ListInv s a P Q) (h : w.All P) (jid : Jid) (ids : List MsgId)
    (status : MessageStatus) :
    (applyReceipt w jid ids status).All P := by
  have hsw := sweeps_upgrade status ids (messagesFor w jid) w.nextRef
  have hp := hi.placed (h jid) (hi.edited (hi.draft (h jid)) (.sweep .rfl (hsw.mono fun _ _ hr => .patch _ hr.2)))
    (.inl (hsw.map_eq fun _ _ hr => (Patch.apply_key hr.2).2))
  refine List.foldlRecOn _ _ ?_ fun w' hw' id _ => all_of_byChat hw' (patchThen_early _ _ _ _).1
  intro j
  rw [messagesFor]
  dsimp only
  split
  · exact h j
  · rw [messagesFor_update]
    split
    · rename_i hj
      rw [hj]
      exact hp
    · exact h j

/-- The list that a page publishes. -/
def World.pageList (w : World) (jid : Jid) (limit : ℕ) (beforeTs : Option ℤ) : List Obj :=
  sortByTime ((loadLatestMessages w jid limit beforeTs).filter (fun o => !hasId (messagesFor w jid) o.msg.id) ++
    messagesFor w jid)

theorem all_loadOlderDone (h : w.All P) (jid : Jid) (limit : ℕ) (beforeTs : Option ℤ)
    (hp : P jid (w.pageList jid limit beforeTs)) : (loadOlderDone w jid limit beforeTs).All P := by
  intro j
  unfold loadOlderDone
  rw [messagesFor]
  dsimp only
  split
  · exact h j
  · rw [messagesFor_update]
    split
    · rename_i hj
      rw [hj]
      exact hp
    · exact h j

/-! ## Steps -/

/-- The ids that a step is handed for messages that come or go. -/
def Step.handed (w : World) : Step → List MsgId
  | .addMessage m => [m.id]
  | .addHistoryMessages list => list.map (·.id)
  | .addOptimistic _ r .. => [tempId r]
  | .addOptimisticMedia _ r .. => [tempId r]
  | .confirmOptimistic _ r realId => [tempId r, realId]
  | .applyRevoke _ id _ => [id]
  | .removeMessage _ id => [id]
  | .restoreMessage original => [original.msg.id]
  | .advance =>
    match w.txq with
    | ⟨_, true, .patched k _ _, _⟩ :: _ => [k.id]
    | ⟨_, true, .adopt fresh, _⟩ :: _ => (w.msgs.get fresh.key).toList.map (·.id)
    | _ => w.rowsRead.map (·.2.msg.id)
  | e =>
    match e.merge w with
    | some (l, _) => (messagesFor w l).map (·.msg.id)
    | none => []

/-- What the step leaves of a list that it cuts has the property. -/
def Step.Leaves (P : Jid → List Obj → Prop) (w : World) : Step → Prop
  | .closeChat jid => w.activeJid ≠ some jid → RESIDENT_TAIL < (messagesFor w jid).length →
    P jid (lastN RESIDENT_TAIL (messagesFor w jid))
  | .trimChat jid keep => keep < (messagesFor w jid).length → P jid (lastN keep (messagesFor w jid))
  | .removeMessage jid id => P jid ((messagesFor w jid).filter (fun o => o.msg.id ≠ id))
  | e => ∀ c ∈ e.merge w, P c.1 []

theorem all_unify (hi : ListInv s a P Q) (h : w.All P) (ha : w.activeJid = a) (he : e.unifies = true)
    (hh : ∀ m : UiMessage, m.id ∈ e.handed w → s.fresh none m) (hl : e.Leaves P w) : (w.step e).All P := by
  obtain ⟨w₁, w₃, h1, h3, hr⟩ := unify_learnt (w := w) he
  have hw₁ := all_of_same h h1.twin.toSame
  have hw₃ : w₃.All P := by
    refine all_of_same ?_ h3.twin.toSame
    cases hm : e.merge w with
    | none => exact hw₁
    | some c =>
      have hl : P c.1 [] := by cases e <;> first | cases hm | exact hl c hm
      have hh : ∀ o ∈ messagesFor w c.1, s.fresh none (rekey c.1 c.2 o.msg) := fun o ho => hh _ (by
        cases e <;> first | cases hm | (simp only [Step.handed, hm]; exact mem_map_of_mem ho))
      obtain ⟨m, r, rfl⟩ := h1
      exact all_applyMerge hi hw₁ ha hl hh
  rcases hr with hr | ⟨d, -, hr⟩
  · rwa [hr]
  · rw [hr]
    exact all_applyReceipt hi hw₃ _ _ _

/-- **A synchronous step** keeps a property of lists. -/
theorem all_sync (hi : ListInv s w.activeJid P Q) (h : w.All P) (he : e.sync = true) (hw : e.Within s w)
    (hh : ∀ m : UiMessage, m.id ∈ e.handed w → s.fresh none m) (hl : e.Leaves P w) : (w.step e).All P := by
  have hc := calls_step he hw
  generalize hv : w.step e = v at hc
  cases hc with
  | store hacts => exact all_acts hi h rfl hacts
  | read hacts jid n => exact all_of_same (all_acts hi h rfl hacts) (.decrementUnread _ jid n)
  | confirm t hacts => exact all_acts hi (w := { w with earlyReceipts := t }) h rfl hacts
  | cut hb n hn hcut =>
    have harr := messagesFor_of_some hb
    subst harr
    refine all_publish h ?_ fun _ => messagesFor_setList
    rcases hcut with ⟨rfl, ha, rfl⟩ | rfl
    · exact hl ha hn
    · exact hl hn
  | history list =>
    refine all_addHistoryMessages hi (w := { w with nextRef := w.nextRef + list.length }) h rfl (fun o ho => ?_) true
    exact hh _ (mem_map_of_mem (mem_objs ho))
  | remove jid id => exact all_publish h hl (messagesFor_removeMessage w jid id)
  | chat op => exact all_of_same h (.chat w op)
  | unify he => exact hv ▸ all_unify hi h rfl he hh hl
  | _ => exact all_of_byChat h rfl

/-- A page, and a message that is put back, leave a list with the property. -/
def Republishes (P : Jid → List Obj → Prop) (w : World) : Step → Prop
  | .restoreMessage original =>
    P original.msg.chatJid (replaceId (messagesFor w original.msg.chatJid) original.msg.id original)
  | .advance =>
    match w.txq with
    | ⟨_, true, .page jid limit beforeTs, _⟩ :: _ => P jid (w.pageList jid limit beforeTs)
    | _ => True
  | _ => True

/-- **The queue moves on.** -/
theorem all_advance (hi : ListInv s w.activeJid P Q) (h : w.All P) (hlists : ∀ j, s.lists j) (hearly : ∀ i, s.early i)
    (hh : ∀ m : UiMessage, m.id ∈ Step.advance.handed w → s.fresh none m)
    (hs : ∀ x m : UiMessage, m.id ∈ Step.advance.handed w → x.id = m.id → s.fresh (some x) m)
    (hp : Republishes P w .advance) : (advance w).All P := by
  have hpop : ∀ later, (w.popped later).All P := fun later => all_of_byChat h rfl
  have hr := ran_advance w
  generalize advance w = v at hr ⊢
  cases hr with
  | idle => exact h
  | flush => exact all_of_byChat h (flushSlice_frame _ _ _ _ _).1
  | patch => exact all_of_byChat h patchRequests_byChat
  | patched tid k found after c later ht =>
    exact all_acts hi (hpop later) rfl (acts_afterPatch _ found
      (fun _ _ _ => ⟨hlists _, hh _ (by simp [Step.handed, ht, tombstone])⟩) fun _ _ _ => hearly _)
  | page tid jid limit beforeTs c later ht =>
    rw [Republishes, ht] at hp
    exact all_acts hi (all_loadOlderDone (hpop later) jid limit beforeTs hp) rfl (acts_openChatDone _ jid)
  | tails tid jids n c later ht =>
    refine all_addHistoryMessages hi (w := { w.popped later with nextRef := _ }) h rfl (fun o ho => hh _ ?_) false
    simp only [Step.handed, ht, World.rowsRead, map_map]
    exact mem_map_of_mem ho
  | adopt tid fresh c later ht =>
    refine all_acts hi (hpop later) rfl (acts_adoptStoredDone _ fun st hst x hx => ?_)
    refine hs x _ (by simp [Step.handed, ht, adopted, Option.mem_def.1 hst]) (hx.trans ?_)
    exact (congrArg Key.id (Table.get_key hst)).symm
  | _ => exact all_of_byChat h rfl

/-! ## Properties that survive every cut -/

/-- Code of the message store that publishes lists with the property as they are. -/
def Scope.relists (P : Jid → List Obj → Prop) : Scope :=
  ⟨fun _ => True, fun _ _ => True, P, fun _ => True, fun _ => True⟩

/-- **Every step** keeps a property of lists that survives every cut, if every list that is committed has it. -/
theorem all_step (hsub : ∀ {jid arr arr'}, P jid arr → arr'.Sublist arr → P jid arr')
    (htimes : ∀ {jid arr arr'}, P jid arr → arr'.map (·.msg.timestamp) = arr.map (·.msg.timestamp) → P jid arr')
    (hcommit : ∀ {v : World} {jid arr}, v.activeJid = w.activeJid → P jid (committed v jid arr))
    (h : w.All P) (hp : Republishes P w e) : (w.step e).All P := by
  have hi : ListInv (.relists P) w.activeJid P fun _ _ => True :=
    ⟨fun _ => trivial, fun _ _ => trivial, fun h _ hp => hp.elim (htimes h) fun hp => hp, fun ha _ => hcommit ha⟩
  have hnil : ∀ jid, P jid [] := fun jid => hsub (h jid) (nil_sublist _)
  cases hs : e.sync with
  | true =>
    refine all_sync hi h hs ?_ (fun _ _ => trivial) ?_
    · refine Step.within_of (fun _ => trivial) (fun _ _ => trivial) (fun _ => trivial) (fun o ho => ?_)
        fun _ _ _ _ _ _ => trivial
      subst ho
      exact hp
    · cases e with
      | closeChat jid => exact fun _ _ => hsub (h jid) (lastN_sublist _ _)
      | trimChat jid => exact fun _ => hsub (h jid) (lastN_sublist _ _)
      | removeMessage jid => exact hsub (h jid) filter_sublist
      | _ => exact fun c _ => hnil c.1
  | false =>
    cases e with
    | openNext =>
      have hafter : ∀ (txq : List Txn) k found after, (afterPatch { w with txq := txq } k found after).All P :=
        fun txq k found after => all_acts hi (w := { w with txq := txq }) h rfl
          (acts_afterPatch _ found (fun _ _ _ => ⟨trivial, trivial⟩) fun _ _ _ => trivial)
      simp only [World.step, openNext]
      repeat' split
      all_goals first | exact h | exact hafter _ _ _ _
    | advance =>
      exact all_advance hi h (fun _ => trivial) (fun _ => trivial) (fun _ _ => trivial) (fun _ _ _ _ => trivial) hp
    | resetAll => exact hnil
    | flushFails | wipe =>
      refine all_of_byChat h ?_
      simp only [World.step, flushFails, wipe]
      repeat' split
      all_goals rfl
    | _ => cases hs

end Whatsvelte
