import Whatsvelte.Proof.Sorted

/-!
# The window of a chat

The resident messages of a chat are the end of its history, seen through a window. Code of the
stores puts messages into the window (`ins`), and `commit`, `closeChat` and `trimChat` cut it at
its old end. `Slides` says that nothing else happens: what leaves the list is older than all that
stays, and the chat is no longer marked as exhausted then.

An id has one timestamp, `stamp id`, in all of this.
-/

namespace Whatsvelte

open Function (update update_of_ne update_self)
open List

variable {stamp : MsgId → ℤ} {w v u : World} {c jid : Jid} {ins : List MsgId} {i : MsgId}
  {old arr arr' : List Obj} {o x : Obj}
variable {m : UiMessage} {l p : Jid} {written : List Obj}

/-- The copy carries the timestamp of its id. -/
def Stamped (stamp : MsgId → ℤ) (m : UiMessage) : Prop := m.id ≠ "" ∧ m.timestamp = stamp m.id

instance (m : UiMessage) : Decidable (Stamped stamp m) := inferInstanceAs (Decidable (_ ∧ _))

/-- All messages of the list do. -/
def Dated (stamp : MsgId → ℤ) (arr : List Obj) : Prop := ∀ o ∈ arr, Stamped stamp o.msg

theorem hasId_of_mem (ho : o ∈ arr) : hasId arr o.msg.id = true := hasId_iff.2 ⟨o, ho, rfl⟩

theorem Dated.sublist (h : Dated stamp arr) (hs : arr'.Sublist arr) : Dated stamp arr' :=
  fun o ho => h o (hs.subset ho)

/-! ## Lists -/

/-- `arr` is `old` with the ids of `ins` put in; bubbles may be missing. -/
structure Reshaped (stamp : MsgId → ℤ) (ins : List MsgId) (old arr : List Obj) : Prop where
  origin : ∀ o ∈ arr, hasId old o.msg.id = true ∨ o.msg.id ∈ ins
  kept : ∀ i, isTmp i = false → hasId old i = true ∨ i ∈ ins → hasId arr i = true
  dated : Dated stamp arr

namespace Reshaped

theorem refl (h : Dated stamp old) : Reshaped stamp [] old old where
  origin o ho := Or.inl (hasId_of_mem ho)
  kept i _ hi := hi.elim id fun hi => by cases hi
  dated := h

theorem perm (h : Reshaped stamp ins old arr) (hp : arr'.Perm arr) : Reshaped stamp ins old arr' where
  origin o ho := h.origin o (hp.subset ho)
  kept i ht hi := by
    obtain ⟨o, ho, hoi⟩ := hasId_iff.1 (h.kept i ht hi)
    exact hasId_iff.2 ⟨o, hp.symm.subset ho, hoi⟩
  dated o ho := h.dated o (hp.subset ho)

theorem trans {ins' : List MsgId} (h : Reshaped stamp ins old arr) (h' : Reshaped stamp ins' arr arr') :
    Reshaped stamp (ins ++ ins') old arr' where
  origin o ho := by
    rcases h'.origin o ho with hin | hin
    · obtain ⟨x, hx, hxo⟩ := hasId_iff.1 hin
      rw [← hxo]
      exact (h.origin x hx).imp_right (mem_append_left ins')
    · exact .inr (mem_append_right ins hin)
  kept i ht hi := by
    refine h'.kept i ht ?_
    rw [mem_append, ← or_assoc] at hi
    exact hi.imp_left (h.kept i ht)
  dated := h'.dated

/-- A message is put at the end. -/
theorem append (h : Dated stamp old) (ho : Stamped stamp o.msg) :
    Reshaped stamp [o.msg.id] old (old ++ [o]) where
  origin x hx := by
    rcases mem_append.1 hx with hx | hx
    · exact .inl (hasId_of_mem hx)
    · rw [mem_singleton.1 hx]
      exact .inr (mem_singleton_self _)
  kept i _ hi := by
    rcases hi with hi | hi
    · obtain ⟨x, hx, hxi⟩ := hasId_iff.1 hi
      exact hasId_iff.2 ⟨x, mem_append_left _ hx, hxi⟩
    · exact hasId_iff.2 ⟨o, by simp, (mem_singleton.1 hi).symm⟩
  dated x hx := by
    rcases mem_append.1 hx with hx | hx
    · exact h x hx
    · rwa [mem_singleton.1 hx]

/-- A message is replaced: by a copy of itself, or a bubble by the message it stood for. -/
theorem replaceFirst {p : Obj → Bool} (h : Dated stamp old) (hx : old.find? p = some x)
    (hid : o.msg.id = x.msg.id ∨ isTmp x.msg.id = true) (ho : Stamped stamp o.msg) :
    Reshaped stamp [o.msg.id] old (replaceFirst p o old) := by
  obtain ⟨pre, post, rfl, hr⟩ := replaceFirst_of_find hx
  rw [hr]
  constructor
  · intro y hy
    simp only [mem_append, mem_cons] at hy
    rcases hy with hy | rfl | hy
    · exact .inl (hasId_of_mem (by simp [hy]))
    · exact .inr (mem_singleton_self _)
    · exact .inl (hasId_of_mem (by simp [hy]))
  · intro i ht hi
    rw [hasId_iff]
    rcases hi with hi | hi
    · obtain ⟨y, hy, rfl⟩ := hasId_iff.1 hi
      simp only [mem_append, mem_cons] at hy
      rcases hy with hy | rfl | hy
      · exact ⟨y, by simp [hy], rfl⟩
      · -- only a bubble leaves its id behind
        rcases hid with hid | hid
        · exact ⟨o, by simp, hid⟩
        · rw [ht] at hid
          cases hid
      · exact ⟨y, by simp [hy], rfl⟩
    · exact ⟨o, by simp, (mem_singleton.1 hi).symm⟩
  · intro y hy
    simp only [mem_append, mem_cons] at hy
    rcases hy with hy | rfl | hy
    · exact h y (by simp [hy])
    · exact ho
    · exact h y (by simp [hy])

/-- What was put in was there before. -/
theorem absorb (h : Reshaped stamp [i] old arr) (hi : hasId old i = true) : Reshaped stamp [] old arr where
  origin o ho := by
    rcases h.origin o ho with hold | hin
    · exact .inl hold
    · rw [mem_singleton.1 hin]
      exact .inl hi
  kept j ht hj := h.kept j ht (.inl (hj.elim id fun hj => by cases hj))
  dated := h.dated

theorem present (h : Reshaped stamp [] old arr) (hi : hasId old i = true) : Reshaped stamp [i] old arr where
  origin o ho := Or.inl ((h.origin o ho).resolve_right (by simp))
  kept j ht hj := by
    refine h.kept j ht (.inl ?_)
    rcases hj with hj | hj
    · exact hj
    · rwa [mem_singleton.1 hj]
  dated := h.dated

/-- A message is replaced by a copy of itself. -/
theorem copy {p : Obj → Bool} (h : Dated stamp old) (hx : old.find? p = some x) (hid : o.msg.id = x.msg.id)
    (ht : o.msg.timestamp = x.msg.timestamp) : Reshaped stamp [] old (Whatsvelte.replaceFirst p o old) := by
  have hmem := mem_of_find?_eq_some hx
  have hos : Stamped stamp o.msg := by
    rw [Stamped, hid, ht]
    exact h x hmem
  exact (replaceFirst h hx (.inl hid) hos).absorb (hasId_iff.2 ⟨x, hmem, hid.symm⟩)

/-- A loop over the list that leaves ids and times alone. -/
theorem sweeps {R : UiMessage → UiMessage → Prop} (h : Dated stamp old)
    (hR : ∀ m m', R m m' → m'.id = m.id ∧ m'.timestamp = m.timestamp)
    (hs : Sweeps R old arr written) : Reshaped stamp [] old arr := by
  have hids : arr.map (·.msg.id) = old.map (·.msg.id) := by
    clear h
    induction hs with
    | nil => rfl
    | keep x _ ih => simp [ih]
    | write x o hr _ ih => simp [ih, (hR _ _ hr).1]
  have hmem : ∀ i, hasId arr i = hasId old i := by
    intro i
    rw [Bool.eq_iff_iff, hasId_iff, hasId_iff, ← mem_map, ← mem_map, hids]
  refine ⟨fun o ho => .inl ?_, fun i _ hi => ?_, ?_⟩
  · rw [← hmem]
    exact hasId_of_mem ho
  · rw [hmem]
    exact hi.elim id fun hi => by cases hi
  · clear hids hmem
    induction hs with
    | nil => exact h
    | keep x _ ih =>
      rw [Dated, forall_mem_cons] at h ⊢
      exact ⟨h.1, ih h.2⟩
    | write x o hr _ ih =>
      rw [Dated, forall_mem_cons] at h ⊢
      refine ⟨?_, ih h.2⟩
      rw [Stamped, (hR _ _ hr).1, (hR _ _ hr).2]
      exact h.1

/-- A bubble is taken out. -/
theorem eraseBubble (h : Dated stamp old) (hi : isTmp i = true) :
    Reshaped stamp [] old (old.eraseP (fun o => o.msg.id = i)) where
  origin o ho := Or.inl (hasId_of_mem (mem_of_mem_eraseP ho))
  kept j ht hj := by
    rcases hj with hj | hj
    · obtain ⟨o, ho, rfl⟩ := hasId_iff.1 hj
      refine hasId_iff.2 ⟨o, ?_, rfl⟩
      rw [mem_eraseP_of_neg]
      · exact ho
      · intro hoi
        rw [of_decide_eq_true hoi, hi] at ht
        cases ht
    · cases hj
  dated o ho := h o (mem_of_mem_eraseP ho)

end Reshaped

/-! ## Cutting -/

/-- The id is no newer than anything in the window of the chat, and older messages may exist. -/
structure Below (stamp : MsgId → ℤ) (c : Jid) (w : World) (i : MsgId) : Prop where
  room : w.exhausted c = false
  older : ∀ o ∈ messagesFor w c, stamp i ≤ stamp o.msg.id

/-- Code that slides the window of the chat `c`, putting the ids of `ins` in. -/
structure Slides (stamp : MsgId → ℤ) (c : Jid) (ins : List MsgId) (w v : World) : Prop where
  origin : ∀ o ∈ messagesFor v c, hasId (messagesFor w c) o.msg.id = true ∨ o.msg.id ∈ ins
  cut : ∀ i, isTmp i = false → hasId (messagesFor w c) i = true ∨ i ∈ ins →
    hasId (messagesFor v c) i = false → Below stamp c v i
  exhausted : v.exhausted c = true → w.exhausted c = true
  dated : Dated stamp (messagesFor v c)

namespace Slides

/-- The list of the chat is published as it is. -/
theorem of_list (hl : messagesFor v c = arr) (h : Reshaped stamp ins (messagesFor w c) arr)
    (he : v.exhausted c = true → w.exhausted c = true) : Slides stamp c ins w v where
  origin o ho := h.origin o (hl ▸ ho)
  cut i ht hi hn := by
    rw [hl, h.kept i ht hi] at hn
    cases hn
  exhausted := he
  dated := hl ▸ h.dated

theorem of_same (hs : Dated stamp (messagesFor w c)) (hl : messagesFor v c = messagesFor w c)
    (he : v.exhausted c = w.exhausted c) : Slides stamp c [] w v :=
  .of_list hl (.refl hs) (by rw [he]; exact id)

theorem refl (hs : Dated stamp (messagesFor w c)) : Slides stamp c [] w w := .of_same hs rfl rfl

/-- The end of a sorted list is published. -/
theorem of_end {n : ℕ} (hl : messagesFor v c = lastN n arr) (hs : ByTime arr)
    (h : Reshaped stamp ins (messagesFor w c) arr) (he : v.exhausted c = false) : Slides stamp c ins w v where
  origin o ho := h.origin o (mem_of_mem_lastN (hl ▸ ho))
  cut i ht hi hn := by
    refine ⟨he, fun o ho => ?_⟩
    obtain ⟨x, hx, rfl⟩ := hasId_iff.1 (h.kept i ht hi)
    rw [hl] at ho hn
    have hxn : x ∉ lastN n arr := fun hx' => by
      rw [hasId_of_mem hx'] at hn
      cases hn
    rw [← (h.dated x hx).2, ← (h.dated o (mem_of_mem_lastN ho)).2]
    exact le_of_cut hs hx hxn ho
  exhausted h' := by
    rw [he] at h'
    cases h'
  dated := hl ▸ h.dated.sublist (lastN_sublist n arr)

/-- Nothing is put in after the window was cut. -/
theorem trans (h : Slides stamp c ins w v) (h' : Slides stamp c [] v u) : Slides stamp c ins w u where
  origin o ho := by
    obtain ⟨x, hx, hxo⟩ := hasId_iff.1 ((h'.origin o ho).resolve_right (by simp))
    rw [← hxo]
    exact h.origin x hx
  cut i ht hi hn := by
    cases hv : hasId (messagesFor v c) i with
    | true => exact h'.cut i ht (.inl hv) hn
    | false =>
      obtain ⟨he, hle⟩ := h.cut i ht hi hv
      refine ⟨?_, fun o ho => ?_⟩
      · rw [← Bool.not_eq_true]
        intro hu
        rw [h'.exhausted hu] at he
        cases he
      · obtain ⟨x, hx, hxo⟩ := hasId_iff.1 ((h'.origin o ho).resolve_right (by simp))
        rw [← hxo]
        exact hle x hx
  exhausted hu := h.exhausted (h'.exhausted hu)
  dated := h'.dated

/-- Only the list and the mark of the chat matter. -/
theorem before (h : Slides stamp c ins v u) (hl : messagesFor v c = messagesFor w c)
    (he : v.exhausted c = true → w.exhausted c = true) : Slides stamp c ins w u where
  origin o ho := hl ▸ h.origin o ho
  cut i ht hi hn := h.cut i ht (hl ▸ hi) hn
  exhausted hu := he (h.exhausted hu)
  dated := h.dated

/-- What was in the window before needs no room. -/
theorem present (h : Slides stamp c [] w v) (hi : ∀ i ∈ ins, hasId (messagesFor w c) i = true) :
    Slides stamp c ins w v where
  origin o ho := Or.inl ((h.origin o ho).resolve_right (by simp))
  cut i ht hin hn := h.cut i ht (.inl (hin.elim id (hi i))) hn
  exhausted := h.exhausted
  dated := h.dated

/-- The list of one chat is published; `ins` is empty if it is another chat. -/
theorem setList (hs : Dated stamp (messagesFor w c))
    (hb : ∀ j, messagesFor v j = if j = jid then arr else messagesFor w j)
    (he : v.exhausted = w.exhausted) (h : jid = c → Reshaped stamp ins (messagesFor w jid) arr)
    (hn : jid ≠ c → ins = []) : Slides stamp c ins w v := by
  by_cases hj : jid = c
  · subst hj
    refine .of_list (by rw [hb, if_pos rfl]) (h rfl) ?_
    rw [he]
    exact id
  · rw [hn hj]
    exact .of_same hs (by rw [hb, if_neg (Ne.symm hj)]) (by rw [he])

/-- `commit` cuts the list of a chat that is not open. -/
theorem commit (hs : Dated stamp (messagesFor w c)) (hb : ∀ j, messagesFor v j = messagesFor w j)
    (he : v.exhausted = w.exhausted) (h : jid = c → Reshaped stamp ins (messagesFor w jid) arr)
    (hn : jid ≠ c → ins = []) : Slides stamp c ins w (commit v jid arr) := by
  have hl : ∀ j, messagesFor (Whatsvelte.commit v jid arr) j =
      if j = jid then committed v jid arr else messagesFor w j := by
    intro j
    rw [messagesFor_commit, hb]
  by_cases hj : jid = c
  · subst hj
    have hp := (h rfl).perm (sortByTime_perm arr)
    have hl' := hl jid
    rw [if_pos rfl, committed] at hl'
    by_cases ht : trims v jid arr = true
    · rw [if_pos ht] at hl'
      refine .of_end hl' (byTime_sortByTime arr) hp ?_
      simp [Whatsvelte.commit, ht]
    · rw [if_neg ht] at hl'
      refine .of_list hl' hp ?_
      simp [Whatsvelte.commit, ht, he]
  · rw [hn hj]
    refine .of_same hs (by rw [hl, if_neg (Ne.symm hj)]) ?_
    unfold Whatsvelte.commit
    dsimp only
    split
    · rw [update_of_ne (Ne.symm hj), he]
    · rw [he]

end Slides

/-! ## Code that works in place -/

/-- Code of the message store that is handed no message but copies of those that are there. -/
def Scope.inPlace : Scope :=
  ⟨fun _ => True, fun x m => ∃ y, x = some y ∧ m.id = y.id ∧ m.timestamp = y.timestamp, fun _ _ => False,
    fun _ => True, fun _ => True⟩

theorem Remade.inPlace {m m' : UiMessage} (h : Remade .inPlace m m') :
    m'.id = m.id ∧ m'.timestamp = m.timestamp := by
  cases h with
  | patch fn h => exact ⟨congrArg Key.id (Patch.apply_key h).1, (Patch.apply_key h).2⟩
  | unread | media => exact ⟨rfl, rfl⟩
  | fresh h =>
    obtain ⟨y, hy, hm⟩ := h
    cases hy
    exact hm

theorem Edited.reshaped (hd : Dated stamp arr) (h : Edited .inPlace arr arr' written) :
    Reshaped stamp [] arr arr' := by
  cases h with
  | same => exact .refl hd
  | append ho =>
    obtain ⟨y, hy, -⟩ := ho
    cases hy
  | sweep hp hs =>
    have hperm := (Reshaped.refl hd).perm hp
    exact hperm.trans (.sweeps hperm.dated (fun _ _ hr => hr.inPlace) hs)
  | erase ht => exact .eraseBubble hd ht

theorem slides_act (hs : Dated stamp (messagesFor w c)) (h : Act .inPlace w v) : Slides stamp c [] w v := by
  cases h with
  | commit ref ha hj he =>
    subst ha
    exact .commit hs (fun _ => rfl) rfl (fun hj => he.reshaped (by rwa [hj])) fun _ => rfl
  | setList ref ha hj he =>
    subst ha
    exact .setList hs (fun _ => messagesFor_setList) rfl (fun hj => he.reshaped (by rwa [hj])) fun _ => rfl
  | insert ha hj ho =>
    obtain ⟨y, hy, -⟩ := ho
    cases hy
  | early _ status =>
    refine .of_same hs ((Same.rememberEarlyReceipt w _ status).lists c) ?_
    unfold rememberEarlyReceipt
    repeat' split
    all_goals rfl
  | _ => exact .of_same hs rfl rfl

theorem slides_acts (hs : Dated stamp (messagesFor w c)) (h : Acts .inPlace w v) : Slides stamp c [] w v := by
  induction h with
  | refl => exact .refl hs
  | tail _ ha ih => exact ih.trans (slides_act ih.dated ha)

/-! ## Deliveries -/

/-- The ids of one chat. -/
def idsIn (c : Jid) (ks : List Key) : List MsgId := (ks.filter (fun k => k.chatJid = c)).map (·.id)

theorem mem_idsIn {ks : List Key} : i ∈ idsIn c ks ↔ (⟨c, i⟩ : Key) ∈ ks := by
  unfold idsIn
  rw [mem_map]
  constructor
  · rintro ⟨k, hk, rfl⟩
    obtain ⟨hk, hc⟩ := mem_filter.1 hk
    rwa [← of_decide_eq_true hc]
  · intro h
    exact ⟨_, mem_filter.2 ⟨h, decide_eq_true rfl⟩, rfl⟩

theorem idsIn_singleton_self (k : Key) (h : k.chatJid = c) : idsIn c [k] = [k.id] := by
  simp [idsIn, h]

theorem idsIn_of_ne {ks : List Key} (h : ∀ k ∈ ks, k.chatJid ≠ c) : idsIn c ks = [] := by
  unfold idsIn
  rw [map_eq_nil_iff, filter_eq_nil_iff]
  intro k hk hc
  exact h k hk (of_decide_eq_true hc)

theorem idsIn_singleton_of_ne (k : Key) (h : k.chatJid ≠ c) : idsIn c [k] = [] :=
  idsIn_of_ne fun k' hk => by rwa [mem_singleton.1 hk]

theorem idsIn_append (ks ks' : List Key) : idsIn c (ks ++ ks') = idsIn c ks ++ idsIn c ks' := by
  simp [idsIn]

/-- The key under which a delivery is put in; a blank message is dropped. -/
def brought (m : UiMessage) : List Key := if isBlankMessage m then [] else [m.key]

theorem brought_of_blank (h : isBlankMessage m = true) : brought m = [] := if_pos h

theorem brought_eq (h : isBlankMessage m = false) : brought m = [m.key] := by
  rw [brought, h]
  rfl

theorem idsIn_brought (hc : m.chatJid = c) (h : isBlankMessage m = false) : idsIn c (brought m) = [m.id] := by
  rw [brought_eq h]
  exact idsIn_singleton_self m.key hc

theorem idsIn_brought_of_ne (h : m.chatJid ≠ c) : idsIn c (brought m) = [] := by
  refine idsIn_of_ne fun k hk => ?_
  unfold brought at hk
  split at hk
  · cases hk
  · rwa [mem_singleton.1 hk]

theorem stamped_unread (h : Stamped stamp m) : Stamped stamp (startUnread m) := by
  obtain ⟨b, hb⟩ := startUnread_fields m
  rwa [hb]

theorem slides_adoptStoredDone (hs : Dated stamp (messagesFor w c)) (fresh : Obj) (stored : Option UiMessage)
    (hst : ∀ s, stored = some s → s.id = fresh.msg.id ∧ Stamped stamp s) :
    Slides stamp c [] w (adoptStoredDone w fresh stored) := by
  rcases adoptStoredDone_cases w fresh stored with ⟨he, -⟩ | ⟨s, cur, hstored, hcur, -, he⟩
  · rw [he]
    exact .refl hs
  · rw [he]
    obtain ⟨hid, hstamp⟩ := hst s hstored
    refine .commit hs (fun _ => rfl) rfl (fun hj => ?_) fun _ => rfl
    have hcur' : findId (messagesFor w fresh.msg.chatJid) fresh.msg.id = some cur := hcur
    have hd : Dated stamp (messagesFor w fresh.msg.chatJid) := by rwa [hj]
    have hcs := hd cur (findId_mem hcur')
    refine .copy hd hcur' (hid.trans (findId_id hcur').symm) ?_
    show s.timestamp = _
    rw [hstamp.2, hcs.2, hid, findId_id hcur']

theorem slides_adoptStored (hs : Dated stamp (messagesFor w c)) (fresh : Obj)
    (hp : ∀ m, w.q.pending.get fresh.key = some (.put m) → Stamped stamp m.msg) :
    Slides stamp c [] w (adoptStored w fresh) := by
  unfold adoptStored
  split
  · rename_i m hm
    refine slides_adoptStoredDone hs fresh _ fun s hsm => ?_
    cases hsm
    exact ⟨congrArg Key.id (Table.get_key hm), hp m hm⟩
  · exact .refl hs
  · exact .of_same hs rfl rfl

theorem slides_insertNew (hs : Dated stamp (messagesFor w c)) (hl : arr = messagesFor w o.msg.chatJid)
    (ho : Stamped stamp o.msg) (hb : isBlankMessage o.msg = false)
    (hp : ∀ m, w.q.pending.get o.key = some (.put m) → Stamped stamp m.msg) :
    Slides stamp c (idsIn c (brought o.msg)) w (insertNew w o arr) := by
  subst hl
  have h1 : Slides stamp c (idsIn c (brought o.msg)) w (commit { w with q := persistMessageInsert w.q o }
      o.msg.chatJid (messagesFor w o.msg.chatJid ++ [o])) := by
    refine .commit hs (fun _ => rfl) rfl (fun hj => ?_) idsIn_brought_of_ne
    rw [idsIn_brought hj hb]
    exact .append (by rwa [hj]) ho
  unfold insertNew
  dsimp only
  split
  · refine h1.trans (slides_adoptStored h1.dated o fun m hm => hp m (get_insert_put.1 hm))
  · exact h1

theorem slides_addMessage (hs : Dated stamp (messagesFor w c)) (hm : Stamped stamp m)
    (hp : ∀ o, w.q.pending.get m.key = some (.put o) → Stamped stamp o.msg) :
    Slides stamp c (idsIn c (brought m)) w (addMessage w m) := by
  unfold addMessage
  split
  · rename_i hb
    rw [brought_of_blank hb]
    exact .refl hs
  rename_i hb
  rw [Bool.not_eq_true] at hb
  dsimp only
  -- from here on only the message that starts unread matters
  have hin : brought m = brought (startUnread m) := by
    obtain ⟨b, hb⟩ := startUnread_fields m
    rw [hb]
    rfl
  have hb : isBlankMessage (startUnread m) = false := by
    obtain ⟨b, hu⟩ := startUnread_fields m
    rwa [hu]
  have hm := stamped_unread hm
  rw [hin, ← startUnread_chatJid m]
  rw [← startUnread_key m] at hp
  generalize startUnread m = m at hb hm hp ⊢
  have hsame := Same.setList w m.chatJid
  generalize hw₁ : w.setList m.chatJid (messagesFor w m.chatJid) = w₁ at hsame ⊢
  have hex : w₁.exhausted = w.exhausted := by rw [← hw₁]; rfl
  have hs₁ : Dated stamp (messagesFor w₁ c) := by rwa [hsame.lists]
  have hfrom : Slides stamp c [] w w₁ := .of_same hs (hsame.lists c) (by rw [hex])
  split
  · -- redelivery of a resident message
    rename_i x hx
    rw [if_pos hm.1] at hx
    have hxi : x.msg.id = m.id := findId_id hx
    refine Slides.present (hfrom.trans ?_) fun i hi => ?_
    · unfold refreshMedia
      split
      · refine .commit hs₁ (fun _ => rfl) rfl (fun hj => ?_) fun _ => rfl
        rw [← hsame.lists] at hx ⊢
        exact .copy (by rwa [hj]) hx rfl rfl
      · exact .refl hs₁
    · rw [mem_idsIn, brought_eq hb, mem_singleton] at hi
      have hc : c = m.chatJid := congrArg Key.chatJid hi
      have hid : i = m.id := congrArg Key.id hi
      rw [hc, hid]
      exact hasId_iff.2 ⟨x, findId_mem hx, hxi⟩
  · split
    · -- the echo takes the place of a bubble
      rename_i hecho
      have hany : ∃ x, (messagesFor w m.chatJid).find? (matchesEcho m) = some x := by
        rw [← Option.isSome_iff_exists, find?_isSome]
        simpa using (Bool.and_eq_true_iff.1 hecho).2
      obtain ⟨x, hx⟩ := hany
      have htmp : isTmp x.msg.id = true := by
        have := find?_some hx
        simp only [matchesEcho, Bool.and_eq_true] at this
        exact this.1.1.1.2
      refine .commit hs hsame.lists hex (fun hj => ?_) idsIn_brought_of_ne
      rw [idsIn_brought hj hb]
      exact .replaceFirst (o := ⟨w₁.nextRef, { m with status := some .sent }⟩) (by rwa [hj]) hx (.inr htmp) hm
    · have hi := slides_insertNew (w := { w₁ with nextRef := w₁.nextRef + 1 }) (o := ⟨w₁.nextRef, m⟩)
        hs₁ (hsame.lists m.chatJid).symm hm hb fun o ho => hp o (hsame.pending ▸ ho)
      exact hi.before (hsame.lists c) (by rw [← hex]; exact id)

theorem reshaped_historyPush (persist : Bool) (st : World × List Jid)
    (hs : Dated stamp (messagesFor st.1 c)) (ho : Stamped stamp o.msg) :
    Reshaped stamp (idsIn c (brought o.msg)) (messagesFor st.1 c)
        (messagesFor (historyPush persist st o).1 c) ∧
      (historyPush persist st o).1.exhausted = st.1.exhausted := by
  unfold historyPush
  split
  · rename_i hb
    rw [brought_of_blank hb]
    exact ⟨.refl hs, rfl⟩
  rename_i hb
  rw [Bool.not_eq_true] at hb
  dsimp only
  by_cases hc : o.msg.chatJid = c
  · subst hc
    have hin : idsIn o.msg.chatJid (brought o.msg) = [o.msg.id] := idsIn_brought rfl hb
    split
    · rename_i hold
      refine ⟨?_, rfl⟩
      rw [messagesFor_setList, if_pos rfl, hin]
      exact (Reshaped.refl hs).present (Bool.and_eq_true_iff.1 hold).2
    · refine ⟨?_, rfl⟩
      show Reshaped stamp _ _ (messagesFor (st.1.setList _ _) _)
      rw [messagesFor_setList, if_pos rfl, hin]
      exact .append hs ho
  · have hin : idsIn c (brought o.msg) = [] := idsIn_brought_of_ne hc
    rw [hin]
    split
    · refine ⟨?_, rfl⟩
      rw [messagesFor_setList, if_neg (Ne.symm hc)]
      exact .refl hs
    · refine ⟨?_, rfl⟩
      show Reshaped stamp _ _ (messagesFor (st.1.setList _ _) _)
      rw [messagesFor_setList, if_neg (Ne.symm hc)]
      exact .refl hs

theorem reshaped_push (persist : Bool) (list : List Obj) (hl : Dated stamp list) :
    ∀ st : World × List Jid, Dated stamp (messagesFor st.1 c) →
      Reshaped stamp (idsIn c (list.flatMap (fun o => brought o.msg))) (messagesFor st.1 c)
          (messagesFor (list.foldl (historyPush persist) st).1 c) ∧
        (list.foldl (historyPush persist) st).1.exhausted = st.1.exhausted := by
  induction list with
  | nil => exact fun st hs => ⟨.refl hs, rfl⟩
  | cons o list ih =>
    intro st hs
    rw [Dated, forall_mem_cons] at hl
    obtain ⟨h1, he1⟩ := reshaped_historyPush persist st hs hl.1
    obtain ⟨h2, he2⟩ := ih hl.2 _ h1.dated
    rw [flatMap_cons, idsIn_append]
    exact ⟨h1.trans h2, he2.trans he1⟩

theorem slides_addHistoryMessages (hs : Dated stamp (messagesFor w c)) {list : List Obj}
    (hl : Dated stamp list) (persist : Bool) :
    Slides stamp c (idsIn c (list.flatMap (fun o => brought o.msg))) w (addHistoryMessages w list persist) := by
  obtain ⟨h1, he⟩ := reshaped_push persist list hl (w, []) hs
  have hpush : Slides stamp c (idsIn c (list.flatMap (fun o => brought o.msg))) w
      (list.foldl (historyPush persist) (w, [])).1 := .of_list rfl h1 (by rw [he]; exact id)
  exact List.foldlRecOn _ _ hpush fun v hv jid _ =>
    hv.trans (slides_acts hv.dated (acts_historyFinish v trivial))

/-! ## Reading and sends -/

/-- The key that a confirm puts in, if the bubble is there. -/
def confirms (w : World) (jid : Jid) (tempId realId : MsgId) : List Key :=
  if hasId (messagesFor w jid) tempId then [⟨jid, realId⟩] else []

theorem slides_confirmOptimistic (hs : Dated stamp (messagesFor w c)) {tempId realId : MsgId}
    (ht : isTmp tempId = true)
    (ho : ∀ x, findId (messagesFor w jid) tempId = some x → Stamped stamp (confirmed w x realId).msg) :
    Slides stamp c (idsIn c (confirms w jid tempId realId)) w (confirmOptimistic w jid tempId realId) := by
  rcases confirmOptimistic_cases w jid tempId realId with ⟨hx, hv⟩ | ⟨x, hx, hcases⟩
  · have hn : confirms w jid tempId realId = [] := by
      rw [confirms, hasId_eq, hx]
      rfl
    rw [hv, hn]
    exact .refl hs
  have hin : confirms w jid tempId realId = [⟨jid, realId⟩] := by
    rw [confirms, hasId_eq, hx]
    rfl
  rw [hin]
  rcases hcases with ⟨hr, hv⟩ | ⟨hr, hv⟩
  · -- the message is there already: the bubble goes
    rw [hv]
    refine .commit hs (fun _ => rfl) rfl (fun hj => ?_) fun hj => idsIn_singleton_of_ne _ hj
    rw [idsIn_singleton_self _ hj]
    refine (Reshaped.eraseBubble (by rwa [hj]) ht).present ?_
    rw [hasId_eq, hr]
  · rw [hv]
    refine .commit hs (fun _ => rfl) rfl (fun hj => ?_) fun hj => idsIn_singleton_of_ne _ hj
    rw [idsIn_singleton_self _ hj]
    have hxi : x.msg.id = tempId := findId_id hx
    exact .replaceFirst (by rwa [hj]) hx (.inr (by rwa [hxi])) (ho x hx)

theorem slides_restoreMessage (hs : Dated stamp (messagesFor w c)) (ho : Stamped stamp o.msg) :
    Slides stamp c (idsIn c [o.key]) w (restoreMessage w o) := by
  have hne : o.msg.chatJid ≠ c → idsIn c [o.key] = [] := idsIn_singleton_of_ne o.key
  have hin : o.msg.chatJid = c → idsIn c [o.key] = [o.msg.id] := idsIn_singleton_self o.key
  unfold restoreMessage
  dsimp only
  split
  · rename_i hold
    obtain ⟨x, hx⟩ := Option.isSome_iff_exists.1 ((hasId_eq _ _).symm.trans hold)
    have hxi : x.msg.id = o.msg.id := findId_id hx
    refine .setList hs (fun j => messagesFor_setList) rfl (fun hj => ?_) hne
    rw [hin hj]
    exact .replaceFirst (by rwa [hj]) hx (.inl hxi.symm) ho
  · refine .commit hs (fun _ => rfl) rfl (fun hj => ?_) hne
    rw [hin hj]
    exact .append (by rwa [hj]) ho

/-! ## Updates -/

theorem slides_insertTombstone (hs : Dated stamp (messagesFor w c)) {k : Key} {f : Fallback}
    (ho : Stamped stamp (tombstone k f)) : Slides stamp c (idsIn c [k]) w (insertTombstone w k f) := by
  have hne : k.chatJid ≠ c → idsIn c [k] = [] := idsIn_singleton_of_ne k
  have hin : k.chatJid = c → idsIn c [k] = [k.id] := idsIn_singleton_self k
  unfold insertTombstone
  dsimp only
  split
  · rename_i hold
    refine .setList hs (fun j => messagesFor_setList) rfl (fun hj => ?_) hne
    rw [hin hj]
    exact (Reshaped.refl (by rwa [hj])).present hold
  · refine .commit hs (fun _ => rfl) rfl (fun hj => ?_) hne
    rw [hin hj]
    exact .append (o := ⟨w.nextRef, tombstone k f⟩) (by rwa [hj]) ho

/-- The key of the tombstone that the end of a patch puts in. -/
def planted (k : Key) (found : Bool) : AfterPatch → List Key
  | .tombstone (some _) => if found then [] else [k]
  | _ => []

theorem slides_afterPatch (hs : Dated stamp (messagesFor w c)) (k : Key) (found : Bool)
    (after : AfterPatch) (ho : ∀ f, after = .tombstone (some f) → Stamped stamp (tombstone k f)) :
    Slides stamp c (idsIn c (planted k found after)) w (afterPatch w k found after) := by
  cases after with
  | ignore => exact .refl hs
  | tombstone fallback =>
    cases fallback with
    | none => exact .refl hs
    | some f =>
      cases found with
      | true => exact .refl hs
      | false => exact slides_insertTombstone hs (ho f rfl)
  | early status =>
    cases found with
    | true => exact .refl hs
    | false =>
      refine .of_same hs ((Same.rememberEarlyReceipt w k.id status).lists c) ?_
      simp only [afterPatch, rememberEarlyReceipt]
      repeat' split
      all_goals rfl

/-- Whether a delete of the message is queued. -/
def World.deleting (w : World) (k : Key) : Bool :=
  match w.q.pending.get k with
  | some (.del _ _) => true
  | _ => false

theorem planted_true (k : Key) (after : AfterPatch) : planted k true after = [] := by
  unfold planted
  split <;> rfl

theorem slides_patchThen (hs : Dated stamp (messagesFor w c)) (k : Key) (fn : Patch)
    (after : AfterPatch) (ho : ∀ f, after = .tombstone (some f) → Stamped stamp (tombstone k f)) :
    Slides stamp c (idsIn c (planted k (!w.deleting k) after)) w (patchThen w k fn after) := by
  unfold patchThen patchPersistedMessage World.deleting
  cases hq : w.q.pending.get k with
  | none =>
    show Slides stamp c (idsIn c (planted k true after)) w _
    rw [planted_true]
    exact .of_same hs rfl rfl
  | some op =>
    cases op with
    | put =>
      have h1 : ∀ v : World, messagesFor v c = messagesFor w c → v.exhausted c = w.exhausted c →
          Slides stamp c (idsIn c (planted k true after)) w (afterPatch v k true after) := by
        intro v hl he
        exact (slides_afterPatch (by rwa [hl]) k true after ho).before hl (by rw [he]; exact id)
      dsimp only
      split
      · rename_i heq
        split at heq
        · cases heq
          exact h1 _ rfl rfl
        · cases heq
          exact h1 _ rfl rfl
      · rename_i heq
        split at heq <;> cases heq
    | add =>
      show Slides stamp c (idsIn c (planted k true after)) w _
      rw [planted_true]
      exact .of_same hs rfl rfl
    | del => exact slides_afterPatch hs k false after ho

/-- The key of the tombstone that a revoke puts in at once: a delete of the message is queued. -/
def revokes (w : World) (jid : Jid) (id : MsgId) (fallback : Option Fallback) : List Key :=
  if hasId (messagesFor w jid) id then [] else planted ⟨jid, id⟩ (!w.deleting ⟨jid, id⟩) (.tombstone fallback)

theorem slides_applyRevoke (hs : Dated stamp (messagesFor w c)) (jid : Jid) (id : MsgId)
    (fallback : Option Fallback) (ho : findId (messagesFor w jid) id = none →
      ∀ f, fallback = some f → Stamped stamp (tombstone ⟨jid, id⟩ f)) :
    Slides stamp c (idsIn c (revokes w jid id fallback)) w (applyRevoke w jid id fallback) := by
  unfold applyRevoke revokes
  rw [hasId_eq]
  cases hx : findId (messagesFor w jid) id with
  | none => exact slides_patchThen hs _ _ _ fun f hf => ho hx f (AfterPatch.tombstone.inj hf)
  | some =>
    rw [byChat_of_find hx]
    refine .commit hs (fun _ => rfl) rfl (fun hj => ?_) fun _ => rfl
    exact .copy (by rwa [hj]) hx rfl rfl

/-! ## Paging -/

/-- A page puts its rows in. -/
theorem reshaped_loadOlderDone (hs : Dated stamp (messagesFor w jid)) (limit : ℕ)
    (beforeTs : Option ℤ) (hr : Dated stamp (loadLatestMessages w jid limit beforeTs)) :
    Reshaped stamp ((loadLatestMessages w jid limit beforeTs).map (·.msg.id)) (messagesFor w jid)
      (messagesFor (loadOlderDone w jid limit beforeTs) jid) := by
  obtain ⟨l, hl, hlist⟩ := messagesFor_loadOlderDone w jid limit beforeTs
  rw [hlist, if_pos rfl]
  refine Reshaped.perm ?_ hl
  constructor
  · intro o ho
    rcases mem_append.1 ho with ho | ho
    · exact .inr (mem_map_of_mem (mem_filter.1 ho).1)
    · exact .inl (hasId_of_mem ho)
  · intro i _ hi
    cases hold : hasId (messagesFor w jid) i with
    | true =>
      obtain ⟨x, hx, hxi⟩ := hasId_iff.1 hold
      exact hasId_iff.2 ⟨x, mem_append_right _ hx, hxi⟩
    | false =>
      rcases hi with hi | hi
      · rw [hold] at hi
        cases hi
      · obtain ⟨x, hx, rfl⟩ := mem_map.1 hi
        refine hasId_iff.2 ⟨x, mem_append_left _ (mem_filter.2 ⟨hx, ?_⟩), rfl⟩
        rw [hold]
        rfl
  · intro o ho
    rcases mem_append.1 ho with ho | ho
    · exact hr o (mem_filter.1 ho).1
    · exact hs o ho

/-- The end of the list is kept. -/
theorem slides_lastN (hs : Dated stamp (messagesFor w c)) (ht : w.Sorted) (n : ℕ)
    (hl : ∀ j, messagesFor v j = if j = jid then lastN n (messagesFor w jid) else messagesFor w j)
    (he : v.exhausted = update w.exhausted jid false) : Slides stamp c [] w v := by
  by_cases hj : jid = c
  · subst hj
    exact .of_end (by rw [hl, if_pos rfl]) (ht jid) (.refl hs) (by rw [he, update_self])
  · exact .of_same hs (by rw [hl, if_neg (Ne.symm hj)]) (by rw [he, update_of_ne (Ne.symm hj)])

/-! ## Merges -/

theorem reshaped_mergePush (l p : Jid) (src : List Obj) (hsrc : Dated stamp src) :
    ∀ st : List Obj × ℕ, Dated stamp st.1 →
      Reshaped stamp (src.map (·.msg.id)) st.1 (src.foldl (mergePush l p) st).1 := by
  induction src with
  | nil => exact fun st hs => .refl hs
  | cons o src ih =>
    intro st hs
    rw [Dated, forall_mem_cons] at hsrc
    have h1 : Reshaped stamp [o.msg.id] st.1 (mergePush l p st o).1 := by
      unfold mergePush
      split
      · rename_i hold
        exact (Reshaped.refl hs).present (Bool.and_eq_true_iff.1 hold).2
      · exact .append (o := ⟨st.2, rekey l p o.msg⟩) hs hsrc.1
    exact h1.trans (ih hsrc.2 _ h1.dated)

/-- The keys that a merge of `l` into `p` puts in. -/
def merges (w : World) (l p : Jid) : List Key := (messagesFor w l).map fun o => ⟨p, o.msg.id⟩

theorem idsIn_merges (w : World) (l p : Jid) : idsIn p (merges w l p) = (messagesFor w l).map (·.msg.id) := by
  simp [idsIn, merges, filter_map, Function.comp_def]

theorem idsIn_merges_of_ne (h : p ≠ c) : idsIn c (merges w l p) = [] := by
  refine idsIn_of_ne fun k hk => ?_
  obtain ⟨o, -, rfl⟩ := mem_map.1 hk
  exact h

theorem slides_mergeMessages (hs : Dated stamp (messagesFor w c))
    (hl : Dated stamp (messagesFor w l)) (hc : c ≠ l) :
    Slides stamp c (idsIn c (merges w l p)) w (mergeMessages w l p) := by
  obtain ⟨w₁, hw₁, he⟩ := mergeMessages_eq w l p
  have hl₁ : messagesFor w₁ c = messagesFor w c := by
    rw [hw₁, messagesFor, messagesFor_update, if_neg hc]
    rfl
  have he₁ : w₁.exhausted c = w.exhausted c := by
    rw [hw₁]
    exact update_of_ne hc _ _
  rw [he]
  split
  · rename_i hsrc
    have hin : merges w l p = [] := by
      rw [merges, List.isEmpty_iff.1 hsrc]
      rfl
    rw [hin]
    exact .of_same hs hl₁ he₁
  · refine Slides.before (v := { w₁ with exhausted := update w₁.exhausted p false }) ?_ hl₁ ?_
    · refine .commit (by rwa [← hl₁] at hs) (fun _ => rfl) rfl (fun hp => ?_) idsIn_merges_of_ne
      subst hp
      rw [idsIn_merges]
      exact reshaped_mergePush l p _ hl (messagesFor w₁ p, w₁.nextRef) (by rwa [hl₁])
    · -- the target is not exhausted after a merge
      intro he
      have he : update w₁.exhausted p false c = true := he
      by_cases hp : c = p
      · rw [hp, update_self] at he
        cases he
      · rwa [update_of_ne hp, he₁] at he

theorem moved_lists (w : World) (l p : Jid) :
    (∀ j, messagesFor (schedulePersistChats (movePersistedChat (mergeChats w l p) l p)) j =
      messagesFor w j) ∧
      (schedulePersistChats (movePersistedChat (mergeChats w l p) l p)).exhausted = w.exhausted := by
  unfold schedulePersistChats movePersistedChat mergeChats
  constructor
  · intro j
    repeat' split
    all_goals rfl
  · repeat' split
    all_goals rfl

theorem slides_applyMerge (hs : Dated stamp (messagesFor w c))
    (hl : Dated stamp (messagesFor w l)) (hc : c ≠ l) :
    Slides stamp c (idsIn c (merges w l p)) w (applyMerge w l p) := by
  unfold applyMerge
  split
  · rename_i hno
    have hb : w.byChat l = none := Option.isNone_iff_eq_none.1 (Bool.and_eq_true_iff.1 hno).2
    have hin : merges w l p = [] := by
      rw [merges, messagesFor, hb]
      rfl
    rw [hin]
    exact .refl hs
  · have h1 := slides_mergeMessages (p := p) hs hl hc
    refine h1.trans (.of_same h1.dated ?_ ?_)
    · exact (moved_lists _ l p).1 c
    · rw [(moved_lists _ l p).2]

/-- The merged chat itself has no window any more. -/
theorem applyMerge_source (hne : l ≠ p) :
    applyMerge w l p = w ∨
      messagesFor (applyMerge w l p) l = [] ∧ (applyMerge w l p).exhausted l = false := by
  unfold applyMerge
  split
  · exact .inl rfl
  right
  obtain ⟨_, rfl, he⟩ := mergeMessages_eq w l p
  rw [(moved_lists _ l p).1, (moved_lists _ l p).2, he]
  split
  · refine ⟨?_, update_self _ _ _⟩
    rw [messagesFor, messagesFor_update, if_pos rfl]
    rfl
  · rw [messagesFor_commit, if_neg hne]
    refine ⟨?_, ?_⟩
    · rw [messagesFor, messagesFor_update, if_pos rfl]
      rfl
    · unfold commit
      dsimp only
      split <;> simp [update_of_ne hne]

/-! ## Unification -/

/-- The keys that a unification step puts in. -/
def Step.gathers (w : World) (e : Step) : List Key :=
  match e.merge w with
  | some (l, p) => merges w l p
  | none => []

theorem slides_received (hs : Dated stamp (messagesFor w c)) {r : Option ReceiptDto} (h : ReceiptApplied r w v) :
    Slides stamp c [] w v := by
  rcases h with rfl | ⟨d, -, rfl⟩
  · exact .refl hs
  · exact slides_acts hs (acts_applyReceipt w _ _ fun _ _ => trivial)

/-- The lists and the marks of `v` are those of `w`. -/
def SameLists (w v : World) : Prop := v.byChat = w.byChat ∧ v.exhausted = w.exhausted

theorem SameLists.messagesFor (h : SameLists w v) (j : Jid) : messagesFor v j = messagesFor w j := by
  rw [Whatsvelte.messagesFor, h.1]
  rfl

theorem Learnt.sameLists (h : Learnt w v) : SameLists w v := by
  obtain ⟨m, r, rfl⟩ := h
  exact ⟨rfl, rfl⟩

theorem SameLists.slides (h : SameLists w v) (hs : Dated stamp (Whatsvelte.messagesFor w c)) :
    Slides stamp c [] w v := .of_same hs (h.messagesFor c) (by rw [h.2])

/-- **A unification step** puts the merged messages in. -/
theorem slides_unify {e : Step} (hs : ∀ j, Dated stamp (messagesFor w j)) (hu : e.unifies = true)
    (hc : ∀ l p, e.merge w = some (l, p) → c ≠ l) : Slides stamp c (idsIn c (e.gathers w)) w (w.step e) := by
  obtain ⟨w₁, w₃, h1, h3, hr⟩ := unify_learnt (w := w) hu
  replace h1 := h1.sameLists
  replace h3 := h3.sameLists
  have h2 : Slides stamp c (idsIn c (e.gathers w)) w (w₁.merged (e.merge w)) := by
    unfold Step.gathers
    cases hm : e.merge w with
    | none => exact h1.slides (hs c)
    | some lp =>
      obtain ⟨l, p⟩ := lp
      have hin : merges w l p = merges w₁ l p := by
        unfold merges
        rw [h1.messagesFor]
      dsimp only
      rw [hin]
      refine (slides_applyMerge ?_ ?_ (hc l p hm)).before (h1.messagesFor c) (by rw [h1.2]; exact id)
      · rw [h1.messagesFor]
        exact hs c
      · rw [h1.messagesFor]
        exact hs l
  have h23 := h2.trans (h3.slides h2.dated)
  exact h23.trans (slides_received h23.dated hr)

/-- The chat that a unification step merges into another: nothing happens to it, or its window is gone. -/
theorem unify_source {e : Step} (hs : Dated stamp (messagesFor w l)) (hm : e.merge w = some (l, p))
    (hne : l ≠ p) :
    Slides stamp l [] w (w.step e) ∨ messagesFor (w.step e) l = [] ∧ (w.step e).exhausted l = false := by
  obtain ⟨w₁, w₃, h1, h3, hr⟩ := unify_learnt (w := w) (unifies_of_merge hm)
  replace h1 := h1.sameLists
  replace h3 := h3.sameLists
  have h1s : Slides stamp l [] w w₁ := h1.slides hs
  rw [hm] at h3
  rcases applyMerge_source hne with hno | ⟨hl, he⟩
  · left
    rw [World.merged, hno] at h3
    have h3s := h1s.trans (h3.slides h1s.dated)
    exact h3s.trans (slides_received h3s.dated hr)
  · right
    have hl3 : messagesFor w₃ l = [] := (h3.messagesFor l).trans hl
    have hr : Slides stamp l [] w₃ (w.step e) :=
      slides_received (by rw [hl3]; exact fun o ho => nomatch ho) hr
    refine ⟨eq_nil_iff_forall_not_mem.2 fun o ho => ?_, Bool.eq_false_iff.2 fun hv => ?_⟩
    · rcases hr.origin o ho with hold | hold
      · rw [hl3] at hold
        cases hold
      · cases hold
    · have hx := hr.exhausted hv
      rw [h3.2] at hx
      exact absurd (hx.symm.trans he) (by simp)

end Whatsvelte
