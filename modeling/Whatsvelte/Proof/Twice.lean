import Whatsvelte.Proof.Author
import Whatsvelte.Proof.History

/-!
# The same event twice

The handler of `wa://message` looks for the message in the list of its chat, but updates the row of the
chat in any case. `redelivery_idempotent`: whatever came between the two deliveries, the second one
leaves the rows as they are if and only if the message is an own one that the row already covers
(`RowKept`). The messages and the effective history stay what they were, up to trimming, where the
second copy has nothing to add to the first (`MessageKept`).
-/

namespace Whatsvelte

open List Table

variable {w v u : World} {k : Key} {jid : Jid} {m s : UiMessage} {o o' x : Obj}
  {arr arr' pre post : List Obj}

/-! ## Up to trimming -/

/-- `arr'` holds the messages of `arr`, except for those that were trimmed away. -/
def Trimmed (w : World) (jid : Jid) (arr arr' : List Obj) : Prop :=
  ∃ dropped, (dropped ++ arr').Perm arr ∧
    (dropped = [] ∨ w.activeJid ≠ some jid ∧ arr'.length = RESIDENT_TAIL)

theorem Trimmed.refl (w : World) (jid : Jid) (arr : List Obj) : Trimmed w jid arr arr :=
  ⟨[], .refl _, .inl rfl⟩

theorem Trimmed.perm (h : Trimmed w jid arr arr') (hp : arr'.Perm pre) : Trimmed w jid arr pre := by
  obtain ⟨dropped, hd, hlen⟩ := h
  refine ⟨dropped, (hp.symm.append_left dropped).trans hd, hlen.imp_right fun ⟨ha, hl⟩ => ⟨ha, ?_⟩⟩
  rw [← hp.length_eq, hl]

theorem trimmed_committed (w : World) (jid : Jid) (arr : List Obj) :
    Trimmed w jid arr (committed w jid arr) := by
  unfold committed
  split
  · rename_i ht
    obtain ⟨dropped, hd⟩ := lastN_suffix RESIDENT_TAIL (sortByTime arr)
    refine ⟨dropped, by rw [hd]; exact sortByTime_perm arr, .inr ?_⟩
    simp only [trims, Bool.and_eq_true, decide_eq_true_eq] at ht
    refine ⟨ht.1, ?_⟩
    rw [length_lastN, (sortByTime_perm arr).length_eq]
    omega
  · exact ⟨[], sortByTime_perm arr, .inl rfl⟩

/-- A list of the resident tail's length is not trimmed any further. -/
theorem committed_perm (h : w.activeJid = some jid ∨ arr.length ≤ RESIDENT_TAIL) :
    (committed w jid arr).Perm arr := by
  have ht : trims w jid arr = false := by
    rcases h with h | h <;> simp [trims, h]
  rw [committed, ht]
  exact sortByTime_perm arr

/-- The message that was added is not among those that are left. -/
theorem Trimmed.without (h : Trimmed w jid (arr ++ [o]) arr') (ho : o ∉ arr') : Trimmed w jid arr arr' := by
  obtain ⟨dropped, hd, hlen⟩ := h
  have hmem : o ∈ dropped := by
    have hin : o ∈ dropped ++ arr' := hd.symm.subset (by simp)
    exact (mem_append.1 hin).resolve_right ho
  obtain ⟨a, b, rfl⟩ := append_of_mem hmem
  refine ⟨a ++ b, ?_, hlen.elim (fun h => absurd h (by simp)) Or.inr⟩
  have hcons : (o :: (a ++ b ++ arr')).Perm (o :: arr) := by
    refine (List.Perm.trans ?_ hd).trans (perm_append_singleton o arr)
    rw [append_assoc, append_assoc]
    exact perm_middle.symm
  exact hcons.cons_inv

/-- The message that was added is exchanged for another. -/
theorem Trimmed.exchange (h : Trimmed w jid (arr ++ [o]) (pre ++ o :: post)) (o' : Obj) :
    Trimmed w jid (arr ++ [o']) (pre ++ o' :: post) := by
  obtain ⟨dropped, hd, hlen⟩ := h
  have hrest : (dropped ++ (pre ++ post)).Perm arr := by
    refine List.Perm.cons_inv (a := o) ?_
    refine (List.Perm.trans ?_ hd).trans (perm_append_singleton o arr)
    rw [← append_assoc, ← append_assoc]
    exact perm_middle.symm
  refine ⟨dropped, ?_, by simpa using hlen⟩
  have hmid : (dropped ++ (pre ++ o' :: post)).Perm (o' :: (dropped ++ (pre ++ post))) := by
    rw [← append_assoc, ← append_assoc]
    exact perm_middle
  exact hmid.trans ((hrest.cons o').trans (perm_append_singleton o' arr).symm)

/-! ## The same messages -/

/-- `o` is the record `s`, or waits to adopt it. -/
def Restored (k : Key) (s : UiMessage) (v : World) (o : Obj) : Prop :=
  o.key = k ∧ (o.msg = s ∨ adopted s o.msg = s ∧ Due (· = some s) (.adopt o) k v)

/-- The effective history is the same, and so are the messages in memory, up to trimming. If the message
`k` was not in memory, its record may have been added. -/
structure SameMessages (k : Key) (w v : World) : Prop where
  history : v.eff = w.eff
  lists : ∀ jid, Trimmed w jid (messagesFor w jid) (messagesFor v jid) ∨
    jid = k.chatJid ∧ (w.slot k).resident = none ∧ ∃ s o, w.eff k = some s ∧ Restored k s v o ∧
      Trimmed w jid (messagesFor w jid ++ [o]) (messagesFor v jid)

theorem SameMessages.then_same (h : SameMessages k w v) (hs : Same v u) : SameMessages k w u := by
  refine ⟨hs.eff.trans h.history, fun jid => ?_⟩
  rw [hs.lists]
  refine (h.lists jid).imp_right fun ⟨hj, hres, s, o, he, ⟨hk, ho⟩, ht⟩ => ?_
  exact ⟨hj, hres, s, o, he, ⟨hk, ho.imp_right fun ⟨ha, hd⟩ => ⟨ha, hd.of_jobs hs.jobs hs.msgs⟩⟩, ht⟩

theorem Same.sameMessages (h : Same w v) : SameMessages k w v :=
  ⟨h.eff, fun jid => .inl (by rw [h.lists]; exact .refl w jid _)⟩

/-- The list of one chat has been replaced. -/
theorem sameMessages_of_list (heff : v.eff = w.eff)
    (hother : ∀ j, j ≠ k.chatJid → messagesFor v j = messagesFor w j)
    (hlist : Trimmed w k.chatJid (messagesFor w k.chatJid) (messagesFor v k.chatJid) ∨
      (w.slot k).resident = none ∧ ∃ s o, w.eff k = some s ∧ Restored k s v o ∧
        Trimmed w k.chatJid (messagesFor w k.chatJid ++ [o]) (messagesFor v k.chatJid)) :
    SameMessages k w v := by
  refine ⟨heff, fun j => ?_⟩
  by_cases hj : j = k.chatJid
  · subst hj
    exact hlist.imp_right fun h => ⟨rfl, h⟩
  · rw [hother j hj]
    exact .inl (.refl w j _)

/-! ## A copy that is not in memory -/

theorem eff_of_pending_put {n : Obj} (h : w.q.pending.get k = some (.put n)) : w.eff k = some n.msg := by
  rw [eff_apply, h]
  exact congrArg some (toRecord_self n.msg)

theorem adopted_self (m : UiMessage) : adopted m m = m := by simp [adopted]

/-- A copy `m` of the record `s` has nothing to add to it. -/
def Stale (w : World) (m s : UiMessage) : Prop :=
  s = m ∨ w.exhausted m.chatJid = false ∧ adopted s m = s ∧
    ∀ n, w.q.pending.get m.key = some (.add n) → (w.base m.key).isSome = true

theorem Stale.adopted (h : Stale w m s) : adopted s m = s := by
  rcases h with rfl | h
  · exact adopted_self s
  · exact h.2.1

/-- Without a full write in the queue, the record is in the database or an insert is queued. -/
theorem base_or_added (hs : w.eff k = some s) (hput : ∀ n, w.q.pending.get k ≠ some (.put n)) :
    w.base k = some s ∨ w.base k = none ∧ ∃ n, w.q.pending.get k = some (.add n) := by
  rw [eff_apply] at hs
  cases hq : w.q.pending.get k with
  | none => rw [hq] at hs; exact .inl hs
  | some op =>
    rw [hq] at hs
    cases op with
    | put n => exact absurd hq (hput n)
    | del => cases hs
    | add n =>
      cases hb : w.base k with
      | none => exact .inr ⟨rfl, n, rfl⟩
      | some => rw [hb] at hs; exact .inl hs

section Insert

variable (hs : w.eff o.key = some s) (hst : Stale w o.msg s)
include hs hst

/-- The insert-only write finds the record. -/
theorem insertEff_of_stale : insertEff w o = some s := by
  unfold insertEff
  split
  · split
    · exact hs
    · rename_i hput
      rcases base_or_added hs hput with hb | ⟨hb, n, hn⟩
      · rw [hb]
        rfl
      · rw [hb]
        rcases hst with rfl | ⟨-, -, hadd⟩
        · rfl
        · exact absurd (hadd n hn) (by rw [show w.base o.msg.key = none from hb]; rintro ⟨⟩)
  · exact hs

/-- A copy that waits for the database will find the record there. -/
theorem base_of_stale (hne : o.msg ≠ s) (hput : ∀ n, w.q.pending.get o.key ≠ some (.put n)) :
    w.base o.key = some s := by
  obtain ⟨-, -, hadd⟩ := hst.resolve_left (Ne.symm hne)
  rcases base_or_added hs hput with hb | ⟨hb, n, hn⟩
  · exact hb
  · exact absurd (hadd n hn) (by rw [show w.base o.msg.key = none from hb]; exact nofun)

/-- The state after the first half of `insertNew`. -/
theorem inserted_of_stale (hw₁ : v = commit { w with q := persistMessageInsert w.q o } o.msg.chatJid
      (messagesFor w o.msg.chatJid ++ [o])) :
    v.eff = w.eff ∧ v.base = w.base ∧ (∀ j, j ≠ o.msg.chatJid → messagesFor v j = messagesFor w j) ∧
      Trimmed w o.msg.chatJid (messagesFor w o.msg.chatJid ++ [o]) (messagesFor v o.msg.chatJid) ∧
      (v.activeJid = some o.msg.chatJid ∨ (messagesFor v o.msg.chatJid).length ≤ RESIDENT_TAIL) := by
  have hq : v.q = persistMessageInsert w.q o := by rw [hw₁]; rfl
  have hbase : v.base = w.base := by rw [hw₁]; rfl
  have hlists : ∀ j, messagesFor v j = if j = o.msg.chatJid then
      committed w o.msg.chatJid (messagesFor w o.msg.chatJid ++ [o]) else messagesFor w j := by
    intro j
    rw [hw₁, messagesFor_commit]
    rfl
  have hact : v.activeJid = w.activeJid := by rw [hw₁]; rfl
  refine ⟨funext fun k => ?_, hbase, fun j hj => ?_, ?_, ?_⟩
  · by_cases hk : o.key = k
    · subst hk
      rw [eff_persistMessageInsert hq hbase, insertEff_of_stale hs hst, hs]
    · exact eff_persistMessageInsert_of_ne hq hbase hk
  · rw [hlists, if_neg hj]
  · rw [hlists, if_pos rfl]
    exact trimmed_committed w _ _
  · rw [hlists, if_pos rfl, hact]
    exact length_committed w _ _

end Insert

/-- The record takes the place of the copy. -/
theorem adoptWith_of_stale (hs : adopted s o.msg = s) (hx : (v.slot o.key).resident = some o)
    (hlen : v.activeJid = some o.msg.chatJid ∨ (messagesFor v o.msg.chatJid).length ≤ RESIDENT_TAIL)
    (ht : Trimmed w o.msg.chatJid (arr ++ [o]) (messagesFor v o.msg.chatJid)) :
    (adoptWith v o s).eff = v.eff ∧
      (∀ j, j ≠ o.msg.chatJid → messagesFor (adoptWith v o s) j = messagesFor v j) ∧
      Trimmed w o.msg.chatJid (arr ++ [⟨v.nextRef, s⟩]) (messagesFor (adoptWith v o s) o.msg.chatJid) := by
  unfold adoptWith
  dsimp only
  rw [hs, if_neg (by simp)]
  refine ⟨rfl, fun j hj => ?_, ?_⟩
  · rw [messagesFor_commit, if_neg hj]
    rfl
  · obtain ⟨pre, post, hsplit, hrep⟩ := replaceFirst_of_find (show (messagesFor v o.msg.chatJid).find?
      (fun x => x.msg.id = o.msg.id) = some o from hx)
    rw [messagesFor_commit, if_pos rfl, replaceId, hrep]
    rw [hsplit] at ht hlen
    refine (ht.exchange ⟨v.nextRef, s⟩).perm (committed_perm ?_).symm
    simpa using hlen

/-- **A copy that is not in memory** comes in again and leaves everything as it was. -/
theorem sameMessages_insertNew (h : w.Wf) (hid : o.msg.id ≠ "") (hres : (w.slot o.key).resident = none)
    (hs : w.eff o.key = some s) (hst : Stale w o.msg s) :
    SameMessages o.key w (insertNew w o (messagesFor w o.msg.chatJid)) := by
  unfold insertNew
  dsimp only
  generalize hw₁ : commit { w with q := persistMessageInsert w.q o } o.msg.chatJid
    (messagesFor w o.msg.chatJid ++ [o]) = v
  obtain ⟨heff, hbase, hother, htrim, hlen⟩ := inserted_of_stale hs hst hw₁.symm
  obtain ⟨htouch, hslot, -⟩ := insertNew_commit h (.inr hres) hw₁.symm
  have hpend : v.q.pending.get o.key = (persistMessageInsert w.q o).pending.get o.key := by
    rw [← hw₁]; rfl
  split
  · unfold adoptStored
    split
    · -- a full write is queued: its record is adopted at once
      rename_i n hput
      rw [hpend, get_insert_put] at hput
      have hn : n.msg = s := Option.some.inj ((eff_of_pending_put hput).symm.trans hs)
      rcases adoptStoredDone_cases v o (some n.msg) with ⟨he, hno⟩ | ⟨s', cur, hs', hcur, -, he⟩
      · rw [he]
        refine sameMessages_of_list heff hother (.inl (htrim.without fun hmem => ?_))
        have hin := (findId_eq_some (htouch.wf o.msg.chatJid) hid).2 ⟨hmem, rfl⟩
        exact absurd rfl (hno.resolve_left (by simp) o hin)
      · cases hs'
        rw [he, hn]
        have hcur : (v.slot o.key).resident = some o := by
          rcases hslot hid with h1 | h1
          · exact h1
          · rw [h1] at hcur
            cases hcur
        obtain ⟨heff', hother', htrim'⟩ := adoptWith_of_stale hst.adopted hcur hlen htrim
        refine sameMessages_of_list (heff'.trans heff) (fun j hj => (hother' j hj).trans (hother j hj))
          (.inr ⟨hres, s, _, hs, ⟨?_, .inl rfl⟩, htrim'⟩)
        have hkey : n.msg.key = o.key := get_put_key hput
        rwa [← hn]
    · rename_i c i hdel
      rw [hpend] at hdel
      rw [eff_apply, (get_insert_cases hdel).resolve_right nofun] at hs
      cases hs
    · -- the stored record is asked for
      rename_i hput _
      have hput : ∀ n, w.q.pending.get o.key ≠ some (.put n) := fun n hn =>
        hput n (hpend.trans (get_insert_put.2 hn))
      refine sameMessages_of_list (Eq.trans ?_ heff) hother (.inr ⟨hres, s, o, hs, ⟨rfl, ?_⟩, htrim⟩)
      · rw [World.eff, base_enqueue]
        rfl
      · by_cases ho : o.msg = s
        · exact .inl ho
        · refine .inr ⟨hst.adopted, due_new (jobs_enqueue v _) rfl ?_⟩
          rw [hbase]
          exact base_of_stale hs hst ho hput
  · -- nothing is asked for: the copy itself must be the record
    rename_i hex
    have hvex : v.exhausted o.msg.chatJid = true := by simpa [hid] using hex
    have hwex : w.exhausted o.msg.chatJid = true := by
      rw [← hw₁] at hvex
      exact exhausted_of_commit hvex
    have ho : o.msg = s := by
      rcases hst with hst | ⟨hst, -⟩
      · exact hst.symm
      · rw [hwex] at hst
        cases hst
    exact sameMessages_of_list heff hother (.inr ⟨hres, s, o, hs, ⟨rfl, .inl ho⟩, htrim⟩)

/-! ## The message -/

/-- What is left of the message `m` when it is delivered again: a copy in memory that has its media, or
a record that the copy has nothing to add to, and no bubble that takes it for its echo. -/
def MessageKept (w : World) (m : UiMessage) : Prop :=
  m.id ≠ "" ∧ match (w.slot m.key).resident with
    | some x => m.media = none ∨ x.msg.media.isSome = true
    | none => (m.fromMe && (messagesFor w m.chatJid).any (matchesEcho m)) = false ∧
        ∃ s, w.eff m.key = some s ∧ Stale w (startUnread m) s

theorem matchesEcho_startUnread (m : UiMessage) : matchesEcho (startUnread m) = matchesEcho m := by
  funext x
  unfold matchesEcho startUnread
  split <;> rfl

theorem media_startUnread (m : UiMessage) : (startUnread m).media = m.media := by
  unfold startUnread
  split <;> rfl

theorem Stale.of_same (h : Stale w m s) (hs : Same w v) (he : v.exhausted = w.exhausted) : Stale v m s := by
  unfold Stale at h ⊢
  rwa [he, hs.pending, hs.base]

theorem SameMessages.of_same (hs : Same w v) (ha : v.activeJid = w.activeJid) (h : SameMessages k v u) :
    SameMessages k w u := by
  refine ⟨h.history.trans hs.eff, fun jid => ?_⟩
  have hl := h.lists jid
  unfold Trimmed at hl ⊢
  rwa [ha, hs.lists, hs.slot, hs.eff] at hl

/-- **A message that has been kept** is delivered again: nothing changes. -/
theorem sameMessages_addMessage (h : w.Wf) (hb : isBlankMessage m = false) (hk : MessageKept w m) :
    SameMessages m.key w (addMessage w m) := by
  obtain ⟨hid, hk⟩ := hk
  have hset : Same w (w.setList m.chatJid (messagesFor w m.chatJid)) := .setList w m.chatJid
  unfold addMessage
  simp only [hb, Bool.false_eq_true, if_false, startUnread_id, startUnread_chatJid, ne_eq, hid,
    not_false_eq_true, if_true]
  cases hx : findId (messagesFor w m.chatJid) m.id with
  | some x =>
    rw [show (w.slot m.key).resident = some x from hx] at hk
    have hno : ((startUnread m).media.isSome && x.msg.media.isNone) = false := by
      rw [media_startUnread]
      rcases hk with hk | hk <;> simp [hk]
    simp only [refreshMedia, hno, Bool.false_eq_true, if_false]
    exact hset.sameMessages
  | none =>
    rw [show (w.slot m.key).resident = none from hx] at hk
    obtain ⟨hecho, s, hs, hst⟩ := hk
    simp only [matchesEcho_startUnread, fromMe_startUnread, hecho, Bool.false_eq_true, if_false]
    let w₁ : World := { w.setList m.chatJid (messagesFor w m.chatJid) with nextRef := w.nextRef + 1 }
    let o : Obj := ⟨w.nextRef, startUnread m⟩
    have hsame : Same w w₁ := hset.trans (.ref _ _)
    have hkey : o.key = m.key := startUnread_key m
    have harr : messagesFor w m.chatJid = messagesFor w₁ o.msg.chatJid := by
      rw [hsame.lists, startUnread_chatJid]
    have hnew : SameMessages o.key w₁ (insertNew w₁ o (messagesFor w₁ o.msg.chatJid)) := by
      refine sameMessages_insertNew (hsame.wf h) ?_ ?_ ?_ (hst.of_same hsame rfl)
      · rwa [startUnread_id]
      · rwa [hkey, hsame.slot]
      · rwa [hkey, hsame.eff]
    rw [hkey, ← harr] at hnew
    exact hnew.of_same hsame rfl

/-! ## The row -/

/-- The row of the chat covers the own message `m`. -/
def RowKept (w : World) (m : UiMessage) : Prop :=
  m.fromMe = true ∧ ∃ r, w.chats.get m.chatJid = some r ∧ m.timestamp ≤ r.timestamp ∧
    (r.timestamp = m.timestamp → m.text.or r.lastMessage = r.lastMessage)

/-- The chat list after a delivery. -/
def receivedChats (w : World) (m : UiMessage) : World :=
  let w := touchChat w m.chatJid m.text m.timestamp (!m.fromMe)
  if truthy m.pushName && !m.fromMe then setChatName w m.chatJid (m.pushName.getD "") else w

theorem setChatName_row (w : World) (jid : Jid) (name : String) :
    setChatName w jid name = w ∨ ∃ c, w.chats.get jid = some c ∧
      setChatName w jid name = schedulePersistChats (w.setChat { c with name := some name }) := by
  unfold setChatName
  split
  · exact .inl rfl
  · rename_i c hc
    split
    · exact .inl rfl
    · exact .inr ⟨c, hc, rfl⟩

/-- Naming a chat leaves its counter. -/
theorem setChatName_get (w : World) (jid : Jid) (name : String) (j : Jid) :
    ((setChatName w jid name).chats.get j).map (·.unread) = (w.chats.get j).map (·.unread) ∧
      (j ≠ jid → (setChatName w jid name).chats.get j = w.chats.get j) := by
  rcases setChatName_row w jid name with he | ⟨c, hc, he⟩
  · rw [he]
    exact ⟨rfl, fun _ => rfl⟩
  · have hjid : c.jid = jid := get_key hc
    have hget : (setChatName w jid name).chats.get j =
        if jid = j then some { c with name := some name } else w.chats.get j := by
      rw [he, ← hjid]
      exact get_set _ _ _
    rw [hget]
    by_cases hj : jid = j
    · subst hj
      rw [if_pos rfl, hc]
      exact ⟨rfl, fun h => absurd rfl h⟩
    · rw [if_neg hj]
      exact ⟨rfl, fun _ => rfl⟩

theorem get_receivedChats_of_ne {j : Jid} (hj : j ≠ m.chatJid) :
    (receivedChats w m).chats.get j = w.chats.get j := by
  have htouch : (touchChat w m.chatJid m.text m.timestamp (!m.fromMe)).chats.get j = w.chats.get j :=
    (get_set _ _ _).trans (if_neg (Ne.symm hj))
  unfold receivedChats
  split
  · rw [(setChatName_get _ _ _ j).2 hj, htouch]
  · exact htouch

/-- An own message that the row covers; the row is rewritten as it was. -/
theorem get_touchChat_iff (w : World) (jid : Jid) (text : Option String) (ts : ℤ) :
    (touchChat w jid text ts false).chats.get jid = w.chats.get jid ↔
      ∃ r, w.chats.get jid = some r ∧ ts ≤ r.timestamp ∧
        (r.timestamp = ts → text.or r.lastMessage = r.lastMessage) := by
  have hget : (touchChat w jid text ts false).chats.get jid = _ := (get_set _ _ _).trans (if_pos rfl)
  rw [hget]
  cases hr : w.chats.get jid with
  | none => simp
  | some r =>
    have hjid : r.jid = jid := get_key hr
    have hmax : max ts r.timestamp = r.timestamp ↔ ts ≤ r.timestamp := by omega
    constructor
    · intro h
      have h := Option.some.inj h
      have hts := hmax.1 (congrArg Chat.timestamp h)
      refine ⟨r, rfl, hts, fun he => ?_⟩
      have hlast := congrArg Chat.lastMessage h
      simpa [he] using hlast
    · rintro ⟨r', hr', hts, hlast⟩
      cases hr'
      have hpreview : (if r.timestamp ≤ ts then text.or r.lastMessage else r.lastMessage) = r.lastMessage := by
        split
        · rename_i hle
          exact hlast (le_antisymm hle hts)
        · rfl
      simp [hpreview, hmax.2 hts, ← hjid]

theorem unread_touchChat (w : World) (jid : Jid) (text : Option String) (ts : ℤ) :
    ((touchChat w jid text ts true).chats.get jid).map (·.unread) =
      some ((w.chats.get jid).elim 0 (·.unread) + 1) := by
  have hget : (touchChat w jid text ts true).chats.get jid = _ := (get_set _ _ _).trans (if_pos rfl)
  rw [hget]
  rfl

/-- **The row** is left as it was if and only if it covers the message. -/
theorem get_receivedChats_iff :
    (receivedChats w m).chats.get m.chatJid = w.chats.get m.chatJid ↔ RowKept w m := by
  cases hme : m.fromMe with
  | true =>
    have hrec : receivedChats w m = touchChat w m.chatJid m.text m.timestamp false := by
      simp [receivedChats, hme]
    rw [hrec, get_touchChat_iff, RowKept, hme]
    exact (and_iff_right rfl).symm
  | false =>
    refine ⟨fun h => ?_, fun h => absurd (hme.symm.trans h.1) (by decide)⟩
    -- the counter has gone up
    have hun : ((receivedChats w m).chats.get m.chatJid).map (·.unread) =
        some ((w.chats.get m.chatJid).elim 0 (·.unread) + 1) := by
      rw [← unread_touchChat w m.chatJid m.text m.timestamp]
      unfold receivedChats
      rw [hme]
      split
      · exact (setChatName_get _ _ _ _).1
      · rfl
    rw [h] at hun
    cases hr : w.chats.get m.chatJid <;> simp [hr] at hun

/-! ## The handler -/

/-- No conversation is left under a LID of an event whose mapping is known. -/
def Unified (w : World) (chatJid senderJid : Jid) : Prop :=
  ∀ l ∈ [chatJid, senderJid], isLid l = true → (w.lidToPn l).isSome = true →
    l ≠ canonicalJid w chatJid ∧ w.chats.get l = none ∧ w.byChat l = none

instance (w : World) (chatJid senderJid : Jid) : Decidable (Unified w chatJid senderJid) := by
  unfold Unified
  infer_instance

/-- A piece of code that leaves the messages, the rows of the chats and the map of LIDs. -/
structure Idle (w v : World) : Prop where
  same : Same w v
  chats : v.chats = w.chats
  byChat : v.byChat = w.byChat
  lidToPn : v.lidToPn = w.lidToPn
  active : v.activeJid = w.activeJid

theorem Idle.refl (w : World) : Idle w w := ⟨.refl w, rfl, rfl, rfl, rfl⟩

theorem Idle.trans (h : Idle w v) (h' : Idle v u) : Idle w u :=
  ⟨h.same.trans h'.same, h'.chats.trans h.chats, h'.byChat.trans h.byChat, h'.lidToPn.trans h.lidToPn,
    h'.active.trans h.active⟩

theorem idle_unifyLid (h : isLid jid = true → (w.lidToPn jid).isSome = true →
    w.chats.get jid = none ∧ w.byChat jid = none) : Idle w (unifyLid w jid none) := by
  unfold unifyLid
  split
  · exact .refl w
  · rename_i hlid
    have hlid : isLid jid = true := by simpa using hlid
    split
    · rename_i known hknown
      obtain ⟨hc, hb⟩ := h hlid (by rw [hknown]; rfl)
      have hno : applyMerge w jid known = w := by
        simp [applyMerge, Table.has, hc, hb]
      rw [hno]
      exact .refl w
    · split
      · exact .refl w
      · exact ⟨⟨fun _ => rfl, rfl, rfl, rfl, rfl, rfl, rfl, rfl, rfl⟩, rfl, rfl, rfl, rfl⟩

/-- Only the chat `jid` is written. -/
structure OneChat (jid : Jid) (w v : World) : Prop where
  chats : ∀ j, j ≠ jid → v.chats.get j = w.chats.get j
  byChat : ∀ j, j ≠ jid → v.byChat j = w.byChat j
  lidToPn : v.lidToPn = w.lidToPn
  active : v.activeJid = w.activeJid

theorem OneChat.trans (h : OneChat jid w v) (h' : OneChat jid v u) : OneChat jid w u :=
  ⟨fun j hj => (h'.chats j hj).trans (h.chats j hj), fun j hj => (h'.byChat j hj).trans (h.byChat j hj),
    h'.lidToPn.trans h.lidToPn, h'.active.trans h.active⟩

/-- A handler that has written the chat of its event unifies the LIDs in it, which changes nothing where
they have been unified. -/
theorem idle_unify {chatJid senderJid : Jid} (hu : Unified w chatJid senderJid)
    (h : OneChat (canonicalJid w chatJid) w v) :
    Idle v (unifySender (unifyLid v chatJid none) senderJid chatJid) := by
  have hgone : ∀ u, Idle v u → ∀ l ∈ [chatJid, senderJid], isLid l = true →
      (u.lidToPn l).isSome = true → u.chats.get l = none ∧ u.byChat l = none := by
    intro u hi l hl hlid hmap
    rw [hi.lidToPn, h.lidToPn] at hmap
    obtain ⟨hne, hc, hb⟩ := hu l hl hlid hmap
    rw [hi.chats, hi.byChat, h.chats l hne, h.byChat l hne]
    exact ⟨hc, hb⟩
  have hchat := idle_unifyLid (hgone v (.refl v) chatJid (by simp))
  unfold unifySender
  split
  · exact hchat.trans (idle_unifyLid (hgone _ hchat senderJid (by simp)))
  · exact hchat

/-- Only the list of the chat `jid` is written. -/
structure OneList (jid : Jid) (w v : World) : Prop where
  chats : v.chats = w.chats
  lidToPn : v.lidToPn = w.lidToPn
  active : v.activeJid = w.activeJid
  byChat : ∀ j, j ≠ jid → v.byChat j = w.byChat j

theorem OneList.refl (jid : Jid) (w : World) : OneList jid w w := ⟨rfl, rfl, rfl, fun _ _ => rfl⟩

theorem OneList.trans (h : OneList jid w v) (h' : OneList jid v u) : OneList jid w u :=
  ⟨h'.chats.trans h.chats, h'.lidToPn.trans h.lidToPn, h'.active.trans h.active,
    fun j hj => (h'.byChat j hj).trans (h.byChat j hj)⟩

theorem OneList.oneChat (h : OneList jid w v) : OneChat jid w v :=
  ⟨fun j _ => by rw [h.chats], h.byChat, h.lidToPn, h.active⟩

theorem oneList_update {l : Option (List Obj)} (hc : v.chats = w.chats) (hl : v.lidToPn = w.lidToPn)
    (ha : v.activeJid = w.activeJid) (hb : v.byChat = Function.update w.byChat jid l) : OneList jid w v :=
  ⟨hc, hl, ha, fun j hj => by rw [hb, Function.update_of_ne hj]⟩

theorem oneList_adoptStoredDone (w : World) (fresh : Obj) (stored : Option UiMessage) :
    OneList fresh.msg.chatJid w (adoptStoredDone w fresh stored) := by
  rcases adoptStoredDone_cases w fresh stored with ⟨he, -⟩ | ⟨s, cur, -, -, -, he⟩
  · rw [he]
    exact .refl _ _
  · rw [he]
    exact oneList_update rfl rfl rfl rfl

theorem oneList_insertNew (w : World) (o : Obj) (arr : List Obj) :
    OneList o.msg.chatJid w (insertNew w o arr) := by
  have hcommit : OneList o.msg.chatJid w
      (commit { w with q := persistMessageInsert w.q o } o.msg.chatJid (arr ++ [o])) :=
    oneList_update rfl rfl rfl rfl
  unfold insertNew
  dsimp only
  split
  · refine hcommit.trans ?_
    unfold adoptStored
    split
    · exact oneList_adoptStoredDone _ o _
    · exact .refl _ _
    · exact ⟨rfl, rfl, rfl, fun _ _ => rfl⟩
  · exact hcommit

theorem oneList_addMessage (w : World) (m : UiMessage) : OneList m.chatJid w (addMessage w m) := by
  have hset : OneList m.chatJid w (w.setList m.chatJid (messagesFor w m.chatJid)) :=
    oneList_update rfl rfl rfl rfl
  unfold addMessage
  split
  · exact .refl _ _
  · dsimp only
    rw [startUnread_chatJid]
    split
    · refine hset.trans ?_
      unfold refreshMedia
      split
      · exact oneList_update rfl rfl rfl (by rw [startUnread_chatJid]; rfl)
      · exact .refl _ _
    · split
      · exact hset.trans (oneList_update rfl rfl rfl rfl)
      · have hnew := oneList_insertNew { w.setList m.chatJid (messagesFor w m.chatJid) with
          nextRef := w.nextRef + 1 } ⟨w.nextRef, startUnread m⟩ (messagesFor w m.chatJid)
        rw [startUnread_chatJid] at hnew
        have href : OneList m.chatJid w { w.setList m.chatJid (messagesFor w m.chatJid) with
            nextRef := w.nextRef + 1 } := oneList_update rfl rfl rfl rfl
        exact href.trans hnew

theorem same_receivedChats (w : World) (m : UiMessage) : Same w (receivedChats w m) := by
  have htouch : Same w (touchChat w m.chatJid m.text m.timestamp (!m.fromMe)) := .chat w (.touchChat ..)
  unfold receivedChats
  split
  · exact htouch.trans (.chat _ (.setChatName ..))
  · exact htouch

theorem oneChat_receivedChats (w : World) (m : UiMessage) : OneChat m.chatJid w (receivedChats w m) := by
  have hframe : (receivedChats w m).byChat = w.byChat ∧ (receivedChats w m).lidToPn = w.lidToPn ∧
      (receivedChats w m).activeJid = w.activeJid := by
    unfold receivedChats
    split
    · rcases setChatName_row (touchChat w m.chatJid m.text m.timestamp (!m.fromMe)) m.chatJid
        (m.pushName.getD "") with he | ⟨c, -, he⟩
      · rw [he]
        exact ⟨rfl, rfl, rfl⟩
      · rw [he]
        exact ⟨rfl, rfl, rfl⟩
    · exact ⟨rfl, rfl, rfl⟩
  exact ⟨fun j hj => get_receivedChats_of_ne hj, fun j _ => by rw [hframe.1], hframe.2.1, hframe.2.2⟩

/-- The handler makes the delivery and then unifies the LIDs of the event. -/
theorem idle_onMessage {m : MessageDto} (hu : Unified w m.chatJid m.senderJid)
    (hb : isBlankMessage (canonicalMessage w m) = false) :
    Idle (receivedChats (addMessage w (canonicalMessage w m)) (canonicalMessage w m)) (onMessage w m) := by
  have heq : onMessage w m = unifySender (unifyLid (receivedChats (addMessage w (canonicalMessage w m))
      (canonicalMessage w m)) m.chatJid none) m.senderJid m.chatJid := by
    unfold onMessage
    dsimp only
    rw [hb]
    rfl
  have hone := (oneList_addMessage w (canonicalMessage w m)).oneChat.trans (oneChat_receivedChats _ _)
  rw [canonicalMessage_chatJid] at hone
  rw [heq]
  exact idle_unify hu hone

/-- **The same event twice.** In every run in which `wa://message` brings a message a second time, and there
is nothing to draw or no conversation is left under a LID of it: the second event leaves the rows of the
chats as they are if and only if there is nothing to draw or the row covers the message; and it leaves the
messages and the effective history as they are, up to trimming, if there is nothing to draw or the message
was kept. -/
theorem redelivery_idempotent (before between : List Event) (m : MessageDto) :
    let w := ((World.init.handleAll before).handle (.message m)).handleAll between
    isBlankMessage (canonicalMessage w m) = true ∨ Unified w m.chatJid m.senderJid →
    ((∀ jid, (w.handle (.message m)).chats.get jid = w.chats.get jid) ↔
      isBlankMessage (canonicalMessage w m) = true ∨ RowKept w (canonicalMessage w m)) ∧
    (isBlankMessage (canonicalMessage w m) = true ∨ MessageKept w (canonicalMessage w m) →
      SameMessages (canonicalMessage w m).key w (w.handle (.message m))) := by
  intro w hu
  have hwf : w.Wf := by
    have hw : World.init.handleAll (before ++ .message m :: between) = w := run_append
    rw [← hw]
    exact wf_handleAll _
  cases hb : isBlankMessage (canonicalMessage w m) with
  | true =>
    have hsame : w.handle (.message m) = w := by simp [World.handle, onMessage, hb]
    rw [hsame]
    exact ⟨⟨fun _ => Or.inl rfl, fun _ _ => rfl⟩, fun _ => (Same.refl w).sameMessages⟩
  | false =>
    have hidle := idle_onMessage (hu.resolve_left (ne_true_of_eq_false hb)) hb
    have hadd := oneList_addMessage w (canonicalMessage w m)
    have hrow : RowKept (addMessage w (canonicalMessage w m)) (canonicalMessage w m) ↔
        RowKept w (canonicalMessage w m) := by rw [RowKept, RowKept, hadd.chats]
    simp only [Bool.false_eq_true, false_or]
    refine ⟨⟨fun h => ?_, fun h jid => ?_⟩, fun h => ?_⟩
    · rw [← hrow, ← get_receivedChats_iff, ← hidle.chats, hadd.chats]
      exact h _
    · show (onMessage w m).chats.get jid = _
      rw [hidle.chats, ← hadd.chats]
      by_cases hj : jid = (canonicalMessage w m).chatJid
      · rw [hj]
        exact get_receivedChats_iff.2 (hrow.2 h)
      · exact get_receivedChats_of_ne hj
    · exact ((sameMessages_addMessage hwf hb h).then_same (same_receivedChats _ _)).then_same hidle.same

/-- The message is read by the peer and trimmed. -/
def readThenTrimmed : List Event := [.receipt ⟨chatA, ["X"], .read⟩, .call (.trimChat chatA 0)]

/-- The record of `dtoX` after that. -/
def readX : UiMessage := { dtoX.ui with status := some .read }

/-- An own message that has been trimmed is delivered again. -/
theorem redelivery_idempotent_trimmed :
    let w := ((World.init.handleAll []).handle (.message dtoX)).handleAll readThenTrimmed
    (∀ jid, (w.handle (.message dtoX)).chats.get jid = w.chats.get jid) ∧
      (w.slot ⟨chatA, "X"⟩).resident = none ∧
      SameMessages ⟨chatA, "X"⟩ w (w.handle (.message dtoX)) := by
  intro w
  have hcm : canonicalMessage w dtoX = dtoX.ui := by decide +kernel
  have hrow : w.chats.get chatA = some ⟨chatA, none, some "hi", 5, 0, none, none, none, none⟩ := by
    decide +kernel
  have hres : (w.slot dtoX.ui.key).resident = none := by decide +kernel
  have hput : w.q.pending.get dtoX.ui.key = some (.put ⟨1, readX⟩) := by decide +kernel
  obtain ⟨h1, h2⟩ := redelivery_idempotent [] readThenTrimmed dtoX (.inr (by decide +kernel))
  refine ⟨h1.2 (Or.inr ?_), hres, ?_⟩
  · rw [hcm]
    exact ⟨rfl, _, hrow, le_rfl, fun _ => rfl⟩
  · have hkept : MessageKept w dtoX.ui := by
      refine ⟨by decide, ?_⟩
      rw [hres]
      refine ⟨by decide +kernel, readX, eff_of_pending_put hput, Or.inr ⟨by decide +kernel, rfl, ?_⟩⟩
      intro n hn
      cases hput.symm.trans hn
    rw [hcm] at h2
    exact h2 (Or.inr hkept)

/-- An incoming message that has been read is counted as unread when it is delivered again. -/
theorem redelivery_counts_again :
    ¬ ∀ (before between : List Event) (m : MessageDto),
      let w := ((World.init.handleAll before).handle (.message m)).handleAll between
      (∀ jid, (w.handle (.message m)).chats.get jid = w.chats.get jid) ∧
        SameMessages (canonicalMessage w m).key w (w.handle (.message m)) := by
  intro hall
  have hrow := (hall [] [.call (.markMessageRead chatA "X")]
    { dtoX with senderJid := chatA, fromMe := false }).1 chatA
  revert hrow
  decide +kernel

end Whatsvelte
