import Mathlib.Data.List.Dedup
import Whatsvelte.Proof.Relist

/-!
# The memory of closed chats

A chat that is not open keeps its newest `RESIDENT_TAIL` messages: `closeChat` cuts the list, and `commit` cuts what
it publishes. A page is published as it is. One that was asked for while the chat was open may arrive after
`closeChat`, and then the list stays long (`late_page_stays`).

* `closed_chat_bounded`: **the list of a closed chat is short** in every run in which no such page arrives, unless the
  whole chat is short.
-/

namespace Whatsvelte

open List

variable {w : World} {jid : Jid} {arr : List Obj} {e : Step} {limit : ℕ} {beforeTs : Option ℤ}

/-- The ids of a chat that are stored or queued, and not resident. -/
def World.nonresident (w : World) (jid : Jid) : List MsgId :=
  (((w.msgs.rows.filter (fun r => r.chatJid = jid)).map (·.id) ++
    (pendingFor w.q jid none).map (·.msg.id)).filter (fun i => !hasId (messagesFor w jid) i)).dedup

/-- The chat is not open, and a page of it arrives only while the whole chat is short. -/
def StaysClosed (jid : Jid) (w : World) (e : Step) : Prop :=
  w.activeJid ≠ some jid ∧
    match e, w.txq with
    | .advance, ⟨_, true, .page j _ _, _⟩ :: _ =>
      j = jid → (messagesFor w jid).length + (w.nonresident jid).length ≤ RESIDENT_TAIL
    | _, _ => True

instance (jid : Jid) (w : World) (e : Step) : Decidable (StaysClosed jid w e) := by
  unfold StaysClosed
  refine @instDecidableAnd _ _ inferInstance ?_
  induction e using Step.casesOn with
  | advance =>
    match w.txq with
    | [] => infer_instance
    | ⟨_, false, _, _⟩ :: _ => infer_instance
    | ⟨_, true, job, _⟩ :: _ => induction job using Job.casesOn <;> infer_instance
  | _ => exact isTrue trivial

/-- The list of one chat is short. -/
def Short (jid j : Jid) (arr : List Obj) : Prop := j = jid → arr.length ≤ RESIDENT_TAIL

/-! ## The pages of a chat -/

theorem mem_nonresident {o : Obj} (ho : o ∈ loadLatestMessages w jid limit beforeTs)
    (hr : hasId (messagesFor w jid) o.msg.id = false) : o.msg.id ∈ w.nonresident jid := by
  unfold World.nonresident
  rw [mem_dedup, mem_filter, mem_append]
  refine ⟨?_, by rw [hr]; rfl⟩
  obtain ⟨hc, hq | hs⟩ := mem_loadLatestMessages ho
  · exact .inr (mem_map.2 ⟨o, mem_pendingFor.2 ⟨hq.1, hc, rfl⟩, rfl⟩)
  · exact .inl (mem_map.2 ⟨o.msg, mem_filter.2 ⟨Table.get_mem hs.1, decide_eq_true hc⟩, rfl⟩)

/-- A page brings what is not resident, at most once. -/
theorem length_pageList_le (w : World) (jid : Jid) (limit : ℕ) (beforeTs : Option ℤ) :
    (w.pageList jid limit beforeTs).length ≤ (messagesFor w jid).length + (w.nonresident jid).length := by
  have hperm : (w.pageList jid limit beforeTs).length = _ := (sortByTime_perm _).length_eq
  rw [hperm, length_append, Nat.add_comm]
  refine Nat.add_le_add_left ?_ _
  set fresh := (loadLatestMessages w jid limit beforeTs).filter (fun o => !hasId (messagesFor w jid) o.msg.id)
    with hfresh
  have hnodup : (fresh.map (fun o => o.msg.id)).Nodup :=
    (nodup_loadLatest w jid limit beforeTs).sublist (filter_sublist.map _)
  have hsub : fresh.map (fun o => o.msg.id) ⊆ w.nonresident jid := by
    intro i hi
    obtain ⟨o, ho, rfl⟩ := mem_map.1 hi
    obtain ⟨ho, hr⟩ := mem_filter.1 ho
    exact mem_nonresident ho (by simpa using hr)
  have hle := (subperm_of_subset hnodup hsub).length_le
  rwa [length_map] at hle

/-- **Every step** keeps the list of a closed chat short. -/
theorem short_step (h : w.All (Short jid)) (he : StaysClosed jid w e) : (w.step e).All (Short jid) := by
  obtain ⟨ha, hp⟩ := he
  refine all_step (P := Short jid) (fun h hs hj => hs.length_le.trans (h hj)) (fun h ht hj => ?_)
    (fun hv hj => ?_) h ?_
  · have hlen := congrArg List.length ht
    rw [length_map, length_map] at hlen
    rw [hlen]
    exact h hj
  · rw [hj]
    exact (length_committed _ jid _).resolve_left (hv ▸ ha)
  unfold Republishes
  split
  · intro hj
    rw [replaceId, length_replaceFirst]
    exact h _ hj
  · split
    · rename_i ht
      rw [ht] at hp
      intro hj
      subst hj
      exact (length_pageList_le w _ _ _).trans (hp rfl)
    · trivial
  · trivial

theorem short_closeChat (ha : w.activeJid ≠ some jid) : (closeChat w jid).All (Short jid) := by
  intro j hj
  subst hj
  unfold closeChat
  rw [if_neg ha]
  split
  · rename_i hb
    rw [messagesFor, hb]
    exact Nat.zero_le _
  · rename_i arr hb
    split
    · rw [messagesFor_setList, if_pos rfl, length_lastN]
      exact Nat.min_le_left _ _
    · rename_i hle
      rw [← messagesFor_of_some hb] at hle
      exact Nat.le_of_not_gt hle

/-- **The list of a closed chat is short**, from `closeChat` until the chat is open again. -/
theorem closed_chat_bounded (ha : w.activeJid ≠ some jid) {es : List Step}
    (hes : Along World.step (StaysClosed jid) (closeChat w jid) es) :
    (messagesFor ((closeChat w jid).run es) jid).length ≤ RESIDENT_TAIL := by
  have hrun : ((closeChat w jid).run es).All (Short jid) :=
    Along.inv (fun w e h he => short_step h he) (short_closeChat ha) hes
  exact hrun jid rfl

/-- Twenty-one messages of the chat. -/
def twentyOne : List UiMessage := (List.range 21).map fun i =>
  { msgX with id := String.ofList (List.replicate (i + 1) 'm'), timestamp := i }

/-- They are stored, and the chat is open and waits for a page. -/
def pageAsked : List Step :=
  [.enablePersistence, .addHistoryMessages twentyOne, .msgTimer, .openNext, .advance, .advance,
    .selectChat chatA, .openChat chatA]

/-- The page of a chat with two messages arrives after the chat was closed. -/
theorem closed_chat_bounded_late :
    (messagesFor ((closeChat (World.init.run [.enablePersistence, .addMessage msgX, .addMessage msgY,
      .loadOlder chatA 5]) chatA).run [.openNext, .advance, .selectChat chatA]) chatA).length ≤ RESIDENT_TAIL :=
  closed_chat_bounded (by decide +kernel) (by decide +kernel)

/-- **The page stays**: nothing is outstanding, and the list of the closed chat is long. -/
theorem late_page_stays :
    ¬ ∀ (es es' : List Step) (jid : Jid), (World.init.run es).activeJid ≠ some jid →
      Along World.step (fun w _ => w.activeJid ≠ some jid) (closeChat (World.init.run es) jid) es' →
      ((closeChat (World.init.run es) jid).run es').txq = [] →
      (messagesFor ((closeChat (World.init.run es) jid).run es') jid).length ≤ RESIDENT_TAIL := by
  intro hall
  have hlong := hall (pageAsked ++ [.selectChat "b@s.whatsapp.net"]) [.openNext, .advance] chatA (by decide +kernel)
    (by decide +kernel) (by decide +kernel)
  exact absurd hlong (by decide +kernel)

end Whatsvelte
