import Whatsvelte.Proof.Relist

/-!
# The representation invariant of the message store

Every list that `messagesByChat` holds is sorted by time, holds an id that is not empty at
most once, and holds messages of its own chat only (`lists_well_formed`). Keys and ids are
`World.Wf`, an invariant of every run; what is added here is the order.

`commit` and `loadOlder` sort what they publish, and a part of a sorted list is sorted. A message
that takes the place of another one has its time; for `restoreMessage` this rests on the assumption
that the copies of one id carry one timestamp.
-/

namespace Whatsvelte

open List

variable {w : World} {arr arr' : List Obj} {o x : Obj} {e : Step}

/-- The list is sorted by non-decreasing timestamp. -/
def ByTime (arr : List Obj) : Prop := arr.Pairwise (fun a b => a.msg.timestamp ≤ b.msg.timestamp)

/-- Every resident list is sorted by time. -/
def World.Sorted (w : World) : Prop := ∀ jid, ByTime (messagesFor w jid)

theorem ByTime.sublist (h : ByTime arr) (hs : arr'.Sublist arr) : ByTime arr' := List.Pairwise.sublist hs h

theorem byTime_sortByTime (arr : List Obj) : ByTime (sortByTime arr) := by
  exact List.pairwise_insertionSort (fun a b : Obj => a.msg.timestamp ≤ b.msg.timestamp) arr

theorem byTime_committed (w : World) (jid : Jid) (arr : List Obj) : ByTime (committed w jid arr) :=
  (byTime_sortByTime arr).sublist (committed_sublist w jid arr)

/-- What the end of a sorted list lacks is no newer than what it holds. -/
theorem le_of_cut (hs : ByTime arr) {n : ℕ} (hx : x ∈ arr) (hn : x ∉ lastN n arr)
    (ho : o ∈ lastN n arr) : x.msg.timestamp ≤ o.msg.timestamp := by
  have hsplit := take_append_drop (arr.length - n) arr
  have hx' : x ∈ arr.take (arr.length - n) := by
    rw [← hsplit] at hx
    exact (mem_append.1 hx).resolve_right hn
  rw [← hsplit] at hs
  exact (pairwise_append.1 hs).2.2 x hx' o ho

/-- Two lists with the same timestamps are sorted or not together. -/
theorem ByTime.of_times (h : ByTime arr)
    (ht : arr'.map (·.msg.timestamp) = arr.map (·.msg.timestamp)) : ByTime arr' := by
  have h' : (arr.map (·.msg.timestamp)).Pairwise (· ≤ ·) := List.pairwise_map.2 h
  rw [← ht] at h'
  exact List.pairwise_map.1 h'

/-! ## Runs -/

/-- The copies of one id carry one timestamp, where `restoreMessage` puts one in the place
of another. -/
def OneTimestamp (w : World) : Step → Prop
  | .restoreMessage original => ∀ x ∈ messagesFor w original.msg.chatJid,
      x.msg.id = original.msg.id → x.msg.timestamp = original.msg.timestamp
  | _ => True

instance (w : World) (e : Step) : Decidable (OneTimestamp w e) := by
  unfold OneTimestamp
  induction e using Step.casesOn <;> infer_instance

/-- **Every step** keeps the lists sorted. -/
theorem sorted_step (h : w.Sorted) (he : OneTimestamp w e) : (w.step e).Sorted := by
  refine all_step (P := fun _ => ByTime) ByTime.sublist ByTime.of_times (fun _ => byTime_committed _ _ _) h ?_
  unfold Republishes
  split
  · -- the message that is replaced has the id, so it has the timestamp too
    rename_i original
    have ht : ∀ x, findId (messagesFor w original.msg.chatJid) original.msg.id = some x →
        original.msg.timestamp = x.msg.timestamp := by
      intro x hx
      exact (he x (findId_mem hx) (findId_id hx)).symm
    exact (h _).of_times (times_replaceFirst ht)
  · split
    · exact byTime_sortByTime _
    · trivial
  · trivial

/-- **The representation invariant**: in every state that a run reaches, every list is
sorted by time, holds an id that is not empty once, and holds messages of its chat only. -/
theorem lists_well_formed (es : List Step) (ha : Along World.step OneTimestamp World.init es)
    (jid : Jid) :
    (messagesFor (World.init.run es) jid).Pairwise (fun a b => a.msg.timestamp ≤ b.msg.timestamp) ∧
      (messagesFor (World.init.run es) jid).Pairwise
        (fun a b => a.msg.id = b.msg.id → a.msg.id = "") ∧
      ∀ o ∈ messagesFor (World.init.run es) jid, o.msg.chatJid = jid := by
  have hsorted : (World.init.run es).Sorted :=
    Along.inv (fun w e h he => sorted_step h he)
      (fun j => List.Pairwise.nil) ha
  have hwf := (inv_of_reachable ⟨es, rfl⟩ : Inv (World.init.run es)).wf jid
  exact ⟨hsorted jid, hwf.ids, hwf.chat⟩

/-- An older message is delivered last, and an edit of it is rolled back. -/
theorem lists_well_formed_restored :
    (messagesFor (World.init.run [.addMessage msgY, .addMessage msgX,
      .applyEdit chatA "X" (some "hi!") 9, .restoreMessage ⟨1, startUnread msgX⟩]) chatA).Pairwise
        (fun a b => a.msg.timestamp ≤ b.msg.timestamp) :=
  (lists_well_formed _ (by decide +kernel) chatA).1

end Whatsvelte
