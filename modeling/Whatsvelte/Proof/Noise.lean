import Whatsvelte.Spec.Noise

/-!
# The counters of the encrypted channel

`counters_distinct_iff`: no counter is encrypted under twice if and only if no failed send was followed by another;
the counter moves only once the transport has taken the frame.
-/

namespace Whatsvelte.Noise

open List

variable {k : Cipher} {s : Sender}

/-- What a job does: nothing, an encryption that is lost, or one that is sent. -/
theorem processSendJob_cases (h : s.writeCounter ≤ U32_MAX) (p : Bytes) (sent : Bool) :
    (processSendJob k s p sent).1 = s ∨
    (processSendJob k s p sent).1 = { s with used := (s.writeCounter, false) :: s.used } ∨
    s.writeCounter < U32_MAX ∧
      (processSendJob k s p sent).1 = ⟨s.writeCounter + 1, (s.writeCounter, true) :: s.used⟩ := by
  unfold processSendJob
  split
  · exact .inl rfl
  · rename_i hc
    split
    · exact .inl rfl
    · split
      · exact .inr (.inl rfl)
      · split
        · have hlt := Nat.lt_of_le_of_ne h hc
          refine .inr (.inr ⟨hlt, ?_⟩)
          rw [Nat.mod_eq_of_lt (by unfold U32_MAX at hlt; omega)]
        · exact .inr (.inl rfl)

/-- A counter that was sent under is below the next one; one that was lost last is the next one. -/
structure Counts (s : Sender) : Prop where
  bound : s.writeCounter ≤ U32_MAX
  sent : ∀ u ∈ s.used, u.2 = true → u.1 < s.writeCounter
  lost : ∀ u ∈ s.used.head?, u.2 = false → u.1 = s.writeCounter
  distinct : (s.used.map Prod.fst).Nodup ↔ ∀ u ∈ s.used.tail, u.2 = true

theorem Counts.distinct_cons (h : Counts s) :
    (s.writeCounter :: s.used.map Prod.fst).Nodup ↔ ∀ u ∈ s.used, u.2 = true := by
  rw [nodup_cons, h.distinct]
  constructor
  · rintro ⟨hnew, htail⟩
    cases hu : s.used with
    | nil => exact fun u h => nomatch h
    | cons u =>
      rw [hu] at htail hnew
      refine forall_mem_cons.2 ⟨?_, htail⟩
      by_contra hlost
      exact hnew (by simp [h.lost u (by rw [hu]; rfl) (by simpa using hlost)])
  · intro hall
    refine ⟨fun hc => ?_, fun u hu => hall u (mem_of_mem_tail hu)⟩
    obtain ⟨u, hu, hc⟩ := mem_map.1 hc
    exact absurd hc (h.sent u hu (hall u hu)).ne

theorem counts_step (h : Counts s) (p : Bytes) (sent : Bool) : Counts (processSendJob k s p sent).1 := by
  rcases processSendJob_cases h.bound p sent with he | he | ⟨hlt, he⟩
  · rwa [he]
  · rw [he]
    exact ⟨h.bound, forall_mem_cons.2 ⟨by rintro ⟨⟩, h.sent⟩, by simp, h.distinct_cons⟩
  · rw [he]
    have hsent : ∀ u ∈ s.used, u.2 = true → u.1 < s.writeCounter + 1 :=
      fun u hu hs => Nat.lt_succ_of_lt (h.sent u hu hs)
    exact ⟨hlt, forall_mem_cons.2 ⟨fun _ => Nat.lt_succ_self _, hsent⟩, by simp, h.distinct_cons⟩

/-- **Counters**: no two encryptions use one counter if and only if every encryption but the last one was sent. -/
theorem counters_distinct_iff (k : Cipher) (jobs : List (Bytes × Bool)) :
    ((senderTask k jobs).used.map Prod.fst).Nodup ↔ ∀ u ∈ (senderTask k jobs).used.tail, u.2 = true := by
  refine (run_inv (I := Counts) (fun s job h => counts_step h job.1 job.2) ?_ jobs).distinct
  exact ⟨Nat.zero_le _, fun u h => (nomatch h), fun u h => (nomatch h), by simp [Sender.init]⟩

/-- Two messages under one counter. -/
example : (senderTask ⟨fun _ p => some p⟩ [([1], false), ([2], true)]).used = [(0, true), (0, false)] := by decide

end Whatsvelte.Noise
