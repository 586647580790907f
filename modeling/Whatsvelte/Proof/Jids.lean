import Whatsvelte.Spec.Bridge

/-!
# The two JID normalizers

Chat keys are made by `normalizeChatJid` in the bridge and by `normalizeJid` in the stores. Both take the
user part up to its first `:` or `.` and leave everything from the first `@` on.

* **`normalizers_agree`**: the two are one function, it is idempotent, and it reads nothing else of a JID.
-/

namespace Whatsvelte.Bridge

open List

variable {s t : Jid}

/-- The characters before the first `:` or `.` of the part before the first `@`. -/
def userBase (s : Jid) : List Char :=
  (s.toList.takeWhile (· ≠ '@')).takeWhile fun c => c ≠ ':' && c ≠ '.'

/-- Everything from the first `@` on. -/
def fromAt (s : Jid) : List Char := s.toList.dropWhile (· ≠ '@')

/-- Cutting at one character and then at the other is cutting at the first of both. -/
theorem takeWhile_takeWhile_ne (l : List Char) :
    (l.takeWhile (· ≠ ':')).takeWhile (· ≠ '.') = l.takeWhile fun c => c ≠ ':' && c ≠ '.' := by
  rw [takeWhile_takeWhile]
  congr 1
  funext c
  simp [Bool.and_comm]

theorem fromAt_eq (h : '@' ∈ s.toList) : fromAt s = '@' :: (fromAt s).tail := by
  have hne : fromAt s ≠ [] := by
    intro hnil
    have hall := dropWhile_eq_nil_iff.1 hnil '@' h
    simp at hall
  obtain ⟨c, rest, hc⟩ := exists_cons_of_ne_nil hne
  have hhead := head?_dropWhile_not (fun c => decide (c ≠ '@')) s.toList
  rw [show s.toList.dropWhile (fun c => decide (c ≠ '@')) = c :: rest from hc] at hhead
  rw [hc, tail_cons, show c = '@' by simpa using hhead]

theorem normalizeJid_eq (h : '@' ∈ s.toList) : normalizeJid s = String.ofList (userBase s ++ fromAt s) := by
  rw [normalizeJid, if_pos h]
  dsimp only
  rw [takeWhile_takeWhile_ne]
  rfl

theorem normalizeChatJid_eq (h : '@' ∈ s.toList) :
    normalizeChatJid s = String.ofList (userBase s ++ fromAt s) := by
  rw [normalizeChatJid, Wire.normalizeChatJid, splitOnce, if_pos h]
  dsimp only
  rw [head?_splitOnP, Option.getD_some, fromAt_eq h]
  congr 3
  funext c
  simp

theorem normalizeJid_of_notMem (h : '@' ∉ s.toList) : normalizeJid s = s := if_neg h

theorem normalizeChatJid_of_notMem (h : '@' ∉ s.toList) : normalizeChatJid s = s := by
  rw [normalizeChatJid, Wire.normalizeChatJid, splitOnce_of_notMem h]
  exact String.ofList_toList

theorem normalizeChatJid_eq_normalizeJid (s : Jid) : normalizeChatJid s = normalizeJid s := by
  by_cases h : '@' ∈ s.toList
  · rw [normalizeChatJid_eq h, normalizeJid_eq h]
  · rw [normalizeChatJid_of_notMem h, normalizeJid_of_notMem h]

/-! ## Idempotence -/

theorem mem_userBase {c : Char} (h : c ∈ userBase s) : c ≠ '@' ∧ c ≠ ':' ∧ c ≠ '.' := by
  have hcut : (c ≠ ':' && c ≠ '.') = true := all_eq_true.1 all_takeWhile c h
  have hat := all_eq_true.1 all_takeWhile c ((takeWhile_sublist _).subset h)
  simp only [Bool.and_eq_true, decide_eq_true_eq] at hcut hat
  exact ⟨hat, hcut⟩

/-- What is left is normal: its user part has neither separator. -/
theorem normalizeJid_idem (s : Jid) : normalizeJid (normalizeJid s) = normalizeJid s := by
  by_cases h : '@' ∈ s.toList
  · have hat := fromAt_eq h
    have htext : (normalizeJid s).toList = userBase s ++ '@' :: (fromAt s).tail := by
      rw [normalizeJid_eq h, String.toList_ofList, ← hat]
    have hplain : ∀ c ∈ userBase s, decide (c ≠ '@') = true := fun c hc => decide_eq_true (mem_userBase hc).1
    have hbase : userBase (normalizeJid s) = userBase s := by
      rw [userBase, htext, takeWhile_append_of_pos hplain, takeWhile_cons_of_neg (by simp), append_nil]
      refine takeWhile_eq_self_iff.2 fun c hc => ?_
      simp [(mem_userBase hc).2]
    have hserver : fromAt (normalizeJid s) = fromAt s := by
      rw [fromAt, htext, dropWhile_append_of_pos hplain, dropWhile_cons_of_neg (by simp), ← hat]
    have hmem : '@' ∈ (normalizeJid s).toList := by
      rw [htext]
      simp
    rw [normalizeJid_eq hmem, hbase, hserver, ← normalizeJid_eq h]
  · rw [normalizeJid_of_notMem h, normalizeJid_of_notMem h]

/-- A JID with the same server part has an `@` too. -/
theorem mem_of_fromAt_eq (h : '@' ∈ s.toList) (heq : fromAt s = fromAt t) : '@' ∈ t.toList := by
  refine (dropWhile_sublist fun c => decide (c ≠ '@')).subset ?_
  change '@' ∈ fromAt t
  rw [← heq, fromAt_eq h]
  exact mem_cons_self

/-- **The two normalizers agree** on every string, are idempotent, and read only the characters before the
first `:` or `.` of the user part and everything from the first `@` on. -/
theorem normalizers_agree (s : Jid) :
    normalizeChatJid s = normalizeJid s ∧
    normalizeJid (normalizeJid s) = normalizeJid s ∧
    normalizeChatJid (normalizeChatJid s) = normalizeChatJid s ∧
    ('@' ∈ s.toList → ∀ t, userBase s = userBase t → fromAt s = fromAt t →
      normalizeJid s = normalizeJid t ∧ normalizeChatJid s = normalizeChatJid t) ∧
    ('@' ∉ s.toList → normalizeJid s = s ∧ normalizeChatJid s = s) := by
  have hagree := normalizeChatJid_eq_normalizeJid
  refine ⟨hagree s, normalizeJid_idem s, ?_, fun h t hbase hserver => ?_, fun h => ?_⟩
  · rw [hagree, hagree, normalizeJid_idem]
  · have hsame : normalizeJid s = normalizeJid t := by
      rw [normalizeJid_eq h, normalizeJid_eq (mem_of_fromAt_eq h hserver), hbase, hserver]
    exact ⟨hsame, by rw [hagree, hagree, hsame]⟩
  · exact ⟨normalizeJid_of_notMem h, normalizeChatJid_of_notMem h⟩

example : normalizeJid "12345.0:7@s.whatsapp.net" = "12345@s.whatsapp.net" := by decide +kernel

end Whatsvelte.Bridge
