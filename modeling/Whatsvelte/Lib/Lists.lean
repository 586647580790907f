import Mathlib.Data.List.Sort

/-!
# List operations of the stores

`lastN` (`arr.slice(arr.length - n)`), `replaceFirst` (`arr[arr.findIndex(p)] = b`)
and the membership facts about them.
-/

namespace Whatsvelte

open List

variable {α : Type} {p : α → Bool} {a b : α} {l : List α} {n : ℕ}

/-- The last `n` elements. -/
def lastN (n : ℕ) (l : List α) : List α := l.drop (l.length - n)

theorem lastN_suffix (n : ℕ) (l : List α) : lastN n l <:+ l := drop_suffix _ _

theorem lastN_sublist (n : ℕ) (l : List α) : (lastN n l).Sublist l := drop_sublist _ _

theorem mem_of_mem_lastN (h : a ∈ lastN n l) : a ∈ l := (lastN_sublist n l).subset h

theorem length_lastN (n : ℕ) (l : List α) : (lastN n l).length = min n l.length := by
  simp only [lastN, length_drop]; omega

theorem mem_replaced {pre post : List α} {c : α} (h : a ∈ pre ++ b :: post) : a = b ∨ a ∈ pre ++ c :: post := by
  simp only [mem_append, mem_cons] at h ⊢
  tauto

theorem mem_removed {pre post : List α} (h : a ∈ pre ++ post) : a ∈ pre ++ b :: post := by
  simp only [mem_append, mem_cons] at h ⊢
  tauto

theorem append_cons_eq_singleton {pre post : List α} (h : pre ++ a :: post = [b]) :
    pre = [] ∧ post = [] ∧ a = b := by
  rcases append_eq_singleton_iff.1 h with ⟨h1, h2⟩ | ⟨-, h2⟩
  · exact ⟨h1, (List.cons.inj h2).2, (List.cons.inj h2).1⟩
  · cases h2

/-- The list with its first element that satisfies `p` replaced by `b`. -/
def replaceFirst (p : α → Bool) (b : α) : List α → List α
  | [] => []
  | a :: l => if p a then b :: l else a :: replaceFirst p b l

theorem mem_replaceFirst (h : a ∈ replaceFirst p b l) : a = b ∨ a ∈ l := by
  induction l with
  | nil => simp [replaceFirst] at h
  | cons c l ih =>
    unfold replaceFirst at h
    split at h
    · rcases mem_cons.1 h with h | h
      · exact .inl h
      · exact .inr (mem_cons_of_mem _ h)
    · rcases mem_cons.1 h with h | h
      · exact .inr (h ▸ mem_cons_self)
      · exact (ih h).imp_right (mem_cons_of_mem _)

theorem length_replaceFirst (p : α → Bool) (b : α) (l : List α) : (replaceFirst p b l).length = l.length := by
  induction l with
  | nil => rfl
  | cons c l ih =>
    unfold replaceFirst
    split
    · rfl
    · rw [length_cons, length_cons, ih]

theorem replaceFirst_of_none (b : α) (h : l.find? p = none) : replaceFirst p b l = l := by
  induction l with
  | nil => rfl
  | cons c l ih =>
    rw [find?_eq_none] at h
    have hc : ¬ p c := h c mem_cons_self
    rw [replaceFirst, if_neg hc, ih (List.find?_eq_none.2 fun x hx => h x (mem_cons_of_mem _ hx))]

/-- The place where `replaceFirst` works. -/
theorem replaceFirst_of_find (h : l.find? p = some a) :
    ∃ pre post, l = pre ++ a :: post ∧ ∀ b, replaceFirst p b l = pre ++ b :: post := by
  induction l with
  | nil => simp at h
  | cons c l ih =>
    by_cases hc : p c
    · simp only [find?_cons, hc] at h
      cases h
      exact ⟨[], l, rfl, fun b => by simp [replaceFirst, hc]⟩
    · simp only [find?_cons, hc] at h
      obtain ⟨pre, post, rfl, hr⟩ := ih h
      exact ⟨c :: pre, post, rfl, fun b => by simp [replaceFirst, hc, hr]⟩

/-- Replacing an element moves a count by the two elements only. -/
theorem countP_replaceFirst {q : α → Bool} (h : l.find? p = some a) (b : α) :
    (replaceFirst p b l).countP q + (q a).toNat = l.countP q + (q b).toNat := by
  obtain ⟨pre, post, rfl, hr⟩ := replaceFirst_of_find h
  rw [hr, countP_append, countP_append, countP_cons, countP_cons]
  cases q a <;> cases q b <;> simp <;> omega

/-- A filter keeps a count if and only if it drops nothing that is counted. -/
theorem countP_filter_eq_iff {q : α → Bool} :
    (l.filter p).countP q = l.countP q ↔ ∀ a ∈ l, p a = false → q a = false := by
  induction l with
  | nil => simp
  | cons a l ih =>
    have hle : (l.filter p).countP q ≤ l.countP q := (filter_sublist).countP_le
    rw [forall_mem_cons, ← ih, filter_cons]
    cases hp : p a with
    | true => simp [countP_cons]
    | false =>
      cases hq : q a with
      | true =>
        simp only [countP_cons, hq, Bool.false_eq_true, if_false, if_true]
        simp
        omega
      | false => simp [hq]

/-- An element other than `c` is taken out of a list that is split at `c`. -/
theorem exists_split_of_remove {before later pre post : List α} {t c : α}
    (h : before ++ t :: later = pre ++ c :: post) (hne : t ≠ c) :
    ∃ pre' post', before ++ later = pre' ++ c :: post' ∧ post' ⊆ post := by
  rcases append_eq_append_iff.1 h with ⟨l, h1, h2⟩ | ⟨l, h1, h2⟩
  · cases l with
    | nil => exact absurd (List.cons.inj h2).1 hne
    | cons a l =>
      rw [cons_append, List.cons.injEq] at h2
      exact ⟨before ++ l, post, by rw [h2.2, append_assoc], List.Subset.refl _⟩
  · cases l with
    | nil => exact absurd (List.cons.inj h2).1.symm hne
    | cons a l =>
      rw [cons_append, List.cons.injEq] at h2
      refine ⟨pre, l ++ later, by rw [h1, h2.1]; simp, fun x hx => ?_⟩
      rw [h2.2]
      rcases mem_append.1 hx with hx | hx
      · exact mem_append_left _ hx
      · exact mem_append_right _ (mem_cons_of_mem _ hx)

/-- Writing to a list is writing to its front, or to its last element. -/
theorem set_concat {d : α} {i : ℕ} (h : (l ++ [d])[i]? = some a) :
    (l[i]? = some a ∧ ∀ x, (l ++ [d]).set i x = l.set i x ++ [d]) ∨ (d = a ∧ ∀ x, (l ++ [d]).set i x = l ++ [x]) := by
  rcases Nat.lt_or_ge i l.length with hi | hi
  · rw [getElem?_append_left hi] at h
    exact .inl ⟨h, fun x => set_append_left _ _ hi⟩
  · rw [getElem?_append_right hi] at h
    cases hzero : i - l.length with
    | zero =>
      rw [hzero] at h
      cases h
      refine .inr ⟨rfl, fun x => ?_⟩
      rw [set_append_right _ _ hi, hzero]
      rfl
    | succ =>
      rw [hzero] at h
      cases h

/-- A fold that no element changes. -/
theorem foldl_eq_self {β : Type} {f : β → α → β} {c : β} (h : ∀ a ∈ l, f c a = c) : l.foldl f c = c := by
  induction l with
  | nil => rfl
  | cons a l ih =>
    rw [foldl_cons, h a mem_cons_self]
    exact ih fun b hb => h b (mem_cons_of_mem _ hb)

end Whatsvelte
