import Mathlib.Data.List.MinMax
import Whatsvelte.Lib.Table

/-!
# Cursors

A cursor visits the rows of a table in the order of their keys. It holds no snapshot: every
move looks for the least key above its position in the table as it is then.
-/

namespace Whatsvelte

open List Table

variable {α κ : Type} {key : α → κ} [LinearOrder κ] {t t' : Table key} {pos : Option κ} {a : α} {k : κ}

/-- Whether a key is above the position of a cursor; a cursor starts below all keys. -/
def above (pos : Option κ) (k : κ) : Bool :=
  match pos with
  | none => true
  | some p => p < k

@[simp] theorem above_none (k : κ) : above none k = true := rfl

@[simp] theorem above_some (p k : κ) : above (some p) k = decide (p < k) := rfl

/-- The row that a cursor at `pos` moves to. -/
def Table.next (t : Table key) (pos : Option κ) : Option α :=
  (t.rows.filter (fun a => above pos (key a))).argmin key

theorem Table.next_mem (h : t.next pos = some a) : a ∈ t.rows ∧ above pos (key a) = true := by
  have hm := argmin_mem h
  exact mem_filter.1 hm

/-- No row is skipped. -/
theorem next_le {b : α} (h : t.next pos = some a) (hb : b ∈ t.rows)
    (hp : above pos (key b) = true) : key a ≤ key b := by
  have hm : b ∈ t.rows.filter (fun a => above pos (key a)) := mem_filter.2 ⟨hb, hp⟩
  exact le_of_mem_argmin hm h

theorem next_none {b : α} (h : t.next pos = none) (hb : b ∈ t.rows) : above pos (key b) = false := by
  rw [Table.next, argmin_eq_none] at h
  by_contra hp
  rw [Bool.not_eq_false] at hp
  have hm : b ∈ t.rows.filter (fun a => above pos (key a)) := mem_filter.2 ⟨hb, hp⟩
  rw [h] at hm
  cases hm

/-- What is above a position is the row that comes next, or above that. -/
theorem above_next {b : α} (h : t.next pos = some a) (hb : b ∈ t.rows) :
    above pos (key b) = true ↔ key a ≤ key b := by
  refine ⟨fun hp => next_le h hb hp, fun hle => ?_⟩
  have ha := (Table.next_mem h).2
  cases pos with
  | none => rfl
  | some =>
    rw [above_some, decide_eq_true_eq] at ha ⊢
    exact lt_of_lt_of_le ha hle

/-- The rows above a position are the one that comes next and those above it. -/
theorem next_perm (h : t.next pos = some a) :
    (t.rows.filter (fun b => above pos (key b))).Perm
      (a :: t.rows.filter (fun b => above (some (key a)) (key b))) := by
  have hrows : t.rows.Nodup := List.Nodup.of_map key t.nodup
  have ha := (Table.next_mem h).1
  have hnot : a ∉ t.rows.filter (fun b => above (some (key a)) (key b)) := by
    intro hm
    have := (mem_filter.1 hm).2
    simp at this
  refine (perm_ext_iff_of_nodup (hrows.filter _) (nodup_cons.2 ⟨hnot, hrows.filter _⟩)).2 fun b => ?_
  rw [mem_filter, mem_cons, mem_filter, above_some, decide_eq_true_eq]
  constructor
  · rintro ⟨hb, hp⟩
    rcases eq_or_lt_of_le (next_le h hb hp) with he | hlt
    · have := find_of_nodup t.nodup hb
      rw [← he, find_of_nodup t.nodup ha] at this
      exact .inl (Option.some.inj this).symm
    · exact .inr ⟨hb, hlt⟩
  · rintro (rfl | ⟨hb, hlt⟩)
    · exact Table.next_mem h
    · exact ⟨hb, (above_next h hb).2 hlt.le⟩

/-- Fewer rows are above a row than above a position below it. -/
theorem above_length_lt (ha : a ∈ t.rows) (hp : above pos (key a) = true) :
    (t.rows.filter (fun b => above (some (key a)) (key b))).length <
      (t.rows.filter (fun b => above pos (key b))).length := by
  have hrows : t.rows.Nodup := List.Nodup.of_map key t.nodup
  have hnot : a ∉ t.rows.filter (fun b => above (some (key a)) (key b)) := by
    intro hm
    have := (mem_filter.1 hm).2
    simp at this
  have hsub : a :: t.rows.filter (fun b => above (some (key a)) (key b)) ⊆
      t.rows.filter (fun b => above pos (key b)) := by
    intro b hb
    rcases mem_cons.1 hb with rfl | hb
    · exact mem_filter.2 ⟨ha, hp⟩
    · obtain ⟨hb, hlt⟩ := mem_filter.1 hb
      refine mem_filter.2 ⟨hb, ?_⟩
      cases pos with
      | none => rfl
      | some => exact decide_eq_true (lt_trans (of_decide_eq_true hp) (of_decide_eq_true hlt))
  exact (subperm_of_subset (nodup_cons.2 ⟨hnot, hrows.filter _⟩) hsub).length_le

/-! ## Visits -/

/-- Where a cursor is: its next move was asked for, or has found a row or the end. -/
inductive Visit (α κ : Type)
  | seek (pos : Option κ)
  | found (row : Option α)

/-- Whether the row with this key is still ahead. -/
def Visit.ahead (key : α → κ) : Visit α κ → κ → Bool
  | .seek pos, k => above pos k
  | .found none, _ => false
  | .found (some a), k => key a ≤ k

/-- A move of the cursor skips no row. -/
theorem ahead_next {b : α} (hb : b ∈ t.rows) :
    (Visit.found (t.next pos)).ahead key (key b) = (Visit.seek pos).ahead key (key b) := by
  cases h : t.next pos with
  | none => exact (next_none h hb).symm
  | some =>
    rw [Bool.eq_iff_iff]
    simp only [Visit.ahead, decide_eq_true_eq]
    exact (above_next h hb).symm

/-- A move of the cursor does not go back. -/
theorem ahead_of_next (h : (Visit.found (t.next pos)).ahead key k = true) :
    (Visit.seek pos : Visit α κ).ahead key k = true := by
  cases hn : t.next pos with
  | none => rw [hn] at h; cases h
  | some a =>
    rw [hn] at h
    have hle : key a ≤ k := of_decide_eq_true h
    have ha := (Table.next_mem hn).2
    cases pos with
    | none => rfl
    | some => exact decide_eq_true (lt_of_lt_of_le (of_decide_eq_true ha) hle)

/-- To leave a row behind is to have all but that row ahead. -/
theorem ahead_leave (key : α → κ) (a : α) (k : κ) [Decidable (k ≠ key a)] :
    (Visit.seek (some (key a)) : Visit α κ).ahead key k =
      ((Visit.found (some a)).ahead key k && decide (k ≠ key a)) := by
  rw [Bool.eq_iff_iff]
  simp only [Visit.ahead, above_some, decide_eq_true_eq, Bool.and_eq_true]
  exact lt_iff_le_and_ne.trans (and_congr_right fun _ => ne_comm)

end Whatsvelte
