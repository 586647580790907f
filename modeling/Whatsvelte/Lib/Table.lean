import Mathlib.Data.List.Nodup
import Mathlib.Data.List.Perm.Basic

/-!
# Keyed tables

A `Table key` is a list of rows, no two with the same key, in the order the keys
were first inserted. It is both an insertion-ordered map (a JavaScript `Map`:
`set` on a present key keeps its place) and an object store with a key path
(`put` replaces, `add` inserts only if the key is absent).

Every operation is described by what `get` reads afterwards (`get_set`,
`get_add`, `get_erase`, …); callers never look at the rows.
-/

namespace Whatsvelte

open List

/-- Rows with pairwise distinct keys, in insertion order. -/
structure Table {α κ : Type} (key : α → κ) where
  rows : List α
  nodup : (rows.map key).Nodup

namespace Table

variable {α κ : Type} {key : α → κ}
variable {t : Table key} {a : α} {k : κ} {l : List α}

theorem ext_rows {t t' : Table key} (h : t.rows = t'.rows) : t = t' := by
  cases t; cases t'; cases h; rfl

instance [DecidableEq α] : DecidableEq (Table key) := fun t t' =>
  decidable_of_iff (t.rows = t'.rows) ⟨ext_rows, fun h => h ▸ rfl⟩

/-- No rows. -/
def empty : Table key := ⟨[], nodup_nil⟩

instance : Inhabited (Table key) := ⟨empty⟩

@[simp] theorem empty_rows : (empty : Table key).rows = [] := rfl

variable [DecidableEq κ]

/-- The row with key `k`. -/
def get (t : Table key) (k : κ) : Option α := t.rows.find? (fun a => key a = k)

/-- Whether some row has key `k`. -/
def has (t : Table key) (k : κ) : Bool := (t.get k).isSome

/-- Put `a` in the place of the row with its key, or at the end. -/
def upsert (key : α → κ) (a : α) : List α → List α
  | [] => [a]
  | b :: l => if key b = key a then a :: l else b :: upsert key a l

theorem mem_upsert {a b : α} (h : b ∈ upsert key a l) : b = a ∨ b ∈ l := by
  induction l with
  | nil => simpa [upsert] using h
  | cons c l ih =>
    unfold upsert at h
    split at h
    · rcases mem_cons.1 h with h | h
      · exact .inl h
      · exact .inr (mem_cons_of_mem _ h)
    · rcases mem_cons.1 h with h | h
      · exact .inr (h ▸ mem_cons_self)
      · exact (ih h).imp_right (mem_cons_of_mem _)

theorem nodup_upsert (h : (l.map key).Nodup) : ((upsert key a l).map key).Nodup := by
  induction l with
  | nil => simp [upsert]
  | cons b l ih =>
    simp only [map_cons, nodup_cons] at h
    unfold upsert
    split
    · rename_i hb
      simpa [← hb] using h
    · rename_i hb
      simp only [map_cons, nodup_cons]
      refine ⟨?_, ih h.2⟩
      intro hm
      obtain ⟨c, hc, hk⟩ := mem_map.1 hm
      rcases mem_upsert hc with rfl | hc
      · exact hb hk.symm
      · exact h.1 (hk ▸ mem_map_of_mem hc)

/-- `Map.set` / `IDBObjectStore.put`. -/
def set (t : Table key) (a : α) : Table key := ⟨upsert key a t.rows, nodup_upsert t.nodup⟩

/-- `IDBObjectStore.add`: a row that is already there stays. -/
def add (t : Table key) (a : α) : Table key := if t.has (key a) then t else t.set a

/-- Keep the rows that satisfy `p`. -/
def filter (t : Table key) (p : α → Bool) : Table key :=
  ⟨t.rows.filter p, t.nodup.sublist (filter_sublist.map key)⟩

/-- `Map.delete` / `IDBObjectStore.delete`. -/
def erase (t : Table key) (k : κ) : Table key := t.filter (fun a => key a ≠ k)

/-- The first `n` rows. -/
def take (t : Table key) (n : ℕ) : Table key :=
  ⟨t.rows.take n, t.nodup.sublist ((take_sublist n t.rows).map key)⟩

/-- All but the first `n` rows. -/
def drop (t : Table key) (n : ℕ) : Table key :=
  ⟨t.rows.drop n, t.nodup.sublist ((drop_sublist n t.rows).map key)⟩

/-! ## What `get` reads -/

theorem find_upsert (a : α) (l : List α) (k : κ) :
    (upsert key a l).find? (fun b => key b = k) =
      if key a = k then some a else l.find? (fun b => key b = k) := by
  induction l with
  | nil => by_cases h : key a = k <;> simp [upsert, h]
  | cons b l ih =>
    unfold upsert
    by_cases hb : key b = key a
    · by_cases h : key a = k <;> simp [hb, h]
    · by_cases h : key a = k
      · have : key b ≠ k := fun hk => hb (hk.trans h.symm)
        simp [this, ih, h]
      · by_cases hk : key b = k
        · rw [if_neg hb]; simp [hk, h]
        · simp [hb, hk, ih, h]

@[simp] theorem get_empty (k : κ) : (empty : Table key).get k = none := rfl

theorem get_set (t : Table key) (a : α) (k : κ) :
    (t.set a).get k = if key a = k then some a else t.get k := find_upsert a t.rows k

theorem get_mem (h : t.get k = some a) : a ∈ t.rows :=
  mem_of_find?_eq_some h

theorem get_key (h : t.get k = some a) : key a = k := by
  simpa using find?_some h

theorem find_of_nodup (hn : (l.map key).Nodup) (h : a ∈ l) : l.find? (fun b => key b = key a) = some a := by
  induction l with
  | nil => simp at h
  | cons b l ih =>
    simp only [map_cons, nodup_cons] at hn
    rcases mem_cons.1 h with rfl | h
    · simp
    · have : key b ≠ key a := fun hk => hn.1 (hk ▸ mem_map_of_mem h)
      simp [this, ih hn.2 h]

theorem get_of_mem (h : a ∈ t.rows) : t.get (key a) = some a :=
  find_of_nodup t.nodup h

theorem get_eq_some : t.get k = some a ↔ a ∈ t.rows ∧ key a = k :=
  ⟨fun h => ⟨get_mem h, get_key h⟩, fun h => h.2 ▸ get_of_mem h.1⟩

theorem get_eq_none : t.get k = none ↔ ∀ a ∈ t.rows, key a ≠ k := by
  simp [get, find?_eq_none]

theorem get_isSome : (t.get k).isSome ↔ ∃ a ∈ t.rows, key a = k := by
  simp [get, find?_isSome]

theorem get_add (t : Table key) (a : α) (k : κ) :
    (t.add a).get k = if key a = k then (t.get k).or (some a) else t.get k := by
  unfold add has
  by_cases h : key a = k
  · subst h
    cases hg : t.get (key a) with
    | none => simp [get_set]
    | some => simp [hg]
  · split <;> simp [get_set, h]

theorem get_filter (t : Table key) (p : α → Bool) (k : κ) : (t.filter p).get k = (t.get k).filter p := by
  cases hg : t.get k with
  | none =>
    rw [get_eq_none] at hg
    exact get_eq_none.2 fun a ha => hg a (mem_of_mem_filter ha)
  | some a =>
    obtain ⟨ha, hk⟩ := get_eq_some.1 hg
    cases hp : p a with
    | true =>
      rw [Option.filter_some, if_pos hp]
      exact get_eq_some.2 ⟨mem_filter.2 ⟨ha, hp⟩, hk⟩
    | false =>
      rw [Option.filter_some, if_neg (by simp [hp])]
      refine get_eq_none.2 fun b hb hbk => ?_
      obtain ⟨hb, hpb⟩ := mem_filter.1 hb
      have : some b = some a := (get_eq_some.2 ⟨hb, hbk⟩).symm.trans hg
      cases this; rw [hp] at hpb; cases hpb

theorem get_erase (t : Table key) (k k' : κ) : (t.erase k).get k' = if k = k' then none else t.get k' := by
  unfold erase
  rw [get_filter]
  cases hg : t.get k' with
  | none => simp
  | some =>
    have hk := get_key hg
    by_cases h : k = k'
    · subst h; simp [Option.filter, hk]
    · simp [Option.filter, hk, h, Ne.symm h]

/-- Moving a row to another key. -/
theorem get_set_erase (t : Table key) {a : α} {k k' : κ} (hk : key a = k') (hne : k ≠ k') (i : κ) :
    ((t.erase k).set a).get i = if i = k then none else if i = k' then some a else t.get i := by
  rw [get_set, get_erase, hk]
  by_cases hi : i = k'
  · subst hi; rw [if_pos rfl, if_neg (Ne.symm hne), if_pos rfl]
  · rw [if_neg (Ne.symm hi), if_neg hi]
    by_cases hik : i = k
    · rw [if_pos hik.symm, if_pos hik]
    · rw [if_neg (Ne.symm hik), if_neg hik]

/-- A row is in the first `n` or in the others, never in both. -/
theorem get_take_drop (t : Table key) (n : ℕ) (k : κ) :
    t.get k = ((t.take n).get k).or ((t.drop n).get k) := by
  unfold get take drop
  conv_lhs => rw [← take_append_drop n t.rows]
  rw [find?_append]

theorem get_take_of_drop {n : ℕ} (h : ((t.drop n).get k).isSome) : (t.take n).get k = none := by
  obtain ⟨a, ha, hk⟩ := get_isSome.1 h
  refine get_eq_none.2 fun b hb hbk => ?_
  have hn := t.nodup
  rw [← take_append_drop n t.rows, map_append, nodup_append] at hn
  exact hn.2.2 _ (mem_map_of_mem hb) _ (mem_map_of_mem ha) (hbk.trans hk.symm)

/-! ## Sizes -/

theorem length_set_of_none (h : t.get (key a) = none) : (t.set a).rows.length = t.rows.length + 1 := by
  have hne := get_eq_none.1 h
  have hlen : ∀ l : List α, (∀ b ∈ l, key b ≠ key a) → (upsert key a l).length = l.length + 1 := by
    intro l
    induction l with
    | nil => intro _; rfl
    | cons b l ih =>
      intro hl
      rw [upsert, if_neg (hl b mem_cons_self)]
      simp [ih fun c hc => hl c (mem_cons_of_mem _ hc)]
  exact hlen t.rows hne

theorem length_le_erase (t : Table key) (k : κ) : t.rows.length ≤ (t.erase k).rows.length + 1 := by
  have hlen : ∀ l : List α, (l.map key).Nodup → l.length ≤ (l.filter (fun a => key a ≠ k)).length + 1 := by
    intro l
    induction l with
    | nil => intro _; exact Nat.zero_le _
    | cons a l ih =>
      intro hn
      obtain ⟨ha, hn⟩ := nodup_cons.1 (map_cons ▸ hn)
      by_cases hk : key a = k
      · -- no other row has this key
        have hall : l.filter (fun a => key a ≠ k) = l := by
          refine filter_eq_self.2 fun b hb => decide_eq_true fun hbk => ha ?_
          exact mem_map.2 ⟨b, hb, hbk.trans hk.symm⟩
        rw [filter_cons_of_neg (by simpa using hk), hall]
        exact Nat.le_refl _
      · have := ih hn
        rw [filter_cons_of_pos (by simpa using hk), length_cons, length_cons]
        omega
  exact hlen t.rows t.nodup

end Table

end Whatsvelte
