import Mathlib.Data.List.Basic

/-!
# Regular expressions that backtrack

`Regex.run` matches as ECMAScript does: an expression gets the rest of the match as a continuation, tries
its own ways in order (the longest first for a quantifier, the left one first for `alt`), and takes the first
after which the continuation succeeds. `exec` looks for the first index from `lastIndex` on at which the
expression matches. What a run consumes is in the language of the expression (`Regex.run_sound`), and
`exec` finds its match within the text (`exec_eq_some`).
-/

namespace Whatsvelte

open List

/-- An expression over an alphabet. Only classes are quantified. -/
inductive Regex (α : Type)
  | empty
  | set (p : α → Bool)
  /-- `p?`. -/
  | opt (p : α → Bool)
  /-- `p+`. -/
  | plus (p : α → Bool)
  | seq (r s : Regex α)
  | alt (r s : Regex α)

namespace Regex

variable {α β : Type} {p : α → Bool} {r : Regex α} {k : List α → Option β} {l m text : List α} {b : β} {i n : ℕ}

/-- One expression after the other. -/
def seqs (rs : List (Regex α)) : Regex α := rs.foldr seq empty

/-- `p+`, greedy: more elements are tried before the continuation. -/
def runPlus (p : α → Bool) (k : List α → Option β) : List α → Option β
  | [] => none
  | a :: l => if p a then (runPlus p k l).or (k l) else none

def run : Regex α → (List α → Option β) → List α → Option β
  | empty, k, l => k l
  | set _, _, [] => none
  | set p, k, a :: l => if p a then k l else none
  | opt _, k, [] => k []
  | opt p, k, a :: l => (if p a then k l else none).or (k (a :: l))
  | plus p, k, l => runPlus p k l
  | seq r s, k, l => r.run (s.run k) l
  | alt r s, k, l => (r.run k l).or (s.run k l)

/-- The length of the match at the front of a text. -/
def matchAt (r : Regex α) (l : List α) : Option ℕ := (r.run some l).map fun rest => l.length - rest.length

/-- `exec` of a global expression: the index and the length of the first match from `lastIndex` on. -/
def exec (r : Regex α) (text : List α) (lastIndex : ℕ) : Option (ℕ × ℕ) :=
  (List.range' lastIndex (text.length + 1 - lastIndex)).findSome? fun i =>
    (r.matchAt (text.drop i)).map fun n => (i, n)

/-- The language of an expression. -/
inductive Matches : Regex α → List α → Prop
  | empty : Matches empty []
  | set {p : α → Bool} {a : α} (h : p a = true) : Matches (set p) [a]
  | optNone (p : α → Bool) : Matches (opt p) []
  | optSome {p : α → Bool} {a : α} (h : p a = true) : Matches (opt p) [a]
  | plus {p : α → Bool} {m : List α} (hne : m ≠ []) (h : ∀ a ∈ m, p a = true) : Matches (plus p) m
  | seq {r s : Regex α} {m m' : List α} (hr : Matches r m) (hs : Matches s m') : Matches (seq r s) (m ++ m')
  | left {r : Regex α} {m : List α} (s : Regex α) (h : Matches r m) : Matches (alt r s) m
  | right {s : Regex α} {m : List α} (r : Regex α) (h : Matches s m) : Matches (alt r s) m

theorem runPlus_sound (h : runPlus p k l = some b) :
    ∃ m rest, l = m ++ rest ∧ m ≠ [] ∧ (∀ a ∈ m, p a = true) ∧ k rest = some b := by
  induction l with
  | nil => cases h
  | cons a l ih =>
    rw [runPlus] at h
    split at h
    · rename_i ha
      rcases Option.or_eq_some_iff.1 h with h | ⟨-, h⟩
      · obtain ⟨m, rest, rfl, -, hall, hk⟩ := ih h
        exact ⟨a :: m, rest, rfl, cons_ne_nil _ _, forall_mem_cons.2 ⟨ha, hall⟩, hk⟩
      · exact ⟨[a], l, rfl, cons_ne_nil _ _, forall_mem_singleton.2 ha, h⟩
    · cases h

theorem Matches.of_set {s : Regex α} (h : Matches (.seq (.set p) s) m) :
    ∃ a m', m = a :: m' ∧ p a = true ∧ s.Matches m' := by
  cases h with
  | seq hr hs =>
    cases hr with
    | set ha => exact ⟨_, _, rfl, ha, hs⟩

theorem Matches.of_opt {s : Regex α} (h : Matches (.seq (.opt p) s) m) :
    s.Matches m ∨ ∃ a m', m = a :: m' ∧ p a = true ∧ s.Matches m' := by
  cases h with
  | seq hr hs =>
    cases hr with
    | optNone => exact .inl hs
    | optSome ha => exact .inr ⟨_, _, rfl, ha, hs⟩

/-- **What a run consumes** is in the language, and the continuation succeeds behind it. -/
theorem run_sound (h : r.run k l = some b) : ∃ m rest, l = m ++ rest ∧ r.Matches m ∧ k rest = some b := by
  induction r generalizing k l with
  | empty => exact ⟨[], l, rfl, .empty, h⟩
  | set =>
    cases l with
    | nil => cases h
    | cons a l =>
      rw [run] at h
      split at h
      · rename_i ha
        exact ⟨[a], l, rfl, .set ha, h⟩
      · cases h
  | opt p =>
    cases l with
    | nil => exact ⟨[], [], rfl, .optNone p, h⟩
    | cons a l =>
      rw [run] at h
      rcases Option.or_eq_some_iff.1 h with h | ⟨-, h⟩
      · split at h
        · rename_i ha
          exact ⟨[a], l, rfl, .optSome ha, h⟩
        · cases h
      · exact ⟨[], a :: l, rfl, .optNone p, h⟩
  | plus =>
    obtain ⟨m, rest, hl, hne, hall, hk⟩ := runPlus_sound h
    exact ⟨m, rest, hl, .plus hne hall, hk⟩
  | seq r s ihr ihs =>
    obtain ⟨m, rest, rfl, hm, hs⟩ := ihr h
    obtain ⟨m', rest', rfl, hm', hk⟩ := ihs hs
    exact ⟨m ++ m', rest', (append_assoc _ _ _).symm, .seq hm hm', hk⟩
  | alt r s ihr ihs =>
    rcases Option.or_eq_some_iff.1 h with h | ⟨-, h⟩
    · obtain ⟨m, rest, hl, hm, hk⟩ := ihr h
      exact ⟨m, rest, hl, .left s hm, hk⟩
    · obtain ⟨m, rest, hl, hm, hk⟩ := ihs h
      exact ⟨m, rest, hl, .right r hm, hk⟩

theorem matchAt_eq_some (h : r.matchAt l = some n) : n ≤ l.length ∧ r.Matches (l.take n) := by
  obtain ⟨rest, hrun, rfl⟩ := Option.map_eq_some_iff.1 h
  obtain ⟨m, rest', rfl, hm, hk⟩ := run_sound hrun
  cases hk
  have hn : (m ++ rest).length - rest.length = m.length := by
    rw [length_append, Nat.add_sub_cancel]
  rw [hn, take_left]
  exact ⟨by rw [length_append]; omega, hm⟩

/-- **What `exec` finds** lies in the text from `lastIndex` on, and is in the language. -/
theorem exec_eq_some {j : ℕ} (h : r.exec text i = some (j, n)) :
    i ≤ j ∧ j + n ≤ text.length ∧ r.Matches ((text.drop j).take n) := by
  obtain ⟨j', hj', hmatch⟩ := exists_of_findSome?_eq_some h
  obtain ⟨n', hn', heq⟩ := Option.map_eq_some_iff.1 hmatch
  cases heq
  have hbounds := mem_range'_1.1 hj'
  obtain ⟨hn, hm⟩ := matchAt_eq_some hn'
  rw [length_drop] at hn
  exact ⟨hbounds.1, by omega, hm⟩

/-- A search from an index is a search in what follows. -/
theorem exec_drop (r : Regex α) (hi : i ≤ text.length) :
    r.exec text i = (r.exec (text.drop i) 0).map fun jn => (i + jn.1, jn.2) := by
  have hrange : List.range' i (text.length + 1 - i) =
      (List.range' 0 ((text.drop i).length + 1 - 0)).map (i + ·) := by
    rw [map_add_range', length_drop, Nat.add_zero]
    congr 1
    omega
  unfold exec
  rw [hrange, findSome?_map, map_findSome?]
  congr 1
  funext j
  simp only [Function.comp_apply, List.drop_drop, Option.map_map]
  rfl

end Regex

end Whatsvelte
