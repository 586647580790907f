import Mathlib.Order.MinMax
import Mathlib.Data.List.Basic

/-!
# Registers with a time

A register holds a time and an optional value. A call that is not older than the register
moves its time and, if it brings a value, its value; an older call changes nothing.

* `foldl_bump`: after any calls the time is the newest one, and the value is the last one
  brought by a call that was newest when it came.
* `leads_split`: above a later time, the calls that were newest when they came are the same.
-/

namespace Whatsvelte

open List

variable {α β τ : Type} [LinearOrder τ] {t : α → τ} {v : α → Option β} {T U : τ} {c d : α}
  {cs ds : List α}

/-- One call on a register. -/
def bump (t : α → τ) (v : α → Option β) (r : τ × Option β) (c : α) : τ × Option β :=
  (max (t c) r.1, if r.1 ≤ t c then (v c).or r.2 else r.2)

/-- The newest time, `T` included. -/
def newest (t : α → τ) (T : τ) (cs : List α) : τ := cs.foldl (fun T c => max (t c) T) T

/-- The calls that are not older than `T` nor than any call before them. -/
def leads (t : α → τ) : τ → List α → List α
  | _, [] => []
  | T, c :: cs => if T ≤ t c then c :: leads t (t c) cs else leads t T cs

/-- The same for a register that its first call creates, at time `T` or later. -/
def led (t : α → τ) (T : τ) : List α → List α
  | [] => []
  | c :: cs => c :: leads t (max (t c) T) cs

/-- The last value that some calls bring. -/
def lastValue (v : α → Option β) : List α → Option β
  | [] => none
  | c :: cs => (lastValue v cs).or (v c)

@[simp] theorem newest_nil : newest t T [] = T := rfl

theorem newest_cons : newest t T (c :: cs) = newest t (max (t c) T) cs := rfl

theorem newest_append : newest t T (cs ++ ds) = newest t (newest t T cs) ds :=
  foldl_append

theorem newest_le_iff : newest t T cs ≤ U ↔ T ≤ U ∧ ∀ c ∈ cs, t c ≤ U := by
  induction cs generalizing T with
  | nil => simp
  | cons c cs ih => rw [newest_cons, ih, forall_mem_cons, max_le_iff]; tauto

theorem le_newest : T ≤ newest t T cs := (newest_le_iff.1 le_rfl).1

theorem le_newest_of_mem (hc : c ∈ cs) : t c ≤ newest t T cs := (newest_le_iff.1 le_rfl).2 c hc

theorem newest_eq_or_mem (t : α → τ) (T : τ) (cs : List α) : newest t T cs = T ∨ ∃ c ∈ cs, newest t T cs = t c := by
  induction cs generalizing T with
  | nil => exact .inl rfl
  | cons c cs ih =>
    rw [newest_cons]
    rcases ih (max (t c) T) with h | ⟨d, hd, h⟩
    · rcases max_choice (t c) T with hm | hm
      · exact .inr ⟨c, mem_cons_self, h.trans hm⟩
      · exact .inl (h.trans hm)
    · exact .inr ⟨d, mem_cons_of_mem _ hd, h⟩

theorem newest_eq_of_forall_le (h : ∀ c ∈ cs, t c ≤ T) : newest t T cs = T :=
  le_antisymm (newest_le_iff.2 ⟨le_rfl, h⟩) le_newest

@[simp] theorem leads_nil : leads t T [] = [] := rfl

theorem leads_cons_of_le (h : T ≤ t c) : leads t T (c :: cs) = c :: leads t (t c) cs := if_pos h

theorem leads_cons_of_lt (h : t c < T) : leads t T (c :: cs) = leads t T cs :=
  if_neg (not_le.2 h)

theorem leads_append : leads t T (cs ++ ds) = leads t T cs ++ leads t (newest t T cs) ds := by
  induction cs generalizing T with
  | nil => rfl
  | cons c cs ih =>
    rw [newest_cons, cons_append]
    rcases le_or_gt T (t c) with h | h
    · rw [leads_cons_of_le h, leads_cons_of_le h, ih, max_eq_left h, cons_append]
    · rw [leads_cons_of_lt h, leads_cons_of_lt h, ih, max_eq_right h.le]

theorem le_of_mem_leads (h : c ∈ leads t T cs) : T ≤ t c := by
  induction cs generalizing T with
  | nil => cases h
  | cons d cs ih =>
    rcases le_or_gt T (t d) with hd | hd
    · rw [leads_cons_of_le hd] at h
      rcases mem_cons.1 h with rfl | h
      · exact hd
      · exact hd.trans (ih h)
    · rw [leads_cons_of_lt hd] at h
      exact ih h

theorem leads_eq_nil (h : ∀ c ∈ cs, t c < T) : leads t T cs = [] := by
  induction cs with
  | nil => rfl
  | cons c cs ih =>
    rw [leads_cons_of_lt (h c mem_cons_self)]
    exact ih fun d hd => h d (mem_cons_of_mem _ hd)

theorem lastValue_append (v : α → Option β) (cs ds : List α) :
    lastValue v (cs ++ ds) = (lastValue v ds).or (lastValue v cs) := by
  induction cs with
  | nil => exact (Option.or_none).symm
  | cons c cs ih => rw [cons_append, lastValue, lastValue, ih, Option.or_assoc]

theorem lastValue_eq_none : lastValue v cs = none ↔ ∀ c ∈ cs, v c = none := by
  induction cs with
  | nil => simp [lastValue]
  | cons c cs ih => rw [lastValue, Option.or_eq_none_iff, ih, forall_mem_cons, and_comm]

theorem or_lastValue_eq {L M : Option β} :
    (lastValue v cs).or L = (lastValue v cs).or M ↔ (∃ c ∈ cs, v c ≠ none) ∨ L = M := by
  rcases h : lastValue v cs with _ | x
  · have hn := lastValue_eq_none.1 h
    constructor
    · intro e
      exact .inr (by simpa using e)
    · rintro (⟨c, hc, hv⟩ | e)
      · exact absurd (hn c hc) hv
      · rw [e]
  · have hs : ¬ ∀ c ∈ cs, v c = none := by rw [← lastValue_eq_none, h]; simp
    push Not at hs
    simpa using Or.inl hs

/-- **A register after any calls.** -/
theorem foldl_bump (L : Option β) :
    cs.foldl (bump t v) (T, L) = (newest t T cs, (lastValue v (leads t T cs)).or L) := by
  induction cs generalizing T L with
  | nil => rfl
  | cons c cs ih =>
    rw [foldl_cons, newest_cons, bump]
    rcases le_or_gt T (t c) with h | h
    · rw [if_pos h, ih, leads_cons_of_le h, lastValue, Option.or_assoc, max_eq_left h]
    · rw [if_neg (not_le.2 h), ih, leads_cons_of_lt h, max_eq_right h.le]

/-- **Which calls lead above a later time** does not depend on where the register started. -/
theorem leads_split (h : T ≤ U) :
    leads t T cs = (leads t T cs).filter (fun c => t c < U) ++ leads t U cs := by
  induction cs generalizing T with
  | nil => rfl
  | cons c cs ih =>
    rcases lt_or_ge (t c) U with hU | hU
    · rw [leads_cons_of_lt hU]
      rcases le_or_gt T (t c) with hT | hT
      · rw [leads_cons_of_le hT, filter_cons_of_pos (by simpa using hU), cons_append, ← ih hU.le]
      · rw [leads_cons_of_lt hT]
        exact ih h
    · -- from `c` on, both start from the time of `c`
      have hno : ∀ d ∈ leads t (t c) cs, ¬ t d < U := by
        intro d hd
        exact not_lt.2 (hU.trans (le_of_mem_leads hd))
      rw [leads_cons_of_le hU, leads_cons_of_le (h.trans hU),
        filter_cons_of_neg (by simpa using hU),
        filter_eq_nil_iff.2 (by simpa using hno), nil_append]

theorem led_append (h : cs ≠ []) : led t T (cs ++ ds) = led t T cs ++ leads t (newest t T cs) ds := by
  obtain ⟨c, cs, rfl⟩ := exists_cons_of_ne_nil h
  exact congrArg (c :: ·) leads_append

theorem led_split (h : T ≤ U) : led t T cs = (led t T cs).filter (fun c => t c < U) ++ leads t U cs := by
  cases cs with
  | nil => rfl
  | cons c cs =>
    rcases lt_or_ge (t c) U with hU | hU
    · have hm : max (t c) T ≤ U := max_le hU.le h
      rw [leads_cons_of_lt hU, led, filter_cons_of_pos (by simpa using hU), cons_append, ← leads_split hm]
    · have hled : led t T (c :: cs) = leads t T (c :: cs) := by
        rw [led, leads_cons_of_le (h.trans hU), max_eq_left (h.trans hU)]
      rw [hled]
      exact leads_split h

end Whatsvelte
