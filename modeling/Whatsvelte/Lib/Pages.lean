import Mathlib.Data.List.Perm.Subperm
import Mathlib.Data.Set.Card
import Whatsvelte.Lib.Lists

/-!
# Pages

A page of a collection is a list of its newest elements, oldest first. Which of the elements with the oldest
time of the page are in it is left open.

* `isPage_lastN`: the end of a sorted list is a page of it.
* `isPage_iff_count`: a page of some elements is a page of a larger collection if and only if enough of them
  are as new as every element that they miss.
* `IsPage.exists_of_encard`: an element is in the page if at most `n` names belong to elements that are as new.
-/

namespace Whatsvelte

open List

variable {α τ : Type} [LinearOrder τ] {t : α → τ} {n : ℕ} {S T : Set α} {l c : List α} {a : α}

/-- `l` holds the newest `n` elements of `S`, oldest first, or all if there are fewer. -/
structure IsPage (t : α → τ) (n : ℕ) (S : Set α) (l : List α) : Prop where
  sorted : l.Pairwise (fun a b => t a ≤ t b)
  nodup : l.Nodup
  mem : ∀ a ∈ l, a ∈ S
  length_le : l.length ≤ n
  rest : ∀ a ∈ S, a ∉ l → l.length = n ∧ ∀ b ∈ l, t a ≤ t b

theorem isPage_lastN (hs : l.Pairwise (fun a b => t a ≤ t b)) (hn : l.Nodup) :
    IsPage t n {a | a ∈ l} (lastN n l) := by
  have hsub := lastN_sublist n l
  refine ⟨hs.sublist hsub, hn.sublist hsub, fun a ha => hsub.subset ha, ?_, fun a ha hout => ?_⟩
  · rw [length_lastN]
    exact Nat.min_le_left _ _
  · -- `a` is in the part before the page
    have hsplit : l.take (l.length - n) ++ lastN n l = l := take_append_drop _ _
    have hin : a ∈ l.take (l.length - n) := by
      have ha : a ∈ l.take (l.length - n) ++ lastN n l := by rwa [hsplit]
      exact (mem_append.1 ha).resolve_right hout
    constructor
    · have hlen := length_pos_of_mem hin
      rw [length_take] at hlen
      rw [length_lastN]
      omega
    · intro b hb
      rw [← hsplit] at hs
      exact (pairwise_append.1 hs).2.2 a hin b hb

/-- A page that misses an element ends after it. -/
theorem lastN_suffix_of_not_mem {pre post : List α} (h : a ∉ lastN n (pre ++ a :: post)) :
    lastN n (pre ++ a :: post) <:+ post := by
  have htail : a :: post <:+ pre ++ a :: post := suffix_append _ _
  rcases suffix_or_suffix_of_suffix htail (lastN_suffix n _) with hin | hout
  · exact absurd (hin.subset mem_cons_self) h
  · rcases suffix_cons_iff.1 hout with heq | hpost
    · rw [heq] at h
      exact absurd mem_cons_self h
    · exact hpost

/-- The elements of a page that is not full are all there is. -/
theorem IsPage.mem_of_length_lt (h : IsPage t n S l) (hl : l.length < n) (ha : a ∈ S) : a ∈ l := by
  by_contra hout
  have hlen := (h.rest a ha hout).1
  omega

theorem IsPage.exists_of_encard {κ : Type} {f : α → κ} {K : Set κ} (h : IsPage t n S l) (ha : a ∈ S)
    (hn : (l.map f).Nodup) (hK : ∀ b ∈ S, t a ≤ t b → f b ∈ K) (hc : K.encard ≤ n) : ∃ b ∈ l, f b = f a := by
  classical
  by_contra hno
  obtain ⟨hlen, hnew⟩ := h.rest a ha fun hl => hno ⟨a, hl, rfl⟩
  have hnodup : ((a :: l).map f).Nodup := by
    rw [map_cons, nodup_cons, mem_map]
    exact ⟨hno, hn⟩
  have hsub : (((a :: l).map f).toFinset : Set κ) ⊆ K := by
    intro i hi
    obtain ⟨b, hb, rfl⟩ := mem_map.1 (mem_toFinset.1 hi)
    rcases mem_cons.1 hb with rfl | hb
    · exact hK b ha le_rfl
    · exact hK b (h.mem b hb) (hnew b hb)
  have hcard := (Set.encard_le_encard hsub).trans hc
  rw [Set.encard_coe_eq_coe_finsetCard, toFinset_card_of_nodup hnodup, length_map, length_cons, hlen] at hcard
  exact Nat.not_succ_le_self n (by exact_mod_cast hcard)

theorem IsPage.of_eq (h : IsPage t n S l) (hst : ∀ a, a ∈ S ↔ a ∈ T) : IsPage t n T l :=
  ⟨h.sorted, h.nodup, fun a ha => (hst a).1 (h.mem a ha), h.length_le,
    fun a ha => h.rest a ((hst a).2 ha)⟩

/-- **A page of some elements as a page of more.** -/
theorem isPage_iff_count (hc : IsPage t n {a | a ∈ c} l) (hcn : c.Nodup) (hcS : ∀ a ∈ c, a ∈ S) :
    IsPage t n S l ↔ ∀ s ∈ S, s ∉ c → n ≤ c.countP (fun a => t s ≤ t a) := by
  constructor
  · intro h s hs hout
    have hnot : s ∉ l := fun hl => hout (hc.mem s hl)
    obtain ⟨hlen, hnew⟩ := h.rest s hs hnot
    have hcount : l.countP (fun a => t s ≤ t a) = l.length :=
      countP_eq_length.2 fun b hb => decide_eq_true (hnew b hb)
    have hsub : l.Subperm c := subperm_of_subset hc.nodup fun a ha => hc.mem a ha
    have hle := hsub.countP_le (fun a => decide (t s ≤ t a))
    omega
  · intro h
    refine ⟨hc.sorted, hc.nodup, fun a ha => hcS a (hc.mem a ha), hc.length_le, fun s hs hout => ?_⟩
    by_cases hsc : s ∈ c
    · exact hc.rest s hsc hout
    have hcount := h s hs hsc
    constructor
    · by_contra hlen
      have hlt : l.length < n := lt_of_le_of_ne hc.length_le hlen
      have hsub : c.Subperm l := subperm_of_subset hcn fun a ha => hc.mem_of_length_lt hlt ha
      have hle := hsub.length_le
      have hall := countP_le_length (p := fun a => decide (t s ≤ t a)) (l := c)
      omega
    · -- an older element in the page would leave no room for those that are as new as `s`
      classical
      intro b hb
      by_contra hold
      have hmem : ∀ a ∈ c.filter (fun a => t s ≤ t a), a ∈ l.erase b := by
        intro a ha
        obtain ⟨hac, hta⟩ := mem_filter.1 ha
        have hta : t s ≤ t a := of_decide_eq_true hta
        have hal : a ∈ l := by
          by_contra hal
          exact hold (hta.trans ((hc.rest a hac hal).2 b hb))
        refine (mem_erase_of_ne ?_).2 hal
        rintro rfl
        exact hold hta
      have hsub := subperm_of_subset (hcn.filter _) hmem
      have hle := hsub.length_le
      rw [← countP_eq_length_filter, length_erase_of_mem hb] at hle
      have hpos := length_pos_of_mem hb
      have hlen := hc.length_le
      omega

end Whatsvelte
