import Mathlib.Data.List.SplitBy

/-!
# Maximal runs of a list

A block of a list is a stretch of neighbours. `Segment P R` are the blocks whose elements satisfy `P`
and whose neighbours are related by `R`; `MaximalIn Q a b c` says that `b` is a block of `a ++ b ++ c`
that no longer block contains.

`maximalIn_segment_iff`: the maximal segments are the groups of `List.splitBy`, for every test that
agrees with `R` on `P` and never leaves `P`.
-/

namespace Whatsvelte

open List

variable {α : Type} {P : α → Prop} {R : α → α → Prop} {r : α → α → Bool} {a b c : List α}

/-- The elements satisfy `P`, and neighbours are related by `R`. -/
structure Segment (P : α → Prop) (R : α → α → Prop) (l : List α) : Prop where
  all : ∀ x ∈ l, P x
  chain : l.IsChain R

/-- In `a ++ b ++ c`, the block `b` has the property, and no longer block around it has. -/
structure MaximalIn (Q : List α → Prop) (a b c : List α) : Prop where
  block : Q b
  maximal : ∀ a₁ a₂ c₁ c₂, a = a₁ ++ a₂ → c = c₁ ++ c₂ → Q (a₂ ++ b ++ c₁) → a₂ = [] ∧ c₁ = []

theorem MaximalIn.congr {Q Q' : List α → Prop} (h : ∀ l, Q l ↔ Q' l) :
    MaximalIn Q a b c ↔ MaximalIn Q' a b c := by
  rw [funext fun l => propext (h l)]

/-- Elements that are all alike are alike to their neighbours, and conversely. -/
theorem isChain_iff_forall_mem {l : List α} (h : Equivalence R) : l.IsChain R ↔ ∀ x ∈ l, ∀ y ∈ l, R x y := by
  have : IsTrans α R := ⟨fun _ _ _ => h.trans⟩
  have : Std.Symm R := ⟨fun _ _ => h.symm⟩
  rw [isChain_iff_pairwise]
  constructor
  · intro hl x hx y hy
    exact hl.forall_of_forall (fun x _ => h.refl x) hx hy
  · intro hl
    exact List.Pairwise.imp_of_mem (fun hx hy _ => hl _ hx _ hy) (pairwise_of_forall fun _ _ => trivial)

/-! ## One step at either end -/

/-- A segment is maximal where it cannot be lengthened by one element. -/
theorem maximalIn_iff_ends (hb : b ≠ []) : MaximalIn (Segment P R) a b c ↔ Segment P R b ∧
    (∀ x ∈ a.getLast?, ∀ y ∈ b.head?, P x → ¬ R x y) ∧ ∀ x ∈ b.getLast?, ∀ y ∈ c.head?, P y → ¬ R x y := by
  constructor
  · rintro ⟨hblock, hmax⟩
    refine ⟨hblock, fun x hx y hy hP hR => ?_, fun x hx y hy hP hR => ?_⟩
    · obtain ⟨a₁, ha⟩ := List.getLast?_eq_some_iff.1 hx
      have hlong : Segment P R ([x] ++ b ++ []) := by
        rw [append_nil]
        refine ⟨forall_mem_cons.2 ⟨hP, hblock.all⟩, isChain_cons.2 ⟨fun z hz => ?_, hblock.chain⟩⟩
        rwa [Option.mem_unique hz hy]
      cases (hmax a₁ [x] [] c ha rfl hlong).1
    · obtain ⟨c₂, hc⟩ := List.head?_eq_some_iff.1 hy
      have hlong : Segment P R ([] ++ b ++ [y]) := by
        rw [nil_append]
        refine ⟨fun z hz => ?_, isChain_append.2 ⟨hblock.chain, isChain_singleton y, fun z hz t ht => ?_⟩⟩
        · rcases mem_append.1 hz with hz | hz
          · exact hblock.all z hz
          · rwa [mem_singleton.1 hz]
        · cases ht
          rwa [Option.mem_unique hz hx]
      cases (hmax a [] [y] c₂ (append_nil a).symm hc hlong).2
  · rintro ⟨hblock, hleft, hright⟩
    refine ⟨hblock, fun a₁ a₂ c₁ c₂ ha hc hlong => ⟨?_, ?_⟩⟩
    · by_contra hne
      obtain ⟨x, hx⟩ : ∃ x, a₂.getLast? = some x := ⟨_, getLast?_eq_some_getLast hne⟩
      obtain ⟨y, hy⟩ : ∃ y, b.head? = some y := ⟨_, head?_eq_some_head hb⟩
      have hxa : x ∈ a.getLast? := by
        rw [ha, getLast?_append, hx]
        rfl
      have hR : R x y := by
        have hall := hlong.chain
        rw [append_assoc] at hall
        refine (isChain_append.1 hall).2.2 x hx y ?_
        rw [head?_append, hy]
        rfl
      refine hleft x hxa y hy (hlong.all x ?_) hR
      simp [mem_of_getLast? hx]
    · by_contra hne
      obtain ⟨x, hx⟩ : ∃ x, b.getLast? = some x := ⟨_, getLast?_eq_some_getLast hb⟩
      obtain ⟨y, hy⟩ : ∃ y, c₁.head? = some y := ⟨_, head?_eq_some_head hne⟩
      have hyc : y ∈ c.head? := by
        rw [hc, head?_append, hy]
        rfl
      have hR : R x y := by
        refine (isChain_append.1 hlong.chain).2.2 x ?_ y hy
        rw [getLast?_append, hx]
        rfl
      refine hright x hx y hyc (hlong.all y ?_) hR
      simp [mem_of_head? hy]

/-! ## The groups of `splitBy` -/

theorem getLast?_flatten {p : List (List α)} (hp : [] ∉ p) :
    p.flatten.getLast? = p.getLast?.bind List.getLast? := by
  rcases eq_nil_or_concat p with rfl | ⟨p, q, rfl⟩
  · rfl
  · have hq : q ≠ [] := fun h => hp (by simp [h])
    obtain ⟨x, hx⟩ : ∃ x, q.getLast? = some x := ⟨_, getLast?_eq_some_getLast hq⟩
    simp [getLast?_append, hx]

theorem head?_flatten {s : List (List α)} (hs : [] ∉ s) : s.flatten.head? = s.head?.bind List.head? := by
  cases s with
  | nil => rfl
  | cons q =>
    cases q with
    | nil => exact absurd mem_cons_self hs
    | cons => rfl

/-- A group of `splitBy` is a run that its neighbours do not continue. -/
theorem splitBy_group_iff (hb : b ≠ []) :
    (∃ p s, (a ++ b ++ c).splitBy r = p ++ b :: s ∧ p.flatten = a) ↔
      b.IsChain (fun x y => r x y) ∧ (∀ x ∈ a.getLast?, ∀ y ∈ b.head?, r x y = false) ∧
        ∀ x ∈ b.getLast?, ∀ y ∈ c.head?, r x y = false := by
  constructor
  · rintro ⟨p, s, hsplit, rfl⟩
    obtain ⟨hflat, hnil, hruns, hends⟩ := splitBy_eq_iff.1 hsplit
    have hc : c = s.flatten := by simpa using hflat
    rw [isChain_append] at hends
    obtain ⟨-, hright, hleft⟩ := hends
    refine ⟨hruns b (by simp), fun x hx y hy => ?_, fun x hx y hy => ?_⟩
    · rw [getLast?_flatten fun h => hnil (mem_append_left _ h)] at hx
      obtain ⟨q, hq, hxq⟩ := Option.mem_bind_iff.1 hx
      obtain ⟨hl, hh, hf⟩ := hleft q hq b rfl
      rwa [getLast_of_mem_getLast? hxq, head_of_mem_head? hy] at hf
    · rw [hc, head?_flatten fun h => hnil (mem_append_right _ (mem_cons_of_mem _ h))] at hy
      obtain ⟨q, hq, hyq⟩ := Option.mem_bind_iff.1 hy
      obtain ⟨hl, hh, hf⟩ := (isChain_cons.1 hright).1 q hq
      rwa [getLast_of_mem_getLast? hx, head_of_mem_head? hyq] at hf
  · rintro ⟨hrun, hleft, hright⟩
    refine ⟨a.splitBy r, c.splitBy r, ?_, flatten_splitBy r a⟩
    have hlast : (a ++ b).getLast? = b.getLast? := by
      obtain ⟨x, hx⟩ : ∃ x, b.getLast? = some x := ⟨_, getLast?_eq_some_getLast hb⟩
      rw [getLast?_append, hx]
      rfl
    rw [splitBy_append (by rwa [hlast]), splitBy_append hleft, splitBy_of_isChain hb hrun, append_assoc]
    rfl

/-- **The maximal segments are the groups of `splitBy`.** -/
theorem maximalIn_segment_iff (hR : ∀ x y, P x → P y → (r x y = true ↔ R x y))
    (hP : ∀ x y, r x y = true → (P x ↔ P y)) (hb : b ≠ []) :
    MaximalIn (Segment P R) a b c ↔
      (∀ x ∈ b, P x) ∧ ∃ p s, (a ++ b ++ c).splitBy r = p ++ b :: s ∧ p.flatten = a := by
  rw [maximalIn_iff_ends hb, splitBy_group_iff hb]
  constructor
  · rintro ⟨⟨hall, hchain⟩, hleft, hright⟩
    refine ⟨hall, ?_, fun x hx y hy => ?_, fun x hx y hy => ?_⟩
    · exact hchain.imp_of_mem_imp fun x y hx hy hxy => (hR x y (hall x hx) (hall y hy)).2 hxy
    · by_contra hr
      have hy' := hall y (mem_of_head? hy)
      have hx' := (hP x y (by simpa using hr)).2 hy'
      exact hleft x hx y hy hx' ((hR x y hx' hy').1 (by simpa using hr))
    · by_contra hr
      have hx' := hall x (mem_of_getLast? hx)
      have hy' := (hP x y (by simpa using hr)).1 hx'
      exact hright x hx y hy hy' ((hR x y hx' hy').1 (by simpa using hr))
  · rintro ⟨hall, hchain, hleft, hright⟩
    refine ⟨⟨hall, ?_⟩, fun x hx y hy hx' hxy => ?_, fun x hx y hy hy' hxy => ?_⟩
    · exact hchain.imp_of_mem_imp fun x y hx hy hxy => (hR x y (hall x hx) (hall y hy)).1 hxy
    · have hr := (hR x y hx' (hall y (mem_of_head? hy))).2 hxy
      rw [hleft x hx y hy] at hr
      cases hr
    · have hr := (hR x y (hall x (mem_of_getLast? hx)) hy').2 hxy
      rw [hright x hx y hy] at hr
      cases hr

/-! ## Where an element of a flattened list stands -/

variable {β : Type} {f : β → List α} {l l₁ l₂ l₁' l₂' : List β} {y y' : β} {x : α} {n : ℕ}

theorem exists_of_flatMap_eq (h : l.flatMap f = a ++ x :: c) :
    ∃ l₁ y l₂ u v, l = l₁ ++ y :: l₂ ∧ f y = u ++ x :: v ∧ l₁.flatMap f ++ u = a := by
  induction l generalizing a with
  | nil => simp at h
  | cons z l ih =>
    have hlater : ∀ a', l.flatMap f = a' ++ x :: c → f z ++ a' = a →
        ∃ l₁ y l₂ u v, z :: l = l₁ ++ y :: l₂ ∧ f y = u ++ x :: v ∧ l₁.flatMap f ++ u = a := by
      rintro a' h' rfl
      obtain ⟨l₁, y, l₂, u, v, rfl, hy, rfl⟩ := ih h'
      exact ⟨z :: l₁, y, l₂, u, v, rfl, hy, by simp⟩
    rw [flatMap_cons] at h
    rcases append_eq_append_iff.1 h with ⟨t, rfl, ht⟩ | ⟨t, hz, ht⟩
    · exact hlater t ht rfl
    · cases t with
      | nil => exact hlater [] ht.symm (by rw [hz, append_nil, append_nil])
      | cons x' t =>
        obtain ⟨rfl, -⟩ := List.cons.inj ht
        exact ⟨[], z, l, a, t, rfl, hz, rfl⟩

/-- The part that covers a place is determined by the place. -/
theorem flatMap_part_unique (h : l₁ ++ y :: l₂ = l₁' ++ y' :: l₂')
    (hn : (l₁.flatMap f).length ≤ n ∧ n < (l₁.flatMap f).length + (f y).length)
    (hn' : (l₁'.flatMap f).length ≤ n ∧ n < (l₁'.flatMap f).length + (f y').length) : l₁ = l₁' ∧ y = y' := by
  rcases append_eq_append_iff.1 h with ⟨t, rfl, ht⟩ | ⟨t, rfl, ht⟩
  · cases t with
    | nil => exact ⟨(append_nil l₁).symm, (List.cons.inj ht).1⟩
    | cons =>
      obtain ⟨rfl, -⟩ := List.cons.inj ht
      simp only [flatMap_append, flatMap_cons, length_append] at hn'
      omega
  · cases t with
    | nil => exact ⟨append_nil l₁', (List.cons.inj ht).1.symm⟩
    | cons =>
      obtain ⟨rfl, -⟩ := List.cons.inj ht
      simp only [flatMap_append, flatMap_cons, length_append] at hn
      omega

end Whatsvelte
