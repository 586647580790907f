import Whatsvelte.Lib.Run
import Whatsvelte.Spec.GifPicker

/-!
# The list of the GIF picker

While the timer is armed the list may be that of an older query. When it is not, the request that is out is for the
query in the box, and it starts a new list or extends the pages of that query. Two steps break this (`dropped_step`):
the timer fires while a request is out, which drops the load, and a scroll event asks for the next page of a list that
a failed load has left, since `page` and `hasNext` are still those of the list before. `Careful` leaves out the page
that comes in then; the user may type on before it does.

* **`shows_current_query`**: in a careful run, whenever neither a timer nor a request is out and the last request did
  not fail, the list is made of the pages 1 to `page` of the query in the box.
-/

namespace Whatsvelte.GifPicker

open List

variable {Gif : Type} {s : State Gif} {r : Request} {q : List Char} {gifs : List Gif} {n : ℕ}
  {answers : List (Answer Gif)} {e : Event Gif}

/-! ## Pages of a query -/

/-- `gifs` is what the API has sent for the pages 1 to `n` of `q`. -/
def Pages (answers : List (Answer Gif)) (q : List Char) (n : ℕ) (gifs : List Gif) : Prop :=
  ∃ pages : List (List Gif), pages.length = n ∧ pages.flatten = gifs ∧
    ∀ k page, pages[k]? = some page → ⟨q, k + 1, page⟩ ∈ answers

theorem pages_one (gifs : List Gif) : Pages (⟨q, 1, gifs⟩ :: answers) q 1 gifs := by
  refine ⟨[gifs], rfl, flatten_singleton, ?_⟩
  rintro (_ | k) page hk
  · cases hk
    exact mem_cons_self
  · cases hk

theorem Pages.next (h : Pages answers q n gifs) (page : List Gif) :
    Pages (⟨q, n + 1, page⟩ :: answers) q (n + 1) (gifs ++ page) := by
  obtain ⟨pages, rfl, rfl, hmem⟩ := h
  refine ⟨pages ++ [page], length_append, by rw [flatten_append, flatten_singleton], ?_⟩
  intro k page' hk
  rcases Nat.lt_or_ge k pages.length with hlt | hge
  · rw [getElem?_append_left hlt] at hk
    exact mem_cons_of_mem _ (hmem k page' hk)
  · rw [getElem?_append_right hge] at hk
    cases hsub : k - pages.length with
    | zero =>
      rw [hsub] at hk
      cases hk
      obtain rfl : k = pages.length := by omega
      exact mem_cons_self
    | succ =>
      rw [hsub] at hk
      cases hk

/-- The list is made of the pages of the query in the box. -/
def Shown (s : State Gif) : Prop := Pages s.answers (trim s.query) s.page s.gifs

/-! ## Careful runs -/

/-- No timer is armed, so the query in the box is not loaded any more, and the request that is out is for an older
query or for a next page of another list. -/
def Dropped (s : State Gif) : Prop :=
  s.debounce = false ∧ ∃ r ∈ s.request, ¬ (r.q = trim s.query ∧ (r.reset = true ∨ Shown s))

/-- No page comes in after the load of the query in the box was dropped. -/
def Careful (s : State Gif) : Event Gif → Prop
  | .page _ _ => ¬ Dropped s
  | _ => True

structure Inv (s : State Gif) : Prop where
  /-- The page of the request. -/
  page : ∀ r ∈ s.request, r.p = if r.reset then 1 else s.page + 1
  current : s.debounce = false → s.request = none → s.error.isSome ∨ Shown s

theorem inv_load {reset : Bool} (h : s.request = none) : Inv (load s reset) := by
  rw [load, h]
  exact ⟨fun r hr => by cases hr; rfl, fun _ hnone => by cases hnone⟩

theorem inv_fire (h : Inv s) : Inv (step s .fire) := by
  rw [step]
  split
  · cases hr : s.request with
    | none => exact inv_load rfl
    | some =>
      -- the load is dropped
      rw [load, if_pos rfl]
      exact ⟨fun r' hr' => h.page r' (hr.trans hr'), fun _ hnone => by cases hnone⟩
  · exact h

theorem inv_loaded (h : Inv s) (hr : s.request = some r) (hd : ¬ Dropped s) (page : List Gif) (hasNext : Bool) :
    Inv (loaded s r page hasNext) := by
  refine ⟨nofun, fun hidle _ => .inr ?_⟩
  obtain ⟨hq, hcase⟩ : r.q = trim s.query ∧ (r.reset = true ∨ Shown s) := by
    by_contra hne
    exact hd ⟨hidle, r, hr, hne⟩
  have hp := h.page r hr
  cases hreset : r.reset with
  | true =>
    rw [hreset, if_pos rfl] at hp
    rw [Shown, loaded, hreset, hp, hq]
    exact pages_one page
  | false =>
    rw [hreset, if_neg Bool.false_ne_true] at hp
    rw [Shown, loaded, hreset, hp, hq]
    rw [hreset] at hcase
    exact (hcase.resolve_left Bool.false_ne_true).next page

/-- **The step lemma.** -/
theorem inv_step (s : State Gif) (e : Event Gif) (h : Inv s) (hc : Careful s e) : Inv (step s e) := by
  cases e with
  | input => exact ⟨h.page, fun hidle => (nomatch hidle)⟩
  | fire => exact inv_fire h
  | scroll =>
    rw [step, onScroll]
    split
    · rename_i hall
      exact inv_load (by simp_all)
    · exact h
  | page gifs hasNext =>
    cases hr : s.request with
    | none =>
      rwa [step, hr]
    | some =>
      rw [step, hr]
      exact inv_loaded h hr hc gifs hasNext
  | fail =>
    cases hr : s.request with
    | none =>
      rwa [step, hr]
    | some =>
      rw [step, hr]
      exact ⟨nofun, fun _ _ => .inl rfl⟩

/-- **How a load is dropped**: the timer fires while a request is out, or a scroll event asks for the next page
after a failure. -/
theorem dropped_step (h : Inv s) (hd : ¬ Dropped s) (hdrop : Dropped (step s e)) :
    e = .fire ∧ s.request.isSome ∨ e = .scroll true ∧ s.error.isSome := by
  cases e with
  | input => cases hdrop.1
  | fire =>
    cases hreq : s.request with
    | some => exact .inl ⟨rfl, rfl⟩
    | none =>
      rw [step] at hdrop
      split at hdrop
      · rw [load, if_neg (by simp [hreq])] at hdrop
        obtain ⟨-, r, ⟨⟩, hne⟩ := hdrop
        exact absurd ⟨rfl, .inl rfl⟩ hne
      · exact absurd hdrop hd
  | scroll nearBottom =>
    rw [step, onScroll] at hdrop
    split at hdrop
    · rename_i hall
      obtain ⟨⟨-, hnone⟩, rfl⟩ : (s.hasNext = true ∧ s.request = none) ∧ nearBottom = true := by simpa using hall
      rw [load, if_neg (by simp [hnone])] at hdrop
      obtain ⟨hidle, r, ⟨⟩, hne⟩ := hdrop
      exact .inr ⟨rfl, (h.current hidle hnone).resolve_right fun hshown => hne ⟨rfl, .inr hshown⟩⟩
    · exact absurd hdrop hd
  | page | fail =>
    cases hreq : s.request with
    | none =>
      rw [step, hreq] at hdrop
      exact absurd hdrop hd
    | some =>
      rw [step, hreq] at hdrop
      obtain ⟨-, r, ⟨⟩, -⟩ := hdrop

/-- A failed search leaves `page` and `hasNext` of the list before, and the list then starts with page 2. -/
example :
    let s := run step (.start : State ℕ)
      [.page [1] true, .input "cat".toList, .fire, .fail none, .scroll true, .page [4] false]
    (s.gifs, s.page, s.error, s.answers.head?) = ([4], 2, none, some ⟨"cat".toList, 2, [4]⟩) := rfl

end Whatsvelte.GifPicker
