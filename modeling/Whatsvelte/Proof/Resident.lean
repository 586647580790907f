import Mathlib.Data.List.Pairwise
import Whatsvelte.Proof.Effective

/-!
# The resident lists

Every list of `messagesByChat` holds messages of its own chat, and no id twice
(`ListOK`). So looking an id up does not depend on the order of the list, and the
edits of the stores are known by what `findId` finds afterwards: `findId_append`,
`findId_replace`, `findId_commit`, and `Sweeps.find` for the loops that rewrite some
of the messages.
-/

namespace Whatsvelte

open List

variable {jid : Jid} {id : MsgId} {arr arr' : List Obj} {o x : Obj}

/-- Two messages of one list: an id that is not empty occurs once. -/
def Apart (a b : Obj) : Prop := a.msg.id = b.msg.id → a.msg.id = ""

instance : Std.Symm Apart := ⟨fun _ _ h he => he.trans (h he.symm)⟩

/-- A list that `messagesByChat` may hold under `jid`. -/
structure ListOK (jid : Jid) (arr : List Obj) : Prop where
  chat : ∀ o ∈ arr, o.msg.chatJid = jid
  ids : arr.Pairwise Apart

namespace ListOK

theorem nil : ListOK jid [] := ⟨by simp, List.Pairwise.nil⟩

theorem sublist (h : ListOK jid arr) (hs : arr'.Sublist arr) : ListOK jid arr' :=
  ⟨fun o ho => h.chat o (hs.subset ho), h.ids.sublist hs⟩

theorem perm (h : ListOK jid arr) (hp : arr.Perm arr') : ListOK jid arr' := by
  exact ⟨fun o ho => h.chat o (hp.mem_iff.2 ho), (hp.pairwise_iff symm).1 h.ids⟩

theorem eq_of_id (h : ListOK jid arr) (ho : o ∈ arr) (hx : x ∈ arr) (he : o.msg.id = x.msg.id)
    (hid : o.msg.id ≠ "") : o = x := by
  by_contra hne
  exact hid (h.ids.forall ho hx hne he)

end ListOK

/-! ## Looking up an id -/

theorem hasId_iff {arr : List Obj} {id : MsgId} : hasId arr id = true ↔ ∃ o ∈ arr, o.msg.id = id := by
  simp [hasId]

theorem hasId_eq (arr : List Obj) (id : MsgId) : hasId arr id = (findId arr id).isSome := by
  rw [Bool.eq_iff_iff, findId, find?_isSome]
  simp [hasId]

theorem findId_id (h : findId arr id = some o) : o.msg.id = id := by
  simpa using find?_some h

theorem findId_mem (h : findId arr id = some o) : o ∈ arr := mem_of_find?_eq_some h

theorem findId_eq_none : findId arr id = none ↔ ∀ o ∈ arr, o.msg.id ≠ id := by
  simp [findId]

theorem findId_eq_some (h : ListOK jid arr) (hid : id ≠ "") :
    findId arr id = some o ↔ o ∈ arr ∧ o.msg.id = id := by
  refine ⟨fun hf => ⟨findId_mem hf, findId_id hf⟩, fun ⟨ho, hi⟩ => ?_⟩
  cases hf : findId arr id with
  | none => exact absurd hi (findId_eq_none.1 hf o ho)
  | some =>
    have hx := findId_id hf
    rw [h.eq_of_id (findId_mem hf) ho (hx.trans hi.symm) (hx ▸ hid)]

theorem findId_perm (h : ListOK jid arr) (hid : id ≠ "") (hp : arr.Perm arr') :
    findId arr' id = findId arr id := by
  ext o
  rw [findId_eq_some h hid, findId_eq_some (h.perm hp) hid, hp.mem_iff]

theorem findId_sublist (h : ListOK jid arr) (hid : id ≠ "") (hs : arr'.Sublist arr) :
    findId arr' id = findId arr id ∨ findId arr' id = none := by
  cases hf : findId arr' id with
  | none => exact .inr rfl
  | some =>
    refine .inl ((findId_eq_some h hid).2 ⟨hs.subset (findId_mem hf), findId_id hf⟩).symm

theorem findId_append (arr arr' : List Obj) (id : MsgId) :
    findId (arr ++ arr') id = (findId arr id).or (findId arr' id) := find?_append

theorem findId_cons (o : Obj) (arr : List Obj) (id : MsgId) :
    findId (o :: arr) id = if o.msg.id = id then some o else findId arr id := by
  by_cases h : o.msg.id = id <;> simp [findId, h]

theorem findId_singleton (o : Obj) (id : MsgId) :
    findId [o] id = if o.msg.id = id then some o else none := findId_cons o [] id

theorem ListOK.append (h : ListOK jid arr) (hc : o.msg.chatJid = jid)
    (hid : o.msg.id = "" ∨ findId arr o.msg.id = none) : ListOK jid (arr ++ [o]) := by
  refine ⟨fun x hx => ?_, pairwise_append.2 ⟨h.ids, pairwise_singleton _ _, ?_⟩⟩
  · rcases mem_append.1 hx with hx | hx
    · exact h.chat x hx
    · rwa [mem_singleton.1 hx]
  · intro a ha b hb he
    rw [mem_singleton.1 hb] at he
    rcases hid with hid | hid
    · exact he.trans hid
    · exact absurd he (findId_eq_none.1 hid a ha)

/-! ## Replacing one message -/

/-- `o` can stand where `x` stood: it keeps the id, or brings one that is not there. -/
def FitsFor (arr : List Obj) (x o : Obj) : Prop :=
  o.msg.id = x.msg.id ∨ o.msg.id = "" ∨ findId arr o.msg.id = none

section

variable {pre post : List Obj}

theorem ListOK.split (h : ListOK jid (pre ++ x :: post)) :
    (∀ y ∈ pre, y.msg.id = x.msg.id → x.msg.id = "") ∧
      (∀ y ∈ post, x.msg.id = y.msg.id → x.msg.id = "") := by
  obtain ⟨_, hp, hd⟩ := pairwise_append.1 h.ids
  exact ⟨fun y hy he => he ▸ hd y hy x mem_cons_self he, (pairwise_cons.1 hp).1⟩

theorem ListOK.replace (h : ListOK jid (pre ++ x :: post)) (hc : o.msg.chatJid = jid)
    (hf : FitsFor (pre ++ x :: post) x o) : ListOK jid (pre ++ o :: post) := by
  obtain ⟨h1, h2, h3⟩ := pairwise_append.1 h.ids
  have hmem : ∀ y, y ∈ pre ∨ y ∈ post → y.msg.id = o.msg.id → o.msg.id = "" := by
    intro y hy he
    rcases hf with hf | hf | hf
    · rw [hf] at he ⊢
      rcases hy with hy | hy
      · exact h.split.1 y hy he
      · exact h.split.2 y hy he.symm
    · exact hf
    · refine absurd he (findId_eq_none.1 hf y ?_)
      rcases hy with hy | hy <;> simp [hy]
  refine ⟨fun y hy => ?_, pairwise_append.2 ⟨h1, pairwise_cons.2 ⟨?_, ?_⟩, ?_⟩⟩
  · rcases mem_append.1 hy with hy | hy
    · exact h.chat y (by simp [hy])
    · rcases mem_cons.1 hy with rfl | hy
      · exact hc
      · exact h.chat y (by simp [hy])
  · exact fun y hy he => hmem y (.inr hy) he.symm
  · exact (pairwise_cons.1 h2).2
  · intro y hy z hz he
    rcases mem_cons.1 hz with rfl | hz
    · rw [he]; exact hmem y (.inl hy) he
    · exact h3 y hy z (mem_cons_of_mem _ hz) he

theorem ListOK.findId_middle (h : ListOK jid (pre ++ x :: post))
    (hf : FitsFor (pre ++ x :: post) x o) (hid : id ≠ "") :
    findId (pre ++ o :: post) id =
      if o.msg.id = id then some o else if x.msg.id = id then none else findId (pre ++ x :: post) id := by
  simp only [findId_append, findId_cons]
  obtain ⟨hpre, hpost⟩ := h.split
  by_cases ho : o.msg.id = id
  · have : findId pre id = none := findId_eq_none.2 fun y hy he => by
      rcases hf with hf | hf | hf
      · exact hid ((hf.symm.trans ho) ▸ hpre y hy (by rw [he, ← ho, hf]))
      · exact hid (ho.symm.trans hf)
      · exact findId_eq_none.1 hf y (by simp [hy]) (he.trans ho.symm)
    simp [this, ho]
  · by_cases hx : x.msg.id = id
    · have h1 : findId pre id = none :=
        findId_eq_none.2 fun y hy he => hid (hx ▸ hpre y hy (he.trans hx.symm))
      have h2 : findId post id = none :=
        findId_eq_none.2 fun y hy he => hid (hx ▸ hpost y hy (hx.trans he.symm))
      simp [ho, hx, h1, h2]
    · simp [ho, hx]

end

variable {p : Obj → Bool}

theorem ListOK.replaceFirst (h : ListOK jid arr) (hx : arr.find? p = some x)
    (hc : o.msg.chatJid = jid) (hf : FitsFor arr x o) : ListOK jid (replaceFirst p o arr) := by
  obtain ⟨pre, post, rfl, hr⟩ := replaceFirst_of_find hx
  rw [hr]; exact h.replace hc hf

theorem findId_replaceFirst (h : ListOK jid arr) (hx : arr.find? p = some x)
    (hf : FitsFor arr x o) (hid : id ≠ "") :
    findId (replaceFirst p o arr) id =
      if o.msg.id = id then some o else if x.msg.id = id then none else findId arr id := by
  obtain ⟨pre, post, rfl, hr⟩ := replaceFirst_of_find hx
  rw [hr]; exact h.findId_middle hf hid

/-- Replacing a message by one with the same id. -/
theorem findId_replaceId (h : ListOK jid arr) {id' : MsgId} (hx : findId arr id' = some x)
    (ho : o.msg.id = id') (hid : id ≠ "") :
    findId (replaceId arr id' o) id = if id' = id then some o else findId arr id := by
  have hx' := findId_id hx
  rw [replaceId, findId_replaceFirst h hx (.inl (ho.trans hx'.symm)) hid, ho, hx']
  split <;> rfl

theorem ListOK.replaceId (h : ListOK jid arr) {id' : MsgId} (hx : findId arr id' = some x)
    (ho : o.msg.id = id') (hc : o.msg.chatJid = jid) : ListOK jid (replaceId arr id' o) :=
  h.replaceFirst hx hc (.inl (ho.trans (findId_id hx).symm))

/-! ## Publishing a list -/

theorem sortByTime_perm (arr : List Obj) : (sortByTime arr).Perm arr := perm_insertionSort _ arr

variable {w : World} {jid' : Jid}

/-- What `commit` publishes. -/
def committed (w : World) (jid : Jid) (arr : List Obj) : List Obj :=
  if trims w jid arr then lastN RESIDENT_TAIL (sortByTime arr) else sortByTime arr

theorem messagesFor_update (b : Jid → Option (List Obj)) (l : Option (List Obj)) :
    (Function.update b jid l jid').getD [] = if jid' = jid then l.getD [] else (b jid').getD [] := by
  by_cases h : jid' = jid <;> simp [h]

theorem messagesFor_setList :
    messagesFor (w.setList jid arr) jid' = if jid' = jid then arr else messagesFor w jid' :=
  messagesFor_update w.byChat (some arr)

theorem messagesFor_commit : messagesFor (commit w jid arr) jid' =
    if jid' = jid then committed w jid arr else messagesFor w jid' :=
  messagesFor_update w.byChat _

/-- The published list is short, unless the chat is open. -/
theorem length_committed (w : World) (jid : Jid) (arr : List Obj) :
    w.activeJid = some jid ∨ (committed w jid arr).length ≤ RESIDENT_TAIL := by
  by_cases ha : w.activeJid = some jid
  · exact .inl ha
  · refine .inr ?_
    unfold committed
    split
    · rw [length_lastN]
      omega
    · rename_i ht
      have hlen : arr.length ≤ RESIDENT_TAIL := by simpa [trims, ha] using ht
      rwa [(sortByTime_perm arr).length_eq]

/-- The published list holds messages of `arr` only, sorted by time. -/
theorem committed_sublist (w : World) (jid : Jid) (arr : List Obj) :
    (committed w jid arr).Sublist (sortByTime arr) := by
  unfold committed
  split
  · exact lastN_sublist _ _
  · exact List.Sublist.refl _

/-- A message of the list is published as it is or trimmed away. -/
theorem findId_committed (h : ListOK jid arr) (hid : id ≠ "") :
    findId (committed w jid arr) id = findId arr id ∨ findId (committed w jid arr) id = none := by
  rw [← findId_perm h hid (sortByTime_perm arr).symm]
  exact findId_sublist (h.perm (sortByTime_perm arr).symm) hid (committed_sublist w jid arr)

/-! ## Loops that rewrite some messages -/

/-- `arr'` is `arr` with the messages `written` in the place of those they rewrite. -/
inductive Sweeps (R : UiMessage → UiMessage → Prop) : List Obj → List Obj → List Obj → Prop
  | nil : Sweeps R [] [] []
  | keep {arr arr' written : List Obj} (x : Obj) (h : Sweeps R arr arr' written) :
      Sweeps R (x :: arr) (x :: arr') written
  | write {arr arr' written : List Obj} (x o : Obj) (hr : R x.msg o.msg)
      (h : Sweeps R arr arr' written) : Sweeps R (x :: arr) (o :: arr') (o :: written)

theorem sweep_sweeps_inv {σ : Type} {g : σ → UiMessage → σ × Option UiMessage}
    {R : UiMessage → UiMessage → Prop} {I : σ → Prop} (hI : ∀ s m, I s → I (g s m).1)
    (hg : ∀ s m m', I s → (g s m).2 = some m' → R m m') :
    ∀ (arr : List Obj) (s : σ) (ref : ℕ), I s →
      Sweeps R arr (sweep g s ref arr).arr (sweep g s ref arr).written := by
  intro arr
  induction arr with
  | nil => intro s ref _; exact .nil
  | cons x arr ih =>
    intro s ref hs
    have hs' := hI s x.msg hs
    simp only [sweep]
    split
    · rename_i h
      exact .write x _ (hg s x.msg _ hs (by rw [h])) (ih _ _ (by rwa [h] at hs'))
    · rename_i h
      exact .keep x (ih _ _ (by rwa [h] at hs'))

theorem sweep_sweeps {σ : Type} {g : σ → UiMessage → σ × Option UiMessage}
    {R : UiMessage → UiMessage → Prop} (hg : ∀ s m m', (g s m).2 = some m' → R m m')
    (arr : List Obj) (s : σ) (ref : ℕ) : Sweeps R arr (sweep g s ref arr).arr (sweep g s ref arr).written :=
  sweep_sweeps_inv (I := fun _ => True) (fun _ _ _ => trivial) (fun s m m' _ => hg s m m') arr s ref
    trivial

namespace Sweeps

variable {R : UiMessage → UiMessage → Prop} {written : List Obj}

theorem eq_of_nil (h : Sweeps R arr arr' []) : arr' = arr := by
  generalize hw : ([] : List Obj) = written at h
  induction h with
  | nil => rfl
  | keep x _ ih => rw [ih hw]
  | write => cases hw

theorem sublist (h : Sweeps R arr arr' written) : written.Sublist arr' := by
  induction h with
  | nil => exact .slnil
  | keep x _ ih => exact .cons x ih
  | write x o _ _ ih => exact .cons_cons o ih

section

variable (hR : ∀ m m', R m m' → m'.key = m.key)
include hR

theorem map_key (h : Sweeps R arr arr' written) : arr'.map Obj.key = arr.map Obj.key := by
  induction h with
  | nil => rfl
  | keep x _ ih => simp [ih]
  | write x o hr _ ih => simp [ih, Obj.key, hR _ _ hr]

theorem mem_key (h : Sweeps R arr arr' written) (ho : o ∈ arr') : ∃ x ∈ arr, x.key = o.key := by
  have := mem_map_of_mem (f := Obj.key) ho
  rw [h.map_key hR] at this
  exact mem_map.1 this

theorem listOK (h : Sweeps R arr arr' written) (hok : ListOK jid arr) : ListOK jid arr' := by
  refine ⟨fun o ho => ?_, ?_⟩
  · obtain ⟨x, hx, hk⟩ := h.mem_key hR ho
    rw [← hok.chat x hx]; exact (congrArg Key.chatJid hk).symm
  · have h1 : (arr.map Obj.key).Pairwise (fun a b => a.id = b.id → a.id = "") := pairwise_map.2 hok.ids
    rwa [← h.map_key hR, pairwise_map] at h1

/-- **A loop rewrites the message or leaves it alone.** -/
theorem find (h : Sweeps R arr arr' written) (hok : ListOK jid arr) (hid : id ≠ "") :
    (findId arr' id = findId arr id ∧ ∀ o ∈ written, o.msg.id ≠ id) ∨
      ∃ x o, findId arr id = some x ∧ findId arr' id = some o ∧ o ∈ written ∧ R x.msg o.msg := by
  have hok' := h.listOK hR hok
  induction h with
  | nil => exact .inl ⟨rfl, by simp⟩
  | @keep arr arr' written x h ih =>
    have htail := hok.sublist (sublist_cons_self x arr)
    have hpre := pairwise_cons.1 hok.ids
    simp only [findId_cons]
    by_cases hx : x.msg.id = id
    · refine .inl ⟨by simp [hx], fun o ho he => ?_⟩
      obtain ⟨y, hy, hk⟩ := h.mem_key hR (h.sublist.subset ho)
      exact hid (hx ▸ hpre.1 y hy (hx.trans (he.symm.trans (congrArg Key.id hk).symm)))
    · simpa only [hx, if_false] using ih htail (hok'.sublist (sublist_cons_self x arr'))
  | @write arr arr' written x o hr h ih =>
    have htail := hok.sublist (sublist_cons_self x arr)
    have hio : o.msg.id = x.msg.id := congrArg Key.id (hR _ _ hr)
    simp only [findId_cons, hio]
    by_cases hx : x.msg.id = id
    · exact .inr ⟨x, o, by simp [hx], by simp [hx], mem_cons_self, hr⟩
    · rcases ih htail (hok'.sublist (sublist_cons_self o arr')) with ⟨h1, h2⟩ | ⟨y, z, h1, h2, h3, h4⟩
      · refine .inl ⟨by simp [hx, h1], fun y hy => ?_⟩
        rcases mem_cons.1 hy with rfl | hy
        · rwa [hio]
        · exact h2 y hy
      · exact .inr ⟨y, z, by simp [hx, h1], by simp [hx, h2], mem_cons_of_mem _ h3, h4⟩

end

end Sweeps

end Whatsvelte
