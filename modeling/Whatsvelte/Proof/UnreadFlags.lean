import Whatsvelte.Spec.Messages

/-!
# Unread flags

`applyUnreadFlags` counts the incoming messages from the newest on, and then rewrites the flags from the
oldest on. What it wants is a mask over the list (`newestMask`: incoming, with fewer than `n` incoming ones
after it); the sweep leaves the mask as the flags and everything else alone (`swept_setUnread`).

* **`unread_flags_exact`**: it flags the last `min n k` of the `k` incoming messages and no other, returns what
  it changed, and changes nothing the second time.
-/

namespace Whatsvelte

open List

variable {w : World} {jid : Jid} {o o' : Obj} {arr arr' : List Obj} {mask : List Bool} {n i ref : ℕ}

/-- `!!m.unread`. -/
def Obj.flagged (o : Obj) : Bool := o.msg.unread = some true

def Obj.incoming (o : Obj) : Bool := !o.msg.fromMe

/-! ## The messages that are to be flagged -/

/-- Which messages are to be flagged, oldest first: those with fewer than `n` incoming ones after them. -/
def newestMask (n : ℕ) : List Obj → List Bool
  | [] => []
  | o :: arr => (o.incoming && decide (arr.countP Obj.incoming < n)) :: newestMask n arr

theorem flagNewest_append (o : Obj) (arr : List Obj) : ∀ n,
    flagNewest n (arr ++ [o]) = flagNewest n arr ++ [o.incoming && decide (arr.countP Obj.incoming < n)] := by
  induction arr with
  | nil =>
    intro n
    rw [nil_append, flagNewest, flagNewest, flagNewest, flagNewest, countP_nil, Obj.incoming]
    cases !o.msg.fromMe && decide (0 < n) <;> rfl
  | cons a arr ih =>
    intro n
    rw [cons_append, flagNewest, flagNewest, countP_cons]
    by_cases ha : a.incoming = true
    · by_cases hn : 0 < n
      · have hlt : (arr.countP Obj.incoming < n - 1) = (arr.countP Obj.incoming + 1 < n) := by
          rw [eq_iff_iff]; omega
        have hc : (!a.msg.fromMe && decide (0 < n)) = true := by rwa [decide_eq_true hn, Bool.and_true]
        rw [if_pos hc, if_pos hc, ih, if_pos ha]
        simp only [hlt, cons_append]
      · have hn : n = 0 := by omega
        subst hn
        simp [ih]
    · have hc : ¬ (!a.msg.fromMe && decide (0 < n)) = true := by
        intro h
        exact ha (Bool.and_eq_true _ _ ▸ h).1
      rw [if_neg hc, if_neg hc, ih, if_neg ha]
      rfl

theorem flagNewest_reverse (n : ℕ) (arr : List Obj) : (flagNewest n arr.reverse).reverse = newestMask n arr := by
  induction arr with
  | nil => rfl
  | cons o arr ih =>
    rw [reverse_cons, flagNewest_append, reverse_append, ih, newestMask, countP_reverse]
    rfl

theorem length_newestMask (n : ℕ) (arr : List Obj) : (newestMask n arr).length = arr.length := by
  induction arr with
  | nil => rfl
  | cons o arr ih => rw [newestMask, length_cons, length_cons, ih]

theorem getElem?_newestMask (h : arr[i]? = some o) :
    (newestMask n arr)[i]? = some (o.incoming && decide ((arr.drop (i + 1)).countP Obj.incoming < n)) := by
  induction arr generalizing i with
  | nil => cases h
  | cons x arr ih =>
    cases i with
    | zero =>
      cases h
      rfl
    | succ => exact ih h

/-- The mask selects `n` messages, or all incoming ones. -/
theorem count_newestMask (n : ℕ) (arr : List Obj) :
    (newestMask n arr).count true = min n (arr.countP Obj.incoming) := by
  induction arr with
  | nil => simp [newestMask]
  | cons o arr ih =>
    rw [newestMask, count_cons, ih, countP_cons]
    by_cases ho : o.incoming = true
    · by_cases hlt : arr.countP Obj.incoming < n
      · simp only [ho, hlt, decide_true, Bool.and_self, beq_self_eq_true, if_true]
        omega
      · simp only [ho, hlt, decide_false, Bool.and_false, Bool.false_beq, Bool.not_true, if_true]
        rw [if_neg Bool.false_ne_true]
        omega
    · simp [ho]

/-- The mask depends on the senders only. -/
theorem newestMask_congr (h : arr'.map Obj.incoming = arr.map Obj.incoming) :
    newestMask n arr' = newestMask n arr := by
  induction arr generalizing arr' with
  | nil =>
    obtain rfl := map_eq_nil_iff.1 h
    rfl
  | cons o arr ih =>
    cases arr' with
    | nil => cases h
    | cons o' arr' =>
      obtain ⟨ho, hrest⟩ := List.cons.inj h
      have hcount : arr'.countP Obj.incoming = arr.countP Obj.incoming := by
        have := congrArg (List.countP id) hrest
        rwa [countP_map, countP_map] at this
      rw [newestMask, newestMask, ho, hcount, ih hrest]

/-! ## The sweep -/

theorem getD_unread (o : Obj) : o.msg.unread.getD false = o.flagged := by
  rcases h : o.msg.unread with _ | _ | _ <;> simp [Obj.flagged, h]

/-- A message and what the sweep made of it: the same object, or a new one with the other flag. -/
structure Reflagged (o o' : Obj) : Prop where
  same : o'.flagged = o.flagged → o' = o
  only : o'.msg = { o.msg with unread := o'.msg.unread }

theorem Reflagged.refl (o : Obj) : Reflagged o o := ⟨fun _ => rfl, rfl⟩

/-- **One sweep**: the flags are the mask, nothing else changes, and what changed is returned. -/
theorem swept_setUnread (hlen : mask.length = arr.length) (ref : ℕ) :
    let r := sweep setUnread mask ref arr
    r.arr.map Obj.flagged = mask ∧ List.Forall₂ Reflagged arr r.arr ∧
      r.written = ((arr.zip r.arr).filter fun p => p.1.flagged ≠ p.2.flagged).map Prod.snd := by
  induction arr generalizing mask ref with
  | nil =>
    obtain rfl := eq_nil_of_length_eq_zero hlen
    exact ⟨rfl, .nil, rfl⟩
  | cons o arr ih =>
    obtain ⟨b, mask, rfl⟩ : ∃ b t, mask = b :: t := exists_cons_of_length_eq_add_one hlen
    have hlen : mask.length = arr.length := Nat.succ.inj hlen
    intro r
    by_cases hb : o.flagged = b
    · -- the flag is right, and the object stays
      have hr : r = ⟨o :: (sweep setUnread mask ref arr).arr, (sweep setUnread mask ref arr).written,
          (sweep setUnread mask ref arr).state, (sweep setUnread mask ref arr).ref⟩ := by
        simp [r, sweep, setUnread, getD_unread, hb]
      obtain ⟨hmask, hall, hwritten⟩ := ih hlen ref
      rw [hr]
      refine ⟨?_, .cons (.refl o) hall, ?_⟩
      · rw [map_cons, hmask, hb]
      · rwa [zip_cons_cons, filter_cons_of_neg (by simp)]
    · have hr : r = ⟨⟨ref, { o.msg with unread := some b }⟩ :: (sweep setUnread mask (ref + 1) arr).arr,
          ⟨ref, { o.msg with unread := some b }⟩ :: (sweep setUnread mask (ref + 1) arr).written,
          (sweep setUnread mask (ref + 1) arr).state, (sweep setUnread mask (ref + 1) arr).ref⟩ := by
        simp [r, sweep, setUnread, getD_unread, hb]
      obtain ⟨hmask, hall, hwritten⟩ := ih hlen (ref + 1)
      have hnew : (⟨ref, { o.msg with unread := some b }⟩ : Obj).flagged = b := by
        simp [Obj.flagged]
      rw [hr]
      refine ⟨?_, .cons ⟨fun h => absurd (h.symm.trans hnew) hb, rfl⟩ hall, ?_⟩
      · rw [map_cons, hmask, hnew]
      · rw [zip_cons_cons, filter_cons_of_pos (by simpa [hnew] using hb), map_cons, ← hwritten]

theorem written_of_flagged (arr : List Obj) (ref : ℕ) :
    (sweep setUnread (arr.map Obj.flagged) ref arr).written = [] := by
  induction arr with
  | nil => rfl
  | cons o arr ih => simpa [sweep, setUnread, getD_unread] using ih

theorem map_incoming_of_reflagged (h : List.Forall₂ Reflagged arr arr') :
    arr'.map Obj.incoming = arr.map Obj.incoming := by
  induction h with
  | nil => rfl
  | cons ho _ ih => rw [map_cons, map_cons, ih, Obj.incoming, ho.only, Obj.incoming]

theorem applyUnreadFlags_eq (w : World) (jid : Jid) (arr : List Obj) : applyUnreadFlags w jid arr =
    sweep setUnread (newestMask ((w.chats.get jid).elim 0 (·.unread)) arr) w.nextRef arr := by
  rw [applyUnreadFlags, flagNewest_reverse]

/-- **Unread flagging is exact**: of `k` incoming messages the last `min n k` are flagged and nothing else is;
only flags change, what changed is returned, and a second call changes nothing. -/
theorem unread_flags_exact (w : World) (jid : Jid) (arr : List Obj) :
    let n := (w.chats.get jid).elim 0 (·.unread)
    let k := arr.countP Obj.incoming
    let r := applyUnreadFlags w jid arr
    r.arr.length = arr.length ∧
    (∀ i o o', arr[i]? = some o → r.arr[i]? = some o' →
      (o'.flagged = true ↔ o.incoming = true ∧ (arr.drop (i + 1)).countP Obj.incoming < min n k) ∧
      Reflagged o o') ∧
    r.arr.countP Obj.flagged = min n k ∧
    r.written = ((arr.zip r.arr).filter fun p => p.1.flagged ≠ p.2.flagged).map Prod.snd ∧
    ∀ v : World, v.chats = w.chats → (applyUnreadFlags v jid r.arr).written = [] := by
  intro n k r
  have hr : r = sweep setUnread (newestMask n arr) w.nextRef arr := applyUnreadFlags_eq w jid arr
  obtain ⟨hmask, hall, hwritten⟩ := swept_setUnread (length_newestMask n arr) w.nextRef
  rw [← hr] at hmask hall hwritten
  refine ⟨hall.length_eq.symm, fun i o o' ho ho' => ⟨?_, ?_⟩, ?_, hwritten, fun v hv => ?_⟩
  · have hflag := congrArg (·[i]?) hmask
    simp only [List.getElem?_map, ho', Option.map_some, getElem?_newestMask ho, Option.some_inj] at hflag
    rw [hflag, Bool.and_eq_true, decide_eq_true_eq]
    refine and_congr_right fun hin => ?_
    -- an incoming message after which there were `k` more would be one too many
    have hlt : (arr.drop (i + 1)).countP Obj.incoming < k := by
      have hsplit := List.take_append_drop i arr
      rw [List.drop_eq_getElem?_toList_append, ho] at hsplit
      have hcount := congrArg (List.countP Obj.incoming) hsplit
      simp only [List.countP_append, Option.toList_some, List.countP_singleton, hin, if_true] at hcount
      omega
    omega
  · obtain ⟨hi, rfl⟩ := List.getElem?_eq_some_iff.1 ho
    obtain ⟨hi', rfl⟩ := List.getElem?_eq_some_iff.1 ho'
    exact hall.get hi hi'
  · rw [← count_newestMask, ← hmask, List.count, List.countP_map]
    congr 1
    funext o
    simp
  · have hsame : newestMask n r.arr = r.arr.map Obj.flagged := by
      rw [newestMask_congr (map_incoming_of_reflagged hall), hmask]
    rw [applyUnreadFlags_eq, hv, hsame, written_of_flagged]

end Whatsvelte
