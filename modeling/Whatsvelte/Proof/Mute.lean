import Whatsvelte.Proof.Acts
import Whatsvelte.Proof.Advance

/-!
# What leaves the early receipts alone

`earlyReceipts` keeps receipts for ids that are not known yet. It is filled when the lookup of a
receipt finds nothing, and read by `confirmOptimistic`. `Mute id w v`: from `w` to `v` the entry
of `id` stays as it is, as long as the map has room, and no lookup for `id` is started.

`mute_step`: this is so for every synchronous step that carries no receipt for `id` and is no
confirm of `id`.
-/

namespace Whatsvelte

open List Table

variable {w v u : World} {k : Key} {id : MsgId} {e : Step}

/-- The lookup of a receipt for a message that is not resident, until its answer is known. -/
def Job.lookup : Job → Option (Key × MessageStatus)
  | .patch _ k _ _ (.early status) => some (k, status)
  | .patched k false (.early status) => some (k, status)
  | _ => none

/-- The early receipts are fewer than the map can hold. -/
def World.Roomy (w : World) : Prop := w.earlyReceipts.rows.length < EARLY_RECEIPTS_MAX

instance (w : World) : Decidable w.Roomy := inferInstanceAs (Decidable (_ < _))

/-- The job is no lookup of a receipt for `id`. -/
def Job.MuteFor (id : MsgId) (job : Job) : Prop := ∀ k s, job.lookup = some (k, s) → k.id ≠ id

/-- The early receipt of `id` stays, and no lookup for `id` is started. -/
structure Mute (id : MsgId) (w v : World) : Prop where
  roomy : v.Roomy → w.Roomy
  early : v.Roomy → v.earlyReceipts.get id = w.earlyReceipts.get id
  jobs : ∃ js, v.jobs = w.jobs ++ js ∧ ∀ j ∈ js, j.MuteFor id

/-- A map that has room keeps what is remembered, unless what it holds is as high. -/
theorem remembered {s : MessageStatus} (hr : (rememberEarlyReceipt w id s).Roomy) :
    w.Roomy ∧
      (∀ i, i ≠ id → (rememberEarlyReceipt w id s).earlyReceipts.get i = w.earlyReceipts.get i) ∧
      ((∃ r, w.earlyReceipts.get id = some r ∧ s.rank ≤ r.2.rank ∧
          (rememberEarlyReceipt w id s).earlyReceipts.get id = some r) ∨
        (∀ r ∈ w.earlyReceipts.get id, r.2.rank ≤ s.rank) ∧
          (rememberEarlyReceipt w id s).earlyReceipts.get id = some (id, s)) := by
  have hbounded : ∀ t : Table (Prod.fst : MsgId × MessageStatus → MsgId),
      (rememberEarlyReceipt.bounded t).rows.length < EARLY_RECEIPTS_MAX →
        rememberEarlyReceipt.bounded t = t := by
    intro t ht
    unfold rememberEarlyReceipt.bounded at ht ⊢
    split
    · rename_i hfull
      rw [if_pos hfull, Table.drop, length_drop] at ht
      omega
    · rfl
  unfold rememberEarlyReceipt at hr ⊢
  cases hg : w.earlyReceipts.get id with
  | none =>
    simp only [hg] at hr ⊢
    have hb := hbounded _ hr
    rw [World.Roomy, hb, length_set_of_none hg] at hr
    rw [hb]
    refine ⟨Nat.lt_of_succ_lt hr, fun i hi => ?_, .inr ⟨by rintro r ⟨⟩, ?_⟩⟩
    · rw [get_set, if_neg (Ne.symm hi)]
    · rw [get_set, if_pos rfl]
  | some row =>
    obtain ⟨i, prev⟩ := row
    simp only [hg] at hr ⊢
    by_cases hle : prev.rank ≥ s.rank
    · rw [if_pos hle] at hr ⊢
      exact ⟨hr, fun _ _ => rfl, .inl ⟨_, rfl, hle, hg⟩⟩
    · rw [if_neg hle] at hr ⊢
      have hb := hbounded _ hr
      have herase : (w.earlyReceipts.erase id).get id = none := by rw [get_erase, if_pos rfl]
      rw [World.Roomy, hb, length_set_of_none herase] at hr
      rw [hb]
      refine ⟨Nat.lt_of_le_of_lt (length_le_erase _ id) hr, fun i hi => ?_, .inr ⟨?_, ?_⟩⟩
      · rw [get_set, if_neg (Ne.symm hi), get_erase, if_neg (Ne.symm hi)]
      · rintro r h
        cases h
        exact (not_le.1 hle).le
      · rw [get_set, if_pos rfl]

namespace Mute

theorem of_same (he : v.earlyReceipts = w.earlyReceipts) (ht : v.txq = w.txq) : Mute id w v := by
  refine ⟨fun h => ?_, fun _ => by rw [he], [], ?_, forall_mem_nil _⟩
  · rwa [World.Roomy, ← he]
  · rw [World.jobs, ht, append_nil, World.jobs]

theorem refl (w : World) : Mute id w w := .of_same rfl rfl

theorem trans (h : Mute id w v) (h' : Mute id v u) : Mute id w u := by
  obtain ⟨js, h1, h2⟩ := h.jobs
  obtain ⟨js', h1', h2'⟩ := h'.jobs
  refine ⟨fun hr => h.roomy (h'.roomy hr), fun hr => (h'.early hr).trans (h.early (h'.roomy hr)),
    js ++ js', by rw [h1', h1, append_assoc], fun j hj => ?_⟩
  rcases mem_append.1 hj with hj | hj
  · exact h2 j hj
  · exact h2' j hj

theorem after (h' : Mute id v u) (h : Mute id w v) : Mute id w u := h.trans h'

theorem ask (w : World) {job : Job} (h : job.MuteFor id) : Mute id w (w.enqueue job) :=
  ⟨fun h => h, fun _ => rfl, [job], jobs_enqueue w job, forall_mem_singleton.2 h⟩

theorem enqueue (w : World) (job : Job) (h : job.lookup = none) : Mute id w (w.enqueue job) :=
  .ask w fun _ _ hs => by rw [h] at hs; cases hs

/-- Another id takes a place of its own, or the map is full. -/
theorem rememberEarlyReceipt (w : World) {i : MsgId} (hi : i ≠ id) (status : MessageStatus) :
    Mute id w (rememberEarlyReceipt w i status) where
  roomy h := (remembered h).1
  early h := (remembered h).2.1 id hi.symm
  jobs := ⟨[], by rw [(Same.rememberEarlyReceipt ..).jobs, append_nil], forall_mem_nil _⟩

/-- What the message store does within a scope without the id. -/
theorem of_acts (h : Acts (.receipts (· ≠ id)) w v) : Mute id w v := by
  induction h with
  | refl => exact .refl w
  | tail _ ha ih =>
    refine ih.trans ?_
    cases ha with
    | adopt | page => exact .enqueue _ _ rfl
    | patch k fn hq hf hi =>
      refine .ask _ fun k' s hs => ?_
      rename_i after
      cases after with
      | early =>
        cases hs
        exact hi s rfl
      | _ => cases hs
    | early h status => exact .rememberEarlyReceipt _ h status
    | _ => exact .of_same rfl rfl

theorem addHistoryMessages (w : World) (list : List Obj) (persist : Bool) :
    Mute id w (addHistoryMessages w list persist) :=
  .of_acts (acts_addHistoryMessages w persist fun _ _ => ⟨trivial, trivial, fun _ => trivial⟩)

/-- The lookups of a receipt for other ids. -/
theorem lookups (w : World) (jid : Jid) {ids : List MsgId} (status : MessageStatus) (h : id ∉ ids) :
    Mute id w (ids.foldl (fun w i => Whatsvelte.patchThen w ⟨jid, i⟩ (.receipt status) (.early status)) w) :=
  .of_acts (acts_lookups w jid status fun _ hi he => h (he ▸ hi))

theorem of_chats (h : ChatsOnly w v) : Mute id w v := by
  obtain ⟨c, t, a, rfl⟩ := h
  exact .of_same rfl rfl

theorem applyMerge (w : World) (l p : Jid) : Mute id w (applyMerge w l p) := by
  have h1 : Mute id w (mergeMessages w l p) := by
    unfold mergeMessages
    dsimp only
    split <;> exact .of_same rfl rfl
  have h2 := h1.trans (.of_chats (.mergeChats _ l p))
  unfold Whatsvelte.applyMerge movePersistedChat
  split
  · exact .refl w
  · split
    · exact h2.trans (.of_same rfl rfl)
    · exact (h2.trans (Mute.trans (.of_same rfl rfl) (Mute.enqueue _ _ rfl))).trans (.of_same rfl rfl)

theorem of_learnt (h : Learnt w v) : Mute id w v := by
  obtain ⟨m, r, rfl⟩ := h
  exact .of_same rfl rfl

theorem unify (he : e.unifies = true) (h : ∀ d ∈ e.waited w, id ∉ d.messageIds) : Mute id w (w.step e) := by
  obtain ⟨w₁, w₃, h1, h3, hr⟩ := unify_learnt he
  have hmerged : Mute id w₁ (w₁.merged (e.merge w)) := by
    unfold World.merged
    split
    · exact .refl w₁
    · exact .applyMerge w₁ _ _
  refine ((Mute.of_learnt h1).trans (hmerged.trans (.of_learnt h3))).trans ?_
  rcases hr with hr | ⟨d, hd, hr⟩
  · rw [hr]; exact .refl w₃
  · rw [hr]; exact .of_acts (acts_applyReceipt w₃ _ _ fun _ hi he => h d hd (he ▸ hi))

end Mute

/-! ## Steps -/

/-- The ids that a receipt of the step names. -/
def Step.receipts (w : World) : Step → List MsgId
  | .applyReceipt _ ids _ => ids
  | e => (e.waited w).elim [] (·.messageIds)

/-- The real id that the step gives to a bubble. -/
def Step.confirms : Step → Option MsgId
  | .confirmOptimistic _ _ realId => some realId
  | _ => none

/-- **A synchronous step** without a receipt for the id leaves its early receipt alone. -/
theorem mute_step (he : e.sync = true) (hn : id ∉ e.receipts w) (hc : e.confirms = none) :
    Mute id w (w.step e) := by
  have hw : ∀ d ∈ e.waited w, id ∉ d.messageIds := by
    intro d hd hm
    refine hn ?_
    cases e with
    | unifyLid jid receipt =>
      change id ∈ ((Step.unifyLid jid receipt).waited w).elim [] (·.messageIds)
      rwa [show (Step.unifyLid jid receipt).waited w = some d from hd]
    | unifyLidDone jid pn =>
      change id ∈ ((Step.unifyLidDone jid pn).waited w).elim [] (·.messageIds)
      rwa [show (Step.unifyLidDone jid pn).waited w = some d from hd]
    | _ => cases hd
  have hwithin : e.Within (.receipts (· ≠ id)) w := by
    refine Step.within_of (fun _ => trivial) (fun _ _ => trivial) (fun _ => trivial) (fun _ _ => trivial)
      fun jid ids status h i hi hid => ?_
    subst h hid
    exact hn hi
  have hcall := calls_step he hwithin
  generalize hv : w.step e = v at hcall
  cases hcall with
  | store h => exact .of_acts h
  | read h jid n => exact (Mute.of_acts h).trans (.of_chats (.decrementUnread _ jid n))
  | confirm => cases hc
  | history => exact (Mute.addHistoryMessages _ _ _).after (.of_same rfl rfl)
  | chat op => exact .of_chats (.chat w op)
  | start h =>
    refine Mute.trans ?_ (.enqueue _ _ ?_)
    · exact .of_same rfl rfl
    · cases ‹Job› <;> first | rfl | cases h
  | flush => exact (Mute.enqueue _ _ rfl).after (.of_same rfl rfl)
  | unify h => exact .unify h hw
  | _ => exact .of_same rfl rfl

/-- A confirm of another id takes the early receipt of that one. -/
theorem mute_confirm (jid : Jid) (temp : MsgId) {realId : MsgId} (hne : realId ≠ id) :
    (confirmOptimistic w jid temp realId).earlyReceipts.get id = w.earlyReceipts.get id ∧
      (confirmOptimistic w jid temp realId).jobs = w.jobs := by
  rcases confirmOptimistic_cases w jid temp realId with ⟨-, hv⟩ | ⟨x, -, ⟨-, hv⟩ | ⟨-, hv⟩⟩
  · rw [hv]
    exact ⟨rfl, rfl⟩
  · rw [hv]
    exact ⟨rfl, rfl⟩
  · rw [hv]
    exact ⟨(get_erase _ _ _).trans (if_neg hne), rfl⟩

end Whatsvelte
