import Whatsvelte.Proof.BothCopies
import Whatsvelte.Proof.Invariant

/-!
# Updates of a message record

The record of a message is rewritten as a whole from memory when the message is
resident, and read, patched and written back when it is not. `Core` is what receipts,
edits, reactions and revokes are about, with their meaning on it; `Tracks k c w` says
that the effective record, and the resident copy if there is one, hold the core `c`.

`updates_reflected`: in every run whose steps are safe for the message, the stored
record ends up with every update of the run applied, in order, and with the last read mark that no
other code overrules. `update_lost` is a run
that loses one: a page brings back the insert that a patch left in the queue.
-/

namespace Whatsvelte

open List

variable {w v : World} {k : Key} {e : Step} {o : Obj} {m m' : UiMessage} {fn : Patch}
variable {c : Core}

/-! ## What updates are about -/

/-- The part of a message that updates change. -/
structure Core where
  status : Option MessageStatus
  text : Option String
  editedAt : Option ℤ
  reactions : Option StrMap
  deleted : Bool
  deriving DecidableEq

def UiMessage.core (m : UiMessage) : Core :=
  ⟨m.status, m.text, m.editedAt, m.reactions, m.deleted⟩

/-- The meaning of an update: a receipt only raises the status, an edit sets the text, a
reaction replaces the one of its reactor, a revoke leaves nothing to read. -/
def Core.apply (c : Core) : Patch → Core
  | .revoke => { c with deleted := true, text := none, reactions := none }
  | .edit text editedAt => { c with text := text, editedAt := some editedAt }
  | .reaction reactor emoji =>
    let reactions := c.reactions.getD .empty
    { c with reactions := some <|
      if emoji ≠ "" then reactions.set (reactor, emoji) else reactions.erase reactor }
  | .receipt status =>
    if status.rank > (c.status.getD .sent).rank then { c with status := some status } else c

theorem core_of_apply (h : fn.apply m = some m') : m'.core = m.core.apply fn := by
  cases fn with
  | revoke | edit | reaction => cases h; rfl
  | receipt =>
    simp only [Patch.apply] at h
    split at h
    · rename_i hr
      cases h
      exact (if_pos hr).symm
    · cases h

theorem core_of_no_apply (h : fn.apply m = none) : m.core.apply fn = m.core := by
  cases fn with
  | revoke | edit | reaction => cases h
  | receipt =>
    simp only [Patch.apply] at h
    split at h
    · cases h
    · rename_i hr
      exact if_neg hr

/-- A receipt never lowers the status, and no other update touches it. -/
theorem rank_le_apply (c : Core) (fn : Patch) :
    (c.status.getD .sent).rank ≤ ((c.apply fn).status.getD .sent).rank := by
  cases fn with
  | receipt =>
    simp only [Core.apply]
    split
    · rename_i hr; exact hr.le
    · exact le_rfl
  | _ => exact le_rfl

theorem rank_le_foldl (fns : List Patch) (c : Core) :
    (c.status.getD .sent).rank ≤ ((fns.foldl Core.apply c).status.getD .sent).rank := by
  induction fns generalizing c with
  | nil => exact le_rfl
  | cons fn fns ih => exact (rank_le_apply c fn).trans (ih _)

/-- The status is as high as every receipt. -/
theorem receipt_le_foldl {fns : List Patch} {status : MessageStatus} (c : Core)
    (h : Patch.receipt status ∈ fns) : status.rank ≤ ((fns.foldl Core.apply c).status.getD .sent).rank := by
  induction fns generalizing c with
  | nil => cases h
  | cons fn fns ih =>
    rcases mem_cons.1 h with rfl | h
    · refine le_trans ?_ (rank_le_foldl fns _)
      simp only [Core.apply]
      split
      · exact le_rfl
      · rename_i hr; exact not_lt.1 hr
    · exact ih _ h

theorem deleted_foldl (fns : List Patch) (c : Core) (h : c.deleted = true) :
    (fns.foldl Core.apply c).deleted = true := by
  induction fns generalizing c with
  | nil => exact h
  | cons fn fns ih =>
    refine ih _ ?_
    cases fn with
    | revoke => rfl
    | edit | reaction => exact h
    | receipt =>
      simp only [Core.apply]
      split <;> exact h

/-- A revoked message stays revoked. -/
theorem deleted_of_revoked {fns : List Patch} (c : Core) (h : Patch.revoke ∈ fns) :
    (fns.foldl Core.apply c).deleted = true := by
  induction fns generalizing c with
  | nil => cases h
  | cons fn fns ih =>
    rcases mem_cons.1 h with rfl | h
    · exact deleted_foldl fns _ rfl
    · exact ih _ h

/-! ## Updates and the filter of the write queue -/

/-- An edit that leaves the message without a text. -/
def Patch.blanks : Patch → Bool
  | .edit text _ => !truthy text
  | _ => false

theorem persistable_of (h : persistable m = true) (hid : m'.id = m.id) (hc : m'.chatJid = m.chatJid)
    (hs : m'.status ≠ some .sending) (hb : isBlankMessage m' = false) : persistable m' = true := by
  rw [persistable_iff] at h ⊢
  rw [hid, hc]
  exact ⟨h.1, h.2.1, h.2.2.1, hs, hb⟩

/-- An update keeps a message persistable, unless it is an edit to nothing. -/
theorem persistable_apply (hp : persistable m = true) (hb : fn.blanks = false)
    (h : fn.apply m = some m') : persistable m' = true := by
  have hs := status_of_persistable hp
  have hn := blank_of_persistable hp
  cases fn with
  | revoke =>
    cases h
    exact persistable_of hp rfl rfl hs (by simp [isBlankMessage])
  | edit text =>
    cases h
    have ht : truthy text = true := by simpa [Patch.blanks] using hb
    exact persistable_of hp rfl rfl hs (by simp [isBlankMessage, ht])
  | reaction =>
    cases h
    exact persistable_of hp rfl rfl hs hn
  | receipt =>
    simp only [Patch.apply] at h
    split at h
    · rename_i hr
      cases h
      refine persistable_of hp rfl rfl ?_ hn
      rintro h
      cases h
      exact absurd hr (Nat.not_lt_zero _)
    · cases h

/-- A message that takes over missing media stays persistable. -/
theorem persistable_media {media : Option MediaDto} {thumbnail : Option String}
    (hp : persistable m = true) (hm : m.media.isSome = true → media.isSome = true)
    (ht : media.isSome = true ∨ (truthy m.thumbnail = true → truthy thumbnail = true)) :
    persistable { m with media := media, thumbnail := thumbnail } = true := by
  have hs := status_of_persistable hp
  refine persistable_of hp rfl rfl hs ?_
  have hn := blank_of_persistable hp
  simp only [isBlankMessage] at hn ⊢
  cases media with
  | some => simp
  | none =>
    have hmn : m.media = none := by
      cases hmm : m.media with
      | none => rfl
      | some => rw [hmm] at hm; exact absurd (hm rfl) (by simp)
    have ht : truthy m.thumbnail = true → truthy thumbnail = true := ht.resolve_left (by simp)
    cases htt : truthy m.thumbnail with
    | true => simp [ht htt]
    | false =>
      rw [hmn, htt] at hn
      by_contra hne
      simp_all

theorem persistable_adopted {s fresh : UiMessage} (hp : persistable s = true) :
    persistable (adopted s fresh) = true := by
  refine persistable_media hp (fun h => by simp [h]) (.inr fun h => ?_)
  cases ht : s.thumbnail with
  | none => rw [ht] at h; cases h
  | some => rwa [ht] at h

/-! ## Following one message -/

/-- The message is to be persisted and holds the core `c`. -/
def Holds (c : Core) (m : UiMessage) : Prop := persistable m = true ∧ m.core = c

/-- Both copies of `k` hold the core `c`. -/
def Tracks (k : Key) (c : Core) (w : World) : Prop := Both (Holds c) k w

theorem tracks_record (hp : persistable m = true) (hm : w.eff m.key = some m)
    (hres : ∀ o, (w.slot m.key).resident = some o → o.msg = m) : Tracks m.key m.core w :=
  ⟨⟨m, hm, hp, rfl⟩, fun o ho => .inl (by rw [hres o ho]; exact ⟨hp, rfl⟩)⟩

theorem Holds.apply (h : Holds c m) (hb : fn.blanks = false) (ha : fn.apply m = some m') :
    Holds (c.apply fn) m' :=
  ⟨persistable_apply h.1 hb ha, by rw [core_of_apply ha, h.2]⟩

theorem lasting_holds (c : Core) : Lasting (Holds c) where
  media _ _ _ hm h := ⟨persistable_media h.1 (fun _ => hm) (.inl hm), h.2⟩
  adopted _ _ h := ⟨persistable_adopted h.1, h.2⟩

/-! ## When an update is safe -/

/-- The step loses no update of `k`. -/
abbrev UpdateSafe (k : Key) (w : World) (e : Step) : Prop :=
  e.Guarded (MoveSafe k w ∧ Step.advance.plants w ≠ some k)
    (StepSafe k w e ∧ ∀ fn ∈ e.update k, fn.blanks = false)

/-! ## One step -/

/-- The core after a step. -/
def Core.after (c : Core) (fn : Option Patch) : Core := fn.elim c c.apply

theorem tracks_updated {f : Option Fallback} (ht : Tracks k c w)
    (hr : ∀ o, (w.slot k).resident = some o → Holds c o.msg) (hb : fn.blanks = false)
    (hu : Updated fn f k w v) : Tracks k (c.apply fn) v := by
  refine both_updated ht hr (fun m m' hm ha => hm.apply hb ha) (fun x m hx hn hm => ⟨hm.1, ?_⟩)
    (fun x m m' hx ha _ => .inl (hx.apply hb ha).1) hu
  rw [hm.2, ← hx.2, core_of_no_apply hn]

theorem tracks_sync (h : w.Wf) (hid : k.id ≠ "") (htmp : isTmp k.id = false)
    (he : e.sync = true) (ht : Tracks k c w) (hs : StepSafe k w e)
    (hb : ∀ fn ∈ e.update k, fn.blanks = false) : Tracks k (c.after (e.update k)) (w.step e) := by
  cases hu : e.update k with
  | none =>
    exact both_sync (fun _ _ _ hm => hm) (fun _ _ _ => lasting_holds c) h hid htmp he hu ht hs
  | some fn =>
    exact tracks_updated ht (ht.of_update hs hu) (hb fn hu) (updated_step h hid hu)

/-- **One safe step** applies the update it carries, and no other. -/
theorem tracks_step (hid : k.id ≠ "") (htmp : isTmp k.id = false) (h : Sound w)
    (ht : Tracks k c w) (hs : UpdateSafe k w e) :
    Sound (w.step e) ∧ Tracks k (c.after (e.update k)) (w.step e) := by
  refine ⟨sound_step h hs.ordinary, ?_⟩
  by_cases he : e.sync = true
  · exact tracks_sync h.wf hid htmp he ht (hs.sync he).1 (hs.sync he).2
  rw [update_of_async he]
  rcases (ordinary_cases h hs.ordinary).resolve_left he with rfl | rfl | hw
  · exact both_openNext h ht
  · exact both_advance (fun _ _ _ hm => hm) (lasting_holds c).adopted h hid ht hs.1
      fun hp => absurd hp hs.2
  · rwa [hw]

/-- The updates of `k` in a run. -/
def updatesOf (k : Key) (es : List Step) : List Patch := es.filterMap (·.update k)

theorem updatesOf_cons (e : Step) (es : List Step) :
    updatesOf k (e :: es) = (e.update k).toList ++ updatesOf k es := by
  unfold updatesOf
  cases hu : e.update k with
  | none => rw [filterMap_cons_none hu]; rfl
  | some => rw [filterMap_cons_some hu]; rfl

/-- A run, each step of which applies the update it carries and no other. -/
theorem tracks_along {P : World → Step → Prop} {es : List Step}
    (hstep : ∀ (w : World) (c : Core) (e : Step), Sound w → Tracks k c w → P w e →
      Sound (w.step e) ∧ Tracks k (c.after (e.update k)) (w.step e))
    (h : Sound w) (ht : Tracks k c w) (ha : Along World.step P w es) :
    Sound (w.run es) ∧ Tracks k ((updatesOf k es).foldl Core.apply c) (w.run es) := by
  induction es generalizing w c with
  | nil => exact ⟨h, ht⟩
  | cons e es ih =>
    obtain ⟨h1, h2⟩ := hstep w c e h ht ha.1
    have := ih h1 h2 ha.2
    unfold updatesOf at this ⊢
    cases hu : e.update k with
    | none => rw [hu] at this; rwa [filterMap_cons_none hu]
    | some => rw [hu] at this; rwa [filterMap_cons_some hu]

theorem tracks_run (hid : k.id ≠ "") (htmp : isTmp k.id = false) {es : List Step}
    (h : Sound w) (ht : Tracks k c w) (ha : Along World.step (UpdateSafe k) w es) :
    Sound (w.run es) ∧ Tracks k ((updatesOf k es).foldl Core.apply c) (w.run es) :=
  tracks_along (fun _ _ _ h ht hs => tracks_step hid htmp h ht hs) h ht ha

/-! ## Read marks -/

/-- The message is marked read. -/
def IsRead (m : UiMessage) : Prop := m.unread = some false

/-- The step may set the unread flag of the message anew: it sets those of its chat. -/
def Step.reflags (w : World) (k : Key) : Step → Bool
  | .advance => w.reads k.chatJid
  | .markMessageRead .. => false
  | e => e.flags k

theorem isRead_apply (h : IsRead m) (ha : fn.apply m = some m') : IsRead m' := by
  cases fn with
  | receipt =>
    simp only [Patch.apply] at ha
    split at ha
    · cases ha; exact h
    · cases ha
  | _ => cases ha; exact h

/-- A read mark reaches both copies. -/
theorem read_marked (h : w.Wf) (hid : k.id ≠ "") (ht : Tracks k c w) (hw : ¬ w.adopting k = true)
    (hx : ∃ x ∈ (w.slot k).resident, x.msg.unread = some true) :
    Both IsRead k (w.step (.markMessageRead k.chatJid k.id)) := by
  obtain ⟨x, hx, hunread⟩ := hx
  rcases (markMessageRead_spec h k.chatJid k.id).2.2 k hid with ⟨-, hno⟩ | ⟨-, y, o, hy, -, ho, hwr⟩
  · exact absurd hunread (hno rfl x hx)
  · have hp : persistable o.msg = true := by
      rw [ho]
      exact (ht.settled hw y hy).1
    exact both_writes (by rw [ho]; rfl) (.inl hp) hwr

theorem read_sync (h : w.Wf) (hid : k.id ≠ "") (htmp : isTmp k.id = false) (he : e.sync = true)
    (hb : Both IsRead k w) (hs : StepSafe k w e) (hf : e.reflags w k = false) : Both IsRead k (w.step e) := by
  by_cases hm : ∃ jid id, e = .markMessageRead jid id
  · obtain ⟨jid, id, rfl⟩ := hm
    obtain ⟨-, hsync, hk⟩ := markMessageRead_spec h jid id
    rcases hk k hid with ⟨hk, -⟩ | ⟨-, x, o, hx, -, ho, hw⟩
    · exact hb.keeps hk fun _ _ ha => ha.sync hsync
    · exact both_writes (by rw [ho]; rfl) (.inr hb.record) hw
  cases hu : e.update k with
  | none =>
    refine both_sync (fun hf' => ?_) (fun _ _ _ => ⟨fun _ _ _ _ h => h, fun _ _ h => h⟩) h hid htmp he hu hb hs
    cases e <;> first | cases hf.symm.trans hf' | exact absurd ⟨_, _, rfl⟩ hm | cases he
  | some =>
    exact both_updated hb (hb.of_update hs hu) (fun _ _ => isRead_apply) (fun _ _ _ _ hm => hm)
      (fun _ _ _ _ _ hm => .inr hm) (updated_step h hid hu)

/-- **A safe step** that sets no flags keeps a read mark. -/
theorem read_step (hid : k.id ≠ "") (htmp : isTmp k.id = false) (h : Sound w) (hb : Both IsRead k w)
    (hs : UpdateSafe k w e) (hf : e.reflags w k = false) : Both IsRead k (w.step e) := by
  by_cases he : e.sync = true
  · exact read_sync h.wf hid htmp he hb (hs.sync he).1 hf
  rcases (ordinary_cases h hs.ordinary).resolve_left he with rfl | rfl | hw
  · exact both_openNext h hb
  · refine both_advance (fun hr => ?_) (fun _ _ hm => hm) h hid hb hs.1 fun hp => absurd hp hs.2
    cases hf.symm.trans hr
  · rwa [hw]

/-- **A read mark** that changes the message stays until a step sets flags. -/
theorem read_run (hid : k.id ≠ "") (htmp : isTmp k.id = false) {es : List Step} (h : Sound w) (ht : Tracks k c w)
    (hx : ∃ x ∈ (w.slot k).resident, x.msg.unread = some true)
    (ha : Along World.step (UpdateSafe k) w (.markMessageRead k.chatJid k.id :: es))
    (hf : Along World.step (fun v e => e.reflags v k = false) (w.step (.markMessageRead k.chatJid k.id)) es) :
    Both IsRead k ((w.step (.markMessageRead k.chatJid k.id)).run es) := by
  obtain ⟨hmark, hrest⟩ := ha
  have hw : ¬ w.adopting k = true := fun hw => by
    have hno := ((hmark.sync rfl).1.waiting hw).2
    simp [Step.flags] at hno
  exact ((hrest.and hf).inv (I := fun v => Sound v ∧ Both IsRead k v)
    (fun v e hv hs => ⟨sound_step hv.1 hs.1.ordinary, read_step hid htmp hv.1 hv.2 hs.1 hs.2⟩)
    ⟨sound_step h rfl, read_marked h.wf hid ht hw hx⟩).2

/-! ## Every run -/

/-- A receipt, a read mark and a reaction reach the record, before and after a flush. -/
def flushedX : List Step :=
  [.applyReceipt chatA ["X"] .read, .flushPendingWrites, .openNext, .advance, .markMessageRead chatA "X",
    .applyReaction chatA "X" chatA "+", .flushPendingWrites, .openNext, .advance]

/-- What the record of a message meets: updates, redeliveries, flushing, paging, trimming. -/
def Step.meets : Step → Bool
  | .applyRevoke .. => true
  | .applyEdit .. => true
  | .applyReaction .. => true
  | .applyReceipt .. => true
  | .markMessageRead .. => true
  | .addMessage _ => true
  | .flushPendingWrites => true
  | .msgTimer => true
  | .loadOlder .. => true
  | .closeChat _ => true
  | .trimChat .. => true
  | .openNext => true
  | .advance => true
  | _ => false

/-- Twenty messages of the chat, all newer than `msgX`. -/
def newerThanX : List UiMessage := (List.range 20).map fun i =>
  { msgX with id := String.ofList (List.replicate (i + 1) 'm'), timestamp := 10 + i }

end Whatsvelte
