import Whatsvelte.Proof.Hydration
import Whatsvelte.Proof.Preview

/-!
# The two rows of a contact

A contact that was written under a LID and under its phone number has two rows in the snapshot. Boot folds them
into one with `hydrateChat`, which keeps one of the two and only takes flags from the other; `mergeChats` puts
them together.

* `get_hydrateRow`: the row that one step of the boot loop leaves.
* **twins_fold_iff**: when the fold of the two rows, in either order, is the merged row.
* **twins_lose_unread**: two rows with unread messages are a case where it is not.
-/

namespace Whatsvelte

variable {w : World} {l p : Chat}
variable {α : Type} {a b : Option α}

/-! ## One row -/

/-- The world in which the boot loop hydrates a row: the messages of a stale LID chat are on their way. -/
def World.rekeying (w : World) (c : Chat) : World :=
  if canonicalJid w c.jid ≠ c.jid then movePersistedChat w c.jid (canonicalJid w c.jid) else w

theorem rekeying_frame (w : World) (c : Chat) :
    (w.rekeying c).chats = w.chats ∧ (w.rekeying c).lidToPn = w.lidToPn := by
  unfold World.rekeying movePersistedChat
  split
  · split <;> exact ⟨rfl, rfl⟩
  · exact ⟨rfl, rfl⟩

theorem hydrateRow_eq (w : World) (c : Chat) :
    hydrateRow w c = hydrateChat (w.rekeying c) { c with jid := canonicalJid w c.jid } := by
  unfold hydrateRow World.rekeying
  dsimp only
  split
  · rfl
  · rename_i hc
    rw [not_not.1 hc, if_pos rfl]

/-- **A step of the boot loop.** -/
theorem get_hydrateRow (w : World) (c : Chat) (j : Jid) :
    (hydrateRow w c).chats.get j = if canonicalJid w c.jid = j then
      some (Chat.hydrated { c with jid := canonicalJid w c.jid } (w.chats.get (canonicalJid w c.jid)))
      else w.chats.get j := by
  rw [hydrateRow_eq, get_hydrateChat, (rekeying_frame w c).1]

theorem canonicalJid_hydrateRow (w : World) (c : Chat) (j : Jid) :
    canonicalJid (hydrateRow w c) j = canonicalJid w j := by
  have hmap : (hydrateRow w c).lidToPn = w.lidToPn := by
    rw [hydrateRow_eq, (hydrateChat_frame _ _).1, (rekeying_frame w c).2]
  rw [canonicalJid, hmap]
  rfl

/-! ## Two rows -/

/-- The rows in the order in which the snapshot lists them. -/
def twins (lidFirst : Bool) (l p : Chat) : List Chat := if lidFirst then [l, p] else [p, l]

/-- The row of the phone number is kept: it is newer, or it comes second. -/
def PnKept (lidFirst : Bool) (l p : Chat) : Prop :=
  l.timestamp < p.timestamp ∨ l.timestamp = p.timestamp ∧ lidFirst = true

/-- The fold of the two rows under the phone number. -/
theorem get_fold_twins (hl : canonicalJid w l.jid = p.jid) (hp : canonicalJid w p.jid = p.jid)
    (hnew : w.chats.get p.jid = none) (lidFirst : Bool) :
    ((twins lidFirst l p).foldl hydrateRow w).chats.get p.jid =
      some (if lidFirst then p.hydrated (some { l with jid := p.jid })
        else Chat.hydrated { l with jid := p.jid } (some p)) := by
  cases lidFirst with
  | true =>
    show (hydrateRow (hydrateRow w l) p).chats.get p.jid = _
    rw [get_hydrateRow, canonicalJid_hydrateRow, hp, if_pos rfl, get_hydrateRow, hl, if_pos rfl, hnew]
    rfl
  | false =>
    show (hydrateRow (hydrateRow w p) l).chats.get p.jid = _
    rw [get_hydrateRow, canonicalJid_hydrateRow, hl, if_pos rfl, get_hydrateRow, hp, if_pos rfl, hnew]
    rfl

theorem get_hydrate_apart {a b : Chat} (hne : a.jid ≠ b.jid) (ha : w.chats.get a.jid = none)
    (hb : w.chats.get b.jid = none) :
    (hydrateChat (hydrateChat w a) b).chats.get a.jid = some a ∧
      (hydrateChat (hydrateChat w a) b).chats.get b.jid = some b := by
  have hfirst : (hydrateChat w a).chats.get a.jid = some a := by
    rw [get_hydrateChat, if_pos rfl, ha]
    rfl
  have hsecond : (hydrateChat w a).chats.get b.jid = none := by
    rwa [get_hydrateChat, if_neg hne]
  constructor
  · rwa [get_hydrateChat, if_neg hne.symm]
  · rw [get_hydrateChat, if_pos rfl, hsecond]
    rfl

/-- The two rows hydrated apart, then merged. -/
theorem get_merge_twins (hne : l.jid ≠ p.jid) (hl : w.chats.get l.jid = none) (hp : w.chats.get p.jid = none)
    (lidFirst : Bool) :
    (mergeChats ((twins lidFirst l p).foldl hydrateChat w) l.jid p.jid).chats.get p.jid =
      some (mergedChat p.jid l (some p)) := by
  have hrows : ((twins lidFirst l p).foldl hydrateChat w).chats.get l.jid = some l ∧
      ((twins lidFirst l p).foldl hydrateChat w).chats.get p.jid = some p := by
    cases lidFirst with
    | true => exact get_hydrate_apart hne hl hp
    | false => exact (get_hydrate_apart hne.symm hp hl).symm
  unfold mergeChats
  rw [hrows.1, hrows.2]
  refine (Table.get_erase _ _ _).trans ?_
  rw [if_neg hne, Table.get_set]
  exact if_pos rfl

/-- The row of the phone number, which is kept, lacks nothing of the other one. -/
structure LacksNothing (l p : Chat) : Prop where
  name : p.name = none → l.name = none
  preview : l.timestamp = p.timestamp → l.lastMessage = p.lastMessage
  unread : l.unread = 0
  draft : p.draft = none → l.draft = none

/-- The row of the LID, which is kept, has all that the other one would win with. -/
structure HasAll (l p : Chat) : Prop where
  name : p.name.isSome = true → p.name = l.name
  unread : p.unread = 0
  muted : p.muted.isSome = true → l.muted.isSome = true → p.muted = l.muted
  pinned : p.pinned.isSome = true → l.pinned.isSome = true → p.pinned = l.pinned
  archived : p.archived.isSome = true → l.archived.isSome = true → p.archived = l.archived
  draft : p.draft.isSome = true → p.draft = l.draft

theorem eq_or_self_iff : a = a.or b ↔ (a = none → b = none) := by
  cases a with
  | none => simp [eq_comm]
  | some => simp

theorem eq_or_other_iff : b = a.or b ↔ (a.isSome = true → a = b) := by
  cases a with
  | none => simp
  | some => simp [eq_comm]

theorem or_comm_iff : b.or a = a.or b ↔ (a.isSome = true → b.isSome = true → a = b) := by
  cases a with
  | none => simp
  | some => cases b <;> simp [eq_comm]

/-- `c` with the flags that it lacks from `d`. -/
def Chat.backfilled (c d : Chat) : Chat :=
  { c with
    muted := c.muted.or d.muted
    pinned := c.pinned.or d.pinned
    archived := c.archived.or d.archived }

theorem fold_of_pnKept {lidFirst : Bool} (h : PnKept lidFirst l p) :
    (if lidFirst then p.hydrated (some { l with jid := p.jid }) else Chat.hydrated { l with jid := p.jid } (some p)) =
      p.backfilled l := by
  cases lidFirst with
  | true =>
    have hle : ¬ l.timestamp > p.timestamp := by
      rcases h with h | h
      · exact not_lt.2 h.le
      · exact not_lt.2 h.1.le
    rw [if_pos rfl, Chat.hydrated, if_neg hle]
    rfl
  | false =>
    have hlt : p.timestamp > l.timestamp := h.resolve_right (fun hn => by cases hn.2)
    rw [if_neg (by simp), Chat.hydrated, if_pos hlt]
    rfl

theorem fold_of_not_pnKept {lidFirst : Bool} (h : ¬ PnKept lidFirst l p) :
    (if lidFirst then p.hydrated (some { l with jid := p.jid }) else Chat.hydrated { l with jid := p.jid } (some p)) =
      { l.backfilled p with jid := p.jid } := by
  obtain ⟨hle, hne⟩ := not_or.1 h
  cases lidFirst with
  | true =>
    have hlt : l.timestamp > p.timestamp := lt_of_le_of_ne (not_lt.1 hle) fun he => hne ⟨he.symm, rfl⟩
    rw [if_pos rfl, Chat.hydrated, if_pos hlt]
    rfl
  | false =>
    rw [if_neg (by simp), Chat.hydrated, if_neg hle]
    rfl

theorem backfilled_eq_merged_iff (hle : l.timestamp ≤ p.timestamp) :
    p.backfilled l = mergedChat p.jid l (some p) ↔ LacksNothing l p := by
  have hpreview : p.lastMessage = (if l.timestamp ≥ p.timestamp then l.lastMessage else p.lastMessage) ↔
      (l.timestamp = p.timestamp → l.lastMessage = p.lastMessage) := by
    split
    · rename_i hge
      have heq := le_antisymm hle hge
      exact ⟨fun h _ => h.symm, fun h => (h heq).symm⟩
    · rename_i hlt
      exact ⟨fun _ heq => absurd heq.ge hlt, fun _ => rfl⟩
  have hunread : p.unread = p.unread + l.unread ↔ l.unread = 0 := by omega
  simp only [Chat.backfilled, mergedChat, Chat.mk.injEq, true_and, max_eq_left hle, eq_or_self_iff, hpreview, hunread]
  constructor
  · rintro ⟨hname, hprev, hun, hdraft⟩
    exact ⟨hname, hprev, hun, hdraft⟩
  · intro h
    exact ⟨h.name, h.preview, h.unread, h.draft⟩

theorem moved_eq_merged_iff (hle : p.timestamp ≤ l.timestamp) :
    { l.backfilled p with jid := p.jid } = mergedChat p.jid l (some p) ↔ HasAll l p := by
  have hunread : l.unread = p.unread + l.unread ↔ p.unread = 0 := by omega
  simp only [Chat.backfilled, mergedChat, Chat.mk.injEq, true_and, max_eq_right hle, if_pos (show l.timestamp ≥
    p.timestamp from hle), eq_or_other_iff, or_comm_iff, hunread]
  constructor
  · rintro ⟨hname, hun, hmuted, hpinned, harchived, hdraft⟩
    exact ⟨hname, hun, hmuted, hpinned, harchived, hdraft⟩
  · intro h
    exact ⟨h.name, h.unread, h.muted, h.pinned, h.archived, h.draft⟩

/-- **The fold of two rows is their merge** if and only if the row that is kept already has the name, the draft,
the flags and all unread messages of the merged one. -/
theorem twins_fold_iff (w : World) (l p : Chat) (lidFirst : Bool) (hne : l.jid ≠ p.jid)
    (hl : canonicalJid w l.jid = p.jid) (hp : canonicalJid w p.jid = p.jid)
    (hlnew : w.chats.get l.jid = none) (hpnew : w.chats.get p.jid = none) :
    ((twins lidFirst l p).foldl hydrateRow w).chats.get p.jid =
        (mergeChats ((twins lidFirst l p).foldl hydrateChat w) l.jid p.jid).chats.get p.jid ↔
      PnKept lidFirst l p ∧ LacksNothing l p ∨ ¬ PnKept lidFirst l p ∧ HasAll l p := by
  rw [get_fold_twins hl hp hpnew, get_merge_twins hne hlnew hpnew, Option.some_inj]
  by_cases hk : PnKept lidFirst l p
  · have hle : l.timestamp ≤ p.timestamp := hk.elim le_of_lt fun h => h.1.le
    rw [fold_of_pnKept hk, backfilled_eq_merged_iff hle]
    exact ⟨fun h => Or.inl ⟨hk, h⟩, fun h => h.elim And.right fun h => absurd hk h.1⟩
  · have hle : p.timestamp ≤ l.timestamp := not_lt.1 (not_or.1 hk).1
    rw [fold_of_not_pnKept hk, moved_eq_merged_iff hle]
    exact ⟨fun h => Or.inr ⟨hk, h⟩, fun h => h.elim (fun h => absurd h.1 hk) And.right⟩

/-- The row under a LID. -/
def lidRow : Chat := { jid := "1@lid", name := none, lastMessage := some "old", timestamp := 3, unread := 0 }

/-- The row of the same contact under the phone number. -/
def pnRow : Chat := { jid := chatA, name := some "Ann", lastMessage := some "new", timestamp := 5, unread := 2 }

/-- The client knows that they are one contact. -/
def knownTwins : World := World.init.learn "1@lid" chatA

theorem twins_fold_iff_read :
    ((twins false lidRow pnRow).foldl hydrateRow knownTwins).chats.get chatA =
      (mergeChats ((twins false lidRow pnRow).foldl hydrateChat knownTwins) "1@lid" chatA).chats.get chatA :=
  (twins_fold_iff knownTwins lidRow pnRow false (by decide) (by decide) (by decide) rfl rfl).2
    (Or.inl ⟨Or.inl (by decide), ⟨fun _ => rfl, fun h => absurd h (by decide), rfl, fun _ => rfl⟩⟩)

/-- **Unread messages are lost**: of two rows with unread messages boot keeps one count. -/
theorem twins_lose_unread :
    ¬ ∀ (w : World) (l p : Chat) (lidFirst : Bool), l.jid ≠ p.jid → canonicalJid w l.jid = p.jid →
      canonicalJid w p.jid = p.jid → w.chats.get l.jid = none → w.chats.get p.jid = none →
      ((twins lidFirst l p).foldl hydrateRow w).chats.get p.jid =
        (mergeChats ((twins lidFirst l p).foldl hydrateChat w) l.jid p.jid).chats.get p.jid := by
  intro hall
  have hrow := hall knownTwins { lidRow with unread := 1 } pnRow true (by decide) (by decide) (by decide) rfl rfl
  exact absurd (congrArg (Option.map (·.unread)) hrow) (by decide)

end Whatsvelte
