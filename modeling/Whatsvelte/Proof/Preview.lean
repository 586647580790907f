import Whatsvelte.Lib.Register
import Whatsvelte.Spec.Chats

/-!
# A chat row and the calls that made it

The time and the preview of a row are one register: `touchChat` and `upsertChatFromDto` both bump it.

* `preview_belongs_iff`: **whatever the order of the calls, the row shows the newest time and the text of
  that call** if and only if that call brings a text, or no call that was newest before it did
  (`PreviewFits`). A call without a text keeps the preview of an older one.
* `hydrate_commutes_iff`: **when a persisted row may be hydrated after live calls.** `hydrateChat` keeps one
  of the two rows whole, so the other one must have had nothing to add (`LiveWins`, `StoredWins`).
-/

namespace Whatsvelte

open List Table

variable {w : World} {jid : Jid} {c p : Chat}
variable {ts : List TouchCall} {live later : List TouchCall} {pre post : List RowCall} {T : ℤ}

/-- One call of `touchChat`. -/
structure TouchCall where
  text : Option String
  timestamp : ℤ
  incoming : Bool
  deriving DecidableEq

/-- A call that a message or a history chunk makes on the row of one chat. -/
inductive RowCall
  | touch (t : TouchCall)
  | upsert (d : ChatDto)
  deriving DecidableEq

def RowCall.timestamp : RowCall → ℤ
  | touch t => t.timestamp
  | upsert d => d.timestamp

def RowCall.text : RowCall → Option String
  | touch t => t.text
  | upsert d => d.lastMessage

def RowCall.apply (jid : Jid) (w : World) : RowCall → World
  | touch t => touchChat w jid t.text t.timestamp t.incoming
  | upsert d => upsertChatFromDto w { d with jid := jid }

/-- The time and the preview of a row. -/
def Chat.face (p : Chat) : ℤ × Option String := (p.timestamp, p.lastMessage)

/-- The row after a call, in its time and preview; a row that is not there has time 0. -/
def RowCall.onFace (a : RowCall) : Option (ℤ × Option String) → ℤ × Option String
  | none => (max a.timestamp 0, a.text)
  | some r => bump RowCall.timestamp RowCall.text r a

/-- Both functions treat time and preview alike. -/
theorem face_apply (w : World) (jid : Jid) (a : RowCall) :
    ((a.apply jid w).chats.get jid).map Chat.face = some (a.onFace ((w.chats.get jid).map Chat.face)) := by
  cases a
  all_goals
    refine (congrArg (Option.map Chat.face) ((get_set _ _ _).trans (if_pos rfl))).trans ?_
    cases w.chats.get jid with
    | none => simp [Chat.face, RowCall.onFace, RowCall.timestamp, RowCall.text]
    | some =>
      simp only [Option.map_some, Chat.face, RowCall.onFace, RowCall.timestamp, RowCall.text, bump,
        Option.all_some, decide_eq_true_eq, Option.bind_some, Option.elim_some]
      exact congrArg (fun l => some (_, l)) (if_congr Iff.rfl rfl rfl)

def rowCalls (jid : Jid) (w : World) (cs : List RowCall) : World := cs.foldl (RowCall.apply jid) w

theorem face_rowCalls_some (cs : List RowCall) {r : ℤ × Option String}
    (h : (w.chats.get jid).map Chat.face = some r) :
    ((rowCalls jid w cs).chats.get jid).map Chat.face =
      some (cs.foldl (bump RowCall.timestamp RowCall.text) r) := by
  induction cs generalizing w r with
  | nil => exact h
  | cons a cs ih =>
    have ha := face_apply w jid a
    rw [h] at ha
    exact ih ha

/-- The row of a chat that had none. -/
theorem face_rowCalls {cs : List RowCall} (hnew : w.chats.get jid = none) (hne : cs ≠ []) :
    ((rowCalls jid w cs).chats.get jid).map Chat.face =
      some (newest RowCall.timestamp 0 cs, lastValue RowCall.text (led RowCall.timestamp 0 cs)) := by
  obtain ⟨a, cs, rfl⟩ := exists_cons_of_ne_nil hne
  have ha := face_apply w jid a
  rw [hnew] at ha
  have h := face_rowCalls_some cs ha
  rwa [Option.map_none, RowCall.onFace, foldl_bump] at h

/-! ## One message behind time and preview -/

/-- The row of the chat shows the newest time of the calls and the text of the call that has it. -/
def Belongs (w : World) (jid : Jid) (cs : List RowCall) : Prop :=
  ∃ p a, w.chats.get jid = some p ∧ a ∈ cs ∧ (∀ b ∈ cs, b.timestamp ≤ a.timestamp) ∧
    p.timestamp = a.timestamp ∧ p.lastMessage = a.text

/-- The newest call has a text, or none of the calls before it that were newest when they came has. -/
def PreviewFits (cs : List RowCall) : Prop :=
  ∃ pre a post, cs = pre ++ a :: post ∧ (∀ b ∈ cs, b.timestamp ≤ a.timestamp) ∧ 0 ≤ a.timestamp ∧
    (a.text = none → ∀ b ∈ led RowCall.timestamp 0 pre, b.text = none)

/-- The preview after the newest call, for whatever comes later. -/
theorem lastValue_led {a : RowCall}
    (hpre : ∀ b ∈ pre, b.timestamp ≤ a.timestamp) (h0 : 0 ≤ a.timestamp)
    (hpost : ∀ b ∈ post, b.timestamp < a.timestamp) :
    lastValue RowCall.text (led RowCall.timestamp 0 (pre ++ a :: post)) =
      a.text.or (lastValue RowCall.text (led RowCall.timestamp 0 pre)) := by
  rcases eq_or_ne pre [] with rfl | hne
  · have hlate : leads RowCall.timestamp (max a.timestamp 0) post = [] := by
      rw [max_eq_left h0]
      exact leads_eq_nil hpost
    rw [nil_append]
    simp [lastValue, led, hlate]
  · have hle : newest RowCall.timestamp 0 pre ≤ a.timestamp := newest_le_iff.2 ⟨h0, hpre⟩
    rw [led_append hne, leads_cons_of_le hle, leads_eq_nil hpost, lastValue_append]
    simp [lastValue]

theorem older_of_nodup {a : RowCall} (hdistinct : ((pre ++ a :: post).map RowCall.timestamp).Nodup)
    (hmax : ∀ b ∈ pre ++ a :: post, b.timestamp ≤ a.timestamp) : ∀ b ∈ post, b.timestamp < a.timestamp := by
  intro b hb
  rw [map_append, map_cons] at hdistinct
  have hnot := (nodup_cons.1 (nodup_append.1 hdistinct).2.1).1
  have hle := hmax b (mem_append_right _ (mem_cons_of_mem _ hb))
  exact lt_of_le_of_ne hle fun he => hnot (he ▸ mem_map_of_mem hb)

/-- **Time and preview belong to one message**, in every order of the calls, if and only if
`PreviewFits`. -/
theorem preview_belongs_iff (w : World) (jid : Jid) (cs : List RowCall) (hnew : w.chats.get jid = none)
    (hne : cs ≠ []) (hdistinct : (cs.map RowCall.timestamp).Nodup) :
    Belongs (rowCalls jid w cs) jid cs ↔ PreviewFits cs := by
  have hface := face_rowCalls hnew hne
  obtain ⟨p, hp, hf⟩ := Option.map_eq_some_iff.1 hface
  have htime : p.timestamp = newest RowCall.timestamp 0 cs := congrArg Prod.fst hf
  have htext : p.lastMessage = lastValue RowCall.text (led RowCall.timestamp 0 cs) := congrArg Prod.snd hf
  constructor
  · rintro ⟨p', a, hp', ha, hmax, hts, hlast⟩
    cases hp.symm.trans hp'
    have h0 : 0 ≤ a.timestamp := by
      rw [← hts, htime]
      exact le_newest
    obtain ⟨pre, post, rfl⟩ := List.append_of_mem ha
    have hpre : ∀ b ∈ pre, b.timestamp ≤ a.timestamp := fun b hb => hmax b (List.mem_append_left _ hb)
    refine ⟨pre, a, post, rfl, hmax, h0, ?_⟩
    intro hnone
    rw [lastValue_led hpre h0 (older_of_nodup hdistinct hmax), hlast, hnone, Option.none_or] at htext
    exact lastValue_eq_none.1 htext.symm
  · rintro ⟨pre, a, post, rfl, hmax, h0, hnull⟩
    have ha : a ∈ pre ++ a :: post := List.mem_append_right _ List.mem_cons_self
    have hpre : ∀ b ∈ pre, b.timestamp ≤ a.timestamp := fun b hb => hmax b (List.mem_append_left _ hb)
    rw [lastValue_led hpre h0 (older_of_nodup hdistinct hmax)] at htext
    refine ⟨p, a, hp, ha, hmax, ?_, ?_⟩
    · rw [htime]
      exact le_antisymm (newest_le_iff.2 ⟨h0, hmax⟩) (le_newest_of_mem ha)
    · cases hx : a.text with
      | none => rw [htext, hx, lastValue_eq_none.2 (hnull hx)]; rfl
      | some => rw [htext, hx]; rfl

/-- An older message that comes late does not spoil the preview of a picture with a caption. -/
theorem preview_belongs_iff_late :
    Belongs (rowCalls chatA World.init [.touch ⟨some "caption", 9, true⟩, .upsert ⟨chatA, none, none, 4, 0⟩]) chatA
      [.touch ⟨some "caption", 9, true⟩, .upsert ⟨chatA, none, none, 4, 0⟩] :=
  (preview_belongs_iff World.init chatA _ rfl (by decide) (by decide)).2
    ⟨[], _, _, rfl, by decide, by decide, fun h => absurd h (by decide)⟩

/-- A picture without a caption comes after a text: its time stands next to the older text. In the other
order the row has no preview. -/
theorem preview_of_older_message :
    ¬ Belongs (rowCalls chatA World.init [.touch ⟨some "hi", 1, true⟩, .touch ⟨none, 2, true⟩]) chatA
        [.touch ⟨some "hi", 1, true⟩, .touch ⟨none, 2, true⟩] ∧
      ((rowCalls chatA World.init [.touch ⟨some "hi", 1, true⟩, .touch ⟨none, 2, true⟩]).chats.get chatA).map
        Chat.face = some (2, some "hi") ∧
      ((rowCalls chatA World.init [.touch ⟨none, 2, true⟩, .touch ⟨some "hi", 1, true⟩]).chats.get chatA).map
        Chat.face = some (2, none) := by
  have hrow : ((rowCalls chatA World.init [.touch ⟨some "hi", 1, true⟩, .touch ⟨none, 2, true⟩]).chats.get chatA).map
      Chat.face = some (2, some "hi") := by decide
  refine ⟨?_, hrow, by decide⟩
  rintro ⟨p, a, hp, ha, -, hts, hlast⟩
  rw [hp] at hrow
  have hface := Option.some.inj hrow
  have ht : a.timestamp = 2 := hts.symm.trans (congrArg Prod.fst hface)
  have hl : a.text = some "hi" := hlast.symm.trans (congrArg Prod.snd hface)
  rcases List.mem_pair.1 ha with rfl | rfl
  · exact absurd ht (by decide)
  · exact absurd hl (by decide)

/-! ## Hydration -/

def touches (jid : Jid) (w : World) (ts : List TouchCall) : World :=
  ts.foldl (fun w t => touchChat w jid t.text t.timestamp t.incoming) w

/-- A row after some live calls. -/
def Chat.touched (p : Chat) (ts : List TouchCall) : Chat :=
  { p with
    lastMessage := (lastValue TouchCall.text (leads TouchCall.timestamp p.timestamp ts)).or p.lastMessage
    timestamp := newest TouchCall.timestamp p.timestamp ts
    unread := p.unread + ts.countP (·.incoming) }

theorem touched_append (ts us : List TouchCall) : p.touched (ts ++ us) = (p.touched ts).touched us := by
  simp only [Chat.touched, leads_append, newest_append, lastValue_append, countP_append, Option.or_assoc,
    Nat.add_assoc]

theorem get_touchChat (t : TouchCall) (h : w.chats.get jid = some p) :
    (touchChat w jid t.text t.timestamp t.incoming).chats.get jid = some (p.touched [t]) := by
  have hjid : p.jid = jid := get_key h
  have hget : (touchChat w jid t.text t.timestamp t.incoming).chats.get jid = _ :=
    (get_set _ _ _).trans (if_pos rfl)
  rw [hget, h]
  rcases le_or_gt p.timestamp t.timestamp with hle | hlt
  · cases hin : t.incoming <;>
      simp [Chat.touched, leads_cons_of_le hle, newest_cons, lastValue, hle, hin, ← hjid]
  · cases hin : t.incoming <;>
      simp [Chat.touched, leads_cons_of_lt hlt, newest_cons, lastValue, not_le.2 hlt, hin, ← hjid]

theorem get_touches (ts : List TouchCall) (h : w.chats.get jid = some p) :
    (touches jid w ts).chats.get jid = some (p.touched ts) := by
  induction ts generalizing w p with
  | nil => simpa [touches, Chat.touched, lastValue] using h
  | cons t ts ih =>
    have ht := ih (get_touchChat t h)
    rwa [← touched_append] at ht

/-- The row that live calls leave in a chat that had none. -/
def liveRow (jid : Jid) (ts : List TouchCall) : Chat :=
  { jid := jid
    name := none
    lastMessage := lastValue TouchCall.text (led TouchCall.timestamp 0 ts)
    timestamp := newest TouchCall.timestamp 0 ts
    unread := ts.countP (·.incoming) }

theorem get_touches_new (h : w.chats.get jid = none) (hne : ts ≠ []) :
    (touches jid w ts).chats.get jid = some (liveRow jid ts) := by
  obtain ⟨t, ts, rfl⟩ := exists_cons_of_ne_nil hne
  have hget : (touchChat w jid t.text t.timestamp t.incoming).chats.get jid = some (liveRow jid [t]) := by
    refine ((get_set _ _ _).trans (if_pos rfl)).trans ?_
    rw [h]
    cases hin : t.incoming <;> simp [liveRow, led, lastValue, newest_cons, hin]
  refine (get_touches ts hget).trans ?_
  cases hin : t.incoming <;>
    simp [liveRow, Chat.touched, led, lastValue, newest_cons, hin, Nat.add_comm]

/-- The row that `hydrateChat` leaves over the one that was there. -/
def Chat.hydrated (c : Chat) : Option Chat → Chat
  | none => c
  | some prev =>
    if prev.timestamp > c.timestamp then
      { prev with
        muted := prev.muted.or c.muted
        pinned := prev.pinned.or c.pinned
        archived := prev.archived.or c.archived }
    else
      { c with
        muted := c.muted.or prev.muted
        pinned := c.pinned.or prev.pinned
        archived := c.archived.or prev.archived }

theorem get_hydrateChat (w : World) (c : Chat) (j : Jid) :
    (hydrateChat w c).chats.get j = if c.jid = j then some (c.hydrated (w.chats.get c.jid)) else w.chats.get j := by
  unfold hydrateChat
  cases hprev : w.chats.get c.jid with
  | none =>
    refine (get_set _ _ _).trans ?_
    simp [Chat.hydrated]
  | some prev =>
    have hjid : prev.jid = c.jid := get_key hprev
    dsimp only
    split
    · rename_i hlt
      refine (get_set _ _ _).trans ?_
      rw [Chat.hydrated, if_pos hlt, ← hjid]
    · rename_i hle
      refine (get_set _ _ _).trans ?_
      rw [Chat.hydrated, if_neg hle]
      rfl

/-- Over a live row, one of the two rows stays; a live row takes the flags. -/
theorem hydrated_liveRow (c : Chat) (live : List TouchCall) :
    c.hydrated (some (liveRow c.jid live)) = if c.timestamp < newest TouchCall.timestamp 0 live then
      { liveRow c.jid live with muted := c.muted, pinned := c.pinned, archived := c.archived } else c := by
  by_cases hlt : c.timestamp < newest TouchCall.timestamp 0 live <;> simp [Chat.hydrated, liveRow, hlt]

/-- The calls older than a time. -/
def olderThan (T : ℤ) (ts : List TouchCall) : List TouchCall := ts.filter (fun t => t.timestamp < T)

/-- The live row stays, and the persisted one has nothing to add to it. -/
structure LiveWins (c : Chat) (live later : List TouchCall) : Prop where
  newer : c.timestamp < newest TouchCall.timestamp 0 live
  name : c.name = none
  draft : c.draft = none
  unread : c.unread = 0
  time : ∃ t ∈ live ++ later, 0 ≤ t.timestamp
  /-- Some call not older than the row brought a text when it was the newest; otherwise the text that the
  older live calls left is the preview of the row. -/
  preview : (∃ t ∈ leads TouchCall.timestamp (max c.timestamp 0) (live ++ later), t.text ≠ none) ∨
    lastValue TouchCall.text (olderThan (max c.timestamp 0) (led TouchCall.timestamp 0 live)) =
      (lastValue TouchCall.text (olderThan 0 (leads TouchCall.timestamp c.timestamp (live ++ later)))).or
        c.lastMessage

/-- The persisted row stays, and the live calls had nothing to add to it. -/
structure StoredWins (c : Chat) (live later : List TouchCall) : Prop where
  start : 0 ≤ c.timestamp
  newer : ∀ t ∈ live, t.timestamp ≤ c.timestamp
  incoming : ∀ t ∈ live, t.incoming = false
  /-- A later call brings a text when it is the newest; otherwise the calls of the same second left the
  preview of the row. -/
  preview : (∃ t ∈ leads TouchCall.timestamp c.timestamp later, t.text ≠ none) ∨
    ∀ x, lastValue TouchCall.text (live.filter (fun t => t.timestamp = c.timestamp)) = some x →
      c.lastMessage = some x

/-- The time of a live row and of a hydrated one, once a call is newer than the persisted row. -/
theorem newest_zero_iff (h : T < newest TouchCall.timestamp 0 ts) :
    newest TouchCall.timestamp 0 ts = newest TouchCall.timestamp T ts ↔ ∃ t ∈ ts, 0 ≤ t.timestamp := by
  constructor
  · intro he
    rcases newest_eq_or_mem TouchCall.timestamp T ts with hT | ⟨t, ht, hT⟩
    · omega
    · refine ⟨t, ht, ?_⟩
      rw [← hT, ← he]
      exact le_newest
  · rintro ⟨t, ht, h0⟩
    have hmem := le_newest_of_mem (t := TouchCall.timestamp) (T := T) ht
    refine le_antisymm (newest_le_iff.2 ⟨by omega, fun u hu => le_newest_of_mem hu⟩) ?_
    exact newest_le_iff.2 ⟨h.le, fun u hu => le_newest_of_mem hu⟩

theorem olderThan_leads :
    (leads TouchCall.timestamp T ts).filter (fun t => t.timestamp < max T 0) =
      olderThan 0 (leads TouchCall.timestamp T ts) := by
  refine filter_congr fun t ht => ?_
  have hle := le_of_mem_leads ht
  by_cases h0 : t.timestamp < 0
  · simp [h0]
  · simpa [h0] using hle

/-- The preview after hydration, when the live row stays. -/
theorem liveWins_preview
    (h : c.timestamp < newest TouchCall.timestamp 0 live) :
    (lastValue TouchCall.text (leads TouchCall.timestamp (newest TouchCall.timestamp 0 live) later)).or
        (lastValue TouchCall.text (led TouchCall.timestamp 0 live)) =
      (lastValue TouchCall.text (leads TouchCall.timestamp c.timestamp (live ++ later))).or c.lastMessage ↔
    (∃ t ∈ leads TouchCall.timestamp (max c.timestamp 0) (live ++ later), t.text ≠ none) ∨
      lastValue TouchCall.text (olderThan (max c.timestamp 0) (led TouchCall.timestamp 0 live)) =
        (lastValue TouchCall.text
          (olderThan 0 (leads TouchCall.timestamp c.timestamp (live ++ later)))).or c.lastMessage := by
  -- what leads above both starting times is common to the two orders
  have htime : newest TouchCall.timestamp 0 live = newest TouchCall.timestamp (max c.timestamp 0) live := by
    refine le_antisymm (newest_le_iff.2 ⟨?_, fun u hu => le_newest_of_mem hu⟩)
      (newest_le_iff.2 ⟨max_le h.le le_newest, fun u hu => le_newest_of_mem hu⟩)
    exact le_trans (le_max_right _ _) le_newest
  have hlive := lastValue_append TouchCall.text
    ((led TouchCall.timestamp 0 live).filter (fun t => t.timestamp < max c.timestamp 0))
    (leads TouchCall.timestamp (max c.timestamp 0) (live ++ later))
  rw [leads_append, ← htime, ← append_assoc, ← led_split (le_max_right _ _), lastValue_append] at hlive
  have hstored := lastValue_append TouchCall.text
    ((leads TouchCall.timestamp c.timestamp (live ++ later)).filter (fun t => t.timestamp < max c.timestamp 0))
    (leads TouchCall.timestamp (max c.timestamp 0) (live ++ later))
  rw [← leads_split (le_max_left _ _), olderThan_leads] at hstored
  have hall : leads TouchCall.timestamp (max c.timestamp 0) (live ++ later) =
      leads TouchCall.timestamp (max c.timestamp 0) live ++
        leads TouchCall.timestamp (newest TouchCall.timestamp 0 live) later := by
    rw [leads_append, ← htime]
  rw [hlive, hstored, ← hall, Option.or_assoc]
  exact or_lastValue_eq

theorem leads_of_le (h : ∀ t ∈ ts, t.timestamp ≤ T) :
    leads TouchCall.timestamp T ts = ts.filter (fun t => t.timestamp = T) := by
  induction ts with
  | nil => rfl
  | cons t ts ih =>
    have htail := ih fun u hu => h u (mem_cons_of_mem _ hu)
    rcases (h t mem_cons_self).lt_or_eq with hlt | heq
    · rwa [leads_cons_of_lt hlt, filter_cons_of_neg (by simpa using hlt.ne)]
    · rw [leads_cons_of_le heq.ge, filter_cons_of_pos (by simpa using heq), heq]
      exact congrArg (t :: ·) htail

/-- The preview after hydration, when the persisted row stays. -/
theorem storedWins_preview (h : ∀ t ∈ live, t.timestamp ≤ c.timestamp) :
    (lastValue TouchCall.text (leads TouchCall.timestamp c.timestamp later)).or c.lastMessage =
      (lastValue TouchCall.text (leads TouchCall.timestamp c.timestamp (live ++ later))).or c.lastMessage ↔
    (∃ t ∈ leads TouchCall.timestamp c.timestamp later, t.text ≠ none) ∨
      ∀ x, lastValue TouchCall.text (live.filter (fun t => t.timestamp = c.timestamp)) = some x →
        c.lastMessage = some x := by
  rw [leads_append, newest_eq_of_forall_le h, lastValue_append, Option.or_assoc, or_lastValue_eq,
    leads_of_le h]
  refine or_congr Iff.rfl ?_
  cases lastValue TouchCall.text (live.filter (fun t => t.timestamp = c.timestamp)) <;> simp

/-- **Hydrating a row after live calls**, with any calls after that, leaves the row that hydrating it first
leaves, if and only if the row that stays needs nothing from the other. -/
theorem hydrate_commutes_iff (w : World) (c : Chat) (live later : List TouchCall)
    (hnew : w.chats.get c.jid = none) (hne : live ≠ []) :
    (touches c.jid (hydrateChat (touches c.jid w live) c) later).chats.get c.jid =
        (touches c.jid (touches c.jid (hydrateChat w c) live) later).chats.get c.jid ↔
      LiveWins c live later ∨ StoredWins c live later := by
  have hfirst : (touches c.jid (touches c.jid (hydrateChat w c) live) later).chats.get c.jid =
      some (c.touched (live ++ later)) := by
    rw [touched_append]
    refine get_touches later (get_touches live ?_)
    rw [get_hydrateChat, if_pos rfl, hnew]
    rfl
  have hlive : (hydrateChat (touches c.jid w live) c).chats.get c.jid =
      some (c.hydrated (some (liveRow c.jid live))) := by
    rw [get_hydrateChat, if_pos rfl, get_touches_new hnew hne]
  rw [hydrated_liveRow] at hlive
  rw [hfirst, get_touches later hlive, Option.some_inj]
  by_cases hlt : c.timestamp < newest TouchCall.timestamp 0 live
  · have hall : c.timestamp < newest TouchCall.timestamp 0 (live ++ later) := by
      rw [newest_append]
      exact hlt.trans_le le_newest
    have hno : ¬ StoredWins c live later := fun h => not_le.2 hlt (newest_le_iff.2 ⟨h.start, h.newer⟩)
    rw [if_pos hlt, or_iff_left hno]
    simp only [Chat.touched, liveRow, Chat.mk.injEq, true_and, ← newest_append]
    rw [liveWins_preview hlt, newest_zero_iff hall, List.countP_append]
    constructor
    · rintro ⟨hname, hprev, htime, hun, hdraft⟩
      exact ⟨hlt, hname.symm, hdraft.symm, by omega, htime, hprev⟩
    · rintro ⟨-, hname, hdraft, hun, htime, hprev⟩
      exact ⟨hname.symm, hprev, htime, by omega, hdraft.symm⟩
  · obtain ⟨h0, hle⟩ := newest_le_iff.1 (not_lt.1 hlt)
    have hno : ¬ LiveWins c live later := fun h => hlt h.newer
    rw [if_neg hlt, or_iff_right hno]
    simp only [Chat.touched, Chat.mk.injEq, true_and, and_true]
    rw [storedWins_preview hle, newest_append, newest_eq_of_forall_le hle, List.countP_append]
    constructor
    · rintro ⟨hprev, -, hun⟩
      have hcount : live.countP (·.incoming) = 0 := by omega
      refine ⟨h0, hle, fun t ht => ?_, hprev⟩
      simpa using List.countP_eq_zero.1 hcount t ht
    · rintro ⟨-, -, hin, hprev⟩
      have hcount : live.countP (·.incoming) = 0 := List.countP_eq_zero.2 (by simpa using hin)
      exact ⟨hprev, rfl, by omega⟩

/-- A row of an unnamed chat that was read, hydrated after a new message. -/
theorem hydrate_commutes_iff_bare :
    let c : Chat := { jid := chatA, name := none, lastMessage := some "old", timestamp := 5, unread := 0 }
    (touches chatA (hydrateChat (touches chatA World.init [⟨some "new", 9, true⟩]) c) []).chats.get chatA =
      (touches chatA (touches chatA (hydrateChat World.init c) [⟨some "new", 9, true⟩]) []).chats.get chatA :=
  (hydrate_commutes_iff World.init
    { jid := chatA, name := none, lastMessage := some "old", timestamp := 5, unread := 0 }
    [⟨some "new", 9, true⟩] [] rfl (by decide)).2
    (Or.inl ⟨by decide, rfl, rfl, rfl, by decide, Or.inl (by decide)⟩)

/-- A live message comes before the row of a named chat with three unread messages is hydrated: name and
count of the row are lost. -/
theorem hydrate_loses_row :
    let c : Chat :=
      { jid := chatA, name := some "Ann", lastMessage := some "old", timestamp := 5, unread := 3 }
    let late := touches chatA (hydrateChat (touches chatA World.init [⟨some "new", 9, true⟩]) c) []
    let early := touches chatA (touches chatA (hydrateChat World.init c) [⟨some "new", 9, true⟩]) []
    late.chats.get chatA ≠ early.chats.get chatA ∧
      late.chats.get chatA =
        some { jid := chatA, name := none, lastMessage := some "new", timestamp := 9, unread := 1 } ∧
      early.chats.get chatA =
        some { jid := chatA, name := some "Ann", lastMessage := some "new", timestamp := 9, unread := 4 } := by
  decide

end Whatsvelte
