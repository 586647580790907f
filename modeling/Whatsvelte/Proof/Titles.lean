import Whatsvelte.Proof.Handlers

/-!
# The names of groups

A row gets a name from a `ChatDto`, from the row merged into it, or from `setChatName`, which the
handler of `wa://message` calls with the sender's push name for every chat, groups and newsletters
included.

`title_step` says where the name of a row comes from in one step. `room_names_delivered`: **the name
of a group or a newsletter is one that a `ChatDto` delivered for it**, along every run in which no
incoming message with a push name finds such a chat unnamed and no LID is mapped to one.
-/

namespace Whatsvelte

open Table

variable {w v u : World} {jid l p : Jid} {n : String} {e : Step} {ev : Event} {D : Jid → String → Prop}

/-- The chat is no conversation with one contact. -/
def isRoom (jid : Jid) : Bool := isGroup jid || isNewsletter jid

/-- The name in the row of a chat. -/
def World.title (w : World) (jid : Jid) : Option String := (w.chats.get jid).bind (·.name)

theorem title_congr (h : v.chats = w.chats) (jid : Jid) : v.title jid = w.title jid := by
  rw [World.title, World.title, h]

theorem title_setChat (w : World) (c : Chat) (jid : Jid) :
    (w.setChat c).title jid = if c.jid = jid then c.name else w.title jid := by
  unfold World.title World.setChat
  rw [get_set]
  split <;> rfl

/-- A row that keeps its name. -/
theorem title_rewrite {c c' : Chat} {k : Jid} (hg : w.chats.get k = some c) (hj : c'.jid = c.jid)
    (hn : c'.name = c.name) (jid : Jid) : (w.setChat c').title jid = w.title jid := by
  rw [title_setChat]
  split
  · rename_i h
    rw [hj, get_key hg] at h
    rw [World.title, ← h, hg, hn]
    rfl
  · rfl

theorem title_schedulePersistChats (w : World) (jid : Jid) :
    (schedulePersistChats w).title jid = w.title jid := rfl

/-! ## Calls of the chat store -/

/-- The name that a call may give to a row. -/
def ChatOp.titles (w : World) : ChatOp → Option (Jid × String)
  | .upsertChatFromDto d => d.name.map (d.jid, ·)
  | .hydrateChat c => c.name.map (c.jid, ·)
  | .ensureChat jid _ _ name => name.map (jid, ·)
  | .setChatName jid name => if truthy (w.title jid) then none else some (jid, name)
  | _ => none

theorem title_upsertChatFromDto (w : World) (d : ChatDto) (jid : Jid) :
    (upsertChatFromDto w d).title jid =
      if d.jid = jid then d.name.or (w.title d.jid) else w.title jid := title_setChat w _ jid

theorem title_touchChat (w : World) (k : Jid) (t : Option String) (ts : ℤ) (b : Bool) (jid : Jid) :
    (touchChat w k t ts b).title jid = w.title jid := by
  have hset : (touchChat w k t ts b).title jid = if k = jid then w.title k else w.title jid :=
    title_setChat w _ jid
  rw [hset]
  split
  · rename_i h
    rw [h]
  · rfl

theorem title_decrementUnread (w : World) (k : Jid) (amount : ℕ) (jid : Jid) :
    (decrementUnread w k amount).title jid = w.title jid := by
  unfold decrementUnread
  split
  · rfl
  · rename_i c hg
    split
    · rfl
    · rw [title_schedulePersistChats]
      refine title_rewrite hg ?_ ?_ jid <;> rfl

theorem title_hydrateChat (w : World) (c : Chat) (jid : Jid) :
    (hydrateChat w c).title jid = w.title jid ∨ c.jid = jid ∧ (hydrateChat w c).title jid = c.name := by
  have hfresh : ∀ c' : Chat, c'.jid = c.jid → c'.name = c.name → (w.setChat c').title jid = w.title jid ∨
      c.jid = jid ∧ (w.setChat c').title jid = c.name := by
    intro c' hj hn
    rw [title_setChat, hj, hn]
    by_cases h : c.jid = jid
    · exact .inr ⟨h, if_pos h⟩
    · exact .inl (if_neg h)
  unfold hydrateChat
  dsimp only
  split
  · exact hfresh _ rfl rfl
  · rename_i p hg
    split
    · refine .inl (title_rewrite hg ?_ ?_ jid) <;> rfl
    · exact hfresh _ rfl rfl

theorem title_chatOp {op : ChatOp} (h : n ∈ (op.run w).title jid) :
    n ∈ w.title jid ∨ (jid, n) ∈ op.titles w := by
  cases op with
  | upsertChatFromDto d =>
    simp only [ChatOp.run, title_upsertChatFromDto] at h
    split at h
    · rename_i hj
      cases hn : d.name with
      | none => rw [hn, hj] at h; exact .inl h
      | some =>
        rw [hn] at h
        cases h
        exact .inr (by simp [ChatOp.titles, hn, hj])
    · exact .inl h
  | touchChat =>
    simp only [ChatOp.run, title_touchChat] at h
    exact .inl h
  | markChatAsRead =>
    simp only [ChatOp.run, markChatAsRead] at h
    split at h
    · exact .inl h
    · rename_i c hg
      split at h
      · exact .inl h
      · rw [title_schedulePersistChats, title_rewrite hg (by rfl) (by rfl)] at h
        exact .inl h
  | hydrateChat c =>
    -- one of the two rows stays as a whole, with its name
    simp only [ChatOp.run] at h
    rcases title_hydrateChat w c jid with ht | ⟨hj, ht⟩
    · exact .inl (by rwa [ht] at h)
    · rw [ht] at h
      exact .inr (by simp [ChatOp.titles, hj, Option.mem_def.1 h])
  | ensureChat =>
    simp only [ChatOp.run, ensureChat] at h
    split at h
    · exact .inl h
    · have ht := (title_setChat w _ jid).subst (motive := fun x => n ∈ x) h
      split at ht
      · exact .inr (by simp_all [ChatOp.titles])
      · exact .inl ht
  | applyChatFlags =>
    simp only [ChatOp.run, applyChatFlags] at h
    split at h
    · exact .inl h
    · rename_i c hg
      rw [title_schedulePersistChats, title_rewrite hg (by rfl) (by rfl)] at h
      exact .inl h
  | setChatFlag k flag =>
    simp only [ChatOp.run, setChatFlag] at h
    split at h
    · exact .inl h
    · rename_i c hg
      rw [title_schedulePersistChats, title_rewrite hg (by cases flag <;> rfl) (by cases flag <;> rfl)] at h
      exact .inl h
  | setChatName k name =>
    simp only [ChatOp.run, setChatName] at h
    split at h
    · exact .inl h
    · rename_i c hg
      split at h
      · exact .inl h
      · -- the row had no name, or an empty one
        rename_i ht
        have h' := (title_setChat w _ jid).subst (motive := fun x => n ∈ x) h
        split at h'
        · rename_i hj
          obtain rfl : k = jid := (get_key hg).symm.trans hj
          have hname : truthy (w.title k) = false := by
            rw [World.title, hg]
            exact eq_false_of_ne_true ht
          cases h'
          exact .inr (by simp [ChatOp.titles, hname])
        · exact .inl h'

/-! ## One step -/

/-- The name that a step may give to a row. -/
def Step.titles (w : World) : Step → Option (Jid × String)
  | .chat op => op.titles w
  | _ => none

/-- The form of a LID that a step makes known. -/
def Step.target : Step → Option Jid
  | .learnLidMapping _ pn => some (normalizeJid pn)
  | .unifyLidDone _ pn => pn
  | _ => none

theorem merge_target (h : e.merge w = some (l, p)) : p = canonicalJid w l ∨ e.target = some p := by
  cases e with
  | learnLidMapping =>
    simp only [Step.merge] at h
    split at h
    · cases h; exact .inr rfl
    · cases h
  | unifyLid =>
    simp only [Step.merge] at h
    split at h
    · rename_i hl
      obtain ⟨q, hq, hp⟩ := Option.map_eq_some_iff.1 h
      cases hp
      refine .inl ?_
      rw [canonicalJid, if_pos hl, hq]
      rfl
    · cases h
  | unifyLidDone k pn =>
    cases pn with
    | none => cases h
    | some =>
      simp only [Step.merge] at h
      split at h
      · cases h; exact .inr rfl
      · cases h
  | _ => cases h

theorem mem_mergedChat {src : Chat} {dst : Option Chat} (h : n ∈ (mergedChat p src dst).name) :
    n ∈ dst.bind (·.name) ∨ n ∈ src.name := by
  cases dst with
  | none => exact .inr h
  | some =>
    rcases Option.or_eq_some_iff.1 h with h | ⟨-, h⟩
    · exact .inl h
    · exact .inr h

/-- A merge hands the name of the row it removes on to its target. -/
theorem title_applyMerge (h : n ∈ (applyMerge w l p).title jid) :
    n ∈ w.title jid ∨ jid = p ∧ n ∈ w.title l := by
  have hmsgs : (mergeMessages w l p).chats = w.chats := by
    unfold mergeMessages
    dsimp only
    split <;> rfl
  have hmoved : ∀ v : World, (movePersistedChat v l p).chats = v.chats := by
    intro v
    unfold movePersistedChat
    split <;> rfl
  unfold applyMerge at h
  split at h
  · exact .inl h
  · -- of the three parts of a merge only `mergeChats` touches the rows
    have hm : n ∈ (mergeChats (mergeMessages w l p) l p).title jid := by
      have heq := title_congr (hmoved (mergeChats (mergeMessages w l p) l p)) jid
      exact heq.subst (motive := fun x => n ∈ x) h
    rw [← title_congr hmsgs jid, ← title_congr hmsgs l]
    generalize mergeMessages w l p = v at hm ⊢
    unfold mergeChats at hm
    split at hm
    · exact .inl hm
    · rename_i src hsrc
      have hg : ((schedulePersistChats { v with
          chats := (v.chats.set (mergedChat p src (v.chats.get p))).erase l
          activeJid := if v.activeJid = some l then some p else v.activeJid }).chats.get jid) =
          ((v.chats.set (mergedChat p src (v.chats.get p))).erase l).get jid := rfl
      rw [World.title, hg, get_erase] at hm
      split at hm
      · cases hm
      · rw [get_set] at hm
        split at hm
        · rename_i hj
          have hjp : jid = p := by
            rw [← hj]
            unfold mergedChat
            split <;> rfl
          refine (mem_mergedChat hm).imp (fun h => ?_) fun h => ⟨hjp, ?_⟩
          · rwa [World.title, hjp]
          · rwa [World.title, hsrc]
        · exact .inl hm

theorem title_unify (he : e.unifies = true) (h : n ∈ (w.step e).title jid) :
    n ∈ w.title jid ∨ ∃ l, e.merge w = some (l, jid) ∧ n ∈ w.title l := by
  obtain ⟨w₁, w₃, h1, h3, hr⟩ := unify_step he
  have hlast : (w.step e).chats = w₃.chats := by
    rcases hr with hr | ⟨d, -, hr⟩
    · rw [hr]
    · rw [hr]
      exact (Outside.applyReceipt _ _ _ _).chats
  rw [title_congr hlast, title_congr h3.chats] at h
  cases hm : e.merge w with
  | none =>
    rw [hm, World.merged, title_congr h1.chats] at h
    exact .inl h
  | some c =>
    obtain ⟨l, p⟩ := c
    rw [hm] at h
    rcases title_applyMerge h with hn | ⟨rfl, hn⟩
    · exact .inl (by rwa [title_congr h1.chats] at hn)
    · exact .inr ⟨l, rfl, by rwa [title_congr h1.chats] at hn⟩

/-- The message store leaves the names alone. -/
theorem title_messages (hu : e.unifies = false) (hc : ∀ op, e ≠ .chat op) (hr : e ≠ .resetAll) (jid : Jid) :
    (w.step e).title jid = w.title jid := by
  cases hs : e.sync with
  | false => exact title_congr (Outside.queue hs hr).chats jid
  | true =>
    have hcall := calls_step hs (e.within_any w)
    generalize w.step e = v at hcall ⊢
    cases hcall with
    | store h => exact title_congr (Outside.of_acts h).chats jid
    | read h k n =>
      -- reading lowers the unread count of the row
      exact (title_decrementUnread _ k n jid).trans (title_congr (Outside.of_acts h).chats jid)
    | confirm t h => exact title_congr (Outside.of_acts h).chats jid
    | history => exact title_congr (Outside.addHistoryMessages _ _ _).chats jid
    | chat op => exact absurd rfl (hc op)
    | unify h => rw [hu] at h; cases h
    | _ => rfl

/-- **Where a name comes from**: the row had it, a call gave it, or a merge brought it. -/
theorem title_step (h : n ∈ (w.step e).title jid) :
    n ∈ w.title jid ∨ (jid, n) ∈ e.titles w ∨ ∃ l, e.merge w = some (l, jid) ∧ n ∈ w.title l := by
  by_cases hr : e = .resetAll
  · subst hr
    cases h
  · cases hu : e.unifies with
    | true => exact (title_unify hu h).imp_right Or.inr
    | false =>
      by_cases hc : ∃ op, e = .chat op
      · obtain ⟨op, rfl⟩ := hc
        exact (title_chatOp h).imp_right Or.inl
      · rw [title_messages hu (fun op ho => hc ⟨op, ho⟩) hr] at h
        exact .inl h

/-! ## Runs -/

/-- No LID stands for a room, and the name of a room is one of `D`. -/
structure Titled (D : Jid → String → Prop) (w : World) : Prop where
  keys : ∀ jid, canonicalJid w jid ≠ jid → isRoom (canonicalJid w jid) = false
  names : ∀ jid, isRoom jid = true → ∀ n ∈ w.title jid, D jid n

/-- The step names a room only as `D` allows, and maps no LID to a room. -/
def Step.Titles (D : Jid → String → Prop) (w : World) (e : Step) : Prop :=
  (∀ t ∈ e.titles w, isRoom t.1 = true → D t.1 t.2) ∧ ∀ p ∈ e.target, isRoom p = false

theorem Titled.merge (h : Titled D w) (he : e.Titles D w) (hm : e.merge w = some (l, p)) :
    p = l ∨ isRoom p = false := by
  rcases merge_target hm with rfl | ht
  · by_cases hl : canonicalJid w l = l
    · exact .inl hl
    · exact .inr (h.keys l hl)
  · exact .inr (he.2 p ht)

theorem titled_step (h : Titled D w) (he : e.Titles D w) : Titled D (w.step e) := by
  refine ⟨fun jid => ?_, fun jid hroom n hn => ?_⟩
  · by_cases hr : e = .resetAll
    · subst hr
      exact fun hne => absurd (by simp [canonicalJid, World.step, resetAll, clearAll]) hne
    · rw [canonicalJid_step hr]
      cases hm : e.merge w with
      | none => exact h.keys jid
      | some =>
        dsimp only
        split
        · rename_i hl
          exact fun hne => (h.merge he hm).resolve_left fun hp => hne (hp.trans hl.1)
        · exact h.keys jid
  · rcases title_step hn with hn | hn | ⟨l, hm, hn⟩
    · exact h.names jid hroom n hn
    · exact he.1 _ hn hroom
    · rcases h.merge he hm with rfl | hp
      · exact h.names jid hroom n hn
      · rw [hroom] at hp
        cases hp

/-! ## Events -/

/-- The event carries a `ChatDto` of the chat with this name. -/
def Event.Delivers (jid : Jid) (n : String) : Event → Prop
  | .history h => ∃ c ∈ h.chats, c.jid = jid ∧ c.name = some n
  | .call (.chat (.upsertChatFromDto d)) => d.jid = jid ∧ d.name = some n
  | _ => False

/-- A `ChatDto` of the chat with this name was delivered. -/
def NameDelivered (evs : List Event) (jid : Jid) (n : String) : Prop := ∃ ev ∈ evs, ev.Delivers jid n

/-- An incoming message with a push name finds a room named already. A call of a store gives no
name to a room but that of a `ChatDto`, and maps no LID to a room. -/
def RoomSafe (w : World) : Event → Prop
  | .message m =>
    isBlankMessage (canonicalMessage w m) = true ∨ m.fromMe = true ∨ truthy m.pushName = false ∨
      isRoom (canonicalJid w m.chatJid) = false ∨ truthy (w.title (canonicalJid w m.chatJid)) = true
  | .call e => e.Titles (fun jid n => (Event.call e).Delivers jid n) w
  | _ => True

theorem titles_unnamed {s : World} (ht : e.titles s = none) (hg : e.target = none) : e.Titles D s := by
  refine ⟨fun t h => ?_, fun p h => ?_⟩
  · rw [ht] at h; cases h
  · rw [hg] at h; cases h

theorem titles_senderSteps {s c : Jid} (he : e ∈ senderSteps s c) (v : World) : e.Titles D v := by
  unfold senderSteps at he
  split at he
  · rw [List.mem_singleton.1 he]
    exact titles_unnamed rfl rfl
  · cases he

theorem along_messageSteps {m : MessageDto} (h : RoomSafe w (.message m)) :
    Along World.step (Step.Titles D) w (messageSteps (canonicalMessage w m) m) := by
  have hjid := canonicalMessage_chatJid w m
  have hpush : (canonicalMessage w m).pushName = m.pushName ∧ (canonicalMessage w m).fromMe = m.fromMe := by
    unfold canonicalMessage
    dsimp only
    split <;> exact ⟨rfl, rfl⟩
  rw [RoomSafe] at h
  unfold messageSteps
  generalize canonicalMessage w m = cm at h hjid hpush ⊢
  split
  · trivial
  · rename_i hblank
    replace h := h.resolve_left hblank
    rw [along_append, along_append]
    refine ⟨⟨⟨titles_unnamed rfl rfl, titles_unnamed rfl rfl, trivial⟩, ?_⟩, ?_⟩
    · split
      · rename_i hnamed
        rw [hpush.1, hpush.2, Bool.and_eq_true, Bool.not_eq_true'] at hnamed
        refine ⟨⟨fun t ht hroom => ?_, fun p hp => (nomatch hp)⟩, trivial⟩
        simp only [Step.titles, ChatOp.titles] at ht
        split at ht
        · cases ht
        · rename_i hun
          -- adding the message and touching the row left the name as the event found it
          have hsame : ∀ t ts b, (World.run w [.addMessage cm, .chat (.touchChat cm.chatJid t ts b)]).title
              cm.chatJid = w.title cm.chatJid := fun t ts b =>
            (title_touchChat _ _ _ _ _ _).trans (title_congr (Outside.addMessage w cm).chats _)
          rw [show run World.step w _ = World.run w _ from rfl, hsame, hjid] at hun
          cases ht
          rw [hjid] at hroom
          rcases h with h | h | h | h
          · rw [hnamed.2] at h; cases h
          · rw [hnamed.1] at h; cases h
          · rw [hroom] at h; cases h
          · exact absurd h hun
      · trivial
    · exact ⟨titles_unnamed rfl rfl, along_of_forall (fun e he v => titles_senderSteps he v) _⟩

theorem along_historySteps {h : HistoryDto} (hw : Titled D w)
    (hd : ∀ jid n, (Event.history h).Delivers jid n → D jid n) :
    Along World.step (Step.Titles D) w (historySteps w h) := by
  refine along_of_forall (fun e he v => ?_) w
  cases handlerCall_of_mem (.history h) he with
  | @upsert _ c hc =>
    refine ⟨fun t ht hroom => ?_, fun p hp => (nomatch hp)⟩
    obtain ⟨n, hn, rfl⟩ := Option.map_eq_some_iff.1 ht
    -- a room stands under its own JID
    have hkey : canonicalJid w c.jid = c.jid := by
      by_contra hne
      have hfalse := hw.keys c.jid hne
      rw [hroom] at hfalse
      cases hfalse
    exact hd _ _ ⟨c, hc, hkey.symm, hn⟩
  | _ => exact titles_unnamed rfl rfl

theorem titled_handle (hw : Titled D w) (hs : RoomSafe w ev) (hd : ∀ jid n, ev.Delivers jid n → D jid n) :
    Titled D (w.handle ev) := by
  refine handle_inv (fun _ _ => titled_step) hw ?_
  cases ev with
  | message => exact along_messageSteps hs
  | history => exact along_historySteps hw hd
  | receipt =>
    simp only [Event.steps]
    split <;> exact ⟨titles_unnamed rfl rfl, trivial⟩
  | chatFlags => exact ⟨titles_unnamed rfl rfl, titles_unnamed rfl rfl, trivial⟩
  | messageUpdate u =>
    refine along_of_forall (fun e he v => ?_) w
    cases handlerCall_of_mem (.messageUpdate u) he <;> exact titles_unnamed rfl rfl
  | deleteForMe => exact ⟨titles_unnamed rfl rfl, titles_unnamed rfl rfl, trivial⟩
  | call => exact ⟨⟨fun t ht hroom => hd _ _ (hs.1 t ht hroom), hs.2⟩, trivial⟩

theorem titled_init : Titled D World.init :=
  ⟨fun jid hne => absurd (by simp [canonicalJid, World.init]) hne, fun _ _ _ hn => (nomatch hn)⟩

/-- **The name of a group or a newsletter was delivered for it.** -/
theorem room_names_delivered (evs : List Event) (ha : Along World.handle RoomSafe World.init evs) (jid : Jid)
    (hroom : isRoom jid = true) : ∀ n ∈ (World.init.handleAll evs).title jid, NameDelivered evs jid n := by
  have hall : Along World.handle (fun w ev => RoomSafe w ev ∧ ev ∈ evs) World.init evs :=
    ha.and (along_of_forall (fun _ he _ => he) _)
  have hend : Titled (NameDelivered evs) (World.init.handleAll evs) :=
    hall.inv (fun w ev hw h => titled_handle hw h.1 fun _ _ hd => ⟨ev, h.2, hd⟩) titled_init
  exact hend.names jid hroom

def roomG : Jid := "g@g.us"

/-- Ann, known by a LID, writes to a group. -/
def groupMessage : MessageDto :=
  { id := "X", chatJid := roomG, senderJid := "5@lid", fromMe := false, timestamp := 5
    pushName := some "Ann", text := some "hi" }

/-- The group is named by a history chunk before a participant writes and gets a phone number. -/
theorem room_names_delivered_team :
    let evs : List Event := [.history ⟨[⟨roomG, some "Team", none, 3, 0⟩], []⟩, .message groupMessage,
      .call (.unifyLidDone "5@lid" (some chatA))]
    (World.init.handleAll evs).title roomG = some "Team" ∧ NameDelivered evs roomG "Team" := by
  intro evs
  have hsafe : Along World.handle RoomSafe World.init evs := by
    refine ⟨trivial, ?_, ⟨fun t ht => (nomatch ht), fun p hp => ?_⟩, trivial⟩
    · refine Or.inr (Or.inr (Or.inr (Or.inr ?_)))
      decide +kernel
    · cases hp
      decide +kernel
  have hname : (World.init.handleAll evs).title roomG = some "Team" := by decide +kernel
  exact ⟨hname, room_names_delivered evs hsafe roomG (by decide +kernel) "Team" hname⟩

/-- A group that no `ChatDto` named takes the name of the first participant who writes. -/
theorem group_named_after_sender :
    isGroup roomG = true ∧ (World.init.handleAll [.message groupMessage]).title roomG = some "Ann" ∧
      ¬ NameDelivered [.message groupMessage] roomG "Ann" := by
  refine ⟨by decide +kernel, by decide +kernel, ?_⟩
  rintro ⟨ev, hev, hd⟩
  rwa [List.mem_singleton.1 hev] at hd

end Whatsvelte
