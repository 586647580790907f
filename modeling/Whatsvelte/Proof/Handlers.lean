import Whatsvelte.Spec.Events
import Whatsvelte.Proof.Outside

/-!
# A handler is a run of the stores

`Event.steps w ev` are the calls that the handler of `ev` makes. The handlers canonicalize
against the LID map that they find, and no call of theirs changes it, so that
`w.handle ev = w.run (ev.steps w)`: what holds along every run of the stores holds along
every run of events. `HandlerCall` says which calls each handler can make.
-/

namespace Whatsvelte

open List

variable {w v : World} {ev : Event} {e : Step}

/-- `unifySender`. -/
def senderSteps (senderJid chatJid : Jid) : List Step :=
  if senderJid ≠ "" ∧ senderJid ≠ chatJid then [.unifyLid senderJid none] else []

def messageSteps (cm : UiMessage) (m : MessageDto) : List Step :=
  if isBlankMessage cm then []
  else
    [.addMessage cm, .chat (.touchChat cm.chatJid cm.text cm.timestamp (!cm.fromMe))] ++
      (if truthy cm.pushName && !cm.fromMe then
        [.chat (.setChatName cm.chatJid (cm.pushName.getD ""))] else []) ++
      .unifyLid m.chatJid none :: senderSteps m.senderJid m.chatJid

def historySteps (w : World) (h : HistoryDto) : List Step :=
  h.chats.flatMap (fun c =>
      [.chat (.upsertChatFromDto { c with jid := canonicalJid w c.jid }), .unifyLid c.jid none]) ++
    h.messages.flatMap (fun m => senderSteps m.senderJid m.chatJid) ++
    [.addHistoryMessages (h.messages.map (canonicalMessage w))]

def updateStep (w : World) (u : MessageUpdateDto) : Step :=
  let jid := canonicalJid w u.chatJid
  let senderJid := canonicalJid w (u.senderJid.getD "")
  match u.kind with
  | .revoke => .applyRevoke jid u.targetId (some ⟨senderJid, u.fromMe, u.timestamp⟩)
  | .edit => .applyEdit jid u.targetId u.text u.timestamp
  | .reaction => .applyReaction jid u.targetId (normalizeJid senderJid) (u.text.getD "")

/-- The calls that the handler of an event makes. -/
def Event.steps (w : World) : Event → List Step
  | .message m => messageSteps (canonicalMessage w m) m
  | .history h => historySteps w h
  | .receipt r =>
    if isLid (canonicalJid w r.chatJid) then [.unifyLid r.chatJid (some r)]
    else [.applyReceipt (canonicalJid w r.chatJid) r.messageIds r.status]
  | .chatFlags jid flags => [.chat (.applyChatFlags (canonicalJid w jid) flags), .unifyLid jid none]
  | .messageUpdate u =>
    updateStep w u :: .unifyLid u.chatJid none :: senderSteps (u.senderJid.getD "") u.chatJid
  | .deleteForMe chatJid messageId =>
    [.removeMessage (canonicalJid w chatJid) messageId, .unifyLid chatJid none]
  | .call e => [e]

/-- The calls that a handler can make, whatever their order. -/
inductive HandlerCall (w : World) : Event → Step → Prop
  | unify (ev : Event) (jid : Jid) : HandlerCall w ev (.unifyLid jid none)
  | add (m : MessageDto) : HandlerCall w (.message m) (.addMessage (canonicalMessage w m))
  | touch (m : MessageDto) (text : Option String) (timestamp : ℤ) (incoming : Bool) :
      HandlerCall w (.message m) (.chat (.touchChat (canonicalMessage w m).chatJid text timestamp incoming))
  | name (m : MessageDto) (name : String) :
      HandlerCall w (.message m) (.chat (.setChatName (canonicalMessage w m).chatJid name))
  | upsert (h : HistoryDto) {c : ChatDto} (hc : c ∈ h.chats) :
      HandlerCall w (.history h) (.chat (.upsertChatFromDto { c with jid := canonicalJid w c.jid }))
  | batch (h : HistoryDto) :
      HandlerCall w (.history h) (.addHistoryMessages (h.messages.map (canonicalMessage w)))
  | waits (r : ReceiptDto) : HandlerCall w (.receipt r) (.unifyLid r.chatJid (some r))
  | applied (r : ReceiptDto) :
      HandlerCall w (.receipt r) (.applyReceipt (canonicalJid w r.chatJid) r.messageIds r.status)
  | flags (jid : Jid) (flags : ChatFlags) :
      HandlerCall w (.chatFlags jid flags) (.chat (.applyChatFlags (canonicalJid w jid) flags))
  | revoke (u : MessageUpdateDto) (hu : u.kind = .revoke) :
      HandlerCall w (.messageUpdate u) (.applyRevoke (canonicalJid w u.chatJid) u.targetId
        (some ⟨canonicalJid w (u.senderJid.getD ""), u.fromMe, u.timestamp⟩))
  | edit (u : MessageUpdateDto) :
      HandlerCall w (.messageUpdate u) (.applyEdit (canonicalJid w u.chatJid) u.targetId u.text u.timestamp)
  | reaction (u : MessageUpdateDto) (reactor : Jid) : HandlerCall w (.messageUpdate u)
      (.applyReaction (canonicalJid w u.chatJid) u.targetId reactor (u.text.getD ""))
  | remove (chatJid : Jid) (id : MsgId) :
      HandlerCall w (.deleteForMe chatJid id) (.removeMessage (canonicalJid w chatJid) id)
  | call (e : Step) : HandlerCall w (.call e) e

theorem call_senderSteps {s c : Jid} (h : e ∈ senderSteps s c) (ev : Event) : HandlerCall w ev e := by
  unfold senderSteps at h
  split at h
  · rw [mem_singleton.1 h]
    exact .unify ev s
  · cases h

theorem call_updateStep (w : World) (u : MessageUpdateDto) :
    HandlerCall w (.messageUpdate u) (updateStep w u) := by
  unfold updateStep
  split
  · exact .revoke u (by assumption)
  · exact .edit u
  · exact .reaction u _

theorem handlerCall_of_mem (ev : Event) (h : e ∈ ev.steps w) : HandlerCall w ev e := by
  cases ev with
  | message m =>
    simp only [Event.steps, messageSteps] at h
    split at h
    · cases h
    · rcases mem_append.1 h with h | h
      · rcases mem_append.1 h with h | h
        · rcases mem_pair.1 h with rfl | rfl
          · exact .add m
          · exact .touch m _ _ _
        · split at h
          · rw [mem_singleton.1 h]
            exact .name m _
          · cases h
      · rcases mem_cons.1 h with rfl | h
        · exact .unify _ _
        · exact call_senderSteps h _
  | history d =>
    simp only [Event.steps, historySteps, mem_append, mem_flatMap] at h
    rcases h with (⟨c, hc, h⟩ | ⟨m, -, h⟩) | h
    · rcases mem_pair.1 h with rfl | rfl
      · exact .upsert d hc
      · exact .unify _ _
    · exact call_senderSteps h _
    · rw [mem_singleton.1 h]
      exact .batch d
  | receipt r =>
    simp only [Event.steps] at h
    split at h
    · rw [mem_singleton.1 h]
      exact .waits r
    · rw [mem_singleton.1 h]
      exact .applied r
  | chatFlags jid flags =>
    rcases mem_pair.1 h with rfl | rfl
    · exact .flags jid flags
    · exact .unify _ _
  | messageUpdate u =>
    rcases mem_cons.1 h with rfl | h
    · exact call_updateStep w u
    · rcases mem_cons.1 h with rfl | h
      · exact .unify _ _
      · exact call_senderSteps h _
  | deleteForMe chatJid id =>
    rcases mem_pair.1 h with rfl | rfl
    · exact .remove chatJid id
    · exact .unify _ _
  | call e' =>
    rw [mem_singleton.1 h]
    exact .call e'

/-- The state after a run of events. -/
def World.handleAll (w : World) (evs : List Event) : World := Whatsvelte.run World.handle w evs

/-! ## The LID map -/

theorem lidToPn_unifyLid (w : World) (jid : Jid) (r : Option ReceiptDto) :
    (unifyLid w jid r).lidToPn = w.lidToPn := by
  unfold unifyLid
  split
  · exact lidToPn_thenReceipt w r
  · split
    · rw [lidToPn_thenReceipt, lidToPn_applyMerge]
    · split
      · exact lidToPn_thenReceipt w r
      · rfl

theorem lidToPn_unifySender (w : World) (s c : Jid) : (unifySender w s c).lidToPn = w.lidToPn := by
  unfold unifySender
  split
  · exact lidToPn_unifyLid w s none
  · rfl

theorem lidToPn_onHistoryChat (w : World) (c : ChatDto) : (onHistoryChat w c).lidToPn = w.lidToPn := by
  rw [onHistoryChat, lidToPn_unifyLid]
  exact (Unasked.of_chats (.chat w (.upsertChatFromDto _))).lidToPn

theorem canonicalMessage_congr (h : v.lidToPn = w.lidToPn) (d : MessageDto) :
    canonicalMessage v d = canonicalMessage w d := by
  unfold canonicalMessage
  rw [canonicalJid_congr h, canonicalJid_congr h]

theorem id_canonicalMessage (w : World) (d : MessageDto) : (canonicalMessage w d).id = d.id := by
  unfold canonicalMessage
  dsimp only
  split <;> rfl

theorem canonicalMessage_chatJid (w : World) (m : MessageDto) :
    (canonicalMessage w m).chatJid = canonicalJid w m.chatJid := by
  unfold canonicalMessage
  dsimp only
  split
  · rename_i h
    exact h.1.symm
  · rfl

/-! ## The runs -/

theorem run_append_steps (w : World) (es es' : List Step) :
    w.run (es ++ es') = (w.run es).run es' := run_append

theorem run_cons_step (w : World) (e : Step) (es : List Step) : w.run (e :: es) = (w.step e).run es := rfl

theorem run_senderSteps (w : World) (s c : Jid) : w.run (senderSteps s c) = unifySender w s c := by
  unfold senderSteps unifySender
  split <;> rfl

theorem onMessage_eq_run (w : World) (m : MessageDto) :
    onMessage w m = w.run (messageSteps (canonicalMessage w m) m) := by
  unfold onMessage messageSteps
  dsimp only
  generalize canonicalMessage w m = cm
  split
  · rfl
  · have hfirst : w.run [.addMessage cm, .chat (.touchChat cm.chatJid cm.text cm.timestamp (!cm.fromMe))] =
        touchChat (addMessage w cm) cm.chatJid cm.text cm.timestamp (!cm.fromMe) := rfl
    have hlast : ∀ u : World, u.run (.unifyLid m.chatJid none :: senderSteps m.senderJid m.chatJid) =
        unifySender (unifyLid u m.chatJid none) m.senderJid m.chatJid := by
      intro u
      rw [run_cons_step, run_senderSteps]
      rfl
    rw [run_append_steps, run_append_steps, hfirst, hlast]
    split <;> rfl

theorem onHistoryChats_eq_run (chats : List ChatDto) : ∀ v : World, v.lidToPn = w.lidToPn →
    chats.foldl onHistoryChat v = v.run (chats.flatMap (fun c =>
        [.chat (.upsertChatFromDto { c with jid := canonicalJid w c.jid }), .unifyLid c.jid none])) ∧
      (chats.foldl onHistoryChat v).lidToPn = w.lidToPn := by
  induction chats with
  | nil => exact fun v hv => ⟨rfl, hv⟩
  | cons c chats ih =>
    intro v hv
    have hc : onHistoryChat v c = v.run [.chat (.upsertChatFromDto { c with jid := canonicalJid w c.jid }),
        .unifyLid c.jid none] := by
      rw [← canonicalJid_congr hv]
      rfl
    obtain ⟨h1, h2⟩ := ih (onHistoryChat v c) (by rw [lidToPn_onHistoryChat, hv])
    refine ⟨?_, h2⟩
    rw [foldl_cons, h1, flatMap_cons, run_append_steps, hc]

theorem onHistoryMessages_eq_run (ms : List MessageDto) : ∀ v : World, v.lidToPn = w.lidToPn →
    onHistoryMessages v ms = (v.run (ms.flatMap fun m => senderSteps m.senderJid m.chatJid),
      ms.map (canonicalMessage w)) := by
  induction ms with
  | nil => exact fun v _ => rfl
  | cons m ms ih =>
    intro v hv
    have hs : (unifySender v m.senderJid m.chatJid).lidToPn = w.lidToPn := by
      rw [lidToPn_unifySender, hv]
    simp only [onHistoryMessages, ih _ hs, flatMap_cons, map_cons, run_append_steps,
      run_senderSteps, canonicalMessage_congr hv]

theorem onHistory_eq_run (w : World) (h : HistoryDto) : onHistory w h = w.run (historySteps w h) := by
  obtain ⟨hc, hl⟩ := onHistoryChats_eq_run h.chats w rfl
  unfold onHistory historySteps
  rw [onHistoryMessages_eq_run h.messages _ hl, hc, run_append_steps, run_append_steps]
  rfl

/-- **A handler is a run of the stores.** -/
theorem handle_eq_run (w : World) (ev : Event) : w.handle ev = w.run (ev.steps w) := by
  cases ev with
  | message m => exact onMessage_eq_run w m
  | history h => exact onHistory_eq_run w h
  | receipt =>
    simp only [World.handle, onReceipt, Event.steps]
    split <;> rfl
  | chatFlags => rfl
  | messageUpdate u =>
    have hsteps : w.run (Event.steps w (.messageUpdate u)) =
        (unifyLid (w.step (updateStep w u)) u.chatJid none).run
          (senderSteps (u.senderJid.getD "") u.chatJid) := rfl
    rw [hsteps, run_senderSteps]
    unfold World.handle onMessageUpdate updateStep
    dsimp only
    cases u.kind <;> rfl
  | _ => rfl

/-- An invariant of the stores is one of the events. -/
theorem handle_inv {I : World → Prop} {P : World → Step → Prop}
    (hstep : ∀ w e, I w → P w e → I (w.step e)) (hw : I w)
    (ha : Along World.step P w (ev.steps w)) : I (w.handle ev) := by
  rw [handle_eq_run]
  exact ha.inv hstep hw

end Whatsvelte
