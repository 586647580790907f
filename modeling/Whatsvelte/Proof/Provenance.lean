import Whatsvelte.Proof.Copies
import Whatsvelte.Proof.Handlers

/-!
# Where copies come from

A run of events from the empty store. A message enters it through a `wa://message` or
`wa://history` event, as the bubble of a send, or as the tombstone of a revoke; a rollback
puts back an object that was in memory before (`Genuine`). `holding_events` turns a property
of what enters (`Event.Feeds`) into one of all copies. It is used twice:

* `unsent_never_persisted`: no bubble that was not sent reaches the database;
* `addresses_survive`: a copy keeps the addresses that the server used, however often it was
  re-keyed.
-/

namespace Whatsvelte

variable {R S : UiMessage → Prop} {w v : World} {ev : Event}

/-! ## Runs of events -/

/-- Deliveries reach the stores through their handlers only. -/
def Event.handled : Event → Bool
  | .call (.addMessage _) => false
  | .call (.addHistoryMessages _) => false
  | _ => true

/-- A rollback puts back an object that was in memory in some state of the past. -/
def Event.PutsBack (past : List World) : Event → Prop
  | .call (.restoreMessage original) => ∃ v ∈ past, original ∈ messagesFor v original.msg.chatJid
  | _ => True

instance (past : List World) (ev : Event) : Decidable (ev.PutsBack past) := by
  unfold Event.PutsBack
  split <;> infer_instance

/-- A run of the client: `past` are the states before `w`. -/
def Genuine : List World → World → List Event → Prop
  | _, _, [] => True
  | past, w, ev :: evs =>
    (ev.handled = true ∧ ev.PutsBack (w :: past)) ∧ Genuine (w :: past) (w.handle ev) evs

instance instDecidableGenuine : ∀ past w evs, Decidable (Genuine past w evs)
  | _, _, [] => isTrue trivial
  | past, w, ev :: evs =>
    @instDecidableAnd _ _ inferInstance (instDecidableGenuine (w :: past) (w.handle ev) evs)

/-- The DTOs of an event. -/
def Event.dtos : Event → List MessageDto
  | .message d => [d]
  | .history h => h.messages
  | _ => []

/-- The messages that the client makes itself for an event: the bubble of a send and the
tombstone of a revoke, which is canonicalized against some state of the LID map. -/
inductive Event.Creates : Event → UiMessage → Prop
  | text (jid : Jid) (r : String) (now : ℤ) (text : String) (quoted : Option QuotedDto) :
      Creates (.call (.addOptimistic jid r now text quoted)) (textBubble jid r now text quoted)
  | media (jid : Jid) (r : String) (now : ℤ) (kind : MessageKind) (text thumbnail : Option String) :
      Creates (.call (.addOptimisticMedia jid r now kind text thumbnail))
        (mediaBubble jid r now kind text thumbnail)
  | revoke (jid : Jid) (id : MsgId) (f : Fallback) :
      Creates (.call (.applyRevoke jid id (some f))) (tombstone ⟨jid, id⟩ f)
  | update (u : MessageUpdateDto) (hu : u.kind = .revoke) (w : World) :
      Creates (.messageUpdate u) (tombstone ⟨canonicalJid w u.chatJid, u.targetId⟩
        ⟨canonicalJid w (u.senderJid.getD ""), u.fromMe, u.timestamp⟩)

/-- What enters with an event has the property, and its steps of a send keep it. -/
structure Event.Feeds (R : UiMessage → Prop) (ev : Event) : Prop where
  dtos : ∀ d ∈ ev.dtos, ∀ w, R (canonicalMessage w d)
  creates : ∀ m, ev.Creates m → R m
  sent : ∀ m, R m → R { m with status := some .sent }
  confirm : ∀ jid r realId, ev = .call (.confirmOptimistic jid r realId) → ∀ m (s : MessageStatus), R m →
    m.id = tempId r → 0 < s.rank → R { m with id := realId, status := some s }
  fail : ∀ m, R m → isTmp m.id = true → R { m with status := some .failed }

theorem earlyStatus_rank (w : World) (realId : MsgId) : 0 < (earlyStatus w realId).rank := by
  unfold earlyStatus
  cases (w.earlyReceipts.get realId).map (·.2) with
  | none => exact Nat.one_pos
  | some =>
    simp only [Option.elim_some]
    split
    · rename_i hs; exact Nat.zero_lt_of_lt hs
    · exact Nat.one_pos

theorem ClosedUnder.startUnread (hK : ClosedUnder R S) {m : UiMessage} (h : R m) : R (startUnread m) := by
  unfold Whatsvelte.startUnread
  split
  · exact hK.unread m true h
  · exact h

section Rule

variable (hK : ClosedUnder R S)
include hK

omit hK in
/-- The sends, the rollbacks and the revokes of a run. -/
theorem brings_call {e : Step} (h : Holding R S w) (he : (Event.call e).handled = true)
    (hf : (Event.call e).Feeds R) (hr : ∀ o, e = .restoreMessage o → R o.msg) : Brings R w e := by
  cases e with
  | addMessage | addHistoryMessages => cases he
  | addOptimistic jid r now text quoted =>
    have hb := hf.creates _ (.text jid r now text quoted)
    exact ⟨hb, hf.sent _ hb⟩
  | addOptimisticMedia jid r now kind text thumbnail =>
    have hb := hf.creates _ (.media jid r now kind text thumbnail)
    exact ⟨hb, hf.sent _ hb⟩
  | confirmOptimistic jid r realId =>
    exact fun x hx => hf.confirm jid r realId rfl x.msg _ (h.find hx) (findId_id hx) (earlyStatus_rank w realId)
  | failOptimistic jid r =>
    exact fun x hx => hf.fail x.msg (h.find hx) (by rw [findId_id hx]; exact isTmp_tempId r)
  | applyRevoke jid id =>
    rintro - f rfl
    exact hf.creates _ (.revoke jid id f)
  | restoreMessage o => exact hr o rfl
  | _ => trivial

theorem brings_event (h : Holding R S w) (hf : ev.Feeds R) (hh : ev.handled = true)
    (hr : ∀ o, ev = .call (.restoreMessage o) → R o.msg) : Along World.step (Brings R) w (ev.steps w) := by
  by_cases hcall : ∃ e, ev = .call e
  · obtain ⟨e, rfl⟩ := hcall
    exact ⟨brings_call h hh hf fun o ho => hr o (by rw [ho]), trivial⟩
  · refine along_of_forall (fun e he v => ?_) w
    cases handlerCall_of_mem _ he with
    | add d =>
      have hd := hK.startUnread (hf.dtos d List.mem_cons_self w)
      exact ⟨hd, hf.sent _ hd⟩
    | batch =>
      intro m hm
      obtain ⟨d, hd, rfl⟩ := List.mem_map.1 hm
      exact hf.dtos d hd w
    | revoke u hu =>
      rintro - f ⟨⟩
      exact hf.creates _ (.update u hu w)
    | call => exact absurd ⟨e, rfl⟩ hcall
    | _ => trivial

/-- **The rule**: in a run of the client, all copies have the property if what the events
deliver has it. -/
theorem holding_events : ∀ (evs : List Event) (past : List World) (w : World), Genuine past w evs →
    (∀ v ∈ past, Holding R S v) → Inv w → Holding R S w → (∀ ev ∈ evs, ev.Feeds R) →
    Holding R S (w.handleAll evs) := by
  intro evs
  induction evs with
  | nil => exact fun _ _ _ _ _ h _ => h
  | cons ev evs ih =>
    rintro past w ⟨⟨hh, hp⟩, hg⟩ hpast hi h hf
    have hall : ∀ v ∈ w :: past, Holding R S v := List.forall_mem_cons.2 ⟨h, hpast⟩
    have hr : ∀ o, ev = .call (.restoreMessage o) → R o.msg := by
      rintro o rfl
      obtain ⟨v, hv, ho⟩ := hp
      exact (hall v hv).resident _ o ho
    have hnext : Inv (w.handle ev) ∧ Holding R S (w.handle ev) :=
      handle_inv (I := fun w => Inv w ∧ Holding R S w)
        (fun w e h hb => ⟨inv_step h.1 e, holding_step hK h.1.wf h.2 hb⟩) ⟨hi, h⟩
        (brings_event hK h (hf ev List.mem_cons_self) hh hr)
    exact ih (w :: past) (w.handle ev) hg hall hnext.1 hnext.2
      fun ev' he => hf ev' (List.mem_cons_of_mem _ he)

end Rule

/-! ## Unsent bubbles -/

/-- A message that the server has not accepted, or a bubble. -/
def Unsent (m : UiMessage) : Prop :=
  isTmp m.id = true ∨ m.status = some .sending ∨ m.status = some .failed

/-- In memory, only bubbles are being sent or have failed. -/
def BubbleOrSent (m : UiMessage) : Prop :=
  isTmp m.id = true ∨ ¬ Unsent m

theorem not_unsent_of_status {m : UiMessage} (h : isTmp m.id = false) {s : MessageStatus}
    (hs : 0 < s.rank) : ¬ Unsent { m with status := some s } := by
  rintro (ht | ht | ht)
  · rw [h] at ht; cases ht
  · cases ht; cases hs
  · cases ht; cases hs

/-- What is not a bubble has no more to show than its status. -/
theorem bubbleOrSent_of_status (m : UiMessage) {s : MessageStatus} (hs : 0 < s.rank) :
    BubbleOrSent { m with status := some s } := by
  cases ht : isTmp m.id with
  | true => exact .inl ht
  | false => exact .inr (not_unsent_of_status ht hs)

theorem bubbleOrSent_of_none {m : UiMessage} (hs : m.status = none) : BubbleOrSent m := by
  cases ht : isTmp m.id with
  | true => exact .inl ht
  | false =>
    refine .inr ?_
    rintro (h | h | h)
    · rw [ht] at h; cases h
    · rw [hs] at h; cases h
    · rw [hs] at h; cases h

theorem unsent_congr {m m' : UiMessage} (hid : m'.id = m.id) (hs : m'.status = m.status) :
    (BubbleOrSent m → BubbleOrSent m') ∧ (¬ Unsent m → ¬ Unsent m') := by
  unfold BubbleOrSent Unsent
  rw [hid, hs]
  exact ⟨id, id⟩

theorem closedUnder_unsent : ClosedUnder BubbleOrSent (fun m => ¬ Unsent m) where
  load m h := Or.inr h
  persist m h hp := by
    rcases h with h | h
    · simp [persistable, h] at hp
    · exact h
  patch fn m m' h := by
    cases fn with
    | revoke | edit | reaction => cases h; exact unsent_congr rfl rfl
    | receipt =>
      simp only [Patch.apply] at h
      split at h
      · rename_i hs
        cases h
        have hpos := Nat.zero_lt_of_lt hs
        refine ⟨fun _ => bubbleOrSent_of_status m hpos, fun hm => not_unsent_of_status ?_ hpos⟩
        exact Bool.eq_false_iff.2 fun ht => hm (.inl ht)
      · cases h
  unread m b := (unsent_congr rfl rfl).1
  media m media thumbnail := (unsent_congr rfl rfl).1
  rekey m p := unsent_congr rfl rfl

theorem status_canonicalMessage (w : World) (d : MessageDto) : (canonicalMessage w d).status = none := by
  unfold canonicalMessage
  dsimp only
  split <;> rfl

theorem feeds_bubbleOrSent (ev : Event) : ev.Feeds BubbleOrSent where
  dtos d _ w := bubbleOrSent_of_none (status_canonicalMessage w d)
  creates m hm := by
    cases hm with
    | text jid r | media jid r => exact .inl (isTmp_tempId r)
    | _ => exact bubbleOrSent_of_none rfl
  sent m _ := bubbleOrSent_of_status m Nat.one_pos
  confirm _ _ realId _ m _ _ _ hs := bubbleOrSent_of_status { m with id := realId } hs
  fail _ _ ht := .inl ht

/-- **Unsent bubbles never reach the database**: in every run of the client, no stored record
and no queued write has the id of a bubble or the status of a message that was not sent. -/
theorem unsent_never_persisted (evs : List Event) (hg : Genuine [] World.init evs) :
    (∀ m ∈ (World.init.handleAll evs).msgs.rows, ¬ Unsent m) ∧
      ∀ o, .put o ∈ (World.init.handleAll evs).q.pending.rows ∨
        .add o ∈ (World.init.handleAll evs).q.pending.rows → ¬ Unsent o.msg := by
  have h := holding_events closedUnder_unsent evs [] World.init hg nofun inv_init holding_init
    fun ev _ => feeds_bubbleOrSent ev
  refine ⟨h.msgs, ?_⟩
  rintro o (ho | ho)
  · exact h.pending _ ho
  · exact h.pending _ ho

/-- A send fails, an edit of the bubble is rolled back, a receipt names it, and it is sent
again and confirmed. -/
def rolledBackSend : List Event :=
  [.call (.addOptimistic chatA "1" 7 "hi" none), .call (.failOptimistic chatA "1"),
    .call (.applyEdit chatA "tmp-1" (some "ho") 9),
    .call (.restoreMessage ⟨1, { textBubble chatA "1" 7 "hi" none with status := some .failed }⟩),
    .call (.applyReceipt chatA ["tmp-1"] .read), .call (.confirmOptimistic chatA "1" "S"),
    .call .flushPendingWrites, .call .openNext, .call .openNext, .call .advance, .call .advance]

theorem unsent_never_persisted_rollback :
    (World.init.handleAll rolledBackSend).msgs.rows ≠ [] ∧
      ∀ m ∈ (World.init.handleAll rolledBackSend).msgs.rows, ¬ Unsent m :=
  ⟨by decide +kernel, (unsent_never_persisted rolledBackSend (by decide +kernel)).1⟩

/-! ## Addresses -/

/-- What the stores may make of the message `m₀` in a run of the events. -/
inductive Derived (evs : List Event) (m₀ : UiMessage) : UiMessage → Prop
  | base : Derived evs m₀ m₀
  | patch {m m' : UiMessage} (fn : Patch) (h : Derived evs m₀ m) (hm : fn.apply m = some m') :
      Derived evs m₀ m'
  | unread {m : UiMessage} (b : Bool) (h : Derived evs m₀ m) : Derived evs m₀ { m with unread := some b }
  | media {m : UiMessage} (media : Option MediaDto) (thumbnail : Option String) (h : Derived evs m₀ m) :
      Derived evs m₀ { m with media := media, thumbnail := thumbnail }
  | status {m : UiMessage} (s : MessageStatus) (h : Derived evs m₀ m) :
      Derived evs m₀ { m with status := some s }
  /-- Only a bubble gets another id, and only by a confirm of the run. -/
  | confirm {m : UiMessage} {jid : Jid} {r : String} {realId : MsgId} (s : MessageStatus)
      (h : Derived evs m₀ m) (ht : m.id = tempId r) (he : .call (.confirmOptimistic jid r realId) ∈ evs) :
      Derived evs m₀ { m with id := realId, status := some s }
  | rekey {m : UiMessage} (p : Jid) (h : Derived evs m₀ m) : Derived evs m₀ (rekey m.chatJid p m)

/-- The id is what it was, or it was the one of a bubble and a confirm of the run replaced it. -/
def Renamed (evs : List Event) (id id' : MsgId) : Prop :=
  id' = id ∨ isTmp id = true ∧ ∃ jid r, .call (.confirmOptimistic jid r id') ∈ evs

/-- A copy of a message, in memory, in the write queue, in a flush that is running, or stored. -/
inductive World.Copy (w : World) : UiMessage → Prop
  | memory {jid : Jid} {o : Obj} (h : o ∈ messagesFor w jid) : w.Copy o.msg
  | put {o : Obj} (h : .put o ∈ w.q.pending.rows) : w.Copy o.msg
  | add {o : Obj} (h : .add o ∈ w.q.pending.rows) : w.Copy o.msg
  | flushPut {s : ℕ} {ops : Table PendingOp.key} {o : Obj} (hj : .flush s ops ∈ w.jobs)
      (h : .put o ∈ ops.rows) : w.Copy o.msg
  | flushAdd {s : ℕ} {ops : Table PendingOp.key} {o : Obj} (hj : .flush s ops ∈ w.jobs)
      (h : .add o ∈ ops.rows) : w.Copy o.msg
  | stored {m : UiMessage} (h : m ∈ w.msgs.rows) : w.Copy m

theorem Holding.copy {c : UiMessage} (h : Holding R R w) (hc : w.Copy c) : R c := by
  cases hc with
  | memory ho => exact h.resident _ _ ho
  | put ho | add ho => exact h.pending _ ho
  | flushPut hj ho | flushAdd hj ho => exact h.jobs _ hj _ ho
  | stored hm => exact h.msgs _ hm

variable {evs : List Event} {m m₀ m' : UiMessage}

/-- What stems from an event of the run. -/
def Stems (evs : List Event) (m : UiMessage) : Prop :=
  ∃ ev ∈ evs, ∃ m₀, ((∃ d ∈ ev.dtos, ∃ w, m₀ = canonicalMessage w d) ∨ ev.Creates m₀) ∧ Derived evs m₀ m

theorem Stems.imp (h : Stems evs m) (hd : ∀ m₀, Derived evs m₀ m → Derived evs m₀ m') : Stems evs m' := by
  obtain ⟨ev, he, m₀, h0, hm⟩ := h
  exact ⟨ev, he, m₀, h0, hd m₀ hm⟩

theorem closedUnder_stems : ClosedUnder (Stems evs) (Stems evs) where
  load _ h := h
  persist _ h _ := h
  patch fn _ _ hm := ⟨fun h => h.imp fun _ h => .patch fn h hm, fun h => h.imp fun _ h => .patch fn h hm⟩
  unread _ b h := h.imp fun _ h => .unread b h
  media _ media thumbnail h := h.imp fun _ h => .media media thumbnail h
  rekey _ p := ⟨fun h => h.imp fun _ h => .rekey p h, fun h => h.imp fun _ h => .rekey p h⟩

theorem feeds_stems {ev : Event} (he : ev ∈ evs) : ev.Feeds (Stems evs) where
  dtos d hd w := ⟨ev, he, _, .inl ⟨d, hd, w, rfl⟩, .base⟩
  creates m hm := ⟨ev, he, m, .inr hm, .base⟩
  sent _ h := h.imp fun _ h => .status .sent h
  confirm _ _ _ hev _ s h ht _ := h.imp fun _ h => .confirm s h ht (hev ▸ he)
  fail _ h _ := h.imp fun _ h => .status .failed h

/-- The addresses of a canonicalized message. -/
theorem proto_canonicalMessage (w : World) (d : MessageDto) :
    protoChatJid (canonicalMessage w d) = d.chatJid ∧
      protoSenderJid (canonicalMessage w d) = d.senderJid := by
  unfold canonicalMessage
  dsimp only
  split
  · exact ⟨rfl, rfl⟩
  · refine ⟨?_, ?_⟩
    · unfold protoChatJid
      dsimp only
      split
      · rfl
      · rename_i hj; exact not_not.1 hj
    · unfold protoSenderJid
      dsimp only
      split
      · rfl
      · rename_i hj; exact not_not.1 hj

/-- An update leaves the addresses alone. -/
theorem Patch.apply_proto {p : Patch} {m' : UiMessage} (h : p.apply m = some m') :
    protoChatJid m' = protoChatJid m ∧ protoSenderJid m' = protoSenderJid m := by
  cases p with
  | revoke | edit | reaction => cases h; exact ⟨rfl, rfl⟩
  | receipt =>
    simp only [Patch.apply] at h
    split at h
    · cases h; exact ⟨rfl, rfl⟩
    · cases h

/-- A re-keyed message remembers the first address. -/
theorem protoChatJid_rekey (p : Jid) (m : UiMessage) :
    protoChatJid (rekey m.chatJid p m) = protoChatJid m := by
  unfold protoChatJid rekey
  cases m.wireChatJid <;> rfl

/-- What is derived from a message has its addresses. -/
theorem Derived.proto (h : Derived evs m₀ m) :
    protoChatJid m = protoChatJid m₀ ∧ protoSenderJid m = protoSenderJid m₀ := by
  induction h with
  | base => exact ⟨rfl, rfl⟩
  | patch fn _ hm => rwa [(Patch.apply_proto hm).1, (Patch.apply_proto hm).2]
  | rekey p _ ih => exact ⟨(protoChatJid_rekey p _).trans ih.1, ih.2⟩
  | _ => assumption

/-- What is derived from a message has its id, unless that is the id of a bubble. -/
theorem Derived.renamed (h : Derived evs m₀ m) : Renamed evs m₀.id m.id := by
  induction h with
  | base => exact .inl rfl
  | @patch m m' fn _ hm ih =>
    have hid : m'.id = m.id := congrArg Key.id (Patch.apply_key hm).1
    rwa [hid]
  | confirm s _ ht he ih =>
    refine .inr ⟨?_, _, _, he⟩
    rcases ih with ih | ⟨ih, -⟩
    · rw [← ih, ht]
      exact isTmp_tempId _
    · exact ih
  | _ => assumption

/-- **Protocol addressing survives unification**: in every run of the client, a copy is derived
from a DTO that the run ingested, and has its addresses and its id; or it is derived from the
bubble of a send or the tombstone of a revoke of the run. -/
theorem addresses_survive (evs : List Event) (hg : Genuine [] World.init evs) {c : UiMessage}
    (hc : (World.init.handleAll evs).Copy c) :
    (∃ d ∈ evs.flatMap Event.dtos, (∃ w, Derived evs (canonicalMessage w d) c) ∧
      protoChatJid c = d.chatJid ∧ protoSenderJid c = d.senderJid ∧ Renamed evs d.id c.id) ∨
    ∃ ev ∈ evs, ∃ m, ev.Creates m ∧ Derived evs m c ∧
      protoChatJid c = m.chatJid ∧ protoSenderJid c = m.senderJid ∧ Renamed evs m.id c.id := by
  have h := (holding_events closedUnder_stems evs [] World.init hg nofun inv_init holding_init
    fun ev he => feeds_stems he).copy hc
  obtain ⟨ev, he, m₀, ⟨d, hd, w, rfl⟩ | hm, hder⟩ := h
  · obtain ⟨h1, h2⟩ := proto_canonicalMessage w d
    refine .inl ⟨d, List.mem_flatMap.2 ⟨ev, he, hd⟩, ⟨w, hder⟩, hder.proto.1.trans h1, hder.proto.2.trans h2, ?_⟩
    have := hder.renamed
    rwa [id_canonicalMessage] at this
  · obtain ⟨h1, h2⟩ : protoChatJid m₀ = m₀.chatJid ∧ protoSenderJid m₀ = m₀.senderJid := by
      cases hm <;> exact ⟨rfl, rfl⟩
    exact .inr ⟨ev, he, m₀, hm, hder, hder.proto.1.trans h1, hder.proto.2.trans h2, hder.renamed⟩

/-- A message of a LID chat is merged into the phone-number chat, patched and stored. -/
def mergedMessage : List Event :=
  [.message { id := "X", chatJid := "7@lid", senderJid := "7@lid", fromMe := false, timestamp := 5 },
    .call (.learnLidMapping "7@lid" chatA), .call .openNext, .call .openNext, .call .advance,
    .call .advance, .call (.applyEdit chatA "X" (some "hi") 9), .call .flushPendingWrites,
    .call .openNext, .call .advance]

theorem addresses_survive_merge :
    ∃ c, (World.init.handleAll mergedMessage).msgs.get ⟨chatA, "X"⟩ = some c ∧
      protoChatJid c = "7@lid" ∧ protoSenderJid c = "7@lid" := by
  have hs : ((World.init.handleAll mergedMessage).msgs.get ⟨chatA, "X"⟩).isSome = true := by
    decide +kernel
  obtain ⟨c, hc⟩ := Option.isSome_iff_exists.1 hs
  refine ⟨c, hc, ?_⟩
  rcases addresses_survive mergedMessage (by decide +kernel) (.stored (Table.get_mem hc)) with
    ⟨d, hd, -, hchat, hsender, -⟩ | ⟨ev, hev, m, hm, -⟩
  · simp only [mergedMessage, Event.dtos, List.flatMap_cons, List.flatMap_nil, List.append_nil,
      List.mem_singleton] at hd
    rw [hchat, hsender, hd]
    exact ⟨rfl, rfl⟩
  · -- nothing is sent or revoked in the run
    simp only [mergedMessage, List.mem_cons, List.not_mem_nil, or_false] at hev
    rcases hev with rfl | rfl | rfl | rfl | rfl | rfl | rfl | rfl | rfl | rfl <;> cases hm

end Whatsvelte
