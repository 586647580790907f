import Whatsvelte.Spec.Wire

/-!
# One conversation, one key on the wire

`one_key_iff`: the payloads of a sequence of library events carry one key exactly where they are about
one conversation, if and only if every two of them are `Keyed`. Between two payloads other than
delete-for-me this says that users who agree up to their first `:` or `.` are the same. A delete-for-me
carries the JID as it is: it goes with the others only if its JID has no agent, no device and no `:` or
`.` in its user.
-/

namespace Whatsvelte.Wire

open List

variable {jid : Jid} {p q : Payload} {e : Event}

/-! ## Texts -/

/-- The character ends the user in `normalize_chat_jid`. -/
def IsSep (c : Char) : Prop := c = ':' ∨ c = '.'

instance (c : Char) : Decidable (IsSep c) := inferInstanceAs (Decidable (_ ∨ _))

/-- The user up to its first `:` or `.`. -/
def Jid.base (jid : Jid) : List Char := jid.user.takeWhile fun c => c ≠ ':' && c ≠ '.'

/-- What `normalize_chat_jid` keeps of a text that goes on behind the user with a separator. -/
theorem takeWhile_user_append {user rest : List Char} (hrest : ∀ c ∈ rest.head?, IsSep c) :
    (user ++ rest).takeWhile (fun c => c ≠ ':' && c ≠ '.') = user.takeWhile fun c => c ≠ ':' && c ≠ '.' := by
  have hnil : rest.takeWhile (fun c => c ≠ ':' && c ≠ '.') = [] := by
    cases rest with
    | nil => rfl
    | cons c =>
      rw [takeWhile_cons_of_neg]
      rcases hrest c rfl with rfl | rfl <;> decide
  rw [takeWhile_append, hnil, append_nil]
  split
  · rename_i hlen
    exact ((List.takeWhile_prefix _).eq_of_length hlen).symm
  · rfl

theorem at_notMem_repr (n : ℕ) : '@' ∉ n.repr.toList := by
  intro h
  rw [Nat.repr, String.toList_ofList] at h
  have := Nat.isDigit_of_mem_toDigits (by decide) (by decide) h
  revert this
  decide

theorem at_notMem_suffix (jid : Jid) : '@' ∉ jid.suffix := by
  rw [Jid.suffix, mem_append]
  rintro (h | h)
  · split at h
    · rcases mem_cons.1 h with h | h
      · exact absurd h (by decide)
      · exact at_notMem_repr _ h
    · cases h
  · split at h
    · rcases mem_cons.1 h with h | h
      · exact absurd h (by decide)
      · exact at_notMem_repr _ h
    · cases h

theorem head_suffix (jid : Jid) : ∀ c ∈ jid.suffix.head?, IsSep c := by
  intro c hc
  rw [Jid.suffix] at hc
  split at hc
  · cases hc
    exact .inr rfl
  · split at hc
    · cases hc
      exact .inl rfl
    · cases hc

theorem at_notMem_server (server : Server) : '@' ∉ server.asStr.toList := by
  cases server <;> decide

theorem asStr_injective {server server' : Server} (h : server.asStr.toList = server'.asStr.toList) :
    server = server' := by
  have hall : ∀ s ∈ Server.all, ∀ s' ∈ Server.all, s.asStr.toList = s'.asStr.toList → s = s' := by
    decide +kernel
  have hmem : ∀ s : Server, s ∈ Server.all := by
    intro s
    cases s <;> decide
  exact hall server (hmem _) server' (hmem _) h

/-- A key: what it shows of the user, and the server. -/
def Jid.key (jid : Jid) (shown : List Char) : List Char :=
  if jid.user = [] then jid.server.asStr.toList else shown ++ '@' :: jid.server.asStr.toList

theorem normalizeChatJid_of_text {rest : List Char} (hat : '@' ∉ rest) (hrest : ∀ c ∈ rest.head?, IsSep c) :
    normalizeChatJid (jid.key (jid.user ++ rest)) = jid.key jid.base := by
  rw [Jid.key, Jid.key]
  split
  · rw [normalizeChatJid, splitOnce_of_notMem (at_notMem_server _)]
  · have hpre : '@' ∉ jid.user ++ rest := by
      rw [mem_append]
      rintro (h | h)
      · exact jid.user_at h
      · exact hat h
    rw [normalizeChatJid, splitOnce_append hpre]
    simp only [head?_splitOnP, Option.getD_some, Bool.not_or, ← decide_not]
    rw [takeWhile_user_append hrest]
    rfl

/-- Agent and device are not in the key. -/
theorem normalizeChatJid_text (jid : Jid) : normalizeChatJid jid.text = jid.key jid.base :=
  normalizeChatJid_of_text (at_notMem_suffix jid) (head_suffix jid)

theorem normalizeChatJid_adText (jid : Jid) : normalizeChatJid jid.adText = jid.key jid.base := by
  refine normalizeChatJid_of_text ?_ fun c hc => ?_
  · rw [mem_cons, mem_append, mem_cons]
    rintro (h | h | h | h)
    · exact absurd h (by decide)
    · exact at_notMem_repr _ h
    · exact absurd h (by decide)
    · exact at_notMem_repr _ h
  · cases hc
    exact .inr rfl

/-! ## Payloads -/

/-- What a payload shows of the user. -/
def Payload.shown (p : Payload) : List Char :=
  if p.topic = .deleteForMe then p.chat.user ++ p.chat.suffix else p.chat.base

theorem chatJid_of_mem (h : p ∈ e.payloads) : p.chatJid = p.chat.key p.shown := by
  cases e with
  | message chat =>
    simp only [Event.payloads] at h
    split_ifs at h
    · rw [mem_singleton.1 h]
      exact normalizeChatJid_text chat
    · cases h
    · rw [mem_singleton.1 h]
      exact normalizeChatJid_text chat
    · cases h
  | historySync =>
    obtain ⟨conv, -, hp⟩ := mem_flatMap.1 h
    have hid : normalizeChatJid conv.id = conv.chat.key conv.chat.base := by
      rw [Conversation.id]
      split
      · exact normalizeChatJid_adText _
      · exact normalizeChatJid_text _
    rcases mem_cons.1 hp with rfl | hp
    · exact hid
    · obtain ⟨-, -, rfl⟩ := mem_map.1 hp
      exact hid
  | receipt chat =>
    simp only [Event.payloads] at h
    split_ifs at h
    · rw [mem_singleton.1 h]
      exact normalizeChatJid_text chat
    · cases h
  | chatFlags jid =>
    rw [mem_singleton.1 h]
    exact normalizeChatJid_text jid
  | deleteMessageForMe =>
    rw [mem_singleton.1 h]
    rfl

theorem at_notMem_shown (p : Payload) : '@' ∉ p.shown := by
  rw [Payload.shown]
  split
  · rw [mem_append]
    rintro (h | h)
    · exact p.chat.user_at h
    · exact at_notMem_suffix _ h
  · exact fun h => p.chat.user_at ((takeWhile_sublist _).subset h)

/-- Two payloads have the same key: the same server, and no user or the same part of one. -/
theorem key_eq_iff : p.chat.key p.shown = q.chat.key q.shown ↔
    p.chat.server = q.chat.server ∧ (p.chat.user = [] ↔ q.chat.user = []) ∧
      (p.chat.user ≠ [] → p.shown = q.shown) := by
  have hat : ∀ (jid : Jid) (l : List Char), '@' ∈ l ++ '@' :: jid.server.asStr.toList := by simp
  rw [Jid.key, Jid.key]
  split <;> split <;> rename_i hp hq
  · simp only [hp, hq, ne_eq, not_true_eq_false, false_implies, and_true, iff_self]
    exact ⟨asStr_injective, fun h => by rw [h]⟩
  · refine ⟨fun h => ?_, fun h => absurd (h.2.1.1 hp) hq⟩
    exact absurd (h ▸ hat q.chat q.shown) (at_notMem_server _)
  · refine ⟨fun h => ?_, fun h => absurd (h.2.1.2 hq) hp⟩
    exact absurd (h ▸ hat p.chat p.shown) (at_notMem_server _)
  · refine ⟨fun h => ?_, fun h => by rw [h.1, h.2.2 hp]⟩
    obtain ⟨hs, hserver⟩ := append_cons_inj_left (at_notMem_shown p) (at_notMem_shown q) h
    exact ⟨asStr_injective hserver, by simp [hp, hq], fun _ => hs⟩

/-! ## The result -/

/-- The JIDs are of one conversation. -/
def Jid.Same (jid jid' : Jid) : Prop := jid.user = jid'.user ∧ jid.server = jid'.server

instance (jid jid' : Jid) : Decidable (jid.Same jid') := inferInstanceAs (Decidable (_ ∧ _))

/-- The text has no agent and no device, and the user no `:` and no `.`. -/
def Jid.Bare (jid : Jid) : Prop := jid.suffix = [] ∧ ∀ c ∈ jid.user, ¬ IsSep c

instance (jid : Jid) : Decidable jid.Bare := inferInstanceAs (Decidable (_ ∧ _))

/-- One conversation, one key. -/
def OneKey (es : List Event) : Prop :=
  ∀ p ∈ es.flatMap Event.payloads, ∀ q ∈ es.flatMap Event.payloads,
    p.chatJid = q.chatJid ↔ p.chat.Same q.chat

instance (es : List Event) : Decidable (OneKey es) := inferInstanceAs (Decidable (∀ p ∈ _, _))

/-- The condition on two payloads of one server whose JIDs have a user. Two delete-for-me payloads:
the same user comes with the same agent and device, and different users are different with theirs. A
delete-for-me and another payload: with the same user it is `Bare`, and with different users it is not
what the other's user is up to its first `:` or `.`. Two others: their users are not different and
the same up to there. -/
def Keyed (p q : Payload) : Prop :=
  p.chat.user ≠ [] → q.chat.user ≠ [] → p.chat.server = q.chat.server →
    match decide (p.topic = .deleteForMe), decide (q.topic = .deleteForMe) with
    | true, true =>
      (p.chat.user = q.chat.user → p.chat.suffix = q.chat.suffix) ∧
        (p.chat.user ≠ q.chat.user → p.chat.user ++ p.chat.suffix ≠ q.chat.user ++ q.chat.suffix)
    | true, false =>
      (p.chat.user = q.chat.user → p.chat.Bare) ∧
        (p.chat.user ≠ q.chat.user → ¬ (p.chat.Bare ∧ p.chat.user = q.chat.base))
    -- the same two the other way round
    | false, true => True
    | false, false => p.chat.user ≠ q.chat.user → p.chat.base ≠ q.chat.base

theorem not_isSep_of_mem_base {c : Char} (h : c ∈ jid.base) : ¬ IsSep c := by
  have hc := mem_takeWhile_imp h
  rintro (rfl | rfl) <;> exact absurd hc (by decide)

theorem Jid.Bare.base_eq (h : jid.Bare) : jid.base = jid.user := by
  refine takeWhile_eq_self_iff.2 fun c hc => ?_
  have := h.2 c hc
  simpa [IsSep] using this

/-- A delete-for-me shows what another payload shows. -/
theorem raw_eq_base_iff {jid' : Jid} :
    jid.user ++ jid.suffix = jid'.base ↔ jid.Bare ∧ jid.user = jid'.base := by
  constructor
  · intro h
    have hsep : ∀ c ∈ jid.user ++ jid.suffix, ¬ IsSep c := fun c hc =>
      not_isSep_of_mem_base (by rwa [← h])
    have hsuffix : jid.suffix = [] := by
      cases hs : jid.suffix with
      | nil => rfl
      | cons c =>
        have hc := head_suffix jid c (by rw [hs]; rfl)
        exact absurd hc (hsep c (by rw [hs]; simp))
    rw [hsuffix, append_nil] at h
    exact ⟨⟨hsuffix, fun c hc => hsep c (mem_append_left _ hc)⟩, h⟩
  · rintro ⟨hb, hu⟩
    rw [hb.1, append_nil, hu]

theorem keyed_iff (hp : p.chat.user ≠ []) (hq : q.chat.user ≠ [])
    (hs : p.chat.server = q.chat.server) (hpq : p.topic = .deleteForMe ∨ q.topic ≠ .deleteForMe) :
    Keyed p q ↔ (p.shown = q.shown ↔ p.chat.user = q.chat.user) := by
  simp only [Keyed, hp, hq, hs, ne_eq, not_false_eq_true, forall_const, Payload.shown]
  by_cases hpt : p.topic = .deleteForMe
  · by_cases hqt : q.topic = .deleteForMe
    · simp only [hpt, hqt, decide_true, if_true]
      by_cases hu : p.chat.user = q.chat.user <;> simp [hu]
    · simp only [hpt, hqt, decide_true, decide_false, if_true, if_false, raw_eq_base_iff]
      by_cases hu : p.chat.user = q.chat.user
      · have hb : p.chat.Bare → q.chat.user = q.chat.base := fun h => by
          have := h.base_eq
          rw [Jid.base, hu] at this
          exact this.symm
        simp only [hu, forall_const, not_true_eq_false, false_implies, and_true, iff_true]
        exact ⟨fun h => ⟨h, hb h⟩, fun h => h.1⟩
      · simp [hu]
  · have hqt : q.topic ≠ .deleteForMe := hpq.resolve_left hpt
    simp only [hpt, hqt, decide_false, if_false]
    by_cases hu : p.chat.user = q.chat.user
    · simp [hu, Jid.base]
    · simp [hu]

/-- For two payloads, in the order in which `Keyed` looks at them. -/
theorem same_key_iff (hp : p.chatJid = p.chat.key p.shown) (hq : q.chatJid = q.chat.key q.shown)
    (hpq : p.topic = .deleteForMe ∨ q.topic ≠ .deleteForMe) :
    (p.chatJid = q.chatJid ↔ p.chat.Same q.chat) ↔ Keyed p q := by
  rw [hp, hq, key_eq_iff, Jid.Same]
  by_cases hs : p.chat.server = q.chat.server
  · by_cases hpu : p.chat.user = []
    · by_cases hqu : q.chat.user = []
      · simp [Keyed, hs, hpu, hqu]
      · have hqu' : ([] : List Char) ≠ q.chat.user := fun h => hqu h.symm
        simp [Keyed, hs, hpu, hqu, hqu']
    · by_cases hqu : q.chat.user = []
      · simp [Keyed, hs, hpu, hqu]
      · rw [keyed_iff hpu hqu hs hpq]
        simp [hs, hpu, hqu]
  · simp [Keyed, hs]

/-- **One conversation, one key on the wire.** The payloads of the events carry the same key exactly
where their JIDs have the same user and server, if and only if every two of them are `Keyed`. -/
theorem one_key_iff (es : List Event) :
    OneKey es ↔ ∀ p ∈ es.flatMap Event.payloads, ∀ q ∈ es.flatMap Event.payloads, Keyed p q := by
  have hkey : ∀ p ∈ es.flatMap Event.payloads, p.chatJid = p.chat.key p.shown := by
    intro p hp
    obtain ⟨e, -, hp⟩ := List.mem_flatMap.1 hp
    exact chatJid_of_mem hp
  constructor
  · intro h p hp q hq
    by_cases hpq : p.topic = .deleteForMe ∨ q.topic ≠ .deleteForMe
    · exact (same_key_iff (hkey p hp) (hkey q hq) hpq).1 (h p hp q hq)
    · obtain ⟨hpt, hqt⟩ := not_or.1 hpq
      simp [Keyed, hpt, not_not.1 hqt]
  · intro h p hp q hq
    by_cases hpq : p.topic = .deleteForMe ∨ q.topic ≠ .deleteForMe
    · exact (same_key_iff (hkey p hp) (hkey q hq) hpq).2 (h p hp q hq)
    · obtain ⟨hpt, hqt⟩ := not_or.1 hpq
      have hqp := (same_key_iff (hkey q hq) (hkey p hp) (Or.inr hpt)).2 (h q hq p hp)
      exact ⟨fun hk => ⟨(hqp.1 hk.symm).1.symm, (hqp.1 hk.symm).2.symm⟩,
        fun hsame => (hqp.2 ⟨hsame.1.symm, hsame.2.symm⟩).symm⟩

/-- A phone number on its seventh device, and two LIDs with dots. -/
def phone : Jid := ⟨"12345".toList, .Pn, 0, 7, by decide⟩

def lid₁ : Jid := ⟨"100.1".toList, .Lid, 0, 0, by decide⟩

def lid₂ : Jid := ⟨"100.2".toList, .Lid, 0, 0, by decide⟩

/-- A message and its delete-for-me have two keys; messages of two LIDs have one. -/
theorem wire_key_splits_and_collides :
    ¬ OneKey [.message phone false false true, .deleteMessageForMe phone] ∧
    Jid.fromStr "100.1@lid".toList = some lid₁ ∧ Jid.fromStr "100.2@lid".toList = some lid₂ ∧
    ¬ OneKey [.message lid₁ false false true, .message lid₂ false false true] := by
  decide +kernel

end Whatsvelte.Wire
