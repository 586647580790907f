import Whatsvelte.Proof.Coherence

/-!
# Both copies of a message

`Both H k w` says that the effective record of `k` has the property `H`, and that the
resident copy has it too, unless it is a redelivery that waits for the stored copy. A
property is `Lasting` when a redelivery keeps it, from which media is taken over.

`both_sync` and `both_advance`: a step that is safe for `k` keeps a lasting property of
both copies, unless it carries an update of `k`.
-/

namespace Whatsvelte

variable {w v : World} {k : Key} {e : Step} {o : Obj} {m : UiMessage} {H : UiMessage → Prop}

/-! ## Properties of both copies -/

/-- What the stores take over from a redelivery keeps the property. -/
structure Lasting (H : UiMessage → Prop) : Prop where
  media : ∀ m (media : Option MediaDto) (thumbnail : Option String), media.isSome = true →
    H m → H { m with media := media, thumbnail := thumbnail }
  adopted : ∀ stored fresh, H stored → H (adopted stored fresh)

/-- The effective record of `k` has the property, and so does the resident copy, unless
it is a redelivery that waits for the stored copy. -/
structure Both (H : UiMessage → Prop) (k : Key) (w : World) : Prop where
  record : ∃ m, w.eff k = some m ∧ H m
  resident : ∀ o, (w.slot k).resident = some o → H o.msg ∨ Adopting w k o

/-- A write to both sides. A message that is not persisted leaves the record as it was. -/
theorem both_writes {s : Slot} (ho : H o.msg) (hs : persistable o.msg = true ∨ ∃ m, s.stored = some m ∧ H m)
    (hw : Slot.Writes o s (v.slot k)) : Both H k v := by
  refine ⟨?_, fun x hx => ?_⟩
  · have he : v.eff k = putEff o.msg s.stored := hw.1
    rw [he, putEff]
    split
    · exact ⟨o.msg, rfl, ho⟩
    · rename_i hp
      exact hs.resolve_left hp
  · rcases hw.2 with h | h <;> rw [h] at hx <;> cases hx
    exact .inl ho

theorem Both.keeps (h : Both H k w) (hk : Slot.Keeps (w.slot k) (v.slot k))
    (ha : ∀ o, (w.slot k).resident = some o → Adopting w k o → Adopting v k o) : Both H k v := by
  obtain ⟨⟨m, hm, hc⟩, hr⟩ := h
  refine ⟨⟨m, ?_, hc⟩, fun o ho => ?_⟩
  · have he : v.eff k = w.eff k := hk.1
    rw [he, hm]
  · rcases hk.2 with h2 | h2
    · rw [h2] at ho
      exact (hr o ho).imp_right (ha o ho)
    · rw [h2] at ho; cases ho

/-- Code that is not about the message, while the resident copy waits for nothing. It may flag
the message only if `P` holds. -/
theorem both_calm {P : Prop} {s : Slot} (hun : P → ∀ m (b : Bool), H m → H { m with unread := some b })
    (hm : ∃ m, s.stored = some m ∧ H m)
    (hr : ∀ o, s.resident = some o → H o.msg) (hc : Slot.Calm P s (v.slot k)) : Both H k v := by
  rcases hc with ⟨h1, h2⟩ | ⟨hP, x, o, b, hx, ho, hw⟩
  · obtain ⟨m, hm, hc⟩ := hm
    have he : v.eff k = s.stored := h1
    refine ⟨⟨m, he.trans hm, hc⟩, fun o ho => ?_⟩
    rcases h2 with h2 | h2 <;> rw [h2] at ho
    · exact .inl (hr o ho)
    · cases ho
  · exact both_writes (by rw [ho]; exact hun hP _ b (hr x hx)) (.inr hm) hw

/-- The stored copy is adopted, and written back if there is news in it. -/
theorem both_adopted {P : Prop} [Decidable P] (ho : H o.msg) (hm : ∃ m, w.eff k = some m ∧ H m)
    (hres : (v.slot k).resident = some o ∨ (v.slot k).resident = none)
    (heff : v.eff k = if P then putEff o.msg (w.eff k) else w.eff k) : Both H k v := by
  by_cases hP : P
  · rw [if_pos hP] at heff
    exact both_writes (s := w.slot k) ho (.inr hm) ⟨heff, hres⟩
  · rw [if_neg hP] at heff
    refine ⟨by rwa [heff], fun x hx => ?_⟩
    rcases hres with hres | hres <;> rw [hres] at hx <;> cases hx
    exact .inl ho

/-- An update of the message, applied to both copies. -/
theorem both_updated {H' : UiMessage → Prop} {fn : Patch} {f : Option Fallback} (ht : Both H k w)
    (hr : ∀ o, (w.slot k).resident = some o → H o.msg) (happ : ∀ m m', H m → fn.apply m = some m' → H' m')
    (hkeep : ∀ x m, H x → fn.apply x = none → H m → H' m)
    (hwrite : ∀ x m m', H x → fn.apply x = some m' → H m → persistable m' = true ∨ H' m)
    (hu : Updated fn f k w v) : Both H' k v := by
  obtain ⟨m, hm, hc⟩ := ht.record
  cases hu with
  | resident x o hx ho hw =>
    refine both_writes (happ _ _ (hr x hx) ho) ?_ hw
    exact (hwrite _ m _ (hr x hx) ho hc).imp_right fun h => ⟨m, hm, h⟩
  | unchanged x hx ho hk =>
    -- a receipt that says less than the resident copy, hence less than the record
    refine both_calm False.elim ⟨m, hm, hkeep _ m (hr x hx) ho hc⟩
      (fun o ho' => ?_) (.inl hk)
    rw [hx] at ho'
    cases ho'
    exact hkeep _ _ (hr x hx) ho (hr x hx)
  | stored hx hs =>
    have he : v.eff k = patchedEff fn (w.eff k) := congrArg Slot.stored hs
    refine ⟨?_, fun o ho => by rw [hs] at ho; cases ho⟩
    rw [he, hm]
    cases ha : fn.apply m with
    | none => exact ⟨m, by simp [patchedEff, ha], hkeep m m hc ha hc⟩
    | some m' => exact ⟨m', by simp [patchedEff, ha], happ m m' hc ha⟩
  | tombstone f o hx he => rw [he] at hm; cases hm

/-! ## When a step is safe -/

/-- Whether a redelivery of `k` waits for its stored copy. -/
def World.adopting (w : World) (k : Key) : Bool := w.jobs.any (·.adopts k)

theorem Adopting.adopting (h : Adopting w k o) : w.adopting k = true := by
  obtain ⟨fresh, -, hk, hd⟩ := h
  exact List.any_eq_true.2 ⟨_, hd.mem, decide_eq_true hk⟩

theorem Both.settled (h : Both H k w) (hw : ¬ w.adopting k = true) :
    ∀ o, (w.slot k).resident = some o → H o.msg := fun o ho =>
  (h.resident o ho).resolve_right fun ha => hw ha.adopting

/-- A message that is known but not resident is delivered again: its chat is not marked
exhausted, its record is not only a queued insert, and no bubble takes it for its echo. -/
def RedeliverSafe (w : World) (m : UiMessage) : Prop :=
  persistable m = true ∧ w.exhausted m.chatJid = false ∧
    (m.fromMe && (messagesFor w m.chatJid).any (matchesEcho m)) = false ∧
    match w.q.pending.get m.key with
    | some (.add _) => (w.base m.key).isSome = true
    | _ => True

instance (w : World) (m : UiMessage) : Decidable (RedeliverSafe w m) := by
  unfold RedeliverSafe
  have : Decidable (match w.q.pending.get m.key with
    | some (.add _) => (w.base m.key).isSome = true
    | _ => True) := by split <;> infer_instance
  infer_instance

/-- The step writes the record of `k` anew, or removes it. -/
def Step.replaces (w : World) (k : Key) : Step → Bool
  | .addHistoryMessages list => list.any (fun m => m.key = k) && (w.slot k).resident.isNone
  | .confirmOptimistic jid _ realId => (⟨jid, realId⟩ : Key) = k
  | .restoreMessage original => original.key = k
  | .removeMessage jid targetId => (⟨jid, targetId⟩ : Key) = k
  | _ => false

/-- A synchronous step that leaves both copies of `k` alike, if it is no update of `k`. -/
@[mk_iff]
structure StepSafe (k : Key) (w : World) (e : Step) : Prop where
  /-- A redelivery that waits for its stored copy is left alone. -/
  waiting : w.adopting k = true → e.about w k = false ∧ e.flags k = false
  replaces : e.replaces w k = false
  delivers : ∀ m ∈ e.delivers, m.key = k → (w.slot k).resident = none → RedeliverSafe w m
  merge : ∀ c ∈ e.merge w, k.chatJid ≠ c.1 ∧ k.chatJid ≠ c.2
  waited : ∀ d ∈ e.waited w, k.id ∉ d.messageIds

instance (k : Key) (w : World) (e : Step) : Decidable (StepSafe k w e) :=
  decidable_of_iff _ (stepSafe_iff k w e).symm

/-- A move of the queue that leaves both copies of `k` alike. -/
@[mk_iff]
structure MoveSafe (k : Key) (w : World) : Prop where
  queue : QueueSafe k w
  adopt : AdoptSafe k w
  rows : ∀ r ∈ w.rowsRead, r.2.key = k → (w.slot k).resident = none → RowSafe w r.1 k
  /-- While a redelivery waits for its stored copy, its chat is not read. -/
  reads : w.adopting k = true → w.reads k.chatJid = false

instance (k : Key) (w : World) : Decidable (MoveSafe k w) :=
  decidable_of_iff _ (moveSafe_iff k w).symm

/-! ## One step -/

theorem update_of_not_about (h : e.about w k = false) : e.update k = none := by
  cases e with
  | applyRevoke | applyEdit | applyReaction => exact if_neg (of_decide_eq_false h)
  | applyReceipt => exact if_neg (by simpa [Step.about] using h)
  | _ => rfl

/-- An update is about the message, so no redelivery waits for its stored copy. -/
theorem Both.of_update (h : Both H k w) (hs : StepSafe k w e) {fn : Patch} (hu : e.update k = some fn) :
    ∀ o, (w.slot k).resident = some o → H o.msg :=
  h.settled fun hw => by
    rw [update_of_not_about (hs.waiting hw).1] at hu
    cases hu

/-- What is known of a message, if it is neither a queued write nor only a queued insert,
is on its way to the store. -/
theorem base_of_known {n : UiMessage} (hn : w.eff k = some n) (hput : ∀ a, w.q.pending.get k ≠ some (.put a))
    (hadd : ∀ a, w.q.pending.get k = some (.add a) → (w.base k).isSome = true) : w.base k = some n := by
  rw [eff_apply] at hn
  cases hp : w.q.pending.get k with
  | none => rwa [hp] at hn
  | some op =>
    cases op with
    | put a => exact absurd hp (hput a)
    | add a =>
      obtain ⟨s, hs⟩ := Option.isSome_iff_exists.1 (hadd a hp)
      rw [hp, hs] at hn
      exact hs.trans hn
    | del => rw [hp] at hn; cases hn

theorem both_delivered
    (hmedia : ∀ x : Obj, (w.slot m.key).resident = some x → ∀ media thumbnail, media.isSome = true →
      H x.msg → H { x.msg with media := media, thumbnail := thumbnail })
    (hadopt : ∀ stored fresh, H stored → H (adopted stored fresh)) (ht : Both H m.key w)
    (hr : ∀ o, (w.slot m.key).resident = some o → H o.msg)
    (hs : (w.slot m.key).resident = none → RedeliverSafe w m) (hd : Delivered m w v)
    (hsync : Sync w v) : Both H m.key v := by
  obtain ⟨n, hn, hc⟩ := ht.record
  cases hd with
  | known _ hslot => exact ht.keeps (hslot ▸ .refl _) fun _ _ ha => ha.sync hsync
  | media x o hx hm ho hw =>
    refine both_writes ?_ (.inr ⟨n, hn, hc⟩) hw
    rw [ho]
    exact hmedia x hx _ _ hm (hr x hx)
  | echo o hx hme hany =>
    obtain ⟨-, -, hecho, -⟩ := hs hx
    rw [hme, hany] at hecho
    cases hecho
  | new o hx hb ho hi =>
    obtain ⟨hp, hex, -, hadd⟩ := hs hx
    have hkey : o.key = m.key := by rw [Obj.key, ho, startUnread_key]
    have hchat : o.msg.chatJid = m.chatJid := by rw [ho, startUnread_chatJid]
    have hop : persistable o.msg = true := by
      obtain ⟨u, hu⟩ := startUnread_fields m
      rwa [ho, hu]
    rw [← hkey] at hn hadd ⊢
    cases hi with
    | plain hexh =>
      rw [hchat, hex, hop] at hexh
      rcases hexh with h | h <;> cases h
    | waits hput hjobs hres heff =>
      -- the record is stored: the insert leaves it alone, and it will be adopted
      have hb := base_of_known hn hput fun a ha => by rwa [ha] at hadd
      refine ⟨⟨n, ?_, hc⟩, fun x hx' => .inr ?_⟩
      · rw [heff, insertEff, if_pos hop, hb]
        split
        · exact hn
        · rfl
      · rcases hres with hres | hres <;> rw [hres] at hx' <;> cases hx'
        exact ⟨o, rfl, rfl, due_new hjobs hsync.msgs (by rw [hb]; rfl)⟩
    | trimmed a hput _ hres heff =>
      exact ⟨⟨n, heff.trans hn, hc⟩, fun x hx' => by rw [hres] at hx'; cases hx'⟩
    | adopts a o' hput ho' _ hres heff =>
      have ha : n = a.msg := by
        rw [eff_apply, hput] at hn
        cases hn; rfl
      subst ha
      exact both_adopted (by rw [ho']; exact hadopt _ _ hc) ⟨_, hn, hc⟩ hres heff

/-- **A synchronous step** that carries no update of the message. -/
theorem both_sync (hun : e.flags k = true → ∀ m (b : Bool), H m → H { m with unread := some b })
    (hdel : ∀ m ∈ e.delivers, m.key = k → Lasting H) (h : w.Wf) (hid : k.id ≠ "") (htmp : isTmp k.id = false)
    (he : e.sync = true) (hu : e.update k = none) (ht : Both H k w) (hs : StepSafe k w e) :
    Both H k (w.step e) := by
  have hsync := (sync_step h he).1
  by_cases hw : w.adopting k = true
  · obtain ⟨h1, h2⟩ := hs.waiting hw
    exact ht.keeps ((quiet_step h hid he h1).calm.keeps (by rw [h2]; simp)) fun _ _ ha => ha.sync hsync
  -- from here on the resident copy waits for nothing
  have hr := ht.settled hw
  cases happens h hid he with
  | quiet hq => exact both_calm hun ht.record hr hq
  | delivered m hd hm hnew =>
    subst hm
    have hH := hdel m hd rfl
    exact both_delivered (fun _ _ => hH.media _) hH.adopted ht hr (hs.delivers m hd rfl) hnew hsync
  | history list w₁ he' hp hq =>
    rcases hp with hp | ⟨hres, o, ho, hok, -, -⟩
    · rw [hp] at hq; exact both_calm hun ht.record hr hq
    · subst he'
      have hrep := hs.replaces
      simp only [Step.replaces, hres, Option.isNone_none, Bool.and_true, List.any_eq_false,
        decide_eq_true_eq] at hrep
      exact absurd hok (hrep o.msg ho)
  | confirmed jid r x o he' hj =>
    subst he' hj
    have hrep := hs.replaces
    simp [Step.replaces] at hrep
  | failed jid r _ hi => rw [hi, isTmp_tempId] at htmp; cases htmp
  | updated fn hu' => rw [hu] at hu'; cases hu'
  | removed he' =>
    subst he'
    have hrep := hs.replaces
    simp [Step.replaces] at hrep
  | restored o he' hk =>
    subst he' hk
    have hrep := hs.replaces
    simp [Step.replaces] at hrep
  | unified w₁ w₂ w₃ _ h1 hm _ _ h3 hrec =>
    have hslot : w₃.slot k = w.slot k := by
      rcases hm with hm | ⟨l, p, hlp, hkc, -⟩
      · rw [h3.slot, hm, h1.slot]
      · have hne := hs.merge (l, p) hlp
        exact absurd hkc (by simp [hne.1, hne.2])
    rcases hrec with hrec | ⟨d, hd, hmem, -⟩
    · rw [hslot] at hrec
      exact ht.keeps hrec fun _ _ ha => ha.sync hsync
    · exact absurd hmem (hs.waited d hd)

/-- **A move of the queue**, which may insert a tombstone. -/
theorem both_advance
    (hun : w.reads k.chatJid = true → ∀ m (b : Bool), H m → H { m with unread := some b })
    (hadopt : ∀ stored fresh, H stored → H (adopted stored fresh)) (h : Sound w) (hid : k.id ≠ "") (ht : Both H k w)
    (hs : MoveSafe k w) (hp : Step.advance.plants w = some k → ∀ f, H (tombstone k f)) :
    Both H k (advance w) := by
  obtain ⟨m, hm, hc⟩ := ht.record
  cases advanced h hid hs.queue with
  | quiet hno hcalm =>
    by_cases hw : w.adopting k = true
    · refine ht.keeps (hcalm.keeps (by rw [hs.reads hw]; simp)) fun o ho ha => ?_
      rcases ha.advance h hs.queue with ⟨tid, ch, later, fresh, htx, href, hfk, hsome⟩ | ha
      · obtain ⟨s, hs⟩ := Option.isSome_iff_exists.1 hsome
        exact absurd ⟨tid, fresh, ch, later, s, o, htx, hfk, hs, ho, href.symm⟩ hno
      · exact ha
    · exact both_calm hun ht.record (ht.settled hw) hcalm
  | tombstone tid f o ch later htx _ ho hw =>
    exact both_writes (by rw [ho]; exact hp (by simp [Step.plants, htx]) f) (.inr ⟨m, hm, hc⟩) hw
  | loaded r hr hk hres hcalm =>
    subst hk
    have heff := eff_of_row (row_of_rowsRead hr) (hs.rows r hr rfl hres)
    refine both_calm hun ht.record (fun o ho => ?_) hcalm
    cases ho
    rw [heff] at hm
    cases hm
    exact hc
  | adopted tid fresh cur o s ch later htx hk hs' hcur href ho hres heff =>
    have hsafe := hs.adopt
    rw [AdoptSafe, htx] at hsafe
    have hsm : m = s := by
      rw [hsafe hk cur hcur href s hs'] at hm
      cases hm; rfl
    subst hsm
    exact both_adopted (by rw [ho]; exact hadopt _ _ hc) ⟨m, hm, hc⟩ hres heff

theorem both_openNext (h : Sound w) (ht : Both H k w) : Both H k (openNext w) :=
  ht.keeps (slot_openNext h k ▸ .refl _) fun _ _ ho => ho.openNext h

end Whatsvelte
