import Whatsvelte.Proof.OutstandingJobs

/-!
# Memory and database

A resident message and its effective record are written by different code. `Coh w k`
says that they agree, or that the resident copy is a redelivery that waits for the
stored copy it will adopt. Most steps keep it as they are. The ones that do not are
named by `CohSafe`: a delivery into a chat that is marked exhausted, a row read while a
write of it is outstanding, an adoption that is late or brings only a thumbnail, and a
merge of two chats that both know the id.

`coherent_of_safe`: in every state that a run of safe steps reaches from the empty
store, once nothing is outstanding, memory and database agree.
-/

namespace Whatsvelte

variable {w v : World} {k : Key} {e : Step} {o : Obj} {l p : Jid} {id : MsgId}

/-- The resident copy `o` waits for the stored copy that it will adopt. -/
def Adopting (w : World) (k : Key) (o : Obj) : Prop :=
  ∃ fresh : Obj, fresh.ref = o.ref ∧ fresh.key = k ∧ Due (fun r => r.isSome) (.adopt fresh) k w

/-- The resident copy of `k`, if it is to be persisted, is the effective record. -/
def Coh (w : World) (k : Key) : Prop :=
  ∀ o, (w.slot k).resident = some o → persistable o.msg = true →
    w.eff k = some o.msg ∨ Adopting w k o

theorem Adopting.sync (h : Adopting w k o) (hs : Sync w v) : Adopting v k o := by
  obtain ⟨fresh, h1, h2, h3⟩ := h
  exact ⟨fresh, h1, h2, h3.sync hs⟩

theorem Adopting.openNext (ha : Adopting w k o) (h : Sound w) : Adopting (Whatsvelte.openNext w) k o := by
  obtain ⟨fresh, h1, h2, h3⟩ := ha
  obtain ⟨-, hj, hm, -⟩ := openNext_spec h
  exact ⟨fresh, h1, h2, h3.of_jobs hj hm⟩

/-! ## What keeps the two sides together -/

theorem coh_of_none (h : (v.slot k).resident = none) : Coh v k := by
  intro o ho
  rw [h] at ho
  cases ho

/-- A write to both sides. -/
theorem coh_of_writes {s : Slot} (h : Slot.Writes o s (v.slot k)) : Coh v k := by
  rcases h.2 with h2 | h2
  · intro x hx hp
    rw [h2] at hx
    cases hx
    left
    have he : v.eff k = putEff o.msg s.stored := h.1
    rw [he, putEff, if_pos hp]
  · exact coh_of_none h2

theorem Coh.keeps (h : Coh w k) (hk : Slot.Keeps (w.slot k) (v.slot k))
    (ha : ∀ o, Adopting w k o → Adopting v k o) : Coh v k := by
  rcases hk.2 with h2 | h2
  · intro o ho hp
    have he : v.eff k = w.eff k := hk.1
    rw [h2] at ho
    rw [he]
    exact (h o ho hp).imp_right (ha o)
  · exact coh_of_none h2

theorem Coh.calm {P : Prop} (h : Coh w k) (hc : Slot.Calm P (w.slot k) (v.slot k))
    (ha : ∀ o, Adopting w k o → Adopting v k o) : Coh v k := by
  rcases hc with hk | ⟨-, x, o, b, -, -, hw⟩
  · exact h.keeps hk ha
  · exact coh_of_writes hw

/-- A slot that holds the same message twice, possibly flagged since. -/
theorem coh_of_calm {P : Prop} {s : Slot} (hs : ∀ o, s.resident = some o → persistable o.msg = true →
    s.stored = some o.msg) (hc : Slot.Calm P s (v.slot k)) : Coh v k := by
  rcases hc with ⟨h1, h2⟩ | ⟨-, x, o, b, -, -, hw⟩
  · rcases h2 with h2 | h2
    · intro o ho hp
      have he : v.eff k = s.stored := h1
      rw [h2] at ho
      exact .inl (he.trans (hs o ho hp))
    · exact coh_of_none h2
  · exact coh_of_writes hw

theorem Coh.updated {fn : Patch} {f : Option Fallback} (h : Coh w k) (hu : Updated fn f k w v)
    (ha : ∀ o, Adopting w k o → Adopting v k o) : Coh v k := by
  cases hu with
  | resident x o hx ho hw => exact coh_of_writes hw
  | unchanged x hx ho hk => exact h.keeps hk ha
  | stored hx hs => exact coh_of_none (by rw [hs])
  | tombstone f o hx he hf ho hw => exact coh_of_writes hw

/-- A temporary id is never persisted. -/
theorem coh_of_tmp (h : isTmp k.id = true) : Coh v k := by
  intro o ho hp
  have hi : o.msg.id = k.id := findId_id ho
  simp [persistable, hi, h] at hp

/-! ## When a step is safe -/

/-- The redelivered copy brings the stored one a thumbnail, but no media: what is adopted
is then shown and not written. -/
def OnlyThumbnail (stored fresh : UiMessage) : Prop :=
  (adopted stored fresh).media = stored.media ∧ adopted stored fresh ≠ stored

instance (stored fresh : UiMessage) : Decidable (OnlyThumbnail stored fresh) :=
  inferInstanceAs (Decidable (_ ∧ _))

/-- A message that is not resident is delivered: if the chat is marked exhausted nothing
is known of the message, and a queued write of it is not short of a thumbnail. -/
def DeliverSafe (w : World) (m : UiMessage) : Prop :=
  (w.exhausted m.chatJid = true → w.base m.key = none) ∧
    match w.q.pending.get m.key with
    | some (.put n) => w.exhausted m.chatJid = false ∧ ¬ OnlyThumbnail n.msg m
    | _ => True

/-- A row that is not resident is read: no write of it is outstanding that the read does
not show. -/
def RowSafe (w : World) (beforeTs : Option ℤ) (k : Key) : Prop :=
  match w.q.pending.get k with
  | none => w.base k = w.msgs.get k
  | some (.put m) => upTo beforeTs m.msg.timestamp = true
  | some (.add m) =>
    if upTo beforeTs m.msg.timestamp = true then w.base k = none else w.base k = w.msgs.get k
  | some (.del _ _) => False

instance (w : World) (beforeTs : Option ℤ) (k : Key) : Decidable (RowSafe w beforeTs k) := by
  unfold RowSafe
  rcases w.q.pending.get k with _ | (_ | _ | _) <;> infer_instance

/-- The stored copy that the resident one is about to adopt is the effective record. -/
def AdoptSafe (k : Key) (w : World) : Prop :=
  match w.txq with
  | ⟨_, true, .adopt fresh, _⟩ :: _ => fresh.key = k → ∀ cur ∈ (w.slot k).resident,
      cur.ref = fresh.ref → ∀ s ∈ w.msgs.get k, w.eff k = some s
  | _ => True

instance (k : Key) (w : World) : Decidable (AdoptSafe k w) := by
  unfold AdoptSafe
  match w.txq with
  | [] => infer_instance
  | ⟨_, false, _, _⟩ :: _ => infer_instance
  | ⟨_, true, job, _⟩ :: _ => induction job using Job.casesOn <;> infer_instance

/-- The redelivery does not bring only a thumbnail. -/
def ThumbnailSafe (k : Key) (w : World) : Prop :=
  match w.txq with
  | ⟨_, true, .adopt fresh, _⟩ :: _ => fresh.key = k → ∀ cur ∈ (w.slot k).resident,
      cur.ref = fresh.ref → ∀ s ∈ w.msgs.get k, ¬ OnlyThumbnail s fresh.msg
  | _ => True

/-- Nothing is queued, stored or about to be stored under the key. -/
def Unknown (w : World) (k : Key) : Prop := w.q.pending.get k = none ∧ w.base k = none

/-- The job is an adoption for `k`. -/
def Job.adopts (k : Key) : Job → Bool
  | .adopt fresh => fresh.key = k
  | _ => false

/-- `l` is merged into another chat `p`: one of the two does not know the id, and no
redelivery under `l` waits for its stored copy. -/
def MergeSafe (w : World) (l p : Jid) (id : MsgId) : Prop :=
  l ≠ p ∧ l ≠ "" ∧ (∀ job ∈ w.jobs, job.adopts ⟨l, id⟩ = false) ∧
    (Unknown w ⟨l, id⟩ ∨ Unknown w ⟨p, id⟩)

/-- The step keeps the two copies of `k` together. -/
abbrev CohSafe (k : Key) (w : World) (e : Step) : Prop :=
  e.Guarded
    (QueueSafe k w ∧ AdoptSafe k w ∧ ThumbnailSafe k w ∧
      ∀ r ∈ w.rowsRead, r.2.key = k → (w.slot k).resident = none → RowSafe w r.1 k)
    ((∀ m ∈ e.delivers, m.key = k → (w.slot k).resident = none → DeliverSafe w m) ∧
      ∀ c ∈ e.merge w, k.chatJid = c.2 → (w.slot ⟨c.1, k.id⟩).resident.isSome ∨
        (w.slot k).resident.isSome → MergeSafe w c.1 c.2 k.id)

/-- A step that neither delivers nor merges nor moves the queue is safe. -/
theorem CohSafe.of_plain (h : e.ordinary = true) (ha : e ≠ .advance) (hd : e.delivers = none)
    (hm : e.merge w = none) : CohSafe k w e := by
  have hplain : (∀ m ∈ e.delivers, m.key = k → (w.slot k).resident = none → DeliverSafe w m) ∧
      ∀ c ∈ e.merge w, k.chatJid = c.2 → (w.slot ⟨c.1, k.id⟩).resident.isSome ∨
        (w.slot k).resident.isSome → MergeSafe w c.1 c.2 k.id := by
    simp [hd, hm]
  cases e with
  | advance => exact absurd rfl ha
  | flushFails | resetAll => cases h
  | _ => exact hplain

/-! ## Deliveries -/

theorem adopted_startUnread (s m : UiMessage) : adopted s (startUnread m) = adopted s m := by
  obtain ⟨u, hu⟩ := startUnread_fields m
  rw [hu]; rfl

/-- What is adopted is written, or is what was stored. -/
theorem eff_of_adopted {s m : UiMessage} {r r' : Option UiMessage} (hn : ¬ OnlyThumbnail s m)
    (hr : r = some s) (hp : persistable (adopted s m) = true)
    (he : r' = if (adopted s m).media ≠ s.media then putEff (adopted s m) r else r) :
    r' = some (adopted s m) := by
  rw [he]
  split
  · rw [putEff, if_pos hp]
  · rename_i hmedia
    rw [not_ne_iff] at hmedia
    rw [hr]
    by_contra hne
    exact hn ⟨hmedia, fun h => hne (by rw [h])⟩

theorem coh_delivered {m : UiMessage} (h : Coh w m.key) (hd : Delivered m w v)
    (hs : (w.slot m.key).resident = none → DeliverSafe w m) (hsync : Sync w v) : Coh v m.key := by
  cases hd with
  | known _ hslot => exact h.keeps (hslot ▸ .refl _) fun _ ha => ha.sync hsync
  | media x o hx hm ho hw | echo o hx hme hany ho hw => exact coh_of_writes hw
  | new o hx hb ho hi =>
    have hsafe := hs hx
    have hkey : o.key = m.key := by rw [Obj.key, ho, startUnread_key]
    have hchat : o.msg.chatJid = m.chatJid := by rw [ho, startUnread_chatJid]
    rw [← hkey]
    cases hi with
    | plain hex hjobs hres heff =>
      rcases hres with hres | hres
      · intro x hx' hp
        rw [hres] at hx'
        cases hx'
        have hex : w.exhausted m.chatJid = true := by
          rw [← hchat]
          exact hex.resolve_right (by rw [hp]; simp)
        obtain ⟨h1, h2⟩ := hsafe
        have hb := h1 hex
        rw [heff, insertEff, if_pos hp, hkey, hb]
        left
        split
        · rename_i n hn
          rw [hn, hex] at h2
          exact absurd h2.1 (by simp)
        · rfl
      · exact coh_of_none hres
    | waits hput hjobs hres heff =>
      rcases hres with hres | hres
      · intro x hx' hp
        rw [hres] at hx'
        cases hx'
        have heff : v.eff o.key = (w.base o.key).or (some o.msg) := by
          rw [heff, insertEff, if_pos hp]
          split
          · rename_i n hn; exact absurd hn (hput n)
          · rfl
        cases hb : w.base o.key with
        | none => left; rw [heff, hb]; rfl
        | some =>
          right
          exact ⟨o, rfl, rfl, due_new hjobs hsync.msgs (by rw [hb]; rfl)⟩
      · exact coh_of_none hres
    | trimmed n hput hjobs hres => exact coh_of_none hres
    | adopts n o' hput ho' hjobs hres heff =>
      rcases hres with hres | hres
      · intro x hx' hp
        rw [hres] at hx'
        cases hx'
        left
        have h2 := hsafe.2
        rw [← hkey, hput] at h2
        have he : w.eff o.key = some n.msg := by rw [eff_apply, hput]; rfl
        rw [ho', ho, adopted_startUnread] at hp ⊢
        rw [ho', ho, adopted_startUnread] at heff
        exact eff_of_adopted h2.2 he hp heff
      · exact coh_of_none hres

/-! ## Merges -/

theorem persistable_rekey {m : UiMessage} (hc : m.chatJid ≠ "")
    (h : persistable (rekey l p m) = true) : persistable m = true := by
  obtain ⟨hid, -, hrest⟩ := persistable_iff.1 h
  exact persistable_iff.2 ⟨hid, hc, hrest⟩

theorem coh_applyMerge (h : w.Wf) (hid : id ≠ "") (hl : Coh w ⟨l, id⟩) (hp : Coh w ⟨p, id⟩)
    (hs : MergeSafe w l p id) : Coh (applyMerge w l p) ⟨p, id⟩ := by
  obtain ⟨hne, hl0, hno, hknown⟩ := hs
  have hsync := (applyMerge_frame h l p).1
  rcases applyMerge_spec h hne with ⟨he, -⟩ | ⟨hg, hm⟩
  · rwa [he]
  rcases hg.target id hid with hr | hr | ⟨hpn, y, ref, hy, hr⟩
  · exact coh_of_none hr
  · -- the copy of `p` stays: its record must not be replaced by the one of `l`
    intro o ho hpers
    rw [hr] at ho
    rcases hp o ho hpers with hp | hp
    · left
      rcases hknown with hknown | hknown
      · rw [hm.eff_of_no_source hknown.1 hknown.2, hp]
      · rw [eff_apply, hknown.1, Option.elim_none, hknown.2] at hp
        cases hp
    · exact .inr (hp.sync hsync)
  · intro o ho hpers
    rw [hr] at ho
    cases ho
    have hyc : y.msg.chatJid = l := (h l).chat y (findId_mem hy)
    have hyp : persistable y.msg = true := persistable_rekey (hyc ▸ hl0) hpers
    rcases hl y hy hyp with he | ⟨fresh, -, hk, hd⟩
    · left
      rcases hknown with hknown | hknown
      · rw [eff_apply, hknown.1, Option.elim_none, hknown.2] at he
        cases he
      · rw [hm.eff_of_no_target hknown.1 hknown.2, he, Option.map_some]
        intro c i hdel
        rw [eff_apply, hdel] at he
        cases he
    · have := hno _ hd.mem
      simp [Job.adopts, hk] at this

/-! ## One step -/

theorem coh_sync (h : w.Wf) (hid : k.id ≠ "") (he : e.sync = true) (hc : ∀ k, k.id ≠ "" → Coh w k)
    (hs : CohSafe k w e) : Coh (w.step e) k := by
  have hsync := (sync_step h he).1
  have ha : ∀ o, Adopting w k o → Adopting (w.step e) k o := fun _ ha => ha.sync hsync
  have hk := hc k hid
  cases happens h hid he with
  | quiet hq => exact hk.calm hq ha
  | delivered m hd hm hdel =>
    subst hm
    exact coh_delivered hk hdel ((hs.sync he).1 _ hd rfl) hsync
  | history list w₁ _ hp hq =>
    rcases hp with hp | ⟨-, o, -, -, -, hp⟩
    · rw [hp] at hq; exact hk.calm hq ha
    · rw [hp] at hq
      refine coh_of_calm (fun x hx hpers => ?_) hq
      cases hx
      simp [putEff, hpers]
  | confirmed jid r x o _ _ _ _ _ hw => exact coh_of_writes hw
  | failed jid r _ hi => exact coh_of_tmp (by rw [hi, isTmp_tempId])
  | updated fn _ hu => exact hk.updated hu ha
  | removed _ hv => exact coh_of_none (by rw [hv])
  | restored o _ _ hw => exact coh_of_writes hw
  | unified w₁ w₂ w₃ _ h1 hm hs12 hwf h3 hr hs3 =>
    have h₁ : ∀ k, k.id ≠ "" → Coh w₁ k := fun k hid =>
      (hc k hid).keeps (h1.slot k ▸ .refl _) fun _ ha => ha.sync h1.sync
    have h₂ : Coh w₂ k := by
      rcases hm with hm | ⟨l, p, hlp, hkc, rfl⟩
      · exact (h₁ k hid).keeps (hm ▸ .refl _) fun _ ha => ha.sync hs12
      · by_cases hkp : k.chatJid = p
        · obtain ⟨c, i⟩ := k
          obtain rfl : c = p := hkp
          by_cases hres : (w.slot ⟨l, i⟩).resident.isSome ∨ (w.slot ⟨c, i⟩).resident.isSome
          · have hms : MergeSafe w₁ l c i := by
              have := (hs.sync he).2 _ hlp rfl hres
              unfold MergeSafe Unknown at this ⊢
              rwa [h1.jobs, h1.base, h1.pending]
            exact coh_applyMerge (h1.wf h) hid (h₁ ⟨l, i⟩ hid) (h₁ ⟨c, i⟩ hid) hms
          · simp only [not_or, Bool.not_eq_true, Option.isSome_eq_false_iff,
              Option.isNone_iff_eq_none] at hres
            exact coh_of_none (resident_applyMerge (h1.wf h) hid (by rw [h1.slot]; exact hres.1)
              (by rw [h1.slot]; exact hres.2) (.inr rfl))
        · -- nothing is left under the merged key
          have hkl : k.chatJid = l := hkc.resolve_right hkp
          have hne : l ≠ p := fun h => hkp (hkl.trans h)
          rcases applyMerge_spec (h1.wf h) hne with ⟨he, -⟩ | ⟨hg, -⟩
          · rw [he]; exact h₁ k hid
          · exact coh_of_none (hg.source k hid hkl)
    have h₃ : Coh w₃ k := h₂.keeps (h3.slot k ▸ .refl _) fun _ ha => ha.sync h3.sync
    rcases hr with hr | ⟨d, -, -, hr⟩
    · exact h₃.keeps hr fun _ ha => ha.sync hs3
    · exact h₃.updated hr fun _ ha => ha.sync hs3

/-- A row that is read safely is the effective record. -/
theorem eff_of_row {b : Option ℤ} (hrow : Row w b o) (hs : RowSafe w b o.key) : w.eff o.key = some o.msg := by
  rw [eff_apply]
  unfold RowSafe at hs
  rcases hrow with ⟨hp | hp, ht⟩ | ⟨hm, hn⟩
  · rw [hp]; rfl
  · have hs : w.base o.key = none := by simpa only [hp, ht, if_true] using hs
    rw [hp, hs]; rfl
  · cases hp : w.q.pending.get o.key with
    | none => rw [hp] at hs; exact hs.trans hm
    | some op =>
      rw [hp] at hs
      cases op with
      | put m =>
        have ht : upTo b m.msg.timestamp = true := hs
        rw [hn m (.inl hp)] at ht
        cases ht
      | add m =>
        have hs : w.base o.key = w.msgs.get o.key := by simpa [hn m (.inr hp)] using hs
        rw [hs, hm]; rfl
      | del => exact hs.elim

theorem Adopting.advance (ha : Adopting w k o) (h : Sound w) (hq : QueueSafe k w) :
    (∃ tid c later fresh, w.txq = ⟨tid, true, .adopt fresh, c⟩ :: later ∧ fresh.ref = o.ref ∧
      fresh.key = k ∧ (w.msgs.get k).isSome) ∨ Adopting (Whatsvelte.advance w) k o := by
  obtain ⟨fresh, h1, h2, h3⟩ := ha
  rcases h3.advance h hq (decide_eq_true h2) with ⟨tid, c, later, ht, hs⟩ | h3
  · exact .inl ⟨tid, c, later, fresh, ht, h1, h2, hs⟩
  · exact .inr ⟨fresh, h1, h2, h3⟩

theorem coh_advance (h : Sound w) (hid : k.id ≠ "") (hc : Coh w k) (hs : CohSafe k w .advance) :
    Coh (advance w) k := by
  obtain ⟨hq, hadopt, hthumb, hrows⟩ := hs
  cases advanced h hid hq with
  | quiet hno hcalm =>
    rcases hcalm with hk | ⟨-, x, o, b, -, -, hw⟩
    · rcases hk.2 with hres | hres
      · intro o ho hp
        rw [hres] at ho
        have heff : (advance w).eff k = w.eff k := hk.1
        rw [heff]
        rcases hc o ho hp with h1 | h1
        · exact .inl h1
        · rcases h1.advance h hq with ⟨tid, c, later, fresh, ht, href, hfk, hsome⟩ | h1
          · obtain ⟨s, hs⟩ := Option.isSome_iff_exists.1 hsome
            exact absurd ⟨tid, fresh, c, later, s, o, ht, hfk, hs, ho, href.symm⟩ hno
          · exact .inr h1
      · exact coh_of_none hres
    · exact coh_of_writes hw
  | tombstone tid f o c later ht hres ho hw => exact coh_of_writes hw
  | loaded r hr hk hres hcalm =>
    refine coh_of_calm (fun o ho _ => ?_) hcalm
    cases ho
    subst hk
    exact eff_of_row (row_of_rowsRead hr) (hrows r hr rfl hres)
  | adopted tid fresh cur o s c later ht hk hs hcur href ho hres heff =>
    rcases hres with hres | hres
    · intro x hx hp
      rw [hres] at hx
      cases hx
      left
      rw [AdoptSafe, ht] at hadopt
      rw [ThumbnailSafe, ht] at hthumb
      rw [ho] at hp heff ⊢
      exact eff_of_adopted (hthumb hk cur hcur href s hs) (hadopt hk cur hcur href s hs) hp heff
    · exact coh_of_none hres

/-- **One safe step** keeps memory and database together. -/
theorem coh_step (h : Sound w ∧ ∀ k, k.id ≠ "" → Coh w k) (hs : ∀ k, CohSafe k w e) :
    Sound (w.step e) ∧ ∀ k, k.id ≠ "" → Coh (w.step e) k := by
  obtain ⟨h, hc⟩ := h
  have hord := (hs ⟨"", ""⟩).ordinary
  refine ⟨sound_step h hord, fun k hid => ?_⟩
  rcases ordinary_cases h hord with he | rfl | rfl | hw
  · exact coh_sync h.wf hid he hc (hs k)
  · exact (hc k hid).keeps (slot_openNext h k ▸ .refl _) fun o ho => ho.openNext h
  · exact coh_advance h hid (hc k hid) (hs k)
  · rw [hw]; exact hc k hid

/-! ## Every run -/

/-- **Memory and database agree** in every quiescent state that safe steps reach. -/
theorem coherent_of_safe (es : List Step)
    (ha : Along World.step (fun w e => ∀ k, CohSafe k w e) World.init es)
    (hq : (World.init.run es).Quiescent) (jid : Jid) :
    ∀ o ∈ messagesFor (World.init.run es) jid, persistable o.msg = true →
      (World.init.run es).persisted ⟨jid, o.msg.id⟩ = some (toRecord o.msg jid) := by
  have hinit : ∀ k : Key, k.id ≠ "" → Coh World.init k := fun k _ => coh_of_none rfl
  obtain ⟨hs, hc⟩ := Along.inv (I := fun w => Sound w ∧ ∀ k, k.id ≠ "" → Coh w k)
    (fun _ _ h hs => coh_step h hs) ⟨sound_init, hinit⟩ ha
  intro o ho hp
  have hid := id_of_persistable hp
  have hjid : o.msg.chatJid = jid := (hs.wf jid).chat o ho
  have hfind : findId (messagesFor (World.init.run es) jid) o.msg.id = some o :=
    (findId_eq_some (hs.wf jid) hid).2 ⟨ho, rfl⟩
  rw [← hjid, toRecord_self, hjid, ← eff_of_idle hq.1]
  rcases hc ⟨jid, o.msg.id⟩ hid o hfind hp with h | ⟨fresh, -, -, hd⟩
  · exact h
  · have := hd.mem
    change Job.adopt fresh ∈ (World.init.run es).txq.map (·.job) at this
    rw [hq.1] at this
    cases this

/-- A message is delivered, edited and flushed. -/
theorem coherent_of_safe_edited :
    ∃ o ∈ messagesFor (World.init.run [.addMessage msgX, .openNext, .advance,
      .applyEdit chatA "X" (some "hi!") 9, .flushPendingWrites, .openNext, .advance]) chatA,
      o.msg.text = some "hi!" ∧ (World.init.run [.addMessage msgX, .openNext, .advance,
        .applyEdit chatA "X" (some "hi!") 9, .flushPendingWrites, .openNext, .advance]).persisted
        ⟨chatA, o.msg.id⟩ = some (toRecord o.msg chatA) := by
  have h3 : (World.init.run [.addMessage msgX, .openNext]).txq =
      [⟨0, true, .adopt ⟨0, startUnread msgX⟩, []⟩] := by decide
  have h7 : (World.init.run [.addMessage msgX, .openNext, .advance,
      .applyEdit chatA "X" (some "hi!") 9, .flushPendingWrites, .openNext]).txq =
      [⟨1, true, .flush 0 (World.init.run [.addMessage msgX, .openNext, .advance,
        .applyEdit chatA "X" (some "hi!") 9]).q.pending, []⟩] := by decide
  have hnone : (World.init.run [.addMessage msgX, .openNext]).msgs.get
      (Obj.key ⟨0, startUnread msgX⟩) = none := by decide
  refine ⟨⟨1, { startUnread msgX with text := some "hi!", editedAt := some 9 }⟩, by decide, rfl,
    coherent_of_safe [.addMessage msgX, .openNext, .advance,
    .applyEdit chatA "X" (some "hi!") 9, .flushPendingWrites, .openNext, .advance]
    ⟨fun k => ⟨?_, ?_⟩, fun k => .of_plain rfl nofun rfl rfl, fun k => ?_,
      fun k => .of_plain rfl nofun rfl rfl, fun k => .of_plain rfl nofun rfl rfl,
      fun k => .of_plain rfl nofun rfl rfl, fun k => ?_, trivial⟩ ⟨?_, ?_, ?_⟩ chatA _ ?_ ?_⟩
  · rintro m hm - -
    cases hm
    exact ⟨nofun, trivial⟩
  · simp [Step.merge]
  · change CohSafe k (World.init.run [.addMessage msgX, .openNext]) .advance
    simp only [CohSafe, QueueSafe, AdoptSafe, ThumbnailSafe, World.rowsRead, h3]
    refine ⟨trivial, ?_, ?_, by simp⟩ <;>
    · rintro rfl - - - s hs
      rw [hnone] at hs
      cases hs
  · change CohSafe k (World.init.run [.addMessage msgX, .openNext, .advance,
      .applyEdit chatA "X" (some "hi!") 9, .flushPendingWrites, .openNext]) .advance
    simp only [CohSafe, QueueSafe, AdoptSafe, ThumbnailSafe, World.rowsRead, h7]
    exact ⟨by simp [SliceSafe], trivial, trivial, by simp⟩
  · decide
  · decide
  · decide
  · decide
  · decide

/-- A page that is read before a delete is flushed shows a message that is not there. -/
theorem paged_row_is_not_persisted :
    ¬ ∀ (es : List Step) (jid : Jid), (∀ e ∈ es, e.ordinary = true) →
      (World.init.run es).Quiescent → ∀ o ∈ messagesFor (World.init.run es) jid,
        persistable o.msg = true →
        (World.init.run es).persisted ⟨jid, o.msg.id⟩ = some (toRecord o.msg jid) := by
  intro hall
  have := hall [.addMessage msgX, .openNext, .advance, .flushPendingWrites, .openNext, .advance,
    .removeMessage chatA "X", .loadOlder chatA 50, .openNext, .advance] chatA (by decide)
    ⟨rfl, rfl, rfl⟩
  exact absurd this (by decide)

end Whatsvelte
