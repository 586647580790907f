import Whatsvelte.Proof.Handlers

/-!
# Receipts addressed to a LID

A `wa://receipt` for a LID without a known mapping waits for `unifyLid`. The promise of `unifyLid` only
waits for the request if it is the one that made it: a second caller returns at once.

`World.log` records the `applyReceipt` calls that an event leads to for receipts (`log_called`, `log_waits`).
`receipts_under_pn_iff`: **all receipts for a LID that come while its one `resolve_jid`
request is pending are applied under the phone number** if and only if none of them comes after the
request was made.
-/

namespace Whatsvelte

open List

variable {w v : World} {l pn jid : Jid} {ev : Event} {e : Step}
variable {x : Option ReceiptDto} {r : ReceiptDto}

/-! ## The calls made for receipts -/

/-- An `applyReceipt` call that a `wa://receipt` event led to. -/
structure Applied where
  under : Jid
  receipt : ReceiptDto
  deriving DecidableEq

/-- The receipt that an event applies: its own one, unless it waits for the request that it makes,
or the one that waited for the answer that it is. -/
def World.applied (w : World) : Event → Option ReceiptDto
  | .receipt r =>
    if w.resolving.get r.chatJid = none ∧ (w.handle (.receipt r)).resolving.get r.chatJid ≠ none then none
    else some r
  | .call e => e.waited w
  | _ => none

/-- The call that is made for it. -/
def World.log (w : World) (ev : Event) : List Applied :=
  (w.applied ev).toList.map fun r => ⟨canonicalJid (w.handle ev) r.chatJid, r⟩

/-- The calls that a run of events makes for receipts. -/
def World.logAll (w : World) : List Event → List Applied
  | [] => []
  | ev :: evs => w.log ev ++ (w.handle ev).logAll evs

/-! ## A pending request -/

/-- No mapping for `l` is known, and no request was made. -/
def NotAsked (l : Jid) (w : World) : Prop := w.lidToPn l = none ∧ w.resolving.get l = none

/-- The request for `l` is pending, and `r` waits for it. -/
def Asking (l : Jid) (r : Option ReceiptDto) (w : World) : Prop :=
  w.lidToPn l = none ∧ w.resolving.get l = some ⟨l, r⟩

/-- The receipts that wait for a request are addressed to its LID. -/
def OwnWaits (w : World) : Prop :=
  ∀ jid x r, w.resolving.get jid = some x → x.receipt = some r → r.chatJid = jid

theorem resolving_unifyLid (w : World) (jid : Jid) (r : Option ReceiptDto) (l : Jid) :
    (unifyLid w jid r).resolving.get l =
      if jid = l ∧ isLid l = true ∧ w.lidToPn l = none ∧ w.resolving.get l = none then some ⟨l, r⟩
      else w.resolving.get l := by
  unfold unifyLid
  by_cases hlid : isLid jid = true
  · rw [if_neg (by simp [hlid])]
    cases hk : w.lidToPn jid with
    | some known =>
      have hno : ¬ (jid = l ∧ isLid l = true ∧ w.lidToPn l = none ∧ w.resolving.get l = none) := by
        rintro ⟨rfl, -, hn, -⟩
        rw [hk] at hn
        cases hn
      rw [if_neg hno]
      exact congrArg (·.get l) ((unasked_applyMerge w jid known).trans (unasked_thenReceipt _ r)).resolving
    | none =>
      by_cases hhas : w.resolving.has jid = true
      · have hno : ¬ (jid = l ∧ isLid l = true ∧ w.lidToPn l = none ∧ w.resolving.get l = none) := by
          rintro ⟨rfl, -, -, hn⟩
          simp [Table.has, hn] at hhas
        rw [if_pos hhas, if_neg hno]
        exact congrArg (·.get l) (unasked_thenReceipt w r).resolving
      · have hnone : w.resolving.get jid = none := by simpa [Table.has] using hhas
        rw [if_neg hhas]
        by_cases hj : jid = l
        · subst hj
          rw [if_pos ⟨rfl, hlid, hk, hnone⟩]
          exact (Table.get_set _ _ _).trans (if_pos rfl)
        · rw [if_neg fun h => hj h.1]
          exact (Table.get_set _ _ _).trans (if_neg hj)
  · have hno : ¬ (jid = l ∧ isLid l = true ∧ w.lidToPn l = none ∧ w.resolving.get l = none) := by
      rintro ⟨rfl, h, -⟩
      exact hlid h
    rw [if_pos (by simp [hlid]), if_neg hno]
    exact congrArg (·.get l) (unasked_thenReceipt w r).resolving

theorem resolving_unifyLidDone (w : World) (jid : Jid) (pn : Option Jid) (l : Jid) :
    (unifyLidDone w jid pn).resolving.get l = if jid = l then none else w.resolving.get l := by
  unfold unifyLidDone
  cases hr : w.resolving.get jid with
  | none =>
    by_cases hj : jid = l
    · rwa [if_pos hj, ← hj]
    · exact (if_neg hj).symm
  | some x =>
    have hmerge : ∀ v : World, v.resolving = w.resolving →
        (thenReceipt { v with resolving := v.resolving.erase jid } x.receipt).resolving.get l =
          if jid = l then none else w.resolving.get l := by
      intro v hv
      rw [(unasked_thenReceipt _ _).resolving, ← hv]
      exact Table.get_erase _ _ _
    cases pn with
    | none => exact hmerge w rfl
    | some p =>
      dsimp only
      split
      · exact hmerge w rfl
      · exact hmerge _ (unasked_applyMerge (w.learn jid p) jid p).resolving

theorem lidToPn_unifyLidDone (w : World) (pn : Option Jid) (h : jid ≠ l) :
    (unifyLidDone w jid pn).lidToPn l = w.lidToPn l := by
  unfold unifyLidDone
  split
  · rfl
  · rw [lidToPn_thenReceipt]
    cases pn with
    | none => rfl
    | some =>
      dsimp only
      split
      · rfl
      · rw [lidToPn_applyMerge]
        exact Function.update_of_ne (Ne.symm h) _ _

/-- A step that neither answers the request for `l` nor brings a receipt for it. -/
def Step.quiet (l : Jid) : Step → Prop
  | .unifyLid jid (some _) => jid ≠ l
  | .unifyLidDone jid _ => jid ≠ l
  | .learnLidMapping lid _ => normalizeJid lid ≠ l
  | _ => True

/-- A receipt waits for the request of its own chat. -/
def Step.own : Step → Prop
  | .unifyLid jid (some r) => r.chatJid = jid
  | _ => True

/-- What a quiet step can do to the request for `l`: make it, with no receipt. -/
theorem request_step (he : e.quiet l) (hw : w.lidToPn l = none) :
    (w.step e).lidToPn l = none ∧ ((w.step e).resolving.get l = w.resolving.get l ∨
      w.resolving.get l = none ∧ (w.step e).resolving.get l = some ⟨l, none⟩) := by
  have hkeep : Unasked w (w.step e) → (w.step e).lidToPn l = none ∧
      ((w.step e).resolving.get l = w.resolving.get l ∨
        w.resolving.get l = none ∧ (w.step e).resolving.get l = some ⟨l, none⟩) := by
    intro h
    exact ⟨by rw [h.lidToPn, hw], .inl (by rw [h.resolving])⟩
  by_cases hreset : e = .resetAll
  · subst hreset
    exact ⟨rfl, .inl rfl⟩
  cases hu : e.unifies with
  | false => exact hkeep (unasked_step hu hreset)
  | true =>
    cases e with
    | learnLidMapping lid pn =>
      have hne : normalizeJid lid ≠ l := he
      simp only [World.step, learnLidMapping]
      split
      · exact ⟨hw, .inl rfl⟩
      · have hm := unasked_applyMerge (w.learn (normalizeJid lid) (normalizeJid pn)) (normalizeJid lid)
          (normalizeJid pn)
        refine ⟨?_, .inl (congrArg (·.get l) hm.resolving)⟩
        rw [hm.lidToPn]
        exact (Function.update_of_ne (Ne.symm hne) _ _).trans hw
    | unifyLid jid r =>
      refine ⟨by rw [World.step, lidToPn_unifyLid, hw], ?_⟩
      rw [World.step, resolving_unifyLid]
      split
      · rename_i h
        cases r with
        | none => exact .inr ⟨h.2.2.2, rfl⟩
        | some => exact absurd h.1 he
      · exact .inl rfl
    | unifyLidDone jid pn =>
      have hne : jid ≠ l := he
      refine ⟨by rw [World.step, lidToPn_unifyLidDone w pn hne, hw], .inl ?_⟩
      rw [World.step, resolving_unifyLidDone, if_neg hne]
    | _ => cases hu

theorem asking_step {r : Option ReceiptDto} (h : Asking l r w) (he : e.quiet l) : Asking l r (w.step e) := by
  obtain ⟨hmap, hreq⟩ := request_step he h.1
  refine ⟨hmap, ?_⟩
  rcases hreq with hreq | ⟨hnone, -⟩
  · rw [hreq, h.2]
  · rw [h.2] at hnone
    cases hnone

theorem notAsked_step (h : NotAsked l w) (he : e.quiet l) :
    NotAsked l (w.step e) ∨ Asking l none (w.step e) := by
  obtain ⟨hmap, hreq | ⟨-, hreq⟩⟩ := request_step he h.1
  · exact .inl ⟨hmap, by rw [hreq, h.2]⟩
  · exact .inr ⟨hmap, hreq⟩

theorem ownWaits_step (h : OwnWaits w) (he : e.own) : OwnWaits (w.step e) := by
  have hkeep : (w.step e).resolving = w.resolving → OwnWaits (w.step e) := by
    intro hr j x r hx
    rw [hr] at hx
    exact h j x r hx
  by_cases hreset : e = .resetAll
  · subst hreset
    exact hkeep rfl
  cases hu : e.unifies with
  | false => exact hkeep (unasked_step hu hreset).resolving
  | true =>
    cases e with
    | learnLidMapping =>
      refine hkeep ?_
      simp only [World.step, learnLidMapping]
      split
      · rfl
      · exact (unasked_applyMerge _ _ _).resolving
    | unifyLid jid receipt =>
      intro j x r hx hr
      rw [World.step, resolving_unifyLid] at hx
      split at hx
      · rename_i hj
        cases hx
        have hr : receipt = some r := hr
        rw [hr] at he
        exact (show r.chatJid = jid from he).trans hj.1
      · exact h j x r hx hr
    | unifyLidDone =>
      intro j x r hx
      rw [World.step, resolving_unifyLidDone] at hx
      split at hx
      · cases hx
      · exact h j x r hx
    | _ => cases hu

/-! ## Events -/

/-- An answer for `l`, or a mapping for it that is learned otherwise. -/
def Event.answers (l : Jid) : Event → Prop
  | .call (.unifyLidDone jid _) => jid = l
  | .call (.learnLidMapping lid _) => normalizeJid lid = l
  | _ => False

/-- Only the handler of receipts gives `unifyLid` a receipt. -/
def Event.genuine : Event → Prop
  | .call (.unifyLid _ r) => r = none
  | _ => True

/-- The handler calls `applyReceipt` at once, or the receipt waits for the request. -/
theorem onReceipt_cases (w : World) (r : ReceiptDto) :
    (∃ u, u.resolving = w.resolving ∧
      onReceipt w r = applyReceipt u (canonicalJid u r.chatJid) r.messageIds r.status) ∨
      w.resolving.get r.chatJid = none ∧
        onReceipt w r = { w with resolving := w.resolving.set ⟨r.chatJid, some r⟩ } := by
  unfold onReceipt unifyLid
  dsimp only
  split
  · split
    · exact .inl ⟨w, rfl, rfl⟩
    · split
      · exact .inl ⟨_, (unasked_applyMerge w _ _).resolving, rfl⟩
      · split
        · exact .inl ⟨w, rfl, rfl⟩
        · rename_i h
          exact .inr ⟨by simpa [Table.has] using h, rfl⟩
  · exact .inl ⟨w, rfl, rfl⟩

/-- **What is recorded is called.** -/
theorem log_called {a : Applied} (hg : ev.genuine) (h : a ∈ w.log ev) :
    ∃ u, w.handle ev = applyReceipt u a.under a.receipt.messageIds a.receipt.status := by
  obtain ⟨r, hr, rfl⟩ := mem_map.1 h
  rw [Option.mem_toList] at hr
  have hcan : ∀ u, w.handle ev = applyReceipt u (canonicalJid u r.chatJid) r.messageIds r.status →
      ∃ u, w.handle ev = applyReceipt u (canonicalJid (w.handle ev) r.chatJid) r.messageIds r.status := by
    intro u hu
    refine ⟨u, ?_⟩
    rw [hu, (Outside.applyReceipt u _ _ _).canonicalJid]
  cases ev with
  | receipt =>
    simp only [World.applied] at hr
    split at hr
    · cases hr
    · rename_i hn
      cases hr
      rcases onReceipt_cases w r with ⟨u, -, hu⟩ | ⟨h1, h2⟩
      · exact hcan u hu
      · refine absurd ⟨h1, ?_⟩ hn
        rw [World.handle, h2]
        simp [Table.get_set]
  | call e =>
    cases e with
    | unifyLid jid d =>
      have hd : d = none := hg
      rw [hd] at hr
      cases hr
    | unifyLidDone jid pn =>
      obtain ⟨x, hx, hxr⟩ := Option.bind_eq_some_iff.1 hr
      have hu : ∃ u, unifyLidDone w jid pn = applyReceipt u (canonicalJid u r.chatJid) r.messageIds r.status := by
        simp only [unifyLidDone, hx, hxr, thenReceipt]
        exact ⟨_, rfl⟩
      obtain ⟨u, hu⟩ := hu
      exact hcan u hu
    | _ => cases hr
  | _ => cases hr

/-- A receipt for which no call is recorded waits for the request that it makes. -/
theorem log_waits (h : w.log (.receipt r) = []) :
    w.handle (.receipt r) = { w with resolving := w.resolving.set ⟨r.chatJid, some r⟩ } := by
  rcases onReceipt_cases w r with ⟨u, hres, hu⟩ | ⟨-, h2⟩
  · have hres : (w.handle (.receipt r)).resolving = w.resolving := by
      rw [World.handle, hu, (Outside.applyReceipt u _ _ _).resolving, hres]
    simp [World.log, World.applied, hres] at h
  · exact h2

/-- The receipt that an event brings for `l`. -/
def Event.receiptFor (l : Jid) : Event → Option ReceiptDto
  | .receipt r => if r.chatJid = l then some r else none
  | _ => none

theorem genuine_steps (w : World) (hg : ev.genuine) : Along World.step (fun _ e => e.own) w (ev.steps w) := by
  refine along_of_forall (fun e he _ => ?_) w
  cases handlerCall_of_mem _ he with
  | waits => exact rfl
  | call =>
    cases e with
    | unifyLid jid r =>
      have hr : r = none := hg
      subst hr
      trivial
    | _ => trivial
  | _ => trivial

theorem quiet_steps (w : World) (hg : ev.genuine) (ha : ¬ ev.answers l) (hr : ev.receiptFor l = none) :
    Along World.step (fun _ e => e.quiet l) w (ev.steps w) := by
  refine along_of_forall (fun e he _ => ?_) w
  cases handlerCall_of_mem _ he with
  | waits =>
    intro h
    simp [Event.receiptFor, h] at hr
  | call =>
    cases e with
    | unifyLid jid r =>
      have hr : r = none := hg
      subst hr
      trivial
    | unifyLidDone | learnLidMapping => exact ha
    | _ => trivial
  | _ => trivial

theorem ownWaits_handle (h : OwnWaits w) (hg : ev.genuine) : OwnWaits (w.handle ev) :=
  handle_inv (fun _ _ => ownWaits_step) h (genuine_steps w hg)

theorem canonicalJid_unknown (h : w.lidToPn l = none) : canonicalJid w l = l := by
  unfold canonicalJid
  split
  · rw [h]; rfl
  · rfl

theorem handle_receipt_unknown (hlid : isLid r.chatJid = true) (h : w.lidToPn r.chatJid = none) :
    w.handle (.receipt r) = unifyLid w r.chatJid (some r) := by
  simp only [World.handle, onReceipt, canonicalJid_unknown h, hlid, if_true]

/-- A receipt that comes when nothing was asked waits for the request it makes. -/
theorem handle_first_receipt (hlid : isLid l = true) (h : NotAsked l w) (hr : r.chatJid = l) :
    Asking l (some r) (w.handle (.receipt r)) ∧ w.log (.receipt r) = [] := by
  subst hr
  have hask : Asking r.chatJid (some r) (w.handle (.receipt r)) := by
    rw [handle_receipt_unknown hlid h.1]
    refine ⟨by rw [lidToPn_unifyLid, h.1], ?_⟩
    rw [resolving_unifyLid, if_pos ⟨rfl, hlid, h.1, h.2⟩]
  exact ⟨hask, by simp [World.log, World.applied, h.2, hask.2]⟩

/-- **A receipt that comes while the request is pending** is applied at once, under the LID. -/
theorem handle_later_receipt (hlid : isLid l = true) (h : Asking l x w) (hr : r.chatJid = l) :
    Asking l x (w.handle (.receipt r)) ∧ w.log (.receipt r) = [⟨l, r⟩] := by
  subst hr
  have hask : Asking r.chatJid x (w.handle (.receipt r)) := by
    rw [handle_receipt_unknown hlid h.1]
    refine ⟨by rw [lidToPn_unifyLid, h.1], ?_⟩
    rw [resolving_unifyLid, if_neg (by simp [h.2]), h.2]
  exact ⟨hask, by simp [World.log, World.applied, h.2, canonicalJid_unknown hask.1]⟩

/-- The other events make no call for a receipt of `l`. -/
theorem log_other (hown : OwnWaits w) (hg : ev.genuine) (ha : ¬ ev.answers l) (hr : ev.receiptFor l = none) :
    (w.log ev).filter (fun a => a.receipt.chatJid = l) = [] := by
  refine filter_eq_nil_iff.2 fun a hlog => ?_
  rw [decide_eq_true_eq]
  obtain ⟨d, hd, rfl⟩ := mem_map.1 hlog
  rw [Option.mem_toList] at hd
  cases ev with
  | receipt =>
    simp only [World.applied] at hd
    split at hd
    · cases hd
    · cases hd
      simpa [Event.receiptFor] using hr
  | call e =>
    cases e with
    | unifyLid jid x =>
      have hx : x = none := hg
      rw [hx] at hd
      cases hd
    | unifyLidDone jid =>
      obtain ⟨x, hreq, hx⟩ := Option.bind_eq_some_iff.1 hd
      rwa [hown jid x d hreq hx]
    | _ => cases hd
  | _ => cases hd

/-- The answer to the request for `l`. -/
def answer (l pn : Jid) : Event := .call (.unifyLidDone l (some pn))

/-- The answer applies the receipt that waits, under the phone number. -/
theorem log_answer (hlid : isLid l = true) (hpn : ¬ (pn = "" ∨ pn = l))
    (hown : OwnWaits w) (h : Asking l x w) :
    w.log (answer l pn) = x.toList.map (Applied.mk pn) := by
  have happ : w.applied (answer l pn) = x := by simp [World.applied, answer, Step.waited, h.2]
  rw [World.log, happ]
  refine map_congr_left fun r hr => ?_
  have hchat : r.chatJid = l := hown l _ r h.2 (Option.mem_toList.1 hr)
  have hmerge : (Step.unifyLidDone l (some pn)).merge w = some (l, pn) :=
    if_pos ⟨by simp [Table.has, h.2], hpn⟩
  have hcan := canonicalJid_step (w := w) (e := .unifyLidDone l (some pn)) (by rintro ⟨⟩) l
  rw [hmerge] at hcan
  simp only [answer, World.handle, hchat, hcan, hlid, and_self, if_true]

/-! ## Bursts of events -/

/-- The receipts for `l` among some events. -/
def receiptsFor (l : Jid) (evs : List Event) : List ReceiptDto := evs.filterMap (·.receiptFor l)

theorem receiptFor_eq_some (h : ev.receiptFor l = some r) : ev = .receipt r ∧ r.chatJid = l := by
  cases ev with
  | receipt =>
    simp only [Event.receiptFor] at h
    split at h
    · cases h
      exact ⟨rfl, by assumption⟩
    · cases h
  | _ => cases h

/-- The calls that a run of events, and then the answer, make for receipts of `l`. -/
def World.callsFor (w : World) (l pn : Jid) (evs : List Event) : List Applied :=
  (w.logAll (evs ++ [answer l pn])).filter (fun a => a.receipt.chatJid = l)

theorem callsFor_cons (w : World) (evs : List Event) :
    w.callsFor l pn (ev :: evs) = (w.log ev).filter (fun a => a.receipt.chatJid = l) ++
      (w.handle ev).callsFor l pn evs := by
  simp only [World.callsFor, cons_append, World.logAll, filter_append]

/-- The event comes before the request for `l`, or brings no receipt for it. -/
def BeforeRequest (l : Jid) (w : World) (ev : Event) : Prop :=
  ev.receiptFor l ≠ none → w.resolving.get l = none

variable {evs : List Event}

/-- While the request is pending, every receipt is applied under the LID. -/
theorem callsFor_asking (hlid : isLid l = true) (hpn : ¬ (pn = "" ∨ pn = l))
    (hg : ∀ ev ∈ evs, ev.genuine) (ha : ∀ ev ∈ evs, ¬ ev.answers l) (hown : OwnWaits w) (h : Asking l x w) :
    w.callsFor l pn evs = (receiptsFor l evs).map (Applied.mk l) ++ x.toList.map (Applied.mk pn) ∧
      (Along World.handle (BeforeRequest l) w evs ↔ receiptsFor l evs = []) := by
  induction evs generalizing w with
  | nil =>
    have hall : ∀ a ∈ x.toList.map (Applied.mk pn), a.receipt.chatJid = l := by
      intro a hm
      obtain ⟨r, hr, rfl⟩ := mem_map.1 hm
      exact hown l _ r h.2 (Option.mem_toList.1 hr)
    refine ⟨?_, iff_of_true trivial rfl⟩
    have hlog := log_answer hlid hpn hown h
    simp only [World.callsFor, nil_append, World.logAll, append_nil, hlog]
    exact filter_eq_self.2 fun a hm => decide_eq_true (hall a hm)
  | cons ev evs ih =>
    obtain ⟨hg0, hgs⟩ := forall_mem_cons.1 hg
    obtain ⟨ha0, has⟩ := forall_mem_cons.1 ha
    have hown' := ownWaits_handle hown hg0
    rw [callsFor_cons, along_cons]
    cases hr : ev.receiptFor l with
    | none =>
      have hask : Asking l x (w.handle ev) := handle_inv (fun _ _ => asking_step) h (quiet_steps w hg0 ha0 hr)
      obtain ⟨hcalls, halong⟩ := ih hgs has hown' hask
      have hlist : receiptsFor l (ev :: evs) = receiptsFor l evs := filterMap_cons_none hr
      have hbefore : BeforeRequest l w ev := fun hne => absurd hr hne
      rw [log_other hown hg0 ha0 hr, hcalls, hlist]
      exact ⟨rfl, (and_iff_right hbefore).trans halong⟩
    | some r =>
      have hev := receiptFor_eq_some hr
      obtain ⟨rfl, hchat⟩ := hev
      obtain ⟨hask, hlog⟩ := handle_later_receipt hlid h hchat
      obtain ⟨hcalls, -⟩ := ih hgs has hown' hask
      have hlist : receiptsFor l (.receipt r :: evs) = r :: receiptsFor l evs := filterMap_cons_some hr
      have hnot : ¬ BeforeRequest l w (.receipt r) := by
        intro hb
        have hnone := hb (by rw [hr]; exact Option.some_ne_none r)
        rw [h.2] at hnone
        cases hnone
      rw [hlog, hcalls, hlist]
      refine ⟨?_, iff_of_false (fun hand => hnot hand.1) (cons_ne_nil _ _)⟩
      simp [hchat]

theorem callsFor_unknown (hlid : isLid l = true) (hpn : ¬ (pn = "" ∨ pn = l)) (hg : ∀ ev ∈ evs, ev.genuine)
    (ha : ∀ ev ∈ evs, ¬ ev.answers l) (hown : OwnWaits w) (h : NotAsked l w) :
    w.callsFor l pn evs = (receiptsFor l evs).map (Applied.mk pn) ↔
      Along World.handle (BeforeRequest l) w evs := by
  -- two receipt lists under different keys only agree when they are empty
  have hkeys : ∀ rs : List ReceiptDto, rs.map (Applied.mk l) = rs.map (Applied.mk pn) ↔ rs = [] := by
    intro rs
    cases rs with
    | nil => simp
    | cons =>
      refine iff_of_false (fun he => hpn (.inr ?_)) (cons_ne_nil _ _)
      exact (congrArg Applied.under (List.cons.inj he).1).symm
  induction evs generalizing w with
  | nil =>
    refine iff_of_true ?_ trivial
    simp [World.callsFor, World.logAll, answer, World.log, World.applied, Step.waited, h.2, receiptsFor]
  | cons ev evs ih =>
    obtain ⟨hg0, hgs⟩ := forall_mem_cons.1 hg
    obtain ⟨ha0, has⟩ := forall_mem_cons.1 ha
    have hown' := ownWaits_handle hown hg0
    have hbefore : BeforeRequest l w ev := fun _ => h.2
    rw [callsFor_cons, along_cons, and_iff_right hbefore]
    cases hr : ev.receiptFor l with
    | none =>
      have hlist : receiptsFor l (ev :: evs) = receiptsFor l evs := filterMap_cons_none hr
      have hstate := handle_inv (I := fun v => NotAsked l v ∨ Asking l none v)
        (fun _ _ hv he => hv.elim (notAsked_step · he) fun hask => .inr (asking_step hask he))
        (.inl h) (quiet_steps w hg0 ha0 hr)
      rw [log_other hown hg0 ha0 hr, hlist, nil_append]
      rcases hstate with hun | hask
      · exact ih hgs has hown' hun
      · obtain ⟨hcalls, halong⟩ := callsFor_asking hlid hpn hgs has hown' hask
        rw [hcalls, halong]
        simpa using hkeys (receiptsFor l evs)
    | some r =>
      obtain ⟨rfl, hchat⟩ := receiptFor_eq_some hr
      have hlist : receiptsFor l (.receipt r :: evs) = r :: receiptsFor l evs := filterMap_cons_some hr
      obtain ⟨hask, hlog⟩ := handle_first_receipt hlid h hchat
      obtain ⟨hcalls, halong⟩ := callsFor_asking hlid hpn hgs has hown' hask
      rw [hlog, hcalls, halong, hlist]
      cases hrs : receiptsFor l evs with
      | nil => simp
      | cons =>
        refine iff_of_false (fun he => hpn (.inr ?_)) (cons_ne_nil _ _)
        exact (congrArg Applied.under (List.cons.inj he).1).symm

/-- **A burst of receipts for a LID.** After any events `pre`, no mapping for `l` is known and none was asked
for. Then the events `evs` come before the backend answers for `l`. All their receipts for `l` are applied
under `pn` if and only if none of them comes while the request is pending. -/
theorem receipts_under_pn_iff (pre evs : List Event) (l pn : Jid) (hlid : isLid l = true)
    (hpn : ¬ (pn = "" ∨ pn = l)) (hgenuine : ∀ ev ∈ pre ++ evs, ev.genuine)
    (hunknown : NotAsked l (World.init.handleAll pre)) (hpending : ∀ ev ∈ evs, ¬ ev.answers l) :
    (World.init.handleAll pre).callsFor l pn evs = (receiptsFor l evs).map (Applied.mk pn) ↔
      Along World.handle (BeforeRequest l) (World.init.handleAll pre) evs := by
  have hown : OwnWaits (World.init.handleAll pre) := by
    have hg : ∀ ev ∈ pre, ev.genuine := fun ev h => hgenuine ev (List.mem_append_left _ h)
    have hinit : OwnWaits World.init := by
      intro j x r hx
      cases hx
    exact (along_of_forall (fun ev hev _ => hg ev hev) World.init).inv
      (fun w ev hw hev => ownWaits_handle hw hev) hinit
  exact callsFor_unknown hlid hpn (fun ev h => hgenuine ev (List.mem_append_right _ h)) hpending hown hunknown

/-- The first receipt for a LID waits for the answer. -/
theorem receipts_under_pn_iff_first :
    World.init.callsFor "7@lid" chatA [.receipt ⟨chatA, ["X"], .read⟩, .receipt ⟨"7@lid", ["X"], .read⟩] =
      [⟨chatA, ⟨"7@lid", ["X"], .read⟩⟩] :=
  (receipts_under_pn_iff [] [.receipt ⟨chatA, ["X"], .read⟩, .receipt ⟨"7@lid", ["X"], .read⟩] "7@lid" chatA
    (by decide) (by decide) (by simp [Event.genuine]) ⟨rfl, rfl⟩ (by simp [Event.answers])).2
    ⟨fun _ => rfl, fun _ => by decide, trivial⟩

/-- Two receipts for a LID in a row: the second one is applied under the LID. -/
theorem receipt_under_lid :
    let evs : List Event := [.receipt ⟨"7@lid", ["X"], .delivered⟩, .receipt ⟨"7@lid", ["X"], .read⟩]
    World.init.callsFor "7@lid" chatA evs ≠ (receiptsFor "7@lid" evs).map (Applied.mk chatA) ∧
      World.init.callsFor "7@lid" chatA evs =
        [⟨"7@lid", ⟨"7@lid", ["X"], .read⟩⟩, ⟨chatA, ⟨"7@lid", ["X"], .delivered⟩⟩] := by
  decide

end Whatsvelte
