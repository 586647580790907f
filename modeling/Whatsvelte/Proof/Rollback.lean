import Whatsvelte.Proof.Outside
import Whatsvelte.Proof.Updates
import Whatsvelte.Spec.Actions

/-!
# Rollback of an optimistic action

`rollback_iff`: after the rollback the message is what the action found, with the other events of
the meantime applied, under the key of its chat, exactly if the object that is restored is that
already and the chat kept its key. An edit restores the object that was shown when the edit began.
-/

namespace Whatsvelte

variable {w : World} {x : Shown w} {jid : Jid} {id : MsgId}

/-- The update that it brings. -/
def Meanwhile.patch : Meanwhile → Option Patch
  | .receipt status => some (.receipt status)
  | .reaction reactor emoji => some (.reaction reactor emoji)
  | .edit text editedAt => some (.edit text editedAt)
  | .revoke _ => some .revoke
  | _ => none

/-- A message with updates applied. -/
def UiMessage.updated (m : UiMessage) (fns : List Patch) : UiMessage :=
  fns.foldl (fun m fn => (fn.apply m).getD m) m

/-- The copy of the message under a key: the resident one, or else the record. -/
def World.copy (w : World) (k : Key) : Option UiMessage := ((w.slot k).resident.map Obj.msg).or (w.eff k)

/-- The message as the action finds it: under the key of `x`, or under the canonical one if the
chat was merged since. -/
def original (w : World) (x : Shown w) (a : Action) : UiMessage :=
  let w := w.run a.before
  ((w.copy x.1.key).or (w.copy ⟨canonicalJid w x.1.msg.chatJid, x.1.msg.id⟩)).getD x.1.msg

/-- The original with the updates that come in before the rejection. -/
def expected (w : World) (x : Shown w) (a : Action) (es : List Meanwhile) : UiMessage :=
  (original w x a).updated (es.filterMap Meanwhile.patch)

/-- The same record, up to the key. -/
def SameRecord (r m : UiMessage) : Prop :=
  { r with chatJid := m.chatJid, wireChatJid := m.wireChatJid } = m

/-- The message is there once, under the canonical key of its chat, and is `m`. -/
structure OnceAs (jid : Jid) (id : MsgId) (m : UiMessage) (w : World) : Prop where
  record : ∃ r, w.eff ⟨canonicalJid w jid, id⟩ = some r ∧ SameRecord r m
  resident : ∀ o, (w.slot ⟨canonicalJid w jid, id⟩).resident = some o → SameRecord o.msg m
  once : ((messagesFor w (canonicalJid w jid)).filter (fun o => o.msg.id = id)).length ≤ 1
  alone : canonicalJid w jid ≠ jid → w.slot ⟨jid, id⟩ = ⟨none, none⟩

/-- An id that is not empty is at most once in a list. -/
theorem ListOK.once {arr : List Obj} (h : ListOK jid arr) (hid : id ≠ "") :
    (arr.filter (fun o => o.msg.id = id)).length ≤ 1 := by
  have hp : (arr.filter (fun o => o.msg.id = id)).Pairwise (fun _ _ => False) := by
    refine (h.ids.sublist List.filter_sublist).imp_of_mem fun {a b} ha hb hab => ?_
    have ha' : a.msg.id = id := of_decide_eq_true (List.mem_filter.1 ha).2
    have hb' : b.msg.id = id := of_decide_eq_true (List.mem_filter.1 hb).2
    exact hid (ha'.symm.trans (hab (ha'.trans hb'.symm)))
  generalize arr.filter (fun o => o.msg.id = id) = l at hp ⊢
  match l, hp with
  | [], _ => exact Nat.zero_le _
  | [_], _ => exact le_rfl
  | a :: b :: l, hp => exact ((List.pairwise_cons.1 hp).1 b List.mem_cons_self).elim

theorem inv_rejected (h : Inv w) (a : Action) (es : List Meanwhile) : Inv (rejected w x a es) := by
  have hb : Inv (w.run a.before) := run_inv (I := Inv) (fun _ _ hi => inv_step hi _) h a.before
  exact run_inv (I := Inv) (fun _ _ hi => inv_step hi _) (inv_step hb _) es

/-- What the components take hold of at the click is the original. -/
theorem original_of_click (h : Inv w) (hid : x.1.msg.id ≠ "") {a : Action} (ha : a.before = []) :
    original w x a = x.1.msg := by
  have hres : (w.slot x.1.key).resident = some x.1 :=
    (findId_eq_some (h.wf x.1.msg.chatJid) hid).2 ⟨x.2, rfl⟩
  simp [original, ha, World.run, World.copy, hres]

/-- **A rejected action** undoes itself and nothing else exactly if the object that is restored
is the original with the updates of the meantime, and the chat kept its key. The object is the
original unless the action is an edit. -/
theorem rollback_iff (w : World) (hr : Reachable w) (x : Shown w) (hp : persistable x.1.msg = true)
    (a : Action) (es : List Meanwhile) :
    (OnceAs x.1.msg.chatJid x.1.msg.id (expected w x a es) (rolledBack w x a es) ↔
      SameRecord x.1.msg (expected w x a es) ∧
        canonicalJid (rejected w x a es) x.1.msg.chatJid = x.1.msg.chatJid) ∧
    (a.before = [] → original w x a = x.1.msg) := by
  have hi := inv_rejected (x := x) (inv_of_reachable hr) a es
  have hid := id_of_persistable hp
  have hcan : ∀ j, canonicalJid (rolledBack w x a es) j = canonicalJid (rejected w x a es) j :=
    (Outside.of_acts (acts_restoreMessage (s := .any) ⟨trivial, trivial, fun _ _ => trivial, trivial⟩)).canonicalJid
  obtain ⟨ht, hw⟩ := restoreMessage_spec hi.wf x.1
  obtain ⟨hstored, hres⟩ := hw hid
  rw [putEff, if_pos hp] at hstored
  refine ⟨⟨fun h => ?_, ?_⟩, original_of_click (inv_of_reachable hr) hid⟩
  · have hkey : canonicalJid (rolledBack w x a es) x.1.msg.chatJid = x.1.msg.chatJid := by
      by_contra hne
      -- the rollback has put the message under the old key
      have hnone := congrArg Slot.stored (h.alone hne)
      exact absurd (hstored.symm.trans hnone) (Option.some_ne_none _)
    obtain ⟨r, hr, hsame⟩ := h.record
    rw [hkey] at hr
    cases hstored.symm.trans hr
    exact ⟨hsame, (hcan _).symm.trans hkey⟩
  · rintro ⟨hsame, hkey⟩
    rw [← hcan] at hkey
    refine ⟨⟨x.1.msg, ?_, hsame⟩, fun o ho => ?_, ?_, fun hne => absurd hkey hne⟩
    · rwa [hkey]
    · rw [hkey] at ho
      rcases hres with hres | hres
      · cases hres.symm.trans ho
        exact hsame
      · exact absurd (hres.symm.trans ho) (Option.some_ne_none o).symm
    · rw [hkey]
      exact (ht.wf x.1.msg.chatJid).once hid

/-- Message X alone, shown in its chat. -/
def onlyX : Shown (World.init.run [.addMessage msgX]) := ⟨⟨0, startUnread msgX⟩, by decide +kernel⟩

/-- A rejected reaction; the receipt that comes in meanwhile is no news. -/
theorem rollback_iff_reaction :
    ∃ (w : World) (x : Shown w) (a : Action) (es : List Meanwhile), es.length = 3 ∧
      OnceAs x.1.msg.chatJid x.1.msg.id (expected w x a es) (rolledBack w x a es) :=
  ⟨_, onlyX, .react "me@s.whatsapp.net" "+", [.receipt .sent, .flush, .openNext], rfl,
    (rollback_iff _ ⟨_, rfl⟩ onlyX (by decide +kernel) _ _).1.2
      ⟨by unfold SameRecord; decide +kernel, by decide +kernel⟩⟩

/-- A receipt that comes in while an edit waits for the server is lost with the edit. -/
theorem rollback_loses_receipt :
    ¬ ∀ (w : World) (x : Shown w) (a : Action) (es : List Meanwhile), Reachable w →
      persistable x.1.msg = true →
      OnceAs x.1.msg.chatJid x.1.msg.id (expected w x a es) (rolledBack w x a es) := by
  intro hall
  have h := hall _ onlyX (.edit [] "ho" 9) [.receipt .read] ⟨_, rfl⟩ (by decide +kernel)
  obtain ⟨r, hr, hsame⟩ := h.record
  have hrec : (rolledBack _ onlyX (.edit [] "ho" 9) [.receipt .read]).eff
      ⟨canonicalJid (rolledBack _ onlyX (.edit [] "ho" 9) [.receipt .read]) chatA, "X"⟩ =
        some (startUnread msgX) := by decide +kernel
  cases hrec.symm.trans hr
  exact absurd hsame (by unfold SameRecord; decide +kernel)

end Whatsvelte
