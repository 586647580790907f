import Whatsvelte.Spec.Messages

/-!
# `stores/lid.ts`

LID ↔ phone-number unification. The map saved in `localStorage` is a copy of
`lidToPn` that only boot reads back; it is left out.
-/

namespace Whatsvelte

/-- The phone-number form of a JID, if a mapping is known. -/
def canonicalJid (w : World) (jid : Jid) : Jid :=
  if isLid jid then (w.lidToPn jid).getD jid else jid

/-- Merge a split LID conversation into its phone-number form. -/
def applyMerge (w : World) (lid pn : Jid) : World :=
  if !w.chats.has lid && (w.byChat lid).isNone then w
  else schedulePersistChats (movePersistedChat (mergeChats (mergeMessages w lid pn) lid pn) lid pn)

def World.learn (w : World) (lid pn : Jid) : World :=
  { w with lidToPn := Function.update w.lidToPn lid (some pn) }

/-- Record a known pair and merge any chat already split under the LID. -/
def learnLidMapping (w : World) (lid pn : Jid) : World :=
  let l := normalizeJid lid
  let p := normalizeJid pn
  if !isLid l || w.lidToPn l = some p then w else applyMerge (w.learn l p) l p

/-- What a caller of `unifyLid` does when the promise resolves: a receipt that waited
is applied under whatever key won. -/
def thenReceipt (w : World) : Option ReceiptDto → World
  | none => w
  | some r => applyReceipt w (canonicalJid w r.chatJid) r.messageIds r.status

/-- Ensure that a LID is unified with its phone-number form, then apply `receipt`. -/
def unifyLid (w : World) (jid : Jid) (receipt : Option ReceiptDto) : World :=
  if !isLid jid then thenReceipt w receipt
  else
    match w.lidToPn jid with
    | some known => thenReceipt (applyMerge w jid known) receipt
    | none =>
      if w.resolving.has jid then thenReceipt w receipt
      else { w with resolving := w.resolving.set ⟨jid, receipt⟩ }

/-- The backend answered a `resolve_jid` request (`none`: no mapping, or an error). -/
def unifyLidDone (w : World) (jid : Jid) (pn : Option Jid) : World :=
  match w.resolving.get jid with
  | none => w
  | some r =>
    let w := match pn with
      | none => w
      | some p => if p = "" ∨ p = jid then w else applyMerge (w.learn jid p) jid p
    thenReceipt { w with resolving := w.resolving.erase jid } r.receipt

end Whatsvelte
