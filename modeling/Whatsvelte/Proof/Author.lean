import Whatsvelte.Proof.Handlers
import Whatsvelte.Proof.Invariant

/-!
# Who rewrites a message

`author_only_iff`: an edit, or a revoke in a chat with one person, leaves every copy of every message by
somebody else as it is, if and only if it is `Harmless`: of the message that it names, each copy by
somebody else already is what the update makes of it. The handler does not look at the sender, so this
is all that protects a message.
-/

namespace Whatsvelte

open List

variable {w v : World} {u : MessageUpdateDto} {jid : Jid} {id : MsgId} {x o : Obj} {arr : List Obj}
variable {fn : Patch} {m : UiMessage}

/-! ## What `commit` drops -/

/-- The list with the message `id` replaced, for a message whose id is its own. -/
theorem replaceId_eq_map (h : ListOK jid arr) (hx : findId arr id = some x) (hid : id ≠ "") :
    replaceId arr id o = arr.map fun y => if y.msg.id = id then o else y := by
  induction arr with
  | nil => rfl
  | cons y arr ih =>
    rw [replaceId, replaceFirst, map_cons]
    by_cases hy : y.msg.id = id
    · have hrest : arr.map (fun y => if y.msg.id = id then o else y) = arr := by
        refine (map_congr_left fun z hz => ?_).trans (map_id' arr)
        have hapart := (pairwise_cons.1 h.ids).1 z hz
        refine if_neg fun hzid => hid ?_
        rw [← hy]
        exact hapart (hy.trans hzid.symm)
      rw [if_pos hy, hrest]
      simp [hy]
    · rw [findId_cons, if_neg hy] at hx
      rw [if_neg hy, ← ih (h.sublist (sublist_cons_self _ _)) hx]
      simp [hy, replaceId]

theorem findId_map {f : Obj → Obj} (hf : ∀ y ∈ arr, (f y).msg.id = y.msg.id) :
    findId (arr.map f) id = (findId arr id).map f := by
  induction arr with
  | nil => rfl
  | cons y arr ih =>
    rw [map_cons, findId_cons, findId_cons, hf y mem_cons_self, ih fun z hz => hf z (mem_cons_of_mem _ hz)]
    split <;> rfl

theorem committed_map {f : Obj → Obj} (hf : ∀ y ∈ arr, (f y).msg.timestamp = y.msg.timestamp)
    (hact : v.activeJid = w.activeJid) : committed v jid (arr.map f) = (committed w jid arr).map f := by
  have hsort : sortByTime (arr.map f) = (sortByTime arr).map f := by
    refine (map_insertionSort (r := fun a b : Obj => a.msg.timestamp ≤ b.msg.timestamp)
      (s := fun a b : Obj => a.msg.timestamp ≤ b.msg.timestamp) f arr fun a ha b hb => ?_).symm
    rw [hf a ha, hf b hb]
  have htrims : trims v jid (arr.map f) = trims w jid arr := by
    simp only [trims, hact, length_map]
  rw [committed, committed, htrims, hsort]
  split
  · rw [lastN, lastN, length_map, map_drop]
  · rfl

/-- A message that is replaced by one of the same time is dropped from memory or kept as it was. -/
theorem resident_commit_replaceId (h : w.Wf) (hx : findId (messagesFor w jid) id = some x) (hid : id ≠ "")
    (hoid : o.msg.id = id) (ht : o.msg.timestamp = x.msg.timestamp) (hact : v.activeJid = w.activeJid) :
    findId (messagesFor (commit v jid (replaceId (messagesFor w jid) id o)) jid) id =
      (findId (messagesFor (commit w jid (messagesFor w jid)) jid) id).map fun _ => o := by
  have hself : ∀ y ∈ messagesFor w jid, y.msg.id = id → y = x := fun y hy hyid =>
    (h jid).eq_of_id hy (findId_mem hx) (hyid.trans (findId_id hx).symm) (by rwa [hyid])
  rw [messagesFor_commit, if_pos rfl, messagesFor_commit, if_pos rfl, replaceId_eq_map (h jid) hx hid,
    committed_map (fun y hy => ?_) hact, findId_map fun y hy => ?_]
  · cases hf : findId (committed w jid (messagesFor w jid)) id with
    | none => rfl
    | some => exact congrArg some (if_pos (findId_id hf))
  · split
    · rename_i hyid
      rw [hoid, hyid]
    · rfl
  · split
    · rename_i hyid
      rw [ht, hself y hy hyid]
    · rfl

/-! ## Rewriting updates -/

/-- A sender, up to the device and the LID. -/
def person (w : World) (jid : Jid) : Jid := canonicalJid w (normalizeJid jid)

/-- The update comes from whom the message is from. -/
def MessageUpdateDto.By (w : World) (u : MessageUpdateDto) (m : UiMessage) : Prop :=
  person w (u.senderJid.getD "") = person w m.senderJid ∨ u.fromMe = true ∧ m.fromMe = true

instance (w : World) (u : MessageUpdateDto) (m : UiMessage) : Decidable (u.By w m) :=
  inferInstanceAs (Decidable (_ ∨ _))

/-- A chat with one person. -/
def isDirect (jid : Jid) : Bool := isLid jid || "@s.whatsapp.net".toList.isSuffixOf jid.toList

/-- The update that only the author may make: an edit, or a revoke in a chat with one person. -/
def MessageUpdateDto.rewrite (w : World) (u : MessageUpdateDto) : Option Patch :=
  match u.kind with
  | .edit => some (.edit u.text u.timestamp)
  | .revoke => if isDirect (canonicalJid w u.chatJid) then some .revoke else none
  | .reaction => none

/-- The message that the update names. -/
def MessageUpdateDto.target (w : World) (u : MessageUpdateDto) : Key :=
  ⟨canonicalJid w u.chatJid, u.targetId⟩

/-- From `w` to `v` no copy by somebody else has changed; one that is in memory may have been
dropped from there. -/
def AuthorOnly (w v : World) (u : MessageUpdateDto) : Prop :=
  ∀ k : Key, k.id ≠ "" →
    (∀ x y, (w.slot k).resident = some x → ¬ u.By w x.msg → (v.slot k).resident = some y →
      y.msg = x.msg) ∧
    ∀ m, w.eff k = some m → ¬ u.By w m → v.eff k = some m

/-- A revoke publishes the list of its chat, and that drops the message it names from memory. -/
def Drops (w : World) (u : MessageUpdateDto) : Prop :=
  u.kind = .revoke ∧ ((commit w (u.target w).chatJid (messagesFor w (u.target w).chatJid)).slot
    (u.target w)).resident = none

/-- The copies by somebody else are what the update makes of the message. A resident copy is rewritten
in memory, unless `commit` drops it from there after a revoke, and in the store, if it is persistable;
otherwise the record of the effective history is. -/
def Harmless (w : World) (u : MessageUpdateDto) : Prop :=
  ∀ fn, u.rewrite w = some fn → u.targetId ≠ "" →
    match (w.slot (u.target w)).resident with
    | some x =>
      (¬ u.By w x.msg → fn.apply x.msg = some x.msg ∨ Drops w u) ∧
      ∀ m m', w.eff (u.target w) = some m → ¬ u.By w m → fn.apply x.msg = some m' →
        persistable m' = true → m' = m
    | none => ∀ m, w.eff (u.target w) = some m → ¬ u.By w m → fn.apply m = some m

/-! ## What a rewriting update does -/

/-- An edit replaces the resident copy. -/
theorem resident_updateMessage (h : w.Wf) (hid : id ≠ "")
    (hx : findId (messagesFor w jid) id = some x) (hm : fn.apply x.msg = some m) :
    ∃ o : Obj, o.msg = m ∧ findId (messagesFor (updateMessage w jid id fn) jid) id = some o := by
  let o : Obj := ⟨w.nextRef, m⟩
  have hoid : o.msg.id = id := (congrArg Key.id (Patch.apply_key hm).1).trans (findId_id hx)
  have hlist : messagesFor (updateMessage w jid id fn) jid = replaceId (messagesFor w jid) id o := by
    simp only [updateMessage, hx, byChat_of_find hx, hm]
    rw [messagesFor_setList, if_pos rfl]
  refine ⟨o, rfl, ?_⟩
  rw [hlist, findId_replaceId (h jid) hx hoid hid, if_pos rfl]

/-- A revoke replaces it too, and `commit` may drop it from memory then. -/
theorem resident_applyRevoke (h : w.Wf) (hid : id ≠ "")
    (hx : findId (messagesFor w jid) id = some x) (hm : Patch.revoke.apply x.msg = some m)
    (f : Option Fallback) :
    ∃ o : Obj, o.msg = m ∧ findId (messagesFor (applyRevoke w jid id f) jid) id =
      (findId (messagesFor (commit w jid (messagesFor w jid)) jid) id).map fun _ => o := by
  let o : Obj := ⟨w.nextRef, m⟩
  obtain ⟨hkey, htime⟩ := Patch.apply_key hm
  have hoid : o.msg.id = id := (congrArg Key.id hkey).trans (findId_id hx)
  refine ⟨o, rfl, ?_⟩
  simp only [applyRevoke, hx, byChat_of_find hx, hm]
  exact resident_commit_replaceId h hx hid hoid htime rfl

theorem kind_of_rewrite (hfn : u.rewrite w = some fn) :
    u.kind = .edit ∧ fn = .edit u.text u.timestamp ∨ u.kind = .revoke ∧ fn = .revoke := by
  unfold MessageUpdateDto.rewrite at hfn
  split at hfn
  · rename_i hk
    exact .inl ⟨hk, (Option.some.inj hfn).symm⟩
  · rename_i hk
    split at hfn
    · exact .inr ⟨hk, (Option.some.inj hfn).symm⟩
    · cases hfn
  · cases hfn

theorem step_of_edit (w : World) (hk : u.kind = .edit) : w.step (updateStep w u) =
    updateMessage w (canonicalJid w u.chatJid) u.targetId (.edit u.text u.timestamp) := by
  simp only [updateStep, hk]
  rfl

theorem step_of_revoke (w : World) (hk : u.kind = .revoke) : w.step (updateStep w u) =
    applyRevoke w (canonicalJid w u.chatJid) u.targetId
      (some ⟨canonicalJid w (u.senderJid.getD ""), u.fromMe, u.timestamp⟩) := by
  simp only [updateStep, hk]
  rfl

/-- The step of a rewriting update, at the message that it names and elsewhere. -/
theorem rewrite_spec (h : w.Wf) (hfn : u.rewrite w = some fn) :
    Touches (u.target w) w (w.step (updateStep w u)) ∧
      (u.targetId ≠ "" → ∃ f, Updated fn f (u.target w) w (w.step (updateStep w u))) := by
  rcases kind_of_rewrite hfn with ⟨hk, rfl⟩ | ⟨hk, rfl⟩
  · rw [step_of_edit w hk]
    obtain ⟨ht, hu⟩ := updateMessage_spec h (canonicalJid w u.chatJid) u.targetId (.edit u.text u.timestamp)
    exact ⟨ht, fun hid => ⟨none, hu hid⟩⟩
  · rw [step_of_revoke w hk]
    obtain ⟨ht, hu⟩ := applyRevoke_spec h (canonicalJid w u.chatJid) u.targetId
      (some ⟨canonicalJid w (u.senderJid.getD ""), u.fromMe, u.timestamp⟩)
    exact ⟨ht, fun hid => ⟨_, hu hid⟩⟩

theorem rewrite_resident (h : w.Wf) (hfn : u.rewrite w = some fn)
    (hid : u.targetId ≠ "") (hx : (w.slot (u.target w)).resident = some x) (hm : fn.apply x.msg = some m) :
    Drops w u ∧ ((w.step (updateStep w u)).slot (u.target w)).resident = none ∨
    ¬ Drops w u ∧ ∃ o : Obj, o.msg = m ∧
      ((w.step (updateStep w u)).slot (u.target w)).resident = some o := by
  rcases kind_of_rewrite hfn with ⟨hk, rfl⟩ | ⟨hk, rfl⟩
  · right
    refine ⟨fun hd => ?_, ?_⟩
    · exact absurd (hk.symm.trans hd.1) (by decide)
    · rw [step_of_edit w hk]
      exact resident_updateMessage h hid hx hm
  · have hx : findId (messagesFor w (canonicalJid w u.chatJid)) u.targetId = some x := hx
    obtain ⟨o, ho, hres⟩ := resident_applyRevoke h hid hx hm
      (some ⟨canonicalJid w (u.senderJid.getD ""), u.fromMe, u.timestamp⟩)
    rw [step_of_revoke w hk]
    cases hc : findId (messagesFor (commit w (canonicalJid w u.chatJid)
        (messagesFor w (canonicalJid w u.chatJid))) (canonicalJid w u.chatJid)) u.targetId with
    | none =>
      rw [hc] at hres
      exact .inl ⟨⟨hk, hc⟩, hres⟩
    | some =>
      rw [hc] at hres
      refine .inr ⟨fun hd => ?_, o, ho, hres⟩
      exact absurd (hc.symm.trans hd.2) (by simp)

/-! ## The result -/

theorem rewrite_apply (hfn : u.rewrite w = some fn) (m : UiMessage) : ∃ m', fn.apply m = some m' := by
  rcases kind_of_rewrite hfn with ⟨-, rfl⟩ | ⟨-, rfl⟩ <;> exact ⟨_, rfl⟩

/-- The record that a rewriting update leaves. -/
theorem rewrite_eff {f : Option Fallback} {k : Key} (hfn : u.rewrite w = some fn) (hu : Updated fn f k w v) :
    (∀ x m, (w.slot k).resident = some x → fn.apply x.msg = some m → v.eff k = putEff m (w.eff k)) ∧
    ((w.slot k).resident = none → ∀ m, w.eff k = some m → v.eff k = fn.apply m) := by
  cases hu with
  | resident x o hx ho hw =>
    refine ⟨fun y m hy hm => ?_, fun hn => ?_⟩
    · rw [hx] at hy
      cases hy
      rw [ho] at hm
      cases hm
      exact hw.1
    · rw [hx] at hn
      cases hn
  | unchanged x hx ho =>
    obtain ⟨m', hm'⟩ := rewrite_apply hfn x.msg
    rw [ho] at hm'
    cases hm'
  | stored hx hs =>
    refine ⟨fun y m hy => ?_, fun _ m hm => ?_⟩
    · rw [hx] at hy
      cases hy
    · obtain ⟨m', hm'⟩ := rewrite_apply hfn m
      have : v.eff k = patchedEff fn (w.eff k) := congrArg Slot.stored hs
      rw [this, hm, patchedEff, Option.bind_some, hm', Option.some_or]
  | tombstone fb o hx he =>
    refine ⟨fun y m hy => ?_, fun _ m hm => ?_⟩
    · rw [hx] at hy
      cases hy
    · rw [he] at hm
      cases hm

theorem authorOnly_iff (h : w.Wf) (hfn : u.rewrite w = some fn) :
    AuthorOnly w (w.step (updateStep w u)) u ↔ Harmless w u := by
  obtain ⟨htouch, hupd⟩ := rewrite_spec h hfn
  constructor
  · intro ha fn' hfn' hid
    rw [hfn] at hfn'
    cases hfn'
    obtain ⟨f, hu⟩ := hupd hid
    obtain ⟨hmem, hstore⟩ := ha (u.target w) hid
    obtain ⟨heff, heff'⟩ := rewrite_eff hfn hu
    cases hx : (w.slot (u.target w)).resident with
    | some x =>
      refine ⟨fun hby => ?_, fun m m' hm hby hm' hp => ?_⟩
      · obtain ⟨m', hm'⟩ := rewrite_apply hfn x.msg
        rcases rewrite_resident h hfn hid hx hm' with ⟨hd, -⟩ | ⟨-, o, rfl, ho⟩
        · exact .inr hd
        · rw [hm', hmem x o hx hby ho]
          exact .inl rfl
      · have := hstore m hm hby
        rw [heff x m' hx hm', putEff, if_pos hp] at this
        exact Option.some.inj this
    | none => exact fun m hm hby => (heff' hx m hm).symm.trans (hstore m hm hby)
  · intro hh k hk
    by_cases hkt : u.target w = k
    · subst hkt
      obtain ⟨f, hu⟩ := hupd hk
      obtain ⟨heff, heff'⟩ := rewrite_eff hfn hu
      have hh := hh fn hfn hk
      cases hx : (w.slot (u.target w)).resident with
      | some x =>
        rw [hx] at hh
        obtain ⟨m', hm'⟩ := rewrite_apply hfn x.msg
        refine ⟨fun x' y hx' hby hy => ?_, fun m hm hby => ?_⟩
        · cases hx'
          rcases rewrite_resident h hfn hk hx hm' with ⟨-, hn⟩ | ⟨hd, o, ho, hres⟩
          · rw [hn] at hy
            cases hy
          · have hsame := (hh.1 hby).resolve_right hd
            rw [hres] at hy
            cases hy
            rw [hm'] at hsame
            exact ho.trans (Option.some.inj hsame)
        · rw [heff x m' hx hm', putEff]
          split
          · rename_i hp
            rw [hh.2 m m' hm hby hm' hp]
          · exact hm
      | none =>
        rw [hx] at hh
        exact ⟨by rintro x' y ⟨⟩, fun m hm hby => (heff' hx m hm).trans (hh m hm hby)⟩
    · obtain ⟨hstored, hres⟩ := htouch.keeps k hk hkt
      refine ⟨fun x y hx _ hy => ?_, fun m hm _ => hstored.trans hm⟩
      rcases hres with hres | hres
      · rw [hy, hx] at hres
        cases hres
        rfl
      · rw [hy] at hres
        cases hres

theorem wf_handleAll (evs : List Event) : (World.init.handleAll evs).Wf := by
  refine (run_inv (fun w ev hw => ?_) inv_init evs).wf
  exact handle_inv (fun _ e hi _ => inv_step hi e) hw
    (along_of_forall (fun _ _ _ => trivial) _)

/-- **Only the author rewrites a message.** After any run of events, the handler of an update makes the
step of the update and then unifies the LIDs in it. Where the update is an edit, or a revoke in a chat
with one person, that step leaves every copy of a message by somebody else as it is if and only if the
update is `Harmless`. -/
theorem author_only_iff (evs : List Event) (u : MessageUpdateDto) :
    let w := World.init.handleAll evs
    w.handle (.messageUpdate u) = (w.step (updateStep w u)).run
      (.unifyLid u.chatJid none :: senderSteps (u.senderJid.getD "") u.chatJid) ∧
    ((u.rewrite w ≠ none → AuthorOnly w (w.step (updateStep w u)) u) ↔ Harmless w u) := by
  intro w
  refine ⟨handle_eq_run w (.messageUpdate u), ?_⟩
  have hwf : w.Wf := wf_handleAll evs
  cases hfn : u.rewrite w with
  | none =>
    refine ⟨fun _ fn hfn' => ?_, fun _ hne => absurd rfl hne⟩
    rw [hfn] at hfn'
    cases hfn'
  | some =>
    rw [← authorOnly_iff hwf hfn]
    exact ⟨fun h => h (by simp), fun h _ => h⟩

/-- A message of somebody in a group, and an edit of it by somebody else. -/
def groupG : Jid := "g@g.us"

def dtoG : MessageDto :=
  { id := "X", chatJid := groupG, senderJid := "a@s.whatsapp.net", fromMe := false, timestamp := 5,
    text := some "hi" }

def forgedEdit : MessageUpdateDto :=
  ⟨groupG, "X", .edit, some "forged", some "b@s.whatsapp.net", false, 9⟩

/-- The edit changes the text in memory and in the effective history. -/
theorem other_member_edits :
    let w := World.init.handleAll [.message dtoG]
    ¬ AuthorOnly w (w.step (updateStep w forgedEdit)) forgedEdit ∧
    (w.eff ⟨groupG, "X"⟩).map (·.text) = some (some "hi") ∧
    ((w.handle (.messageUpdate forgedEdit)).eff ⟨groupG, "X"⟩).map (·.text) = some (some "forged") ∧
    (messagesFor (w.handle (.messageUpdate forgedEdit)) groupG).map (·.msg.text) = [some "forged"] := by
  intro w
  have hbefore : (w.eff ⟨groupG, "X"⟩).map (·.text) = some (some "hi") := by decide +kernel
  refine ⟨fun h => ?_, hbefore, by decide +kernel, by decide +kernel⟩
  obtain ⟨m, hm, ht⟩ := Option.map_eq_some_iff.1 hbefore
  have hby : (w.eff ⟨groupG, "X"⟩).all (fun m => ¬ forgedEdit.By w m) = true := by decide +kernel
  rw [hm, Option.all_some, decide_eq_true_eq] at hby
  have hkept := (h ⟨groupG, "X"⟩ (by decide)).2 m hm hby
  have hafter : ((w.step (updateStep w forgedEdit)).eff ⟨groupG, "X"⟩).map (·.text) =
      some (some "forged") := by decide +kernel
  rw [hkept, Option.map_some, ht] at hafter
  exact absurd hafter (by decide)

end Whatsvelte
