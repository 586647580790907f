import Whatsvelte.Lib.Shed
import Whatsvelte.Spec.Bridge

/-!
# Wrapped messages

`nest ws p` is the message `p` in the wrappers `ws`, the outermost first. `getBaseMessage` goes once
through its seven wrappers in a fixed order, so it acts on `ws` as `shed` does (`getBaseMessage_nest`), and
the loop of `unwrapWrappers` starts such a pass after each wrapper of its own. The loop therefore
reaches `p` if and only if no two neighbours of the seven kinds stand in the wrong order
(`unwrapWrappers_nest`). `quotedDto` makes the first pass only.

* **`wrapping_invisible_iff`**: all that is shown of the wrapped message is that of `p` if and only if the
  wrappers ascend in this sense and, where `p` is a reply, all are of the seven kinds.
-/

namespace Whatsvelte.Bridge

open List

variable {p : Message} {w v : Wrapper} {ws : List Wrapper} {fixed5 : Float → String}

/-- The message whose only field is the wrapper `w` with `m` in it. -/
def wrap (w : Wrapper) (m : Message) : Message :=
  match w with
  | .deviceSent => { deviceSentMessage := some ⟨some m⟩ }
  | .ephemeral => { ephemeralMessage := some ⟨some m⟩ }
  | .viewOnce => { viewOnceMessage := some ⟨some m⟩ }
  | .viewOnceV2 => { viewOnceMessageV2 := some ⟨some m⟩ }
  | .viewOnceV2Extension => { viewOnceMessageV2Extension := some ⟨some m⟩ }
  | .documentWithCaption => { documentWithCaptionMessage := some ⟨some m⟩ }
  | .edited => { editedMessage := some ⟨some m⟩ }
  | .groupMentioned => { groupMentionedMessage := some ⟨some m⟩ }
  | .botInvoke => { botInvokeMessage := some ⟨some m⟩ }
  | .botForwarded => { botForwardedMessage := some ⟨some m⟩ }
  | .statusMention => { statusMentionMessage := some ⟨some m⟩ }
  | .groupStatusMention => { groupStatusMentionMessage := some ⟨some m⟩ }
  | .associatedChild => { associatedChildMessage := some ⟨some m⟩ }
  | .lottieSticker => { lottieStickerMessage := some ⟨some m⟩ }
  | .spoiler => { spoilerMessage := some ⟨some m⟩ }

/-- `p` in the wrappers `ws`, the outermost first. -/
def nest (ws : List Wrapper) (p : Message) : Message := ws.foldr wrap p

/-- No wrapper field is set. -/
def Bare (p : Message) : Prop := ∀ w, p.wrapper w = none

/-- `p` refers to another message. -/
def IsReply (p : Message) : Prop := ((contextInfoOf p).bind (·.stanzaId)).isSome

/-- What is shown of `m` is what is shown of `p`. -/
structure ShownAs (fixed5 : Float → String) (m p : Message) : Prop where
  unwraps : unwrapWrappers m = p
  kind : classify m = classify p
  text : textOf fixed5 m = textOf fixed5 p
  media : mediaDto m = mediaDto p
  thumbnail : thumbnailB64 m = thumbnailB64 p
  quote : quotedDto fixed5 m = quotedDto fixed5 p

theorem wrapper_wrap (w v : Wrapper) (m : Message) :
    (wrap w m).wrapper v = if w = v then some ⟨some m⟩ else none := by
  cases w <;> cases v <;> rfl

theorem contextInfoOf_wrap (w : Wrapper) (m : Message) : contextInfoOf (wrap w m) = none := by
  cases w <;> rfl

theorem mem_loopWrappers_iff (w : Wrapper) : w ∈ loopWrappers ↔ w ∉ baseWrappers := by
  cases w <;> decide

theorem baseWrappers_nodup : baseWrappers.Nodup := by decide

/-! ## One pass and the loop -/

theorem peel_nest (hp : Bare p) (ws : List Wrapper) (v : Wrapper) :
    (nest ws p).peel v = nest (shedOne ws v) p := by
  cases ws with
  | nil => rw [Message.peel, nest, foldr_nil, hp v]; rfl
  | cons w ws =>
    rw [Message.peel, nest, foldr_cons, wrapper_wrap]
    by_cases h : w = v
    · rw [if_pos h, h, shedOne_cons_self]; rfl
    · have hhead : (w :: ws).head? ≠ some v := fun heq => h (Option.some.inj heq)
      rw [if_neg h, shedOne_of_head?_ne hhead]; rfl

theorem getBaseMessage_nest (hp : Bare p) (ws : List Wrapper) :
    (nest ws p).getBaseMessage = nest (shed baseWrappers ws) p := by
  unfold Message.getBaseMessage shed
  induction baseWrappers generalizing ws with
  | nil => rfl
  | cons v order ih => rw [foldl_cons, foldl_cons, peel_nest hp, ih]

theorem next_bare (hp : Bare p) : p.next = none := by
  rw [Message.next, List.findSome?_eq_none_iff.2 fun w _ => hp w]; rfl

theorem next_wrap (w : Wrapper) (m : Message) :
    (wrap w m).next = if w ∈ loopWrappers then some m else none := by
  cases w <;> rfl

theorem unwrapLoop_of_next_none {cur : Message} (h : cur.next = none) : unwrapLoop cur = cur := by
  rw [unwrapLoop]
  split
  · next inner hinner => rw [h] at hinner; cases hinner
  · rfl

theorem unwrapLoop_of_next_some {cur inner : Message} (h : cur.next = some inner) :
    unwrapLoop cur = unwrapWrappers inner := by
  rw [unwrapLoop]
  split
  · next inner' hinner => rw [h] at hinner; cases hinner; rfl
  · next hnone => rw [h] at hnone; cases hnone

/-- **What the loop leaves.** Some of the wrappers may stay, and none stays if and only if neighbours of the
seven kinds stand in the order of the pass. -/
theorem unwrapWrappers_nest (hp : Bare p) (ws : List Wrapper) :
    ∃ rest, unwrapWrappers (nest ws p) = nest rest p ∧ (rest = [] ↔ Ascends baseWrappers ws) := by
  -- by the number of wrappers: one round takes a block of base wrappers and one wrapper of the loop
  induction hn : ws.length using Nat.strong_induction_on generalizing ws with
  | _ n ih =>
  obtain ⟨block, hblock, heq⟩ := exists_append_shed baseWrappers ws
  have hasc : Ascends baseWrappers block := ascends_of_sublist baseWrappers_nodup hblock
  rw [unwrapWrappers, getBaseMessage_nest hp]
  cases hrest : shed baseWrappers ws with
  | nil =>
    rw [hrest, append_nil] at heq
    refine ⟨[], unwrapLoop_of_next_none (next_bare hp), fun _ => ?_, fun _ => rfl⟩
    rwa [heq]
  | cons w rest =>
    rw [hrest] at heq
    by_cases hw : w ∈ loopWrappers
    · -- the loop takes `w` off and starts again
      have hlen : rest.length < n := by
        rw [← hn, heq, length_append, length_cons]; omega
      obtain ⟨left, hleft, hiff⟩ := ih _ hlen rest rfl
      refine ⟨left, ?_, ?_⟩
      · rw [← hleft]
        exact unwrapLoop_of_next_some ((next_wrap w _).trans (if_pos hw))
      · rw [hiff, heq, ascends_append_cons ((mem_loopWrappers_iff w).1 hw)]
        exact ⟨fun h => ⟨hasc, h⟩, And.right⟩
    · -- a base wrapper that the pass has left stays
      refine ⟨w :: rest, unwrapLoop_of_next_none ((next_wrap w _).trans (if_neg hw)), ?_, fun h => ?_⟩
      · intro h; cases h
      · have hhead := head?_dropWhile_not (· ∈ baseWrappers) ws
        rw [← h.shed_eq baseWrappers_nodup, hrest] at hhead
        exact absurd ((mem_loopWrappers_iff w).2 (of_decide_eq_false hhead)) hw

/-- A wrapper that stays is seen. -/
theorem nest_eq_self_iff (hp : Bare p) : nest ws p = p ↔ ws = [] := by
  constructor
  · intro h
    cases ws with
    | nil => rfl
    | cons w ws =>
      have hw := wrapper_wrap w w (nest ws p)
      rw [if_pos rfl] at hw
      have hnone := hp w
      rw [← h] at hnone
      exact absurd (hw.symm.trans hnone) (by simp)
  · rintro rfl
    rfl

theorem unwrapWrappers_nest_iff (hp : Bare p) (ws : List Wrapper) :
    unwrapWrappers (nest ws p) = p ↔ Ascends baseWrappers ws := by
  obtain ⟨rest, heq, hiff⟩ := unwrapWrappers_nest hp ws
  rw [heq, nest_eq_self_iff hp, hiff]

/-! ## The quote -/

theorem quotedDto_isSome_iff (m : Message) : (quotedDto fixed5 m).isSome ↔ IsReply m.getBaseMessage := by
  unfold quotedDto IsReply
  cases contextInfoOf m.getBaseMessage with
  | none => simp
  | some ci =>
    cases hid : ci.stanzaId with
    | none => simp [hid]
    | some => cases hq : ci.quotedMessage <;> simp [hid, hq]

theorem quotedDto_of_not_isReply {m : Message} (h : ¬ IsReply m.getBaseMessage) : quotedDto fixed5 m = none :=
  Option.not_isSome_iff_eq_none.1 (mt (quotedDto_isSome_iff m).1 h)

theorem getBaseMessage_bare (hp : Bare p) : p.getBaseMessage = p := getBaseMessage_nest hp []

theorem not_isReply_wrap (w : Wrapper) (m : Message) : ¬ IsReply (wrap w m) := by
  rw [IsReply, contextInfoOf_wrap]; simp

/-- The quote of a wrapped reply survives if and only if the first pass removes all wrappers. -/
theorem quotedDto_nest_iff (hp : Bare p) :
    quotedDto fixed5 (nest ws p) = quotedDto fixed5 p ↔ shed baseWrappers ws = [] ∨ ¬ IsReply p := by
  have hbase := getBaseMessage_nest hp ws
  constructor
  · intro h
    by_contra hne
    obtain ⟨hrest, hreply⟩ := not_or.1 hne
    have hsome : (quotedDto fixed5 p).isSome := by
      rw [quotedDto_isSome_iff, getBaseMessage_bare hp]
      exact not_not.1 hreply
    rw [← h, quotedDto_isSome_iff, hbase] at hsome
    obtain ⟨w, rest, hcons⟩ := exists_cons_of_ne_nil hrest
    rw [hcons] at hsome
    exact not_isReply_wrap w _ hsome
  · rintro (hrest | hreply)
    · unfold quotedDto
      rw [hbase, hrest, getBaseMessage_bare hp]
      rfl
    · have hnest : ¬ IsReply (nest ws p).getBaseMessage := by
        rw [hbase]
        cases shed baseWrappers ws with
        | nil => exact hreply
        | cons w => exact not_isReply_wrap w _
      rw [← getBaseMessage_bare hp] at hreply
      rw [quotedDto_of_not_isReply hnest, quotedDto_of_not_isReply hreply]

/-- In ascending wrappers, the first pass removes all if and only if all are of its kinds. -/
theorem shed_eq_nil_iff (h : Ascends baseWrappers ws) :
    shed baseWrappers ws = [] ↔ ∀ w ∈ ws, w ∈ baseWrappers := by
  rw [h.shed_eq baseWrappers_nodup, dropWhile_eq_nil_iff]
  simp

/-- **Wrapping is invisible** if and only if neighbouring wrappers of the single pass stand in its order and,
around a reply, all wrappers are of that pass. -/
theorem wrapping_invisible_iff (fixed5 : Float → String) (ws : List Wrapper) {p : Message} (hp : Bare p) :
    ShownAs fixed5 (nest ws p) p ↔
      Ascends baseWrappers ws ∧ (IsReply p → ∀ w ∈ ws, w ∈ baseWrappers) := by
  constructor
  · intro h
    have hasc := (unwrapWrappers_nest_iff hp ws).1 h.unwraps
    refine ⟨hasc, fun hreply => (shed_eq_nil_iff hasc).1 ?_⟩
    exact ((quotedDto_nest_iff hp).1 h.quote).resolve_right (not_not.2 hreply)
  · rintro ⟨hasc, hquote⟩
    have hunwrap := (unwrapWrappers_nest_iff hp ws).2 hasc
    have hself : unwrapWrappers p = p := (unwrapWrappers_nest_iff hp []).2 List.IsChain.nil
    refine ⟨hunwrap, ?_, ?_, ?_, ?_, (quotedDto_nest_iff hp).2 ?_⟩
    · rw [classify, hunwrap, classify, hself]
    · rw [textOf, hunwrap, textOf, hself]
    · rw [mediaDto, hunwrap, mediaDto, hself]
    · rw [thumbnailB64, hunwrap, thumbnailB64, hself]
    · by_cases hreply : IsReply p
      · exact Or.inl ((shed_eq_nil_iff hasc).2 (hquote hreply))
      · exact Or.inr hreply

/-- A text. -/
def hello : Message := { conversation := some "hello" }

/-- A reply to `hello`. -/
def answer : Message :=
  { extendedTextMessage := some { text := some "hi"
                                  contextInfo := some { stanzaId := some "M1", quotedMessage := some hello } } }

theorem bare_hello : Bare hello := by
  intro w
  cases w <;> rfl

theorem wrapping_invisible_iff_hello :
    ShownAs (fun _ => "0.00000") (nest [.ephemeral, .viewOnceV2, .spoiler, .ephemeral] hello) hello := by
  refine (wrapping_invisible_iff _ _ bare_hello).2 ⟨?_, fun h => ?_⟩
  · unfold Ascends
    decide
  · cases h

/-- A disappearing message in a view-once wrapper shows nothing, and a reply in a spoiler loses its quote. -/
theorem disappearing_in_view_once_hidden :
    Bare hello ∧ classify hello = "text" ∧ classify (nest [.viewOnce, .ephemeral] hello) = "other" ∧
      unwrapWrappers (nest [.viewOnce, .ephemeral] hello) ≠ hello ∧
      Bare answer ∧ ∀ fixed5, quotedDto fixed5 (nest [.spoiler] answer) ≠ quotedDto fixed5 answer := by
  have hstays : unwrapWrappers (nest [.viewOnce, .ephemeral] hello) = nest [.ephemeral] hello :=
    unwrapLoop_of_next_none rfl
  have hself : unwrapWrappers hello = hello := unwrapLoop_of_next_none rfl
  have hbare : Bare answer := fun w => by cases w <;> rfl
  refine ⟨bare_hello, ?_, ?_, ?_, hbare, fun fixed5 h => ?_⟩
  · rw [classify, hself]; rfl
  · rw [classify, hstays]; rfl
  · intro h
    have := (nest_eq_self_iff bare_hello).1 (hstays.symm.trans h)
    cases this
  · cases h

end Whatsvelte.Bridge
