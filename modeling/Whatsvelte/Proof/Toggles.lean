import Whatsvelte.Lib.Lists
import Whatsvelte.Lib.Run
import Whatsvelte.Spec.ChatListItem

/-!
# Toggled flags

A rejected call writes the negation of what it asked for, whatever has happened since. So the flag of a row is
what the last toggle asked for, or the negation of what the call asked for whose rejection came last
(`Written`), and the server has what the last accepted call asked for (`requested`).

* **`flag_agrees_iff`**: once all replies are in, the row shows the server's flag if and only if the last rejection,
  if it came after the last toggle, is that of a call which asked for the opposite of what the server has.
-/

namespace Whatsvelte.ChatListItem

open Table

variable {jid : Jid} {flag : ChatFlag} {w : World} {s : State} {calls : List Call} {c : Call} {i : ℕ}
  {server : Bool} {last : Option Call} {es : List Event}

/-! ## Writing a flag -/

theorem get_setChatFlag (flag : ChatFlag) (h : (w.chats.get jid).isSome) (value : Bool) :
    ∃ row, (setChatFlag w jid flag value).chats.get jid = some row ∧ flagOf row flag = some value := by
  obtain ⟨prev, hprev⟩ := Option.isSome_iff_exists.1 h
  have hkey := get_key hprev
  rw [setChatFlag, hprev]
  cases flag
  · exact ⟨{ prev with muted := some value }, (get_set _ _ _).trans (if_pos hkey), rfl⟩
  · exact ⟨{ prev with pinned := some value }, (get_set _ _ _).trans (if_pos hkey), rfl⟩
  · exact ⟨{ prev with archived := some value }, (get_set _ _ _).trans (if_pos hkey), rfl⟩

theorem isSome_setChatFlag (h : (w.chats.get jid).isSome) (value : Bool) :
    ((setChatFlag w jid flag value).chats.get jid).isSome := by
  obtain ⟨row, hrow, -⟩ := get_setChatFlag flag h value
  rw [hrow]
  rfl

theorem shown_setChatFlag (h : (w.chats.get jid).isSome) (value : Bool) :
    shown (setChatFlag w jid flag value) jid flag = value := by
  obtain ⟨row, hrow, hflag⟩ := get_setChatFlag flag h value
  rw [shown, hrow, Option.bind_some, hflag]
  rfl

/-! ## What the server has -/

/-- What the last accepted call asked for. -/
def requested (server : Bool) (calls : List Call) : Bool :=
  calls.foldl (fun value c => if c.accepted then c.next else value) server

theorem requested_concat (server : Bool) (calls : List Call) (c : Call) :
    requested server (calls ++ [c]) = if c.accepted then c.next else requested server calls := by
  rw [requested, List.foldl_append]
  rfl

theorem requested_set (hc : calls[i]? = some c) (replied : Bool) :
    requested server (calls.set i { c with replied }) = requested server calls := by
  induction calls generalizing i server with
  | nil => rfl
  | cons d calls ih =>
    cases i with
    | zero =>
      cases hc
      rfl
    | succ => exact ih hc

/-! ## What the row shows -/

/-- The call of which the reply is the rejection. -/
def rejection (s : State) (i : ℕ) : Option Call :=
  s.calls[i]?.filter fun c => !c.replied && !c.accepted

/-- The last rejection since the last toggle, when the event has happened. -/
def since (s : State) (last : Option Call) : Event → Option Call
  | .toggle _ => none
  | .reply i => (rejection s i).or last

/-- The call of which the rejection came last, unless a toggle followed. -/
def lastRejection (jid : Jid) (flag : ChatFlag) : State → Option Call → List Event → Option Call
  | _, last, [] => last
  | s, last, e :: es => lastRejection jid flag (step jid flag s e) (since s last e) es

/-- The last write to the flag. -/
inductive Written (jid : Jid) (flag : ChatFlag) (server : Bool) (s : State) : Option Call → Prop
  | start (hcalls : s.calls = []) (hshown : shown s.w jid flag = server) : Written jid flag server s none
  | toggle {calls : List Call} {c : Call} (hcalls : s.calls = calls ++ [c]) (hshown : shown s.w jid flag = c.next)
      (hreply : c.replied → c.accepted) : Written jid flag server s none
  | rejection {c : Call} (hshown : shown s.w jid flag = !c.next) : Written jid flag server s (some c)

structure Good (jid : Jid) (flag : ChatFlag) (server : Bool) (s : State) (last : Option Call) : Prop where
  row : (s.w.chats.get jid).isSome
  had : s.server = requested server s.calls
  written : Written jid flag server s last

/-- What a reply does: nothing, or it marks its call and a rejection writes the flag. -/
theorem reply_cases (jid : Jid) (flag : ChatFlag) (s : State) (i : ℕ) :
    (rejection s i = none ∧ reply jid flag s i = s) ∨
    ∃ c, s.calls[i]? = some c ∧ c.replied = false ∧
      (reply jid flag s i).calls = s.calls.set i { c with replied := true } ∧
      (reply jid flag s i).server = s.server ∧
      (c.accepted = true ∧ rejection s i = none ∧ (reply jid flag s i).w = s.w ∨
        c.accepted = false ∧ rejection s i = some c ∧
          (reply jid flag s i).w = setChatFlag s.w jid flag (!c.next)) := by
  unfold reply rejection
  cases s.calls[i]? with
  | none => exact .inl ⟨rfl, rfl⟩
  | some c =>
    obtain ⟨next, accepted, replied⟩ := c
    cases replied
    · refine .inr ⟨_, rfl, rfl, rfl, rfl, ?_⟩
      cases accepted
      · exact .inr ⟨rfl, rfl, rfl⟩
      · exact .inl ⟨rfl, rfl, rfl⟩
    · exact .inl ⟨rfl, rfl⟩

theorem good_toggle (h : Good jid flag server s last) (accepted : Bool) :
    Good jid flag server (toggle jid flag s accepted) none where
  row := isSome_setChatFlag h.row _
  had := by
    simp only [toggle, requested_concat, h.had]
  written := .toggle rfl (shown_setChatFlag h.row _) nofun

/-- An accepted reply leaves the last write. -/
theorem written_accepted {t : State} (h : Written jid flag server s last) (hw : t.w = s.w) (hc : s.calls[i]? = some c)
    (hcalls : t.calls = s.calls.set i { c with replied := true }) (hacc : c.accepted = true) :
    Written jid flag server t last := by
  cases h with
  | start hnil =>
    rw [hnil] at hc
    cases hc
  | rejection hshown => exact .rejection (hw ▸ hshown)
  | @toggle calls d hlast hshown hreply =>
    rw [hlast] at hc hcalls
    rcases set_concat hc with ⟨-, hset⟩ | ⟨rfl, hset⟩
    · rw [hset] at hcalls
      exact .toggle hcalls (hw ▸ hshown) hreply
    · rw [hset] at hcalls
      exact .toggle hcalls (hw ▸ hshown) fun _ => hacc

theorem good_reply (h : Good jid flag server s last) (i : ℕ) :
    Good jid flag server (reply jid flag s i) (since s last (.reply i)) := by
  rw [since]
  rcases reply_cases jid flag s i with ⟨hrej, heq⟩ | ⟨c, hc, -, hcalls, hserver, hcase⟩
  · rwa [hrej, heq]
  · have hreq : (reply jid flag s i).server = requested server (reply jid flag s i).calls := by
      rw [hserver, hcalls, requested_set hc, h.had]
    rcases hcase with ⟨hacc, hrej, hw⟩ | ⟨-, hrej, hw⟩
    · rw [hrej]
      exact ⟨hw ▸ h.row, hreq, written_accepted h.written hw hc hcalls hacc⟩
    · rw [hrej]
      refine ⟨?_, hreq, .rejection ?_⟩
      · rw [hw]
        exact isSome_setChatFlag h.row _
      · rw [hw]
        exact shown_setChatFlag h.row _

theorem good_run (h : Good jid flag server s last) (es : List Event) :
    Good jid flag server (run (step jid flag) s es) (lastRejection jid flag s last es) := by
  induction es generalizing s last with
  | nil => exact h
  | cons e es ih =>
    cases e with
    | toggle accepted => exact ih (good_toggle h accepted)
    | reply i => exact ih (good_reply h i)

/-- **The row and the server.** When all replies are in, the row shows the server's flag if and only if the call
whose rejection came last, if no toggle followed, asked for the opposite of what the last accepted call asked for, or
of the flag at the start. -/
theorem flag_agrees_iff (jid : Jid) (flag : ChatFlag) (w : World) (hrow : (w.chats.get jid).isSome)
    (es : List Event) (hall : ∀ c ∈ (run (step jid flag) (.start jid flag w) es).calls, c.replied = true) :
    let s := run (step jid flag) (.start jid flag w) es
    shown s.w jid flag = s.server ↔
      ∀ c ∈ lastRejection jid flag (.start jid flag w) none es, c.next = !requested (shown w jid flag) s.calls := by
  intro s
  obtain ⟨-, hserver, hwritten⟩ : Good jid flag (shown w jid flag) s
      (lastRejection jid flag (.start jid flag w) none es) :=
    good_run (s := .start jid flag w) ⟨hrow, rfl, .start rfl rfl⟩ es
  rw [hserver]
  revert hwritten
  generalize lastRejection jid flag (.start jid flag w) none es = last
  intro hwritten
  cases hwritten with
  | start hnil hshown =>
    rw [hnil, hshown]
    exact ⟨fun _ _ h => (nomatch h), fun _ => rfl⟩
  | @toggle calls c hcalls hshown hreply =>
    -- the last toggle has its reply, and it was not a rejection
    have hacc : c.accepted = true := hreply (hall c (by
      rw [hcalls]
      exact List.mem_append_right _ List.mem_cons_self))
    rw [hcalls, requested_concat, if_pos hacc, hshown]
    exact ⟨fun _ _ h => (nomatch h), fun _ => rfl⟩
  | @rejection c hshown =>
    rw [hshown]
    constructor
    · rintro h d hd
      cases hd
      rw [← h, Bool.not_not]
    · intro h
      rw [h c rfl, Bool.not_not]

/-- A row whose second toggle is rejected after the first was accepted. -/
theorem flag_agrees_second_rejected :
    let w := World.init.setChat ⟨"a", none, none, 0, 0, none, none, none, none⟩
    let s := run (step "a" .muted) (.start "a" .muted w) [.toggle true, .toggle false, .reply 1, .reply 0]
    shown s.w "a" .muted = true ∧ shown s.w "a" .muted = s.server := by
  intro w s
  exact ⟨by decide +kernel, (flag_agrees_iff "a" .muted w (by decide +kernel)
    [.toggle true, .toggle false, .reply 1, .reply 0] (by decide +kernel)).2 (by decide +kernel)⟩

/-- Two toggles, both rejected: the second rejection restores what the first had written. -/
theorem both_rejected_left_on :
    let w := World.init.setChat ⟨"a", none, none, 0, 0, none, none, none, none⟩
    let s := run (step "a" .muted) (.start "a" .muted w) [.toggle false, .toggle false, .reply 0, .reply 1]
    (∀ c ∈ s.calls, c.replied = true) ∧ s.server = false ∧ shown s.w "a" .muted = true := by
  decide +kernel

end Whatsvelte.ChatListItem
