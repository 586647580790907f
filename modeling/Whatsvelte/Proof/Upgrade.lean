import Whatsvelte.Spec.Messages
import Whatsvelte.Proof.Migrate

/-!
# The upgrade is lossless

A database of version 2 has nothing to migrate: the purge cursor visits every record and
deletes the blank ones (`Purging`). `upgrade_lossless` is the result for both versions.
-/

namespace Whatsvelte

open List Table

variable {chats : Table Chat.jid} {metaRows : Table MetaRow.k} {u v : Upgrade} {s : Stores}
  {issued : List Request} {ready : List Response} {k : Key}
variable {rest : List Request} {r : Request}

/-! ## Version 2: the purge -/

/-- A move of the purge cursor. -/
def Request.scan : Request → Option (Visit UiMessage Key)
  | .openMsgs => some (.seek none)
  | .continueMsgs k => some (.seek (some k))
  | _ => none

def Response.scan : Response → Option (Visit UiMessage Key)
  | .msgs row => some (.found row)
  | _ => none

def Upgrade.scans (u : Upgrade) : List (Visit UiMessage Key) :=
  u.issued.filterMap Request.scan ++ u.ready.filterMap Response.scan

/-- Whether the purge cursor has still to visit the record under `k`. -/
def Upgrade.unscanned (u : Upgrade) (k : Key) : Bool := u.scans.any (·.ahead UiMessage.key k)

/-- The state of a purge. -/
structure Purging (chats : Table Chat.jid) (metaRows : Table MetaRow.k) (msgs : Table UiMessage.key)
    (u : Upgrade) : Prop where
  chats : u.stores.chats = chats
  metaRows : u.stores.metaRows = metaRows
  legacy : u.stores.legacy = none
  issued : ∀ r ∈ u.issued, r.purges = true
  ready : ∀ r ∈ u.ready, r = .done ∨ ∃ row, r = .msgs row
  cursor : u.scans = [] ∨ ∃ t, u.scans = [t] ∧ ∀ row, t = .found (some row) → row ∈ msgs.rows
  /-- Nothing happens to a record before the cursor has visited it. -/
  ahead : ∀ k, u.unscanned k = true → u.stores.msgs.get k = msgs.get k ∧ .deleteMsg k ∉ u.issued
  msgs : ∀ k, u.record k =
    if u.unscanned k then msgs.get k else (msgs.get k).filter (fun m => !isBlankMessage m)

variable {msgs : Table UiMessage.key}

theorem Upgrade.unscanned_of_scans {t : Visit UiMessage Key} (h : u.scans = [t]) (k : Key) :
    u.unscanned k = t.ahead UiMessage.key k := by
  rw [Upgrade.unscanned, h, any_cons, any_nil, Bool.or_false]

/-- A move of the cursor: the records are what they were, with other ones ahead. -/
theorem Purging.of_scans (h : Purging chats metaRows msgs u) (hs : v.stores.chats = u.stores.chats)
    (hmeta : v.stores.metaRows = u.stores.metaRows) (hlegacy : v.stores.legacy = u.stores.legacy)
    (hissued : ∀ r ∈ v.issued, r.purges = true) (hready : ∀ r ∈ v.ready, r = .done ∨ ∃ row, r = .msgs row)
    (hcursor : v.scans = [] ∨ ∃ t, v.scans = [t] ∧ ∀ row, t = .found (some row) → row ∈ msgs.rows)
    (hahead : ∀ k, v.unscanned k = true → u.unscanned k = true ∧
      v.stores.msgs.get k = u.stores.msgs.get k ∧ (.deleteMsg k ∈ v.issued → .deleteMsg k ∈ u.issued))
    (hrec : ∀ k, v.record k = u.record k)
    (hrow : ∀ row ∈ msgs.rows, v.unscanned row.key = u.unscanned row.key) :
    Purging chats metaRows msgs v := by
  refine ⟨hs.trans h.chats, hmeta.trans h.metaRows, hlegacy.trans h.legacy, hissued, hready, hcursor,
    fun k hk => ?_, fun k => ?_⟩
  · obtain ⟨hu, hm, hd⟩ := hahead k hk
    exact ⟨hm.trans (h.ahead k hu).1, fun hdel => (h.ahead k hu).2 (hd hdel)⟩
  · rw [hrec, h.msgs]
    cases hg : msgs.get k with
    | none => simp
    | some row => rw [← get_key hg, hrow row (Table.get_mem hg)]

/-- The purge cursor is to move: it is nowhere else, and above its position it will see the
records of the old database. -/
theorem Purging.seeking {pos : Option Key}
    (hr : r.scan = some (.seek pos)) (h : Purging chats metaRows msgs ⟨s, r :: rest, ready⟩) :
    rest.filterMap Request.scan ++ ready.filterMap Response.scan = [] ∧
      (⟨s, r :: rest, ready⟩ : Upgrade).scans = [.seek pos] ∧
      ∀ row, above pos row.key = true → (row ∈ s.msgs.rows ↔ row ∈ msgs.rows) := by
  have hnil : rest.filterMap Request.scan ++ ready.filterMap Response.scan = [] := by
    rcases h.cursor with hs | ⟨t, ht, -⟩
    · rw [Upgrade.scans, filterMap_cons, hr] at hs; cases hs
    · rw [Upgrade.scans, filterMap_cons, hr] at ht
      exact (List.cons.inj ht).2
  have hold : (⟨s, r :: rest, ready⟩ : Upgrade).scans = [.seek pos] := by
    rw [Upgrade.scans, filterMap_cons, hr]
    exact congrArg (_ :: ·) hnil
  refine ⟨hnil, hold, fun row hp => ?_⟩
  have hg := (h.ahead row.key (by rwa [Upgrade.unscanned_of_scans hold])).1
  constructor
  · intro hm; exact Table.get_mem (hg.symm.trans (Table.get_of_mem hm))
  · intro hm; exact Table.get_mem (hg.trans (Table.get_of_mem hm))

/-- A move of the purge cursor is executed. -/
theorem purging_seek (pos : Option Key)
    (hr : r.scan = some (.seek pos)) (h : Purging chats metaRows msgs ⟨s, r :: rest, ready⟩) :
    Purging chats metaRows msgs ⟨s, rest, ready ++ [.msgs (s.msgs.next pos)]⟩ := by
  obtain ⟨hnil, hold, hsame⟩ := h.seeking hr
  have hnew : (⟨s, rest, ready ++ [.msgs (s.msgs.next pos)]⟩ : Upgrade).scans =
      [.found (s.msgs.next pos)] := by
    rw [Upgrade.scans, filterMap_append, ← append_assoc, hnil]
    rfl
  have hback : ∀ k, (⟨s, rest, ready ++ [.msgs (s.msgs.next pos)]⟩ : Upgrade).unscanned k = true →
      (⟨s, r :: rest, ready⟩ : Upgrade).unscanned k = true := by
    intro k hk
    rw [Upgrade.unscanned_of_scans hnew] at hk
    rw [Upgrade.unscanned_of_scans hold]
    exact ahead_of_next hk
  have hrec : ∀ k cur, r.record k cur = cur := by
    intro k cur
    cases r with
    | openMsgs | continueMsgs => rfl
    | _ => cases hr
  refine h.of_scans rfl rfl rfl (fun q hq => h.issued q (mem_cons_of_mem _ hq)) (fun q hq => ?_)
    (.inr ⟨_, hnew, fun row hrow => ?_⟩) (fun k hk => ⟨hback k hk, rfl, mem_cons_of_mem _⟩)
    (fun k => ?_) (fun row hrow => ?_)
  · rcases mem_append.1 hq with hq | hq
    · exact h.ready q hq
    · exact .inr ⟨_, mem_singleton.1 hq⟩
  · obtain ⟨hm, hp⟩ := Table.next_mem (Visit.found.inj hrow)
    exact (hsame row hp).1 hm
  · simp only [Upgrade.record, foldl_cons, hrec]
  · cases hp : above pos row.key with
    | true =>
      rw [Upgrade.unscanned_of_scans hnew, Upgrade.unscanned_of_scans hold]
      exact ahead_next ((hsame row hp).2 hrow)
    | false =>
      have hu : (⟨s, r :: rest, ready⟩ : Upgrade).unscanned row.key = false := by
        rwa [Upgrade.unscanned_of_scans hold]
      rw [hu]
      exact Bool.eq_false_iff.2 fun hk => by rw [hback _ hk] at hu; cases hu

theorem purging_execute
    (h : Purging chats metaRows msgs ⟨s, r :: rest, ready⟩) :
    Purging chats metaRows msgs ⟨(r.execute s).1, rest, ready ++ [(r.execute s).2]⟩ := by
  have hr := h.issued r mem_cons_self
  cases r with
  | openMsgs => exact purging_seek none rfl h
  | continueMsgs k => exact purging_seek (some k) rfl h
  | deleteMsg k' =>
    have hscans : (⟨{ s with msgs := s.msgs.erase k' }, rest, ready ++ [.done]⟩ : Upgrade).scans =
        (⟨s, .deleteMsg k' :: rest, ready⟩ : Upgrade).scans := by
      simp [Upgrade.scans, filterMap_cons, Request.scan, Response.scan]
    have hun : ∀ k, (⟨{ s with msgs := s.msgs.erase k' }, rest, ready ++ [.done]⟩ : Upgrade).unscanned k =
        (⟨s, .deleteMsg k' :: rest, ready⟩ : Upgrade).unscanned k := by
      intro k
      rw [Upgrade.unscanned, hscans, Upgrade.unscanned]
    refine h.of_scans rfl rfl rfl (fun q hq => h.issued q (mem_cons_of_mem _ hq))
      (fun q hq => ?_) (hscans.symm ▸ h.cursor)
      (fun k hk => ⟨(hun k).symm.trans hk, ?_, mem_cons_of_mem _⟩) (fun k => ?_)
      (fun row _ => hun row.key)
    · rcases mem_append.1 hq with hq | hq
      · exact h.ready q hq
      · exact .inl (mem_singleton.1 hq)
    · have hne : k' ≠ k := by
        rintro rfl
        exact (h.ahead k' ((hun k').symm.trans hk)).2 mem_cons_self
      exact (get_erase s.msgs k' k).trans (if_neg hne)
    · simp only [Upgrade.record, Request.execute, get_erase, foldl_cons, Request.record]
  | _ => cases hr

/-- The purge cursor has found a record, or the end: it is nowhere else. -/
theorem Purging.found {row : Option UiMessage} {rest : List Response}
    (h : Purging chats metaRows msgs ⟨s, issued, .msgs row :: rest⟩) :
    issued.filterMap Request.scan = [] ∧ rest.filterMap Response.scan = [] ∧
      (∀ r, row = some r → r ∈ msgs.rows) ∧
      (⟨s, issued, .msgs row :: rest⟩ : Upgrade).scans = [.found row] := by
  have hv : (⟨s, issued, .msgs row :: rest⟩ : Upgrade).scans =
      issued.filterMap Request.scan ++ .found row :: rest.filterMap Response.scan := rfl
  rcases h.cursor with hn | ⟨t, ht, hrow⟩
  · rw [hv] at hn; simp at hn
  · obtain ⟨hi, hrest, rfl⟩ := append_cons_eq_singleton (hv.symm.trans ht)
    exact ⟨hi, hrest, fun r he => hrow r (by rw [he]), ht⟩

theorem record_purgeRow (row : UiMessage) (cur : Option UiMessage) :
    (purgeRow row).foldl (Request.record k) cur =
      if row.key = k ∧ isBlankMessage row = true then none else cur := by
  unfold purgeRow
  cases isBlankMessage row <;> simp [Request.record]

/-- A record is visited. -/
theorem purging_row {row : UiMessage} {rest : List Response}
    (h : Purging chats metaRows msgs ⟨s, issued, .msgs (some row) :: rest⟩) :
    Purging chats metaRows msgs ⟨s, issued ++ purgeRow row, rest⟩ := by
  obtain ⟨hsi, hsr, hmem, hold⟩ := h.found
  have hget : msgs.get row.key = some row := Table.get_of_mem (hmem row rfl)
  have hscan : (purgeRow row).filterMap Request.scan = [.seek (some row.key)] := by
    unfold purgeRow
    cases isBlankMessage row <;> rfl
  have hnew : (⟨s, issued ++ purgeRow row, rest⟩ : Upgrade).scans = [.seek (some row.key)] := by
    rw [Upgrade.scans, filterMap_append, hsi, hsr, hscan]
    rfl
  have hun : ∀ k, (⟨s, issued ++ purgeRow row, rest⟩ : Upgrade).unscanned k =
      ((⟨s, issued, .msgs (some row) :: rest⟩ : Upgrade).unscanned k && decide (k ≠ row.key)) := by
    intro k
    rw [Upgrade.unscanned_of_scans hnew, Upgrade.unscanned_of_scans hold]
    exact ahead_leave UiMessage.key row k
  have hself : (⟨s, issued, .msgs (some row) :: rest⟩ : Upgrade).unscanned row.key = true := by
    rw [Upgrade.unscanned_of_scans hold]
    exact decide_eq_true le_rfl
  have hpurge : ∀ q ∈ purgeRow row, q.purges = true ∧ ∀ k, q = .deleteMsg k → k = row.key := by
    intro q hq
    simp only [purgeRow, mem_append, mem_singleton] at hq
    rcases hq with hq | rfl
    · split at hq
      · rw [mem_singleton.1 hq]
        exact ⟨rfl, fun k hk => (Request.deleteMsg.inj hk).symm⟩
      · cases hq
    · exact ⟨rfl, fun k hk => Request.noConfusion hk⟩
  refine ⟨h.chats, h.metaRows, h.legacy, fun q hq => ?_,
    fun q hq => h.ready q (mem_cons_of_mem _ hq),
    Or.inr ⟨_, hnew, fun row hrow => nomatch hrow⟩, fun k hk => ?_, fun k => ?_⟩
  · rcases mem_append.1 hq with hq | hq
    · exact h.issued q hq
    · exact (hpurge q hq).1
  · rw [hun, Bool.and_eq_true, decide_eq_true_eq] at hk
    refine ⟨(h.ahead k hk.1).1, fun hdel => ?_⟩
    rcases mem_append.1 hdel with hdel | hdel
    · exact (h.ahead k hk.1).2 hdel
    · exact hk.2 ((hpurge _ hdel).2 k rfl)
  · have hrec : (⟨s, issued ++ purgeRow row, rest⟩ : Upgrade).record k =
        (purgeRow row).foldl (Request.record k)
          ((⟨s, issued, .msgs (some row) :: rest⟩ : Upgrade).record k) := foldl_append
    rw [hrec, record_purgeRow, h.msgs, hun]
    by_cases hk : row.key = k
    · subst hk
      rw [hself, hget]
      cases hb : isBlankMessage row <;> simp [Option.filter, hb]
    · rw [if_neg fun hc => hk hc.1]
      simp [Ne.symm hk]

theorem purging_deliver {r : Response} {rest : List Response}
    (h : Purging chats metaRows msgs ⟨s, issued, r :: rest⟩) :
    Purging chats metaRows msgs ⟨(r.deliver s).1, issued ++ (r.deliver s).2, rest⟩ := by
  have hrest : ∀ q ∈ rest, q = .done ∨ ∃ row, q = .msgs row := fun q hq => h.ready q (mem_cons_of_mem _ hq)
  rcases h.ready r mem_cons_self with rfl | ⟨row, rfl⟩
  · have hun : ∀ k, (⟨s, issued, rest⟩ : Upgrade).unscanned k =
        (⟨s, issued, .done :: rest⟩ : Upgrade).unscanned k := fun k => rfl
    show Purging chats metaRows msgs ⟨s, issued ++ [], rest⟩
    rw [append_nil]
    exact h.of_scans rfl rfl rfl h.issued hrest h.cursor (fun k hk => ⟨(hun k).symm.trans hk, rfl, id⟩)
      (fun k => rfl) fun row _ => hun row.key
  · cases row with
    | some => exact purging_row h
    | none =>
      obtain ⟨hsi, hsr, -, hold⟩ := h.found
      have hnew : (⟨s, issued, rest⟩ : Upgrade).scans = [] := by
        rw [Upgrade.scans, hsi, hsr]
        rfl
      have hun : ∀ k, (⟨s, issued, rest⟩ : Upgrade).unscanned k =
          (⟨s, issued, .msgs none :: rest⟩ : Upgrade).unscanned k := by
        intro k
        rw [Upgrade.unscanned_of_scans hold, Upgrade.unscanned, hnew]
        rfl
      show Purging chats metaRows msgs ⟨s, issued ++ [], rest⟩
      rw [append_nil]
      exact h.of_scans rfl rfl rfl h.issued hrest (.inl hnew)
        (fun k hk => ⟨(hun k).symm.trans hk, rfl, id⟩) (fun k => rfl) fun row _ => hun row.key

/-! ### Termination -/

def scanWork (msgs : Table UiMessage.key) (pos : Option Key) : ℕ :=
  2 + 4 * (msgs.rows.filter (fun m => above pos m.key)).length

def Request.purgeWork (msgs : Table UiMessage.key) : Request → ℕ
  | .openMsgs => scanWork msgs none
  | .continueMsgs k => scanWork msgs (some k)
  | _ => 2

def Response.purgeWork (msgs : Table UiMessage.key) : Response → ℕ
  | .msgs (some row) => 3 + scanWork msgs (some row.key)
  | _ => 1

def Upgrade.purgeWork (msgs : Table UiMessage.key) (u : Upgrade) : ℕ :=
  (u.issued.map (Request.purgeWork msgs)).sum + (u.ready.map (Response.purgeWork msgs)).sum

theorem purgeWork_seek (pos : Option Key)
    (hr : r.scan = some (.seek pos)) (h : Purging chats metaRows msgs ⟨s, r :: rest, ready⟩) :
    (Response.msgs (s.msgs.next pos)).purgeWork msgs < scanWork msgs pos := by
  cases hn : s.msgs.next pos with
  | none => exact Nat.lt_of_lt_of_le Nat.one_lt_two (Nat.le_add_right 2 _)
  | some row =>
    obtain ⟨hm, hp⟩ := Table.next_mem hn
    have hlt := above_length_lt (((h.seeking hr).2.2 row hp).1 hm) hp
    simp only [Response.purgeWork, scanWork] at hlt ⊢
    omega

theorem purgeWork_execute
    (h : Purging chats metaRows msgs ⟨s, r :: rest, ready⟩) :
    (r.execute s).2.purgeWork msgs < r.purgeWork msgs := by
  have hr := h.issued r mem_cons_self
  cases r with
  | openMsgs => exact purgeWork_seek none rfl h
  | continueMsgs k => exact purgeWork_seek (some k) rfl h
  | deleteMsg => exact Nat.one_lt_two
  | _ => cases hr

theorem purgeWork_deliver (s : Stores) (msgs : Table UiMessage.key) {r : Response}
    (hr : r = .done ∨ ∃ row, r = .msgs row) :
    ((r.deliver s).2.map (Request.purgeWork msgs)).sum < r.purgeWork msgs := by
  rcases hr with rfl | ⟨row, rfl⟩
  · exact Nat.one_pos
  · cases row with
    | none => exact Nat.one_pos
    | some =>
      simp only [Response.deliver, purgeRow, Response.purgeWork]
      split
      · simp only [cons_append, nil_append, map_cons, map_nil, sum_cons, sum_nil, Request.purgeWork]
        omega
      · simp only [nil_append, map_cons, map_nil, sum_cons, sum_nil, Request.purgeWork]
        omega

/-- **One move** of the purge. -/
theorem purging_step {mv : Move} (h : Purging chats metaRows msgs u) (he : u.Enabled mv) :
    Purging chats metaRows msgs (u.step mv) ∧ (u.step mv).purgeWork msgs < u.purgeWork msgs := by
  obtain ⟨s, issued, ready⟩ := u
  cases mv with
  | execute =>
    cases issued with
    | nil => exact absurd rfl he
    | cons =>
      refine ⟨purging_execute h, ?_⟩
      have hw := purgeWork_execute h
      simp only [Upgrade.step, Upgrade.purgeWork, map_append, map_cons, map_nil,
        sum_append, sum_cons, sum_nil]
      omega
  | deliver =>
    cases ready with
    | nil => exact absurd rfl he
    | cons r =>
      refine ⟨purging_deliver h, ?_⟩
      have hw := purgeWork_deliver s msgs (h.ready r mem_cons_self)
      simp only [Upgrade.step, Upgrade.purgeWork, map_append, map_cons, sum_append, sum_cons]
      omega

/-- The start of an upgrade from version 2. -/
def upgradeV2 (chats : Table Chat.jid) (metaRows : Table MetaRow.k) (msgs : Table UiMessage.key) :
    Upgrade := onUpgradeNeeded 2 ⟨some chats, some metaRows, some msgs, none⟩

theorem purging_start (chats : Table Chat.jid) (metaRows : Table MetaRow.k)
    (msgs : Table UiMessage.key) : Purging chats metaRows msgs (upgradeV2 chats metaRows msgs) where
  chats := rfl
  metaRows := rfl
  legacy := rfl
  issued r hr := by rw [mem_singleton.1 hr]; rfl
  ready r hr := nomatch hr
  cursor := Or.inr ⟨.seek none, rfl, fun row hrow => nomatch hrow⟩
  ahead k _ := ⟨rfl, fun hd => Request.noConfusion (mem_singleton.1 hd)⟩
  msgs k := rfl

theorem Purging.complete (h : Purging chats metaRows msgs u) (hc : u.Complete) :
    (∀ k, u.stores.msgs.get k = (msgs.get k).filter (fun m => !isBlankMessage m)) ∧
      u.stores.chats = chats ∧ u.stores.metaRows = metaRows ∧ u.stores.legacy = none := by
  obtain ⟨s, issued, ready⟩ := u
  obtain ⟨rfl, rfl⟩ : issued = [] ∧ ready = [] := hc
  exact ⟨h.msgs, h.chats, h.metaRows, h.legacy⟩

/-! ## Both upgrades -/

/-- A transaction that is not complete can move. -/
theorem Upgrade.exists_enabled (h : ¬ u.Complete) : ∃ mv, u.Enabled mv := by
  by_cases hi : u.issued = []
  · exact ⟨.deliver, fun hr => h ⟨hi, hr⟩⟩
  · exact ⟨.execute, hi⟩

/-- **The upgrade is lossless**, in every schedule of its requests and callbacks: the schedule
is bounded, it does not get stuck, and when the transaction completes,
* from version 1: the store `msgs` has the last item of every id of a row that is to be
  persisted and nothing else, every chat row that was there is there, chats with an item and no
  row have one, no other row is there, the account data is unchanged and the old store is gone;
* from version 2: the blank records are gone, and everything else is as it was. -/
theorem upgrade_lossless :
    (∀ (chats : Table Chat.jid) (metaRows : Table MetaRow.k) (rows : Table LegacyRow.jid)
      (moves : List Move), Along Upgrade.step Upgrade.Enabled (upgradeV1 chats metaRows rows) moves →
      let u := run Upgrade.step (upgradeV1 chats metaRows rows) moves
      moves.length ≤ (upgradeV1 chats metaRows rows).work rows ∧
        (¬ u.Complete → ∃ mv, u.Enabled mv) ∧
        (u.Complete → (∀ k, u.stores.msgs.get k = migratedMsg rows k) ∧
          (∀ jid, u.stores.chats.get jid = migratedChat chats rows jid) ∧
          u.stores.metaRows = metaRows ∧ u.stores.legacy = none)) ∧
    (∀ (chats : Table Chat.jid) (metaRows : Table MetaRow.k) (msgs : Table UiMessage.key)
      (moves : List Move), Along Upgrade.step Upgrade.Enabled (upgradeV2 chats metaRows msgs) moves →
      let u := run Upgrade.step (upgradeV2 chats metaRows msgs) moves
      moves.length ≤ (upgradeV2 chats metaRows msgs).purgeWork msgs ∧
        (¬ u.Complete → ∃ mv, u.Enabled mv) ∧
        (u.Complete →
          (∀ k, u.stores.msgs.get k = (msgs.get k).filter (fun m => !isBlankMessage m)) ∧
          u.stores.chats = chats ∧ u.stores.metaRows = metaRows ∧ u.stores.legacy = none)) := by
  refine ⟨fun chats metaRows rows moves ha => ?_, fun chats metaRows msgs moves ha => ?_⟩
  · have hstart := migrating_start chats metaRows rows
    have hend := ha.inv (I := fun u => Migrating chats metaRows rows u ∧ Unpurged u)
      (fun u mv h he => (migrating_step h he).1) hstart
    have hlen := ha.length_le (I := fun u => Migrating chats metaRows rows u ∧ Unpurged u)
      (fun u mv h he => migrating_step h he) hstart
    exact ⟨hlen, Upgrade.exists_enabled, fun hc => hend.1.complete hc⟩
  · have hstart := purging_start chats metaRows msgs
    have hend := ha.inv (I := Purging chats metaRows msgs) (fun u mv h he => (purging_step h he).1) hstart
    have hlen := ha.length_le
      (fun u mv h he => purging_step h he) hstart
    exact ⟨hlen, Upgrade.exists_enabled, fun hc => hend.complete hc⟩

/-- A chat with two versions of a message and a bubble, and one without items. -/
def legacyRows : Table LegacyRow.jid :=
  (Table.empty.set ⟨chatA, some [msgX, { msgX with text := some "hi!" }, textBubble chatA "1" 7 "ho" none]⟩).set
    ⟨"b@s.whatsapp.net", none⟩

/-- Both cursors are opened before a callback runs, and the callbacks of the puts are late. -/
def lateCallbacks : List Move :=
  [.execute, .execute, .deliver, .deliver, .execute, .execute, .execute, .execute, .deliver, .deliver,
    .deliver, .deliver, .execute, .execute, .deliver, .deliver]

theorem upgrade_lossless_late :
    (run Upgrade.step (upgradeV1 .empty .empty legacyRows) lateCallbacks).stores.msgs.get ⟨chatA, "X"⟩ =
        migratedMsg legacyRows ⟨chatA, "X"⟩ ∧
      migratedMsg legacyRows ⟨chatA, "X"⟩ = some { msgX with text := some "hi!" } :=
  ⟨((upgrade_lossless.1 .empty .empty legacyRows lateCallbacks (by decide +kernel)).2.2
    (by decide +kernel)).1 _, by decide +kernel⟩

end Whatsvelte
