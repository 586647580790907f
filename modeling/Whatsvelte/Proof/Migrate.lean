import Mathlib.Algebra.GroupWithZero.Nat
import Whatsvelte.Lib.Lists
import Whatsvelte.Spec.Upgrade

/-!
# The migration from version 1

The two cursors of the upgrade transaction run at the same time, and a callback may be late.
What a store will hold in the end is read off the state of the transaction: the requests that
were issued and the results that wait say what is still to be written (`Upgrade.record`,
`Upgrade.chatRow`), and the cursor says which rows are still ahead. No move changes that
(`Migrating`), and every move decreases the work that is left (`Upgrade.work`).

The purge cursor is executed before any message is put, on an empty store, so it finds nothing
(`Unpurged`).
-/

namespace Whatsvelte

open List Table

/-! ## What is outstanding -/

/-- A move of the cursor over the rows of version 1. -/
def Request.visit : Request → Option (Visit LegacyRow Jid)
  | .openLegacy => some (.seek none)
  | .continueLegacy jid => some (.seek (some jid))
  | _ => none

def Response.visit : Response → Option (Visit LegacyRow Jid)
  | .legacy row => some (.found row)
  | _ => none

/-- The chat row that a request is about. -/
def Request.asks : Request → Option Jid
  | .getChat jid _ => some jid
  | .putChat c => some c.jid
  | _ => none

def Response.asks : Response → Option Jid
  | .chat jid _ _ => some jid
  | _ => none

/-- The requests of the purge. -/
def Request.purges : Request → Bool
  | .openMsgs => true
  | .continueMsgs _ => true
  | .deleteMsg _ => true
  | _ => false

/-- What a request makes of the message under `k`. -/
def Request.record (k : Key) (cur : Option UiMessage) : Request → Option UiMessage
  | .putMsg m => if m.key = k then some m else cur
  | .deleteMsg k' => if k' = k then none else cur
  | _ => cur

/-- What a request and its callback make of the chat row of `jid`. -/
def Request.chatRow (jid : Jid) (cur : Option Chat) : Request → Option Chat
  | .getChat j last => if j = jid then cur.or (some (legacyChat j last)) else cur
  | .putChat c => if c.jid = jid then some c else cur
  | _ => cur

def Response.chatRow (jid : Jid) (cur : Option Chat) : Response → Option Chat
  | .chat j last none => if j = jid then some (legacyChat j last) else cur
  | _ => cur

namespace Upgrade

def visits (u : Upgrade) : List (Visit LegacyRow Jid) :=
  u.issued.filterMap Request.visit ++ u.ready.filterMap Response.visit

/-- Whether the row of a chat is still to be migrated. -/
def ahead (u : Upgrade) (jid : Jid) : Bool := u.visits.any (·.ahead LegacyRow.jid jid)

def asks (u : Upgrade) : List Jid :=
  u.issued.filterMap Request.asks ++ u.ready.filterMap Response.asks

/-- The message under `k` once what was issued is executed. -/
def record (u : Upgrade) (k : Key) : Option UiMessage :=
  u.issued.foldl (Request.record k) (u.stores.msgs.get k)

/-- The chat row of `jid` once what is outstanding is done. -/
def chatRow (u : Upgrade) (jid : Jid) : Option Chat :=
  u.ready.foldl (Response.chatRow jid) (u.issued.foldl (Request.chatRow jid) (u.stores.chats.get jid))

end Upgrade

/-! ## What the migration is for -/

/-- The record of version 1 under `k`: the last item with its id that is to be persisted. -/
def migratedMsg (rows : Table LegacyRow.jid) (k : Key) : Option UiMessage :=
  (rows.get k.chatJid).bind fun row =>
    ((row.items.getD []).filter (fun m => persistable m && m.id = k.id)).getLast?.map (toRecord · row.jid)

/-- The chat row of `jid`: the one that is there, or one derived from the last item. -/
def migratedChat (chats : Table Chat.jid) (rows : Table LegacyRow.jid) (jid : Jid) : Option Chat :=
  (chats.get jid).or ((rows.get jid).bind fun row => (row.items.getD []).getLast?.map (legacyChat jid))

variable {chats : Table Chat.jid} {metaRows : Table MetaRow.k} {rows : Table LegacyRow.jid}
  {u v : Upgrade} {s : Stores} {issued : List Request} {ready : List Response} {jid : Jid} {k : Key}
variable {rest : List Request} {r : Request} {t : Visit LegacyRow Jid}

/-! ## Version 1: the purge -/

/-- The purge cursor has not been executed, and no message is put before it is; or it has
found nothing. -/
structure Unpurged (u : Upgrade) : Prop where
  issued : (∀ r ∈ u.issued, r.purges = false) ∨ u.stores.msgs = .empty ∧ ∃ pre rest,
    (pre = [] ∨ pre = [.openLegacy]) ∧ u.issued = pre ++ .openMsgs :: rest ∧
      ∀ r ∈ rest, r.purges = false
  ready : ∀ row, .msgs (some row) ∉ u.ready

theorem purges_migrateRow (row : LegacyRow) : ∀ r ∈ migrateRow row, r.purges = false := by
  intro r hr
  simp only [migrateRow, mem_append, mem_map, mem_singleton] at hr
  rcases hr with (⟨m, -, rfl⟩ | ⟨m, -, rfl⟩) | rfl <;> rfl

theorem purges_deliver {r : Response} (hr : ∀ row, r ≠ .msgs (some row)) :
    ∀ q ∈ (r.deliver s).2, q.purges = false := by
  cases r with
  | legacy row =>
    cases row with
    | none => exact forall_mem_nil _
    | some row => exact purges_migrateRow row
  | chat jid last existing =>
    cases existing with
    | none =>
      intro q hq
      rw [mem_singleton.1 hq]
      rfl
    | some => exact forall_mem_nil _
  | msgs row =>
    cases row with
    | none => exact forall_mem_nil _
    | some row => exact absurd rfl (hr row)
  | done => exact forall_mem_nil _

theorem msgs_deliver (r : Response) : (r.deliver s).1.msgs = s.msgs := by
  unfold Response.deliver
  split <;> rfl

theorem unpurged_deliver {r : Response} {rest : List Response} (h : Unpurged ⟨s, issued, r :: rest⟩) :
    Unpurged ⟨(r.deliver s).1, issued ++ (r.deliver s).2, rest⟩ := by
  have hnew := purges_deliver (s := s) fun row (he : r = _) =>
    h.ready row (by rw [he]; exact mem_cons_self)
  refine ⟨?_, fun row hm => h.ready row (mem_cons_of_mem _ hm)⟩
  rcases h.issued with hi | ⟨hm, pre, post, hpre, hi, hpost⟩
  · left
    intro q hq
    rcases mem_append.1 hq with hq | hq
    · exact hi q hq
    · exact hnew q hq
  · right
    refine ⟨(msgs_deliver r).trans hm, pre, post ++ (r.deliver s).2, hpre, ?_, ?_⟩
    · rw [show issued = _ from hi]
      simp
    · intro q hq
      rcases mem_append.1 hq with hq | hq
      · exact hpost q hq
      · exact hnew q hq

theorem unpurged_execute (h : Unpurged ⟨s, r :: rest, ready⟩) :
    Unpurged ⟨(r.execute s).1, rest, ready ++ [(r.execute s).2]⟩ := by
  have hready : (∀ row, (r.execute s).2 ≠ .msgs (some row)) →
      ∀ row, .msgs (some row) ∉ ready ++ [(r.execute s).2] := by
    intro hne row hm
    rcases mem_append.1 hm with hm | hm
    · exact h.ready row hm
    · exact hne row (mem_singleton.1 hm).symm
  rcases h.issued with hi | ⟨hm, pre, post, hpre, hi, hpost⟩
  · refine ⟨.inl fun q hq => hi q (mem_cons_of_mem _ hq), hready fun row => ?_⟩
    have hr := hi r mem_cons_self
    cases r with
    | openMsgs | continueMsgs | deleteMsg => cases hr
    | _ => exact Response.noConfusion
  · rcases hpre with rfl | rfl
    · -- the purge cursor is opened on the empty store
      obtain ⟨rfl, rfl⟩ := List.cons.inj hi
      refine ⟨.inl hpost, hready fun row => ?_⟩
      show Response.msgs (s.msgs.next none) ≠ _
      rw [show s.msgs = _ from hm]
      exact nofun
    · obtain ⟨rfl, rfl⟩ := List.cons.inj hi
      exact ⟨.inr ⟨hm, [], post, .inl rfl, rfl, hpost⟩, hready fun row => nofun⟩

/-! ## Version 1: the migration -/

/-- The state of a migration: what was ahead of the cursor is as it was, the rest is
migrated, up to what is outstanding. -/
structure Migrating (chats : Table Chat.jid) (metaRows : Table MetaRow.k) (rows : Table LegacyRow.jid)
    (u : Upgrade) : Prop where
  metaRows : u.stores.metaRows = metaRows
  cursor : u.visits = [] ∧ u.stores.legacy = none ∨ ∃ t, u.visits = [t] ∧
    u.stores.legacy = some rows ∧ ∀ row, t = .found (some row) → row ∈ rows.rows
  msgs : ∀ k, u.record k = if u.ahead k.chatJid then none else migratedMsg rows k
  chats : ∀ jid, u.chatRow jid = if u.ahead jid then chats.get jid else migratedChat chats rows jid
  /-- One request at most is outstanding for a chat row. -/
  asks : u.asks.Nodup ∧ ∀ jid ∈ u.asks, u.ahead jid = false

/-- A move that leaves the cursor where it is and changes nothing in the end. -/
theorem Migrating.of_same (h : Migrating chats metaRows rows u)
    (hmeta : v.stores.metaRows = u.stores.metaRows) (hlegacy : v.stores.legacy = u.stores.legacy)
    (hv : v.visits = u.visits) (hm : ∀ k, v.record k = u.record k)
    (hc : ∀ jid, v.chatRow jid = u.chatRow jid) (ha : v.asks.Subperm u.asks) :
    Migrating chats metaRows rows v := by
  have hahead : ∀ jid, v.ahead jid = u.ahead jid := by
    intro jid
    rw [Upgrade.ahead, hv, Upgrade.ahead]
  refine ⟨hmeta.trans h.metaRows, ?_, ?_, ?_, ?_, ?_⟩
  · rw [hv, hlegacy]; exact h.cursor
  · intro k; rw [hm, h.msgs, hahead]
  · intro jid; rw [hc, h.chats, hahead]
  · obtain ⟨l, hl, hs⟩ := ha
    exact hl.nodup (h.asks.1.sublist hs)
  · intro jid hj
    rw [hahead]
    exact h.asks.2 jid (ha.subset hj)

/-- A move of the cursor: the state is what it was, with other rows ahead. -/
theorem Migrating.of_visits (h : Migrating chats metaRows rows u)
    (hmeta : v.stores.metaRows = u.stores.metaRows)
    (hcursor : v.visits = [] ∧ v.stores.legacy = none ∨ ∃ t, v.visits = [t] ∧
      v.stores.legacy = some rows ∧ ∀ row, t = .found (some row) → row ∈ rows.rows)
    (hm : ∀ k, v.record k = u.record k) (hc : ∀ jid, v.chatRow jid = u.chatRow jid)
    (ha : v.asks = u.asks) (hle : ∀ jid, v.ahead jid = true → u.ahead jid = true)
    (hahead : ∀ row ∈ rows.rows, v.ahead row.jid = u.ahead row.jid) : Migrating chats metaRows rows v := by
  -- a chat without a row has nothing to migrate, wherever the cursor is
  have hrow : ∀ jid, v.ahead jid = u.ahead jid ∨ rows.get jid = none := by
    intro jid
    cases hg : rows.get jid with
    | none => exact .inr rfl
    | some row => rw [← get_key hg]; exact .inl (hahead row (Table.get_mem hg))
  refine ⟨hmeta.trans h.metaRows, hcursor, fun k => ?_, fun jid => ?_, ?_, fun jid hj => ?_⟩
  · rw [hm, h.msgs]
    rcases hrow k.chatJid with he | hn
    · rw [he]
    · simp [migratedMsg, hn]
  · rw [hc, h.chats]
    rcases hrow jid with he | hn
    · rw [he]
    · simp [migratedChat, hn]
  · rw [ha]; exact h.asks.1
  · rw [ha] at hj
    have := h.asks.2 jid hj
    cases hv : v.ahead jid with
    | false => rfl
    | true => rw [hle jid hv] at this; cases this

theorem Upgrade.ahead_of_visits (h : u.visits = [t]) (jid : Jid) :
    u.ahead jid = t.ahead LegacyRow.jid jid := by
  rw [Upgrade.ahead, h, any_cons, any_nil, Bool.or_false]

/-- The cursor moves only while the old store is there. -/
theorem Migrating.legacy
    (h : Migrating chats metaRows rows ⟨s, r :: rest, ready⟩) (ht : r.visit = some t) : s.legacy = some rows := by
  rcases h.cursor with ⟨hv, -⟩ | ⟨-, -, hl, -⟩
  · rw [Upgrade.visits, filterMap_cons, ht] at hv; cases hv
  · exact hl

/-- The requests for other chat rows leave this one alone. -/
theorem foldl_chatRow {l : List Request} (cur : Option Chat) (h : jid ∉ l.filterMap Request.asks) :
    l.foldl (Request.chatRow jid) cur = cur := by
  refine foldl_eq_self fun r hr => ?_
  have hne : r.asks ≠ some jid := fun hj => h (mem_filterMap.2 ⟨r, hr, hj⟩)
  cases r with
  | getChat | putChat => exact if_neg fun hj => hne (congrArg some hj)
  | _ => rfl

theorem foldl_chatRow_ready {l : List Response} {cur : Option Chat}
    (h : jid ∉ l.filterMap Response.asks) : l.foldl (Response.chatRow jid) cur = cur := by
  refine foldl_eq_self fun r hr => ?_
  have hne : r.asks ≠ some jid := fun hj => h (mem_filterMap.2 ⟨r, hr, hj⟩)
  cases r with
  | chat j last existing =>
    cases existing with
    | none => exact if_neg fun hj => hne (congrArg some hj)
    | some => rfl
  | _ => rfl

/-- The chat row is looked up. -/
theorem migrating_getChat {j : Jid} {last : UiMessage}
    (h : Migrating chats metaRows rows ⟨s, .getChat j last :: rest, ready⟩) :
    Migrating chats metaRows rows ⟨s, rest, ready ++ [.chat j last (s.chats.get j)]⟩ := by
  have hnot : j ∉ rest.filterMap Request.asks ++ ready.filterMap Response.asks := (nodup_cons.1 h.asks.1).1
  rw [mem_append, not_or] at hnot
  refine h.of_same rfl rfl (by simp [Upgrade.visits, filterMap_cons, Request.visit, Response.visit]) (fun k => rfl)
    (fun jid => ?_) ?_
  · simp only [Upgrade.chatRow, foldl_append, foldl_cons, foldl_nil]
    by_cases hj : j = jid
    · subst hj
      rw [foldl_chatRow _ hnot.1, foldl_chatRow_ready hnot.2, foldl_chatRow _ hnot.1,
        foldl_chatRow_ready hnot.2]
      cases s.chats.get j with
      | none => rfl
      | some => simp [Response.chatRow, Request.chatRow]
    · have hr : ∀ cur, Response.chatRow jid cur (.chat j last (s.chats.get j)) = cur := by
        intro cur
        cases s.chats.get j with
        | none => exact if_neg hj
        | some => rfl
      rw [hr, Request.chatRow, if_neg hj]
  · refine List.Perm.subperm ?_
    simp only [Upgrade.asks, filterMap_append, filterMap_cons, Request.asks, Response.asks,
      filterMap_nil, ← append_assoc]
    exact perm_append_singleton _ _

/-- A move of the cursor over the rows is executed. -/
theorem migrating_seek (pos : Option Jid)
    (hr : r.visit = some (.seek pos)) (h : Migrating chats metaRows rows ⟨s, r :: rest, ready⟩) :
    Migrating chats metaRows rows ⟨s, rest, ready ++ [.legacy (rows.next pos)]⟩ := by
  have hlegacy : s.legacy = some rows := h.legacy hr
  have hv : rest.filterMap Request.visit ++ ready.filterMap Response.visit = [] := by
    rcases h.cursor with ⟨-, hl⟩ | ⟨t, ht, -, -⟩
    · rw [show s.legacy = none from hl] at hlegacy; cases hlegacy
    · rw [Upgrade.visits, filterMap_cons, hr] at ht
      exact (List.cons.inj ht).2
  have hold : (⟨s, r :: rest, ready⟩ : Upgrade).visits = [.seek pos] := by
    rw [Upgrade.visits, filterMap_cons, hr]
    exact congrArg (_ :: ·) hv
  have hnew : (⟨s, rest, ready ++ [.legacy (rows.next pos)]⟩ : Upgrade).visits =
      [.found (rows.next pos)] := by
    rw [Upgrade.visits, filterMap_append, ← append_assoc, hv]
    rfl
  have hasks : r.asks = none ∧ (∀ k cur, r.record k cur = cur) ∧ ∀ jid cur, r.chatRow jid cur = cur := by
    cases r with
    | openLegacy | continueLegacy => exact ⟨rfl, fun _ _ => rfl, fun _ _ => rfl⟩
    | _ => cases hr
  refine h.of_visits rfl (.inr ⟨_, hnew, hlegacy, fun row hrow => ?_⟩) (fun k => ?_) (fun jid => ?_)
    ?_ (fun jid hj => ?_) (fun row hrow => ?_)
  · exact (Table.next_mem (Visit.found.inj hrow)).1
  · simp only [Upgrade.record, foldl_cons, hasks.2.1]
  · simp only [Upgrade.chatRow, foldl_cons, foldl_append, foldl_nil, hasks.2.2]
    rfl
  · simp [Upgrade.asks, hasks.1, Response.asks]
  · rw [Upgrade.ahead_of_visits hnew] at hj
    rw [Upgrade.ahead_of_visits hold]
    exact ahead_of_next hj
  · rw [Upgrade.ahead_of_visits hnew, Upgrade.ahead_of_visits hold]
    exact ahead_next hrow

/-- A request that is no move of the cursor and not about a chat row. -/
theorem Migrating.executed {s' : Stores} {x : Response}
    (h : Migrating chats metaRows rows ⟨s, r :: rest, ready⟩) (hv : r.visit = none)
    (hx : x.visit = none) (ha : r.asks = none) (hxa : x.asks = none)
    (hm : ∀ k, s'.msgs.get k = r.record k (s.msgs.get k)) (hchats : s'.chats = s.chats)
    (hmeta : s'.metaRows = s.metaRows) (hlegacy : s'.legacy = s.legacy) :
    Migrating chats metaRows rows ⟨s', rest, ready ++ [x]⟩ := by
  refine h.of_same hmeta hlegacy ?_ (fun k => ?_) (fun jid => ?_) (List.Perm.subperm ?_)
  · simp [Upgrade.visits, hv, hx]
  · simp [Upgrade.record, hm]
  · have hr : jid ∉ [r].filterMap Request.asks := by simp [ha]
    have hx' : jid ∉ [x].filterMap Response.asks := by simp [hxa]
    have hrow := foldl_chatRow (s.chats.get jid) hr
    simp only [foldl_cons, foldl_nil] at hrow
    simp only [Upgrade.chatRow, foldl_append, foldl_cons, hrow, hchats]
    exact foldl_chatRow_ready hx'
  · simp [Upgrade.asks, ha, hxa]

theorem migrating_execute
    (h : Migrating chats metaRows rows ⟨s, r :: rest, ready⟩) :
    Migrating chats metaRows rows ⟨(r.execute s).1, rest, ready ++ [(r.execute s).2]⟩ := by
  cases r with
  | openLegacy =>
    rw [Request.execute, h.legacy rfl]
    exact migrating_seek none rfl h
  | continueLegacy j =>
    rw [Request.execute, h.legacy rfl]
    exact migrating_seek (some j) rfl h
  | getChat => exact migrating_getChat h
  | putMsg => exact h.executed rfl rfl rfl rfl (fun k => get_set _ _ _) rfl rfl rfl
  | putChat =>
    refine h.of_same rfl rfl ?_ (fun k => rfl) (fun jid => ?_) (List.Sublist.subperm ?_)
    · simp [Upgrade.visits, filterMap_cons, Request.visit, Request.execute, Response.visit]
    · simp [Upgrade.chatRow, Request.execute, get_set, Request.chatRow, Response.chatRow]
    · simp [Upgrade.asks, filterMap_cons, Request.asks, Request.execute, Response.asks]
  | openMsgs | continueMsgs => exact h.executed rfl rfl rfl rfl (fun k => rfl) rfl rfl rfl
  | deleteMsg => exact h.executed rfl rfl rfl rfl (fun k => get_erase _ _ _) rfl rfl rfl

/-! ### One row -/

/-- The last of the puts of an id wins. -/
theorem record_puts (j : Jid) (items : List UiMessage) (cur : Option UiMessage) :
    (items.map (fun m => Request.putMsg (toRecord m j))).foldl (Request.record k) cur =
      if k.chatJid = j then
        ((items.filter (fun m => m.id = k.id)).getLast?.map (toRecord · j)).or cur else cur := by
  induction items using List.reverseRecOn with
  | nil => simp
  | append_singleton items m ih =>
    rw [map_append, foldl_append, ih]
    simp only [map_cons, map_nil, foldl_cons, foldl_nil, Request.record]
    have hkey : (toRecord m j).key = k ↔ k.chatJid = j ∧ m.id = k.id := by
      obtain ⟨c, i⟩ := k
      simp [UiMessage.key, toRecord, eq_comm]
    by_cases hj : k.chatJid = j
    · by_cases hid : m.id = k.id
      · rw [if_pos (hkey.2 ⟨hj, hid⟩), if_pos hj]
        simp [hid]
      · rw [if_neg fun h => hid (hkey.1 h).2, if_pos hj, if_pos hj]
        simp [hid]
    · rw [if_neg fun h => hj (hkey.1 h).1, if_neg hj, if_neg hj]

theorem record_migrateRow (row : LegacyRow) (cur : Option UiMessage) :
    (migrateRow row).foldl (Request.record k) cur =
      if k.chatJid = row.jid then
        (((row.items.getD []).filter (fun m => persistable m && m.id = k.id)).getLast?.map
          (toRecord · row.jid)).or cur else cur := by
  have hget : ∀ cur, ((row.items.getD []).getLast?.toList.map fun last => Request.getChat row.jid last).foldl
      (Request.record k) cur = cur := by
    intro cur
    cases (row.items.getD []).getLast? <;> rfl
  rw [migrateRow, foldl_append, foldl_append, record_puts, hget, filter_filter]
  simp only [Bool.and_comm, foldl_cons, foldl_nil, Request.record]

theorem chatRow_migrateRow (row : LegacyRow) (cur : Option Chat) :
    (migrateRow row).foldl (Request.chatRow jid) cur =
      if jid = row.jid then cur.or ((row.items.getD []).getLast?.map (legacyChat row.jid)) else cur := by
  have hput : ∀ items : List UiMessage, (items.map fun m => Request.putMsg (toRecord m row.jid)).foldl
      (Request.chatRow jid) cur = cur := by
    intro items
    refine foldl_eq_self fun r hr => ?_
    obtain ⟨m, -, rfl⟩ := mem_map.1 hr
    rfl
  rw [migrateRow, foldl_append, foldl_append, hput]
  cases (row.items.getD []).getLast? with
  | none => simp [Request.chatRow]
  | some => simp [Request.chatRow, eq_comm]

/-- What the requests for a row are about, apart from its messages. -/
theorem filterMap_migrateRow {β : Type} {f : Request → Option β} (hf : ∀ m, f (.putMsg m) = none)
    (row : LegacyRow) : (migrateRow row).filterMap f =
      ((row.items.getD []).getLast?.toList.map (Request.getChat row.jid)).filterMap f ++
        [Request.continueLegacy row.jid].filterMap f := by
  have hput : ((((row.items.getD []).filter persistable).map fun m =>
      Request.putMsg (toRecord m row.jid)).filterMap f) = [] := by
    rw [filterMap_eq_nil_iff]
    intro r hr
    obtain ⟨m, -, rfl⟩ := mem_map.1 hr
    exact hf _
  rw [migrateRow, filterMap_append, filterMap_append, hput, nil_append]

theorem visits_migrateRow (row : LegacyRow) :
    (migrateRow row).filterMap Request.visit = [.seek (some row.jid)] := by
  rw [filterMap_migrateRow fun _ => rfl]
  cases (row.items.getD []).getLast? <;> rfl

theorem asks_migrateRow (row : LegacyRow) : (migrateRow row).filterMap Request.asks =
    (row.items.getD []).getLast?.toList.map fun _ => row.jid := by
  rw [filterMap_migrateRow fun _ => rfl]
  cases (row.items.getD []).getLast? <;> rfl

/-- The cursor has found a row, or the end: it is nowhere else. -/
theorem Migrating.found {row : Option LegacyRow} {rest : List Response}
    (h : Migrating chats metaRows rows ⟨s, issued, .legacy row :: rest⟩) :
    issued.filterMap Request.visit = [] ∧ rest.filterMap Response.visit = [] ∧
      s.legacy = some rows ∧ (∀ r, row = some r → r ∈ rows.rows) ∧
      (⟨s, issued, .legacy row :: rest⟩ : Upgrade).visits = [.found row] := by
  have hv : (⟨s, issued, .legacy row :: rest⟩ : Upgrade).visits =
      issued.filterMap Request.visit ++ .found row :: rest.filterMap Response.visit := rfl
  rcases h.cursor with ⟨hn, -⟩ | ⟨t, ht, hl, hrow⟩
  · rw [hv] at hn; simp at hn
  · obtain ⟨hi, hrest, rfl⟩ := append_cons_eq_singleton (hv.symm.trans ht)
    exact ⟨hi, hrest, hl, fun r he => hrow r (by rw [he]), ht⟩

/-- A row is migrated. -/
theorem migrating_row {row : LegacyRow} {rest : List Response}
    (h : Migrating chats metaRows rows ⟨s, issued, .legacy (some row) :: rest⟩) :
    Migrating chats metaRows rows ⟨s, issued ++ migrateRow row, rest⟩ := by
  obtain ⟨hvi, hvr, hlegacy, hmem, hold⟩ := h.found
  have hget : rows.get row.jid = some row := Table.get_of_mem (hmem row rfl)
  have hnew : (⟨s, issued ++ migrateRow row, rest⟩ : Upgrade).visits = [.seek (some row.jid)] := by
    rw [Upgrade.visits, filterMap_append, hvi, hvr, visits_migrateRow]
    rfl
  have hahead : ∀ jid, (⟨s, issued ++ migrateRow row, rest⟩ : Upgrade).ahead jid =
      ((⟨s, issued, .legacy (some row) :: rest⟩ : Upgrade).ahead jid && decide (jid ≠ row.jid)) := by
    intro jid
    rw [Upgrade.ahead_of_visits hnew, Upgrade.ahead_of_visits hold]
    exact ahead_leave LegacyRow.jid row jid
  have hself : (⟨s, issued, .legacy (some row) :: rest⟩ : Upgrade).ahead row.jid = true := by
    simp [Upgrade.ahead, hold, Visit.ahead]
  have hnot : row.jid ∉ issued.filterMap Request.asks ++ rest.filterMap Response.asks := by
    intro hm
    have := h.asks.2 row.jid hm
    rw [hself] at this
    cases this
  refine ⟨h.metaRows, .inr ⟨_, hnew, hlegacy, by rintro _ ⟨⟩⟩, fun k => ?_, fun jid => ?_, ?_, ?_⟩
  · have hrec : (⟨s, issued ++ migrateRow row, rest⟩ : Upgrade).record k =
        (migrateRow row).foldl (Request.record k)
          ((⟨s, issued, .legacy (some row) :: rest⟩ : Upgrade).record k) := foldl_append
    rw [hrec, record_migrateRow, h.msgs, hahead]
    by_cases hj : k.chatJid = row.jid
    · rw [if_pos hj, hj, hself]
      simp [migratedMsg, hj, hget]
    · rw [if_neg hj]
      simp [hj]
  · rw [mem_append, not_or] at hnot
    have hchat := h.chats jid
    simp only [Upgrade.chatRow, foldl_cons, Response.chatRow] at hchat
    simp only [Upgrade.chatRow, foldl_append, chatRow_migrateRow, hahead]
    by_cases hj : jid = row.jid
    · subst hj
      rw [foldl_chatRow _ hnot.1, foldl_chatRow_ready hnot.2, hself, if_pos rfl] at hchat
      rw [foldl_chatRow _ hnot.1, foldl_chatRow_ready hnot.2, if_pos rfl, hchat]
      simp [migratedChat, hget]
    · rw [if_neg hj, hchat]
      simp [hj]
  · have hperm : (⟨s, issued ++ migrateRow row, rest⟩ : Upgrade).asks.Perm
        (((row.items.getD []).getLast?.toList.map fun _ => row.jid) ++
          (issued.filterMap Request.asks ++ rest.filterMap Response.asks)) := by
      rw [Upgrade.asks, filterMap_append, asks_migrateRow, ← append_assoc]
      exact List.Perm.append_right _ perm_append_comm
    rw [hperm.nodup_iff]
    have hnd : (issued.filterMap Request.asks ++ rest.filterMap Response.asks).Nodup := h.asks.1
    cases (row.items.getD []).getLast? with
    | none => exact hnd
    | some => exact nodup_cons.2 ⟨hnot, hnd⟩
  · intro jid hj
    rw [hahead, Bool.and_eq_false_iff]
    rw [Upgrade.asks, filterMap_append, asks_migrateRow, mem_append, mem_append, mem_map] at hj
    rcases hj with (hj | ⟨-, -, rfl⟩) | hj
    · exact .inl (h.asks.2 jid (mem_append_left _ hj))
    · exact .inr (by simp)
    · exact .inl (h.asks.2 jid (mem_append_right _ hj))

/-- A callback that does nothing. -/
theorem Migrating.delivered {r : Response} {rest : List Response}
    (h : Migrating chats metaRows rows ⟨s, issued, r :: rest⟩) (hv : r.visit = none)
    (hc : ∀ jid cur, r.chatRow jid cur = cur) : Migrating chats metaRows rows ⟨s, issued ++ [], rest⟩ := by
  rw [append_nil]
  refine h.of_same rfl rfl ?_ (fun k => rfl) (fun jid => ?_) (List.Sublist.subperm ?_)
  · simp [Upgrade.visits, hv]
  · simp [Upgrade.chatRow, hc]
  · exact List.Sublist.append_left ((sublist_cons_self r rest).filterMap _) _

theorem migrating_deliver {r : Response} {rest : List Response}
    (h : Migrating chats metaRows rows ⟨s, issued, r :: rest⟩) (hr : ∀ row, r ≠ .msgs (some row)) :
    Migrating chats metaRows rows ⟨(r.deliver s).1, issued ++ (r.deliver s).2, rest⟩ := by
  cases r with
  | legacy row =>
    cases row with
    | some => exact migrating_row h
    | none =>
      obtain ⟨hvi, hvr, -, -, hold⟩ := h.found
      have hnew : (⟨{ s with legacy := none }, issued ++ [], rest⟩ : Upgrade).visits = [] := by
        rw [Upgrade.visits, append_nil, hvi, hvr]
        rfl
      have hahead : ∀ jid, (⟨s, issued, .legacy none :: rest⟩ : Upgrade).ahead jid = false ∧
          (⟨{ s with legacy := none }, issued ++ [], rest⟩ : Upgrade).ahead jid = false := by
        intro jid
        rw [Upgrade.ahead, hold, Upgrade.ahead, hnew]
        exact ⟨rfl, rfl⟩
      refine h.of_visits rfl (.inl ⟨hnew, rfl⟩) (fun k => ?_) (fun jid => ?_) ?_ (fun jid hj => ?_)
        (fun row _ => (hahead row.jid).2.trans (hahead row.jid).1.symm)
      · simp [Upgrade.record, Response.deliver]
      · simp [Upgrade.chatRow, Response.deliver, Response.chatRow]
      · simp [Upgrade.asks, Response.deliver, filterMap_cons, Response.asks]
      · exact absurd ((hahead jid).2.symm.trans hj) Bool.false_ne_true
  | chat j last existing =>
    cases existing with
    | some => exact h.delivered rfl fun _ _ => rfl
    | none =>
      refine h.of_same rfl rfl ?_ (fun k => ?_) (fun jid => ?_) (List.Perm.subperm ?_)
      · simp [Upgrade.visits, Response.deliver, filterMap_cons, Response.visit, Request.visit]
      · simp [Upgrade.record, Response.deliver, Request.record]
      · simp [Upgrade.chatRow, Response.deliver, Response.chatRow, Request.chatRow, legacyChat]
      · simp [Upgrade.asks, Response.deliver, Response.asks, Request.asks, legacyChat]
  | msgs row =>
    cases row with
    | some row => exact absurd rfl (hr row)
    | none => exact h.delivered rfl fun _ _ => rfl
  | done => exact h.delivered rfl fun _ _ => rfl

/-! ### Termination

Every request and every result carries the work that is still to come from it. -/

def rowWork (row : LegacyRow) : ℕ :=
  2 * ((row.items.getD []).filter persistable).length + 4 * (row.items.getD []).getLast?.toList.length + 2

/-- A move of the cursor, and all rows above it. -/
def seekWork (rows : Table LegacyRow.jid) (pos : Option Jid) : ℕ :=
  2 + ((rows.rows.filter (fun row => above pos row.jid)).map rowWork).sum

def Request.work (rows : Table LegacyRow.jid) : Request → ℕ
  | .openLegacy => seekWork rows none
  | .continueLegacy jid => seekWork rows (some jid)
  | .getChat _ _ => 4
  | _ => 2

def Response.work (rows : Table LegacyRow.jid) : Response → ℕ
  | .legacy (some row) => 1 + ((migrateRow row).map (Request.work rows)).sum
  | .chat _ _ none => 3
  | _ => 1

def Upgrade.work (rows : Table LegacyRow.jid) (u : Upgrade) : ℕ :=
  (u.issued.map (Request.work rows)).sum + (u.ready.map (Response.work rows)).sum

theorem work_migrateRow (rows : Table LegacyRow.jid) (row : LegacyRow) :
    ((migrateRow row).map (Request.work rows)).sum + 2 = rowWork row + seekWork rows (some row.jid) := by
  have hputs : ∀ items : List UiMessage, ((items.map fun m =>
      Request.putMsg (toRecord m row.jid)).map (Request.work rows)).sum = 2 * items.length := by
    intro items
    induction items with
    | nil => rfl
    | cons m items ih =>
      simp only [map_cons, sum_cons, ih, Request.work, length_cons]
      omega
  have hget : (((row.items.getD []).getLast?.toList.map fun last =>
      Request.getChat row.jid last).map (Request.work rows)).sum =
        4 * (row.items.getD []).getLast?.toList.length := by
    cases (row.items.getD []).getLast? <;> rfl
  rw [migrateRow, map_append, map_append, sum_append, sum_append, hputs, hget, rowWork]
  simp only [map_cons, map_nil, sum_cons, sum_nil, Request.work]
  omega

theorem seekWork_next {pos : Option Jid} {row : LegacyRow} (h : rows.next pos = some row) :
    seekWork rows pos = rowWork row + seekWork rows (some row.jid) := by
  have hperm := ((next_perm h).map rowWork).sum_nat
  rw [seekWork, hperm, map_cons, sum_cons, seekWork]
  omega

theorem work_seek (pos : Option Jid) : (Response.legacy (rows.next pos)).work rows < seekWork rows pos := by
  cases h : rows.next pos with
  | none => exact Nat.lt_of_lt_of_le Nat.one_lt_two (Nat.le_add_right 2 _)
  | some row =>
    have hrow := work_migrateRow rows row
    rw [seekWork_next h, ← hrow, Response.work]
    omega

theorem work_execute
    (h : Migrating chats metaRows rows ⟨s, r :: rest, ready⟩) : (r.execute s).2.work rows < r.work rows := by
  cases r with
  | openLegacy => rw [Request.execute, h.legacy rfl]; exact work_seek none
  | continueLegacy j => rw [Request.execute, h.legacy rfl]; exact work_seek (some j)
  | getChat j =>
    rw [Request.execute]
    cases s.chats.get j with
    | none => exact Nat.lt_succ_self 3
    | some => exact Nat.one_lt_succ_succ 2
  | _ => exact Nat.one_lt_two

theorem work_deliver (s : Stores) (rows : Table LegacyRow.jid) {r : Response}
    (hr : ∀ row, r ≠ .msgs (some row)) : ((r.deliver s).2.map (Request.work rows)).sum < r.work rows := by
  cases r with
  | legacy row =>
    cases row with
    | none => exact Nat.one_pos
    | some => exact Nat.lt_add_of_pos_left Nat.one_pos
  | chat j last existing =>
    cases existing with
    | none => exact Nat.lt_succ_self 2
    | some => exact Nat.one_pos
  | msgs row =>
    cases row with
    | none => exact Nat.one_pos
    | some row => exact absurd rfl (hr row)
  | done => exact Nat.one_pos

/-- **One move** of the migration. -/
theorem migrating_step {mv : Move} (h : Migrating chats metaRows rows u ∧ Unpurged u) (he : u.Enabled mv) :
    (Migrating chats metaRows rows (u.step mv) ∧ Unpurged (u.step mv)) ∧
      (u.step mv).work rows < u.work rows := by
  obtain ⟨s, issued, ready⟩ := u
  cases mv with
  | execute =>
    cases issued with
    | nil => exact absurd rfl he
    | cons =>
      refine ⟨⟨migrating_execute h.1, unpurged_execute h.2⟩, ?_⟩
      have hw := work_execute h.1
      simp only [Upgrade.step, Upgrade.work, map_append, map_cons, map_nil, sum_append, sum_cons, sum_nil]
      omega
  | deliver =>
    cases ready with
    | nil => exact absurd rfl he
    | cons r =>
      have hr : ∀ row, r ≠ .msgs (some row) := fun row hr =>
        h.2.ready row (by rw [hr]; exact mem_cons_self)
      refine ⟨⟨migrating_deliver h.1 hr, unpurged_deliver h.2⟩, ?_⟩
      have hw := work_deliver s rows hr
      simp only [Upgrade.step, Upgrade.work, map_append, map_cons, sum_append, sum_cons]
      omega

/-- The start of an upgrade from version 1. -/
def upgradeV1 (chats : Table Chat.jid) (metaRows : Table MetaRow.k) (rows : Table LegacyRow.jid) :
    Upgrade := onUpgradeNeeded 1 ⟨some chats, some metaRows, none, some rows⟩

theorem migrating_start (chats : Table Chat.jid) (metaRows : Table MetaRow.k) (rows : Table LegacyRow.jid) :
    Migrating chats metaRows rows (upgradeV1 chats metaRows rows) ∧
      Unpurged (upgradeV1 chats metaRows rows) := by
  refine ⟨⟨rfl, .inr ⟨.seek none, rfl, rfl, nofun⟩, fun k => rfl, fun jid => rfl, nodup_nil,
    fun _ hj => (nomatch hj)⟩, ⟨.inr ⟨rfl, [.openLegacy], [], .inr rfl, rfl,
      forall_mem_nil _⟩, fun _ hm => (nomatch hm)⟩⟩

/-- What is there when the migration is complete. -/
theorem Migrating.complete (h : Migrating chats metaRows rows u) (hc : u.Complete) :
    (∀ k, u.stores.msgs.get k = migratedMsg rows k) ∧
      (∀ jid, u.stores.chats.get jid = migratedChat chats rows jid) ∧
      u.stores.metaRows = metaRows ∧ u.stores.legacy = none := by
  obtain ⟨s, issued, ready⟩ := u
  obtain ⟨rfl, rfl⟩ : issued = [] ∧ ready = [] := hc
  refine ⟨h.msgs, h.chats, h.metaRows, ?_⟩
  rcases h.cursor with ⟨-, hl⟩ | ⟨t, ht, -⟩
  · exact hl
  · cases ht

end Whatsvelte
