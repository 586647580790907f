import Whatsvelte.Lib.Runs
import Whatsvelte.Spec.Albums

/-!
# Albums are the maximal runs

`groupAlbums_eq`: the greedy scan of `groupAlbums` cuts the list into the groups of `splitBy` for the
test `linked`, and shows every group that is long enough as an album. The restart after a run that is
too short never makes an album of the rest of the run.

`albums_partition`: **the rows are a lossless partition, and the album rows are exactly the maximal
blocks** of items with one album header, or of uncaptioned items close in time.
-/

namespace Whatsvelte.Albums

open List

variable {m x y : UiMessage} {list rest items a b c : List UiMessage}

/-- An item that names the header of its album. -/
def explicit (m : UiMessage) : Bool := albumable m && truthy m.albumParentId

/-- An item that may belong to an inferred album. -/
def inferred (m : UiMessage) : Bool := albumable m && !truthy m.albumParentId && !truthy m.text

/-- Items with one non-empty header and one sender. -/
def ExplicitBlock (l : List UiMessage) : Prop :=
  (∀ x ∈ l, explicit x = true) ∧
    ∀ x ∈ l, ∀ y ∈ l, x.albumParentId = y.albumParentId ∧ sameSender x y = true

/-- Items without header and text, from one sender, each close to the one before. -/
def InferredBlock (l : List UiMessage) : Prop :=
  (∀ x ∈ l, inferred x = true) ∧ (∀ x ∈ l, ∀ y ∈ l, sameSender x y = true) ∧
    l.IsChain fun x y => y.timestamp - x.timestamp ≤ MAX_GAP_SECS

/-- In `a ++ b ++ c`, the block `b` is to be shown as an album. -/
def AlbumBlock (a b c : List UiMessage) : Prop :=
  2 ≤ b.length ∧ MaximalIn ExplicitBlock a b c ∨ MIN_INFERRED ≤ b.length ∧ MaximalIn InferredBlock a b c

/-! ## Neighbours in an album -/

/-- Two neighbours of one run. -/
def linked (x y : UiMessage) : Bool :=
  sameSender x y &&
    (explicit x && explicit y && x.albumParentId = y.albumParentId ||
      inferred x && inferred y && y.timestamp - x.timestamp ≤ MAX_GAP_SECS)

theorem sameSender_iff : sameSender x y = true ↔ x.fromMe = y.fromMe ∧ x.senderJid = y.senderJid := by
  simp [sameSender]

theorem sameSender_equivalence : Equivalence fun x y => sameSender x y = true where
  refl x := by simp [sameSender_iff]
  symm h := sameSender_iff.2 ⟨(sameSender_iff.1 h).1.symm, (sameSender_iff.1 h).2.symm⟩
  trans h h' := sameSender_iff.2 ⟨(sameSender_iff.1 h).1.trans (sameSender_iff.1 h').1,
    (sameSender_iff.1 h).2.trans (sameSender_iff.1 h').2⟩

theorem not_inferred_of_explicit (h : explicit x = true) : inferred x = false := by
  simp only [explicit, Bool.and_eq_true] at h
  simp [inferred, h.2]

theorem inferred_of_not_explicit (h : ¬ explicit m = true) (ht : (albumable m && !truthy m.text) = true) :
    inferred m = true := by
  simp only [explicit, Bool.and_eq_true, not_and, Bool.not_eq_true, Bool.not_eq_true'] at h ht
  simp [inferred, ht.1, h ht.1, ht.2]

theorem linked_explicit (hx : explicit x = true) :
    linked x y = true ↔ explicit y = true ∧ x.albumParentId = y.albumParentId ∧ sameSender x y = true := by
  simp only [linked, hx, not_inferred_of_explicit hx, Bool.and_eq_true, Bool.or_eq_true, decide_eq_true_eq,
    true_and, Bool.false_eq_true, false_and, or_false]
  tauto

theorem linked_inferred (hx : inferred x = true) :
    linked x y = true ↔
      inferred y = true ∧ sameSender x y = true ∧ y.timestamp - x.timestamp ≤ MAX_GAP_SECS := by
  have he : explicit x = false := by
    by_contra h
    rw [not_inferred_of_explicit (by simpa using h)] at hx
    cases hx
  simp only [linked, hx, he, Bool.and_eq_true, Bool.or_eq_true, decide_eq_true_eq, true_and,
    Bool.false_eq_true, false_and, false_or]
  tauto

theorem explicit_or_inferred (h : linked x y = true) :
    explicit x = true ∧ explicit y = true ∨ inferred x = true ∧ inferred y = true := by
  simp only [linked, Bool.and_eq_true, Bool.or_eq_true] at h
  rcases h.2 with h | h
  · exact .inl h.1
  · exact .inr h.1

theorem explicit_iff (h : linked x y = true) : explicit x = true ↔ explicit y = true := by
  rcases explicit_or_inferred h with ⟨hx, hy⟩ | ⟨hx, hy⟩
  · exact iff_of_true hx hy
  · refine iff_of_false (fun he => ?_) fun he => ?_
    · rw [not_inferred_of_explicit he] at hx; cases hx
    · rw [not_inferred_of_explicit he] at hy; cases hy

theorem inferred_iff (h : linked x y = true) : inferred x = true ↔ inferred y = true := by
  rcases explicit_or_inferred h with ⟨hx, hy⟩ | ⟨hx, hy⟩
  · rw [not_inferred_of_explicit hx, not_inferred_of_explicit hy]
  · exact iff_of_true hx hy

/-! ## The scans -/

/-- The scan from `m` takes `items` off `rest` and stops where the run ends. -/
def Scanned (m : UiMessage) (items rest : List UiMessage) : Prop :=
  (m :: items).IsChain (fun x y => linked x y) ∧
    ∃ tail, rest = items ++ tail ∧ ∀ x ∈ (m :: items).getLast?, ∀ y ∈ tail.head?, linked x y = false

theorem Scanned.splitBy (h : Scanned m items rest) :
    (m :: rest).splitBy linked = (m :: items) :: (rest.drop items.length).splitBy linked := by
  obtain ⟨hrun, tail, rfl, hend⟩ := h
  rw [drop_left, ← cons_append, splitBy_append hend, splitBy_of_isChain (cons_ne_nil m items) hrun]
  rfl

theorem scanned_nil (h : ∀ y ∈ rest.head?, linked m y = false) : Scanned m [] rest := by
  refine ⟨isChain_singleton m, rest, rfl, fun x hx y hy => ?_⟩
  cases hx
  exact h y hy

theorem scanned_cons (hxy : linked m x = true) (h : Scanned x items rest) :
    Scanned m (x :: items) (x :: rest) := by
  obtain ⟨hrun, tail, rfl, hend⟩ := h
  exact ⟨hrun.cons_cons hxy, tail, rfl, hend⟩

/-- The scan of an explicit album: every item is compared with the first. -/
theorem scanned_explicitItems (hm : explicit m = true) : Scanned m (explicitItems m rest) rest := by
  have hscan : ∀ p, explicit p = true → p.albumParentId = m.albumParentId → sameSender m p = true →
      Scanned p (explicitItems m rest) rest := by
    induction rest with
    | nil => exact fun p _ _ _ => scanned_nil fun y hy => (nomatch hy)
    | cons x rest ih =>
      intro p hp hparent hsender
      have hlink : linked p x = (albumable x && x.albumParentId = m.albumParentId && sameSender m x) := by
        rw [Bool.eq_iff_iff, linked_explicit hp]
        simp only [explicit, Bool.and_eq_true, decide_eq_true_eq, hparent] at hp ⊢
        constructor
        · rintro ⟨⟨ha, -⟩, hpar, hs⟩
          exact ⟨⟨ha, hpar.symm⟩, sameSender_equivalence.trans hsender hs⟩
        · rintro ⟨⟨ha, hpar⟩, hs⟩
          exact ⟨⟨ha, hpar ▸ hp.2⟩, hpar.symm,
            sameSender_equivalence.trans (sameSender_equivalence.symm hsender) hs⟩
      unfold explicitItems
      rw [takeWhile_cons, ← hlink]
      split
      · rename_i hl
        have hx := (linked_explicit hp).1 hl
        exact scanned_cons hl (ih x hx.1 (hx.2.1.symm.trans hparent)
          (sameSender_equivalence.trans hsender hx.2.2))
      · rename_i hl
        exact scanned_nil fun y hy => by cases hy; simpa using hl
  exact hscan m hm rfl (sameSender_equivalence.refl m)

/-- The scan of an inferred album. -/
theorem scanned_inferredItems (hm : inferred m = true) : Scanned m (inferredItems m m rest) rest := by
  have hscan : ∀ p, inferred p = true → sameSender m p = true → Scanned p (inferredItems m p rest) rest := by
    induction rest with
    | nil => exact fun p _ _ => scanned_nil fun y hy => (nomatch hy)
    | cons x rest ih =>
      intro p hp hsender
      have hlink : linked p x = (albumable x && !truthy x.albumParentId && !truthy x.text && sameSender m x &&
          decide (x.timestamp - p.timestamp ≤ MAX_GAP_SECS)) := by
        rw [Bool.eq_iff_iff, linked_inferred hp]
        simp only [inferred, Bool.and_eq_true, decide_eq_true_eq, and_assoc]
        have hs : sameSender p x = true ↔ sameSender m x = true :=
          ⟨sameSender_equivalence.trans hsender,
            sameSender_equivalence.trans (sameSender_equivalence.symm hsender)⟩
        rw [hs]
      rw [inferredItems, ← hlink]
      split
      · rename_i hl
        have hx := (linked_inferred hp).1 hl
        exact scanned_cons hl (ih x hx.1 (sameSender_equivalence.trans hsender hx.2.1))
      · rename_i hl
        exact scanned_nil fun y hy => by cases hy; simpa using hl
  exact hscan m hm (sameSender_equivalence.refl m)

/-! ## The groups -/

/-- The group is long enough for an album. -/
def isAlbum (l : List UiMessage) : Bool :=
  l.head?.any fun m => explicit m && l.length ≥ 2 || inferred m && l.length ≥ MIN_INFERRED

/-- The rows that show a group. -/
def rowsOf : List UiMessage → List Row
  | [] => []
  | m :: items =>
    if isAlbum (m :: items) then [.album (albumKey m) (m :: items)]
    else (m :: items).map fun x => .msg x.id x

theorem isAlbum_of_explicit (hm : explicit m = true) :
    isAlbum (m :: items) = decide (items.length + 1 ≥ 2) := by
  simp [isAlbum, hm, not_inferred_of_explicit hm]

theorem isAlbum_of_inferred (hm : inferred m = true) :
    isAlbum (m :: items) = decide (items.length + 1 ≥ MIN_INFERRED) := by
  have hshort : explicit m = false := by
    by_contra h
    rw [not_inferred_of_explicit (by simpa using h)] at hm
    cases hm
  simp [isAlbum, hm, hshort]

theorem rowsOf_album (h : isAlbum (m :: items) = true) :
    rowsOf (m :: items) = [.album (albumKey m) (m :: items)] := by
  rw [rowsOf, h]
  rfl

theorem rowsOf_short (h : isAlbum (m :: items) = false) :
    rowsOf (m :: items) = (m :: items).map fun x => .msg x.id x := by
  rw [rowsOf, h]
  rfl

/-- A message that starts no run. -/
theorem rows_single (h : Scanned m [] rest) :
    ((m :: rest).splitBy linked).flatMap rowsOf = .msg m.id m :: (rest.splitBy linked).flatMap rowsOf := by
  have hshort : isAlbum [m] = false := by simp [isAlbum, MIN_INFERRED]
  rw [h.splitBy, flatMap_cons, rowsOf_short hshort]
  rfl

/-- The rest of a run that is too short for an album is too short as well. -/
theorem rows_short_run (hm : inferred m = true) (h : Scanned m items rest)
    (hlen : items.length + 1 < MIN_INFERRED) :
    ((m :: rest).splitBy linked).flatMap rowsOf = .msg m.id m :: (rest.splitBy linked).flatMap rowsOf := by
  cases items with
  | nil => exact rows_single h
  | cons x items =>
    have hsplit := h.splitBy
    obtain ⟨hrun, tail, rfl, hend⟩ := h
    obtain ⟨hmx, hrun⟩ := isChain_cons_cons.1 hrun
    have hx : Scanned x items (items ++ tail) := ⟨hrun, tail, rfl, hend⟩
    have hshort : isAlbum (m :: x :: items) = false ∧ isAlbum (x :: items) = false := by
      rw [isAlbum_of_inferred hm, isAlbum_of_inferred ((inferred_iff hmx).1 hm), decide_eq_false_iff_not,
        decide_eq_false_iff_not]
      rw [length_cons] at hlen ⊢
      omega
    rw [hsplit, cons_append, hx.splitBy, flatMap_cons, flatMap_cons, rowsOf_short hshort.1,
      rowsOf_short hshort.2]
    rfl

/-- **The scan finds the groups**, and shows those that are long enough as albums. -/
theorem groupAlbums_eq (list : List UiMessage) : groupAlbums list = (list.splitBy linked).flatMap rowsOf := by
  fun_induction groupAlbums list with
  | case1 => rfl
  | case2 m rest hm items hlen ih =>
    rw [(scanned_explicitItems hm).splitBy, flatMap_cons,
      rowsOf_album (by rw [isAlbum_of_explicit hm]; exact decide_eq_true hlen), ih]
    rfl
  | case3 m rest hm items hlen ih =>
    -- the only item of its album is a row of its own
    have hs : Scanned m items rest := scanned_explicitItems hm
    obtain hnil : items = [] := eq_nil_of_length_eq_zero (by omega)
    rw [hnil] at hs
    rw [ih, rows_single hs]
  | case4 m rest hm hm' items hlen ih =>
    have hi := inferred_of_not_explicit hm hm'
    rw [(scanned_inferredItems hi).splitBy, flatMap_cons,
      rowsOf_album (by rw [isAlbum_of_inferred hi]; exact decide_eq_true hlen), ih]
    rfl
  | case5 m rest hm hm' items hlen ih =>
    -- after a short run the scan goes on inside it, and finds only shorter ones
    have hi := inferred_of_not_explicit hm hm'
    rw [ih, rows_short_run hi (scanned_inferredItems hi) (not_le.1 hlen)]
  | case6 m rest hm hm' ih =>
    -- such a message is linked to nothing
    have hs : Scanned m [] rest := by
      refine scanned_nil fun y _ => ?_
      by_contra hl
      rcases explicit_or_inferred (by simpa using hl) with ⟨he, -⟩ | ⟨hi, -⟩
      · exact hm he
      · simp only [inferred, Bool.and_eq_true] at hi
        exact hm' (by simp [hi.1.1, hi.2])
    rw [ih, rows_single hs]

/-! ## The rows -/

theorem items_rowsOf (b : List UiMessage) : (rowsOf b).flatMap Row.items = b := by
  cases b with
  | nil => rfl
  | cons m items =>
    cases h : isAlbum (m :: items) with
    | true => simp [rowsOf_album h, Row.items]
    | false => rw [rowsOf_short h, flatMap_map]; simp [Row.items]

theorem items_groups (p : List (List UiMessage)) : (p.flatMap rowsOf).flatMap Row.items = p.flatten := by
  rw [flatMap_assoc]
  simp [items_rowsOf, flatMap_id']

/-- Nothing is lost, and nothing changes its place. -/
theorem items_groupAlbums (list : List UiMessage) : (groupAlbums list).flatMap Row.items = list := by
  rw [groupAlbums_eq, items_groups, flatten_splitBy]

theorem mem_of_mem_items {list : List UiMessage} {r : Row} {m : UiMessage} (hr : r ∈ groupAlbums list)
    (hm : m ∈ r.items) : m ∈ list := by
  rw [← items_groupAlbums list]
  exact mem_flatMap.2 ⟨r, hr, hm⟩

theorem mem_rowsOf {r : Row} (h : r ∈ rowsOf b) :
    (∃ m items, b = m :: items ∧ isAlbum b = true ∧ rowsOf b = [r] ∧ r = .album (albumKey m) b) ∨
      ∃ m, r = .msg m.id m := by
  cases b with
  | nil => cases h
  | cons m items =>
    cases ha : isAlbum (m :: items) with
    | true =>
      rw [rowsOf_album ha] at h ⊢
      obtain rfl := mem_singleton.1 h
      exact .inl ⟨m, items, rfl, rfl, rfl, rfl⟩
    | false =>
      rw [rowsOf_short ha] at h
      obtain ⟨x, -, rfl⟩ := mem_map.1 h
      exact .inr ⟨x, rfl⟩

/-- A row shows one message under its id, or an album under the id of its first item. -/
theorem row_cases {r : Row} (h : r ∈ groupAlbums list) :
    (∃ m, r = .msg m.id m) ∨ ∃ m items, r = .album (albumKey m) (m :: items) := by
  rw [groupAlbums_eq] at h
  obtain ⟨b, -, hr⟩ := mem_flatMap.1 h
  rcases mem_rowsOf hr with ⟨m, items, rfl, -, -, rfl⟩ | h
  · exact .inr ⟨m, items, rfl⟩
  · exact .inl h

/-- The album rows are the groups that are long enough. -/
theorem album_row_iff :
    (∃ r₁ k r₂, groupAlbums list = r₁ ++ .album k b :: r₂ ∧ r₁.flatMap Row.items = a) ↔
      isAlbum b = true ∧ ∃ p s, list.splitBy linked = p ++ b :: s ∧ p.flatten = a := by
  rw [groupAlbums_eq]
  constructor
  · rintro ⟨r₁, k, r₂, hrows, rfl⟩
    obtain ⟨p, b', s, u, v, hsplit, hb', rfl⟩ := exists_of_flatMap_eq hrows
    rcases mem_rowsOf (b := b') (r := .album k b) (by simp [hb']) with ⟨m, items, -, ha, hone, heq⟩ | ⟨m, hm⟩
    · obtain rfl : b = b' := (Row.album.inj heq).2
      have hu : u = [] := by
        rw [hone] at hb'
        cases u with
        | nil => rfl
        | cons => simp at hb'
      refine ⟨ha, p, s, hsplit, ?_⟩
      rw [hu, append_nil, items_groups]
    · cases hm
  · rintro ⟨ha, p, s, hsplit, rfl⟩
    cases b with
    | nil => cases ha
    | cons m =>
      refine ⟨p.flatMap rowsOf, albumKey m, s.flatMap rowsOf, ?_, items_groups p⟩
      rw [hsplit, flatMap_append, flatMap_cons, rowsOf_album ha]
      rfl

/-! ## Maximal blocks -/

theorem explicitBlock_iff (l : List UiMessage) : ExplicitBlock l ↔
    Segment (fun x => explicit x = true)
      (fun x y => x.albumParentId = y.albumParentId ∧ sameSender x y = true) l := by
  have hequiv : Equivalence fun x y : UiMessage => x.albumParentId = y.albumParentId ∧ sameSender x y = true :=
    ⟨fun x => ⟨rfl, sameSender_equivalence.refl x⟩,
      fun h => ⟨h.1.symm, sameSender_equivalence.symm h.2⟩,
      fun h h' => ⟨h.1.trans h'.1, sameSender_equivalence.trans h.2 h'.2⟩⟩
  constructor
  · exact fun h => ⟨h.1, (isChain_iff_forall_mem hequiv).2 h.2⟩
  · exact fun h => ⟨h.all, (isChain_iff_forall_mem hequiv).1 h.chain⟩

theorem inferredBlock_iff (l : List UiMessage) : InferredBlock l ↔
    Segment (fun x => inferred x = true)
      (fun x y => sameSender x y = true ∧ y.timestamp - x.timestamp ≤ MAX_GAP_SECS) l := by
  constructor
  · rintro ⟨hall, hsame, hgap⟩
    exact ⟨hall, hgap.imp_of_mem_imp fun x y hx hy h => ⟨hsame x hx y hy, h⟩⟩
  · rintro ⟨hall, hchain⟩
    exact ⟨hall, (isChain_iff_forall_mem sameSender_equivalence).1 (hchain.imp fun _ _ h => h.1),
      hchain.imp fun _ _ h => h.2⟩

theorem maximal_explicit_iff (hb : b ≠ []) : MaximalIn ExplicitBlock a b c ↔
    (∀ x ∈ b, explicit x = true) ∧ ∃ p s, (a ++ b ++ c).splitBy linked = p ++ b :: s ∧ p.flatten = a := by
  rw [MaximalIn.congr explicitBlock_iff]
  refine maximalIn_segment_iff (fun x y hx hy => ?_) (fun x y h => explicit_iff h) hb
  rw [linked_explicit hx, hy, eq_self, true_and]

theorem maximal_inferred_iff (hb : b ≠ []) : MaximalIn InferredBlock a b c ↔
    (∀ x ∈ b, inferred x = true) ∧ ∃ p s, (a ++ b ++ c).splitBy linked = p ++ b :: s ∧ p.flatten = a := by
  rw [MaximalIn.congr inferredBlock_iff]
  refine maximalIn_segment_iff (fun x y hx hy => ?_) (fun x y h => inferred_iff h) hb
  rw [linked_inferred hx, hy, eq_self, true_and]

/-- The kind of its first item is the kind of the whole group. -/
theorem forall_mem_group {P : UiMessage → Prop} {p s : List (List UiMessage)}
    (hP : ∀ x y, linked x y = true → (P x ↔ P y)) (h : list.splitBy linked = p ++ (m :: items) :: s) (hm : P m) :
    ∀ x ∈ m :: items, P x := by
  have hrun : (m :: items).IsChain fun x y => linked x y := isChain_of_mem_splitBy (by rw [h]; simp)
  exact hrun.induction P _ (fun x y hxy hx => (hP x y hxy).1 hx) fun _ => hm

/-- The groups that are shown as albums are the blocks that are to be shown so. -/
theorem albumBlock_iff : AlbumBlock a b c ↔
    isAlbum b = true ∧ ∃ p s, (a ++ b ++ c).splitBy linked = p ++ b :: s ∧ p.flatten = a := by
  cases b with
  | nil =>
    refine iff_of_false ?_ fun h => (nomatch h.1)
    rintro (⟨h, -⟩ | ⟨h, -⟩) <;> cases h
  | cons m items =>
    have hne : m :: items ≠ [] := cons_ne_nil m items
    rw [AlbumBlock, maximal_explicit_iff hne, maximal_inferred_iff hne]
    constructor
    · rintro (⟨hlen, hall, hgroup⟩ | ⟨hlen, hall, hgroup⟩)
      · refine ⟨?_, hgroup⟩
        rw [isAlbum_of_explicit (hall m mem_cons_self)]
        exact decide_eq_true hlen
      · refine ⟨?_, hgroup⟩
        rw [isAlbum_of_inferred (hall m mem_cons_self)]
        exact decide_eq_true hlen
    · rintro ⟨halbum, p, s, hsplit, hp⟩
      simp only [isAlbum, head?_cons, Option.any_some, Bool.or_eq_true, Bool.and_eq_true,
        decide_eq_true_eq] at halbum
      rcases halbum with ⟨hm, hlen⟩ | ⟨hm, hlen⟩
      · exact .inl ⟨hlen, forall_mem_group (fun x y => explicit_iff) hsplit hm, p, s, hsplit, hp⟩
      · exact .inr ⟨hlen, forall_mem_group (fun x y => inferred_iff) hsplit hm, p, s, hsplit, hp⟩

/-- The album rows are the blocks that are to be shown as albums. -/
theorem album_row_iff_block (h : list = a ++ b ++ c) :
    (∃ r₁ k r₂, groupAlbums list = r₁ ++ .album k b :: r₂ ∧ r₁.flatMap Row.items = a) ↔ AlbumBlock a b c := by
  rw [album_row_iff, albumBlock_iff, h]

/-- Every other message has a row of its own. -/
theorem msg_row_iff (h : list = a ++ m :: c) :
    (∃ r₁ r₂, groupAlbums list = r₁ ++ .msg m.id m :: r₂ ∧ r₁.flatMap Row.items = a) ↔
      ¬ ∃ a' b c', list = a' ++ b ++ c' ∧ AlbumBlock a' b c' ∧ a'.length ≤ a.length ∧
        a.length < a'.length + b.length := by
  constructor
  · rintro ⟨r₁, r₂, hrows, rfl⟩ ⟨a', b, c', hlist, hblock, hle, hlt⟩
    obtain ⟨r₁', k, r₂', hrows', rfl⟩ := (album_row_iff_block hlist).2 hblock
    have heq := (flatMap_part_unique (hrows.symm.trans hrows')
      ⟨le_refl _, Nat.lt_succ_self _⟩ ⟨hle, hlt⟩).2
    cases heq
  · intro hnone
    obtain ⟨r₁, r, r₂, u, v, hrows, hr, hu⟩ := exists_of_flatMap_eq ((items_groupAlbums list).trans h)
    rcases row_cases (r := r) (by rw [hrows]; simp) with ⟨x, rfl⟩ | ⟨x, items, rfl⟩
    · have hone : u = [] ∧ x = m := by
        cases u with
        | nil => exact ⟨rfl, (List.cons.inj hr).1⟩
        | cons => simp [Row.items] at hr
      obtain ⟨rfl, rfl⟩ := hone
      exact ⟨r₁, r₂, hrows, by rwa [append_nil] at hu⟩
    · -- the row is an album that covers the message
      refine absurd ⟨r₁.flatMap Row.items, x :: items, r₂.flatMap Row.items, ?_, ?_, ?_, ?_⟩ hnone
      · rw [← items_groupAlbums list, hrows]
        simp [Row.items]
      · refine (album_row_iff_block ?_).1 ⟨r₁, albumKey x, r₂, hrows, rfl⟩
        rw [← items_groupAlbums list, hrows]
        simp [Row.items]
      · rw [← hu, length_append]
        exact Nat.le_add_right _ _
      · have hlen := congrArg List.length hr
        simp only [Row.items, length_append, length_cons] at hlen ⊢
        rw [← hu, length_append]
        omega

/-! ## Keys -/

/-- `id.startsWith("album:")`. -/
def albumLike (id : MsgId) : Bool := "album:".toList.isPrefixOf id.toList

theorem albumLike_albumKey (m : UiMessage) : albumLike (albumKey m) = true := by
  simp [albumLike, albumKey]

theorem albumKey_injective (h : albumKey x = albumKey y) : x.id = y.id := by
  simpa [albumKey] using h

theorem nodup_keys (hid : (list.map (·.id)).Nodup) (hkey : ∀ m ∈ list, albumLike m.id = false) :
    ((groupAlbums list).map Row.key).Nodup := by
  have hpair : (groupAlbums list).Pairwise fun r r' => ∀ x ∈ r.items, ∀ y ∈ r'.items, x.id ≠ y.id := by
    rw [← items_groupAlbums list, map_flatMap, nodup_flatMap] at hid
    refine hid.2.imp fun h x hx y hy heq => ?_
    exact h (mem_map_of_mem hx) (heq ▸ mem_map_of_mem hy)
  have hplain : ∀ r ∈ groupAlbums list, ∀ x ∈ r.items, albumLike x.id = false := by
    intro r hr x hx
    refine hkey x ?_
    rw [← items_groupAlbums list]
    exact mem_flatMap.2 ⟨r, hr, hx⟩
  refine pairwise_map.2 (hpair.imp_of_mem fun {r r'} hr hr' hne heq => ?_)
  rcases row_cases hr with ⟨x, rfl⟩ | ⟨x, items, rfl⟩ <;> rcases row_cases hr' with ⟨y, rfl⟩ | ⟨y, items', rfl⟩
  · exact hne x (by simp [Row.items]) y (by simp [Row.items]) heq
  · have hx := hplain _ hr x (by simp [Row.items])
    rw [show x.id = albumKey y from heq, albumLike_albumKey] at hx
    cases hx
  · have hy := hplain _ hr' y (by simp [Row.items])
    rw [← show albumKey x = y.id from heq, albumLike_albumKey] at hy
    cases hy
  · exact hne x (by simp [Row.items]) y (by simp [Row.items]) (albumKey_injective heq)

/-- **Album grouping is a lossless partition into maximal runs.** -/
theorem albums_partition (list : List UiMessage) (hid : (list.map (·.id)).Nodup) :
    (groupAlbums list).flatMap Row.items = list ∧
    (∀ a b c, list = a ++ b ++ c →
      ((∃ r₁ k r₂, groupAlbums list = r₁ ++ .album k b :: r₂ ∧ r₁.flatMap Row.items = a) ↔
        AlbumBlock a b c)) ∧
    (∀ a m c, list = a ++ m :: c →
      ((∃ r₁ r₂, groupAlbums list = r₁ ++ .msg m.id m :: r₂ ∧ r₁.flatMap Row.items = a) ↔
        ¬ ∃ a' b c', list = a' ++ b ++ c' ∧ AlbumBlock a' b c' ∧ a'.length ≤ a.length ∧
          a.length < a'.length + b.length)) ∧
    ((∀ m ∈ list, albumLike m.id = false) → ((groupAlbums list).map Row.key).Nodup) :=
  ⟨items_groupAlbums list, fun _ _ _ h => album_row_iff_block h, fun _ _ _ h => msg_row_iff h,
    nodup_keys hid⟩

/-- A photo of an album. -/
def photo (id : MsgId) : UiMessage :=
  { msgX with
    id := id, kind := .image, albumParentId := some "P"
    media := some ⟨"image", none, none, none, none, none, none, ⟨"/p", "k", "h", "e", 1, "image"⟩⟩ }

/-- Two photos with one header are one album. -/
theorem albums_partition_pair :
    ∃ r₁ k r₂, groupAlbums [photo "X", photo "Y"] = r₁ ++ .album k [photo "X", photo "Y"] :: r₂ ∧
      r₁.flatMap Row.items = [] := by
  refine ((albums_partition [photo "X", photo "Y"] (by decide)).2.1 [] _ [] rfl).2 (Or.inl ⟨le_refl 2, ?_, ?_⟩)
  · exact ⟨by decide, by decide⟩
  · intro a₁ a₂ c₁ c₂ ha hc _
    exact ⟨(List.append_eq_nil_iff.1 ha.symm).2, (List.append_eq_nil_iff.1 hc.symm).1⟩

end Whatsvelte.Albums
