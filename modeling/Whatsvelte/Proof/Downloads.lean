import Mathlib.Order.Interval.Finset.Nat
import Mathlib.Tactic.FinCases
import Whatsvelte.Proof.FileNames
import Whatsvelte.Proof.Media

/-!
# Saving to Downloads

Every name that `save_media_to_downloads` tries is one component without a drive (`Component`), so that
joining it to the folder leads to a direct child of it. The numbered names are pairwise distinct, and
fewer files than there are numbers leave one of them free.

`saves_stay_apart`: **any number of saves makes new files, and leaves every file that was there
alone**, as long as the folder has room for them below `2 ^ 31`. `crowded_folder_never_saves`: the
counter is an `i32`, and in a folder with all numbered names the loop does not end.
-/

namespace Whatsvelte.Media

open List Table

variable {pl : Platform} {s base name : Name} {downloads : Path} {d d' : Folder} {c : Char} {checked : Bool}

/-! ## Components -/

/-- A name that is one component of a path, and leads nowhere else. -/
structure Component (s : Name) : Prop where
  ne_nil : s ≠ []
  ne_dot : s ≠ ".".toList
  ne_dots : s ≠ "..".toList
  slash : '/' ∉ s
  backslash : '\\' ∉ s
  colon : ':' ∉ s

theorem Component.notSep (h : Component s) (pl : Platform) : ∀ c ∈ s, pl.isSep c = false := by
  intro c hc
  have hs : c ≠ '/' := by rintro rfl; exact h.slash hc
  have hb : c ≠ '\\' := by rintro rfl; exact h.backslash hc
  cases pl <;> simp [Platform.isSep, hs, hb]

theorem Component.drive (h : Component s) (pl : Platform) : Media.drive pl s = none := by
  cases pl with
  | unix => rfl
  | windows =>
    unfold Media.drive
    split
    · exact absurd (by simp) h.colon
    · rfl

/-- A component is joined as one. -/
theorem Component.join (h : Component s) (pl : Platform) (dir : Path) : Media.join pl dir s = dir ++ [s] := by
  have hsep := h.notSep pl
  have hhead : s.head?.any pl.isSep = false := by
    cases s with
    | nil => rfl
    | cons c => exact hsep c mem_cons_self
  have hcomp : components pl s = [s] := by
    rw [components, splitOnP_eq_singleton hsep]
    simp [h.ne_nil, show s ≠ ['.'] from h.ne_dot]
  rw [Media.join, h.drive pl, hcomp]
  simp [hhead]

theorem component_of_subset {t : Name} (h : ∀ c ∈ s, c ∈ t ∨ c ∈ "0123456789-(). ".toList) (ht : Component t)
    (hopen : '(' ∈ s) : Component s := by
  have hfixed : ∀ c ∈ ['/', '\\', ':'], c ∉ "0123456789-(). ".toList := by simp
  have hnot : ∀ c ∈ ['/', '\\', ':'], c ∉ t → c ∉ s := fun c hc hct hcs =>
    (h c hcs).elim hct (hfixed c hc)
  refine ⟨ne_nil_of_mem hopen, ?_, ?_, hnot _ (by simp) ht.slash, hnot _ (by simp) ht.backslash,
    hnot _ (by simp) ht.colon⟩
  · rintro rfl
    revert hopen
    decide
  · rintro rfl
    revert hopen
    decide

theorem component_of_plain (hne : s ≠ []) (hp : ∀ c ∈ s, Plain c) (hdot : s ≠ ".".toList) (hdots : s ≠ "..".toList) :
    Component s := by
  refine ⟨hne, hdot, hdots, fun h => ?_, fun h => ?_, fun h => ?_⟩ <;> exact (hp _ h).1 (by decide)

/-! ## The names that are tried -/

theorem component_safeFileName {name : String} {out : Name} (h : safeFileName name = some out) : Component out := by
  obtain ⟨hsound, hout⟩ := sound_guarded h
  rw [hout]
  generalize guarded (cleaned name.toList) = d at hsound
  by_cases hlen : 180 < d.length
  · have htotal := length_shorten hsound hlen
    refine component_of_plain ?_ (fun c hc => hsound.plain c (shorten_subset hsound c hc)) ?_ ?_
    · rw [← length_pos_iff, htotal]
      decide
    · intro h
      rw [h] at htotal
      revert htotal
      decide
    · intro h
      rw [h] at htotal
      revert htotal
      decide
  · rw [shorten, if_neg hlen]
    have hsafe := hsound.safe (not_lt.1 hlen)
    exact component_of_plain hsafe.ne_nil hsafe.plain hsafe.ne_dot hsafe.ne_dots

theorem component_base (r : SaveRequest) : Component r.base := by
  unfold SaveRequest.base
  cases hname : r.filename.bind safeFileName with
  | some =>
    obtain ⟨name, -, h⟩ := Option.bind_eq_some_iff.1 hname
    exact component_safeFileName h
  | none =>
    -- the digest and an extension: neither alphabet has a separator, and the extension is not a dot
    obtain ⟨hne, hall⟩ := extFor_alphanum r.mimetype r.mediaType r.filename
    generalize (extFor r.mimetype r.mediaType r.filename).toList = ext at hne hall
    obtain ⟨a, t, rfl⟩ := exists_cons_of_ne_nil hne
    have hmem : a ∈ base64Url r.fileSha256 ++ '.' :: a :: t := by simp
    have ha := hall a mem_cons_self
    have hfixed : ∀ c ∈ ['/', '\\', ':'], c ∉ base64Alphabet ∧ c ≠ '.' ∧ ¬ c.isAlphanum = true := by
      intro c hc
      fin_cases hc <;> exact ⟨by decide +kernel, by decide, by decide⟩
    have hnot : ∀ c ∈ ['/', '\\', ':'], c ∉ base64Url r.fileSha256 ++ '.' :: a :: t := by
      intro c hc h
      obtain ⟨halphabet, hdot, halnum⟩ := hfixed c hc
      rcases mem_append.1 h with h | h
      · exact halphabet (mem_base64Alphabet h)
      · rcases mem_cons.1 h with h | h
        · exact hdot h
        · exact halnum (hall c h)
    refine ⟨ne_nil_of_mem hmem, ?_, ?_, hnot _ (by simp), hnot _ (by simp), hnot _ (by simp)⟩
    · intro h
      dsimp only [Option.getD_none] at h
      rw [h] at hmem
      obtain rfl : a = '.' := by simpa using hmem
      revert ha
      decide
    · intro h
      dsimp only [Option.getD_none] at h
      rw [h] at hmem
      obtain rfl : a = '.' := by simpa using hmem
      revert ha
      decide

/-- Stem and suffix make up the name. -/
theorem fileStem_extension (base : Name) : fileStem base ++ (extension base).elim [] ('.' :: ·) = base := by
  unfold fileStem extension
  split
  · simp
  · cases h : rsplitOnce '.' base with
    | none => simp
    | some =>
      dsimp only
      split
      · simp
      · exact (rsplitOnce_eq_some h).symm

theorem mem_repr {n : ℤ} (h : c ∈ n.repr.toList) : c ∈ "0123456789-(). ".toList := by
  have hdigits : ∀ c ∈ "0123456789".toList, c ∈ "0123456789-(). ".toList := by simp
  have hminus : ∀ c ∈ "-".toList, c ∈ "0123456789-(). ".toList := by simp
  have hnat : ∀ m : ℕ, c ∈ m.repr.toList → c ∈ "0123456789-(). ".toList := by
    intro m hm
    rw [Nat.repr, String.toList_ofList] at hm
    exact hdigits c (mem_digits (Nat.isDigit_of_mem_toDigits (by decide) (by decide) hm))
  cases n with
  | ofNat m => exact hnat m h
  | negSucc =>
    rw [Int.repr, String.toList_append] at h
    rcases mem_append.1 h with h | h
    · exact hminus c h
    · exact hnat _ h

theorem component_numbered (h : Component base) (n : ℤ) : Component (numbered base n) := by
  have hbase := fileStem_extension base
  refine component_of_subset (fun c hc => ?_) h (by simp [numbered])
  have hleft : ∀ c ∈ " (".toList, c ∈ "0123456789-(). ".toList := by simp
  have hright : ∀ c ∈ ")".toList, c ∈ "0123456789-(). ".toList := by simp
  rw [← hbase]
  simp only [numbered, mem_append] at hc ⊢
  rcases hc with (((hc | hc) | hc) | hc) | hc
  · exact .inl (.inl hc)
  · exact .inr (hleft c hc)
  · exact .inr (mem_repr hc)
  · exact .inr (hright c hc)
  · exact .inl (.inr hc)

/-- The number can be read back. -/
theorem numbered_injective {k k' : ℕ} (h : numbered base k = numbered base k') : k = k' := by
  refine repr_toList_injective ?_
  exact append_cancel_left (append_cancel_right (append_cancel_right h))

theorem numbered_ne (base : Name) (n : ℤ) : numbered base n ≠ base := by
  intro h
  have hlen := congrArg List.length h
  rw [← congrArg List.length (fileStem_extension base)] at hlen
  simp only [numbered, length_append] at hlen
  have hopen : " (".toList.length = 2 := by decide
  omega

/-! ## The search -/

/-- A free number below the overflow is found, or one before it. -/
theorem search_found (checked : Bool) {taken : ℤ → Bool} (n : ℤ) (j : ℕ) {fuel : ℕ} (hfuel : j < fuel)
    (hlt : n + j < 2 ^ 31 - 1) (hfree : taken (n + j) = false) :
    ∃ m, taken m = false ∧ search checked taken fuel n = .found m := by
  induction j generalizing n fuel with
  | zero =>
    obtain ⟨fuel, rfl⟩ : ∃ f, fuel = f + 1 := ⟨fuel - 1, by omega⟩
    refine ⟨n, by simpa using hfree, ?_⟩
    rw [search, nextNumber, if_pos (by simpa using hlt)]
    simp [show taken n = false by simpa using hfree]
  | succ j ih =>
    obtain ⟨fuel, rfl⟩ : ∃ f, fuel = f + 1 := ⟨fuel - 1, by omega⟩
    rw [search, nextNumber, if_pos (by omega)]
    cases ht : taken n with
    | false => exact ⟨n, ht, rfl⟩
    | true =>
      have hnext : n + 1 + (j : ℤ) = n + ((j + 1 : ℕ) : ℤ) := by omega
      exact ih (n + 1) (by omega) (by omega) (by rwa [hnext])

theorem existsAt_child (downloads : Path) (d : Folder) (name : Name) :
    existsAt downloads d (downloads ++ [name]) = d.has name := by
  rw [Bool.eq_iff_iff, existsAt, any_eq_true, Table.has, Option.isSome_iff_exists]
  constructor
  · rintro ⟨row, hrow, heq⟩
    obtain rfl : name = row.1 := by simpa using heq
    exact ⟨row, Table.get_of_mem hrow⟩
  · rintro ⟨row, hrow⟩
    refine ⟨row, Table.get_mem hrow, ?_⟩
    rw [show row.1 = name from get_key hrow]
    simp

/-- **Fewer files than numbers** leave a numbered name free. -/
theorem exists_free (hbase : d.has base = true) (hroom : d.rows.length ≤ 2 ^ 31 - 2) :
    ∃ k : ℕ, 1 ≤ k ∧ k ≤ 2 ^ 31 - 2 ∧ d.has (numbered base k) = false := by
  by_contra hall
  push Not at hall
  have hsub : insert base ((Finset.Icc 1 (2 ^ 31 - 2)).image fun k : ℕ => numbered base k) ⊆
      (d.rows.map Prod.fst).toFinset := by
    have hmem : ∀ n, d.has n = true → n ∈ (d.rows.map Prod.fst).toFinset := by
      intro n hn
      obtain ⟨row, hrow⟩ := Option.isSome_iff_exists.1 hn
      rw [mem_toFinset, ← get_key hrow]
      exact mem_map_of_mem (Table.get_mem hrow)
    intro n hn
    rcases Finset.mem_insert.1 hn with rfl | hn
    · exact hmem _ hbase
    · obtain ⟨k, hk, rfl⟩ := Finset.mem_image.1 hn
      rw [Finset.mem_Icc] at hk
      exact hmem _ (by simpa using hall k hk.1 hk.2)
  have hcard := Finset.card_le_card hsub
  rw [Finset.card_insert_of_notMem, Finset.card_image_of_injective _ fun _ _ => numbered_injective,
    Nat.card_Icc] at hcard
  · have hlen := (toFinset_card_le (d.rows.map Prod.fst)).trans_eq (length_map _)
    omega
  · intro h
    obtain ⟨k, -, hk⟩ := Finset.mem_image.1 h
    exact numbered_ne base k hk

/-! ## Saves -/

theorem copyTo_child (downloads : Path) (d : Folder) (payload : Bytes) (name : Name) :
    copyTo downloads d payload (downloads ++ [name]) = .saved (downloads ++ [name]) (d.set (name, payload)) := by
  have hparent : parent (downloads ++ [name]) = some downloads := by
    rw [parent, if_neg (by simp), dropLast_concat]
  rw [copyTo, hparent, if_neg (by simp)]
  simp

/-- A save in terms of the names in the folder: it is never refused. -/
theorem save_eq (pl : Platform) (checked : Bool) (downloads : Path) (fuel : ℕ) (d : Folder) (r : SaveRequest)
    (payload : Bytes) :
    save pl checked downloads fuel d r payload =
      if d.has r.base then
        match search checked (fun n => d.has (numbered r.base n)) fuel 1 with
        | .running => .running
        | .panicked => .panicked
        | .found n => .saved (downloads ++ [numbered r.base n]) (d.set (numbered r.base n, payload))
      else .saved (downloads ++ [r.base]) (d.set (r.base, payload)) := by
  have hbase := component_base r
  have htaken : (fun n => existsAt downloads d (join pl downloads (numbered r.base n))) =
      fun n => d.has (numbered r.base n) := by
    funext n
    rw [(component_numbered hbase n).join, existsAt_child]
  unfold save
  dsimp only
  rw [hbase.join, existsAt_child, copyTo_child, htaken]
  split
  · cases search checked (fun n => d.has (numbered r.base n)) fuel 1 with
    | found n =>
      dsimp only
      rw [(component_numbered hbase n).join, copyTo_child]
    | _ => rfl
  · rfl

/-- **One save**: a new file, directly in the folder. -/
theorem save_fresh (pl : Platform) (checked : Bool) (downloads : Path) (r : SaveRequest) (payload : Bytes)
    (hroom : d.rows.length ≤ 2 ^ 31 - 2) {fuel : ℕ} (hfuel : 2 ^ 31 ≤ fuel) :
    ∃ name, Component name ∧ d.get name = none ∧
      save pl checked downloads fuel d r payload = .saved (downloads ++ [name]) (d.set (name, payload)) := by
  have hbase := component_base r
  have hnone : ∀ name, d.has name = false → d.get name = none := by
    intro name h
    simpa [Table.has] using h
  rw [save_eq]
  cases hb : d.has r.base with
  | false => exact ⟨r.base, hbase, hnone _ hb, rfl⟩
  | true =>
    obtain ⟨k, hk1, hk2, hfree⟩ := exists_free hb hroom
    have hfree' : d.has (numbered r.base (1 + ((k - 1 : ℕ) : ℤ))) = false := by
      rwa [show (1 : ℤ) + ((k - 1 : ℕ) : ℤ) = k by omega]
    obtain ⟨m, hm, hfound⟩ := @search_found checked (fun n => d.has (numbered r.base n)) 1 (k - 1) fuel
      (by omega) (by omega) hfree'
    rw [if_pos rfl, hfound]
    exact ⟨_, component_numbered hbase m, hnone _ hm, rfl⟩

/-- **Saves make new files and leave the others alone**: the names are direct children of the folder,
pairwise distinct and new, each holds its payload at the end, and what was there is as it was. -/
theorem saves_stay_apart (pl : Platform) (checked : Bool) (downloads : Path) (d : Folder)
    (rs : List (SaveRequest × Bytes)) (hroom : d.rows.length + rs.length ≤ 2 ^ 31 - 1) (fuel : ℕ)
    (hfuel : 2 ^ 31 ≤ fuel) :
    ∃ names d', saveAll pl checked downloads fuel d rs = some (names.map fun n => downloads ++ [n], d') ∧
      names.Nodup ∧ (∀ n ∈ names, Component n ∧ d.get n = none) ∧
      (∀ n row, d.get n = some row → d'.get n = some row) ∧
      List.Forall₂ (fun n r => d'.get n = some (n, r.2)) names rs := by
  induction rs generalizing d with
  | nil => exact ⟨[], d, rfl, List.nodup_nil, fun _ h => (nomatch h), fun _ _ h => h, .nil⟩
  | cons r rs ih =>
    rw [List.length_cons] at hroom
    obtain ⟨name, hcomp, hnew, hsave⟩ := save_fresh pl checked downloads r.1 r.2
      (show d.rows.length ≤ 2 ^ 31 - 2 by omega) hfuel
    have hlen : (d.set (name, r.2)).rows.length = d.rows.length + 1 := Table.length_set_of_none hnew
    obtain ⟨names, d', hall, hnodup, hnames, hkept, hheld⟩ := ih (d.set (name, r.2)) (by rw [hlen]; omega)
    -- the file of this save is there when the others are made
    have hget : ∀ n, (d.set (name, r.2)).get n = if name = n then some (name, r.2) else d.get n :=
      fun n => Table.get_set d (name, r.2) n
    have hother : ∀ n ∈ names, name ≠ n ∧ d.get n = none := by
      intro n hn
      have hnone := (hnames n hn).2
      rw [hget] at hnone
      split at hnone
      · cases hnone
      · rename_i hne
        exact ⟨hne, hnone⟩
    refine ⟨name :: names, d', ?_, ?_, ?_, ?_, ?_⟩
    · rw [saveAll, hsave]
      dsimp only
      rw [hall]
      rfl
    · exact List.nodup_cons.2 ⟨fun h => (hother name h).1 rfl, hnodup⟩
    · exact List.forall_mem_cons.2 ⟨⟨hcomp, hnew⟩, fun n hn => ⟨(hnames n hn).1, (hother n hn).2⟩⟩
    · intro n row hn
      refine hkept n row ?_
      rw [hget, if_neg, hn]
      rintro rfl
      rw [hnew] at hn
      cases hn
    · refine .cons (hkept name _ ?_) hheld
      rw [hget, if_pos rfl]

/-- Two saves under one name that is there already. -/
theorem saves_stay_apart_twice :
    let d : Folder := Table.empty.set ("a.txt".toList, [0])
    let r : SaveRequest := ⟨some "a.txt", none, "document", []⟩
    ∃ (names : List Name) (d' : Folder),
      saveAll .unix false [] (2 ^ 31) d [(r, [1]), (r, [2])] = some (names.map fun n => [] ++ [n], d') ∧
      names.Nodup ∧ d'.get "a.txt".toList = some ("a.txt".toList, [0]) := by
  intro d r
  obtain ⟨names, d', hall, hnodup, -, hkept, -⟩ :=
    saves_stay_apart .unix false [] d [(r, [1]), (r, [2])] (by decide) (2 ^ 31) (le_refl _)
  exact ⟨names, d', hall, hnodup, hkept _ _ rfl⟩

/-- A folder with files of these names. -/
def folderOf (names : List Name) : Folder := names.foldl (fun d n => d.set (n, [])) .empty

theorem has_folderOf {names : List Name} (h : name ∈ names) : (folderOf names).has name = true := by
  have hmono : ∀ (l : List Name) (d : Folder), d.has name = true ∨ name ∈ l →
      (l.foldl (fun d n => d.set (n, [])) d).has name = true := by
    intro l
    induction l with
    | nil => exact fun d h => h.resolve_right not_mem_nil
    | cons n l ih =>
      intro d h
      refine ih _ ?_
      by_cases hn : n = name
      · refine .inl ?_
        rw [Table.has, get_set, if_pos hn]
        rfl
      · refine h.imp (fun h => ?_) fun h => (mem_cons.1 h).resolve_left fun h => hn h.symm
        rwa [Table.has, get_set, if_neg hn]
  exact hmono names .empty (.inr h)

/-- The values of an `i32`. -/
def counterValues : List ℤ := (List.range (2 ^ 32)).map fun k : ℕ => (k : ℤ) - 2 ^ 31

theorem mem_counterValues {n : ℤ} (h : -2 ^ 31 ≤ n ∧ n ≤ 2 ^ 31 - 1) : n ∈ counterValues := by
  refine mem_map.2 ⟨(n + 2 ^ 31).toNat, mem_range.2 ?_, ?_⟩ <;> omega

theorem search_crowded {taken : ℤ → Bool} (h : ∀ n, -2 ^ 31 ≤ n ∧ n ≤ 2 ^ 31 - 1 → taken n = true) (fuel : ℕ)
    {n : ℤ} (hn : -2 ^ 31 ≤ n ∧ n ≤ 2 ^ 31 - 1) :
    search false taken fuel n = .running ∧
      (search true taken fuel n = .running ∨ search true taken fuel n = .panicked) := by
  induction fuel generalizing n with
  | zero => exact ⟨rfl, .inl rfl⟩
  | succ fuel ih =>
    rw [search, search, nextNumber, nextNumber, h n hn]
    by_cases hlt : n < 2 ^ 31 - 1
    · rw [if_pos hlt, if_pos hlt]
      exact ih (by omega)
    · rw [if_neg hlt, if_neg hlt]
      exact ⟨(ih (by omega)).1, .inr rfl⟩

/-- With every numbered name taken, the loop does not end, or the counter overflows. -/
theorem crowded_folder_never_saves :
    let r : SaveRequest := ⟨some "a", none, "document", []⟩
    ∃ d : Folder, (∀ fuel, save .unix false [] fuel d r [] = .running) ∧
      ∀ checked fuel dest d', save .unix checked [] fuel d r [] ≠ .saved dest d' := by
  intro r
  have hbase : r.base = "a".toList := by decide +kernel
  refine ⟨folderOf ("a".toList :: counterValues.map (numbered "a".toList)), ?_⟩
  have ha : (folderOf ("a".toList :: counterValues.map (numbered "a".toList))).has "a".toList = true :=
    has_folderOf List.mem_cons_self
  have hall : ∀ n, -2 ^ 31 ≤ n ∧ n ≤ 2 ^ 31 - 1 →
      (folderOf ("a".toList :: counterValues.map (numbered "a".toList))).has (numbered "a".toList n) = true :=
    fun n hn => has_folderOf (List.mem_cons_of_mem _ (List.mem_map_of_mem (mem_counterValues hn)))
  have hcrowded := fun fuel => search_crowded hall fuel (n := 1) (by decide)
  refine ⟨fun fuel => ?_, fun checked fuel dest d' => ?_⟩ <;> rw [save_eq, hbase, ha, if_pos rfl]
  · rw [(hcrowded fuel).1]
  · cases checked with
    | false =>
      rw [(hcrowded fuel).1]
      exact fun h => (nomatch h)
    | true =>
      rcases (hcrowded fuel).2 with h | h <;> rw [h] <;> exact fun h => (nomatch h)

end Whatsvelte.Media
