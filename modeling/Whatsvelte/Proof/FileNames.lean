import Mathlib.Data.String.Basic
import Mathlib.Tactic.IntervalCases
import Whatsvelte.Spec.Downloads

/-!
# Sanitized file names

The passes of `safe_file_name` one after the other: `cleaned` has no separator, no forbidden character
and no blank around it (`sound_guarded`), and the length cut comes last. It takes the first characters
of the name, and what it leaves can end in a dot or a blank, or be a device name that was only the
beginning of the name before.

`safeFileName_iff`: **the result is a safe name if and only if the cut falls well** (`CutsWell`).
-/

namespace Whatsvelte.Media

open List

variable {name : String} {out d e l : Name} {c : Char}

/-- The reserved device names. -/
def deviceNames : List Name :=
  ["CON".toList, "PRN".toList, "AUX".toList, "NUL".toList] ++
    "0123456789".toList.flatMap fun c => ["COM".toList ++ [c], "LPT".toList ++ [c]]

/-- No separator, no forbidden character and no control character. -/
def Plain (c : Char) : Prop := c ∉ '/' :: '\\' :: forbidden ∧ isControl c = false

/-- A name that is safe on every platform. -/
structure SafeName (out : Name) : Prop where
  ne_nil : out ≠ []
  length_le : out.length ≤ 180
  plain : ∀ c ∈ out, Plain c
  start : ∀ c ∈ out.head?, isWhitespace c = false
  last : ∀ c ∈ out.getLast?, c ≠ '.' ∧ c ≠ ' '
  ne_dot : out ≠ ".".toList
  ne_dots : out ≠ "..".toList
  device : stemOf out ∉ deviceNames

/-- Where the length cut of a cleaned name falls: the name is short, or what is kept of it does not
end in a dot or a blank and is no device name. -/
def CutsWell (d : Name) : Prop :=
  d.length ≤ 180 ∨
    (keptExt d = [] → ∀ c ∈ d[179]?, c ≠ '.' ∧ c ≠ ' ') ∧
      (trim (d.take (180 - (keptExt d).length))).map Char.toUpper ∉ deviceNames

/-! ## The ends of a name -/

theorem head?_dropWhile {p : Char → Bool} (h : c ∈ (l.dropWhile p).head?) : p c = false := by
  have := head?_dropWhile_not p l
  rw [Option.mem_def.1 h] at this
  simpa using this

theorem head?_of_prefix {l' : Name} (h : l' <+: l) (hne : l' ≠ []) : l.head? = l'.head? := by
  obtain ⟨t, rfl⟩ := h
  cases l' with
  | nil => exact absurd rfl hne
  | cons => rfl

theorem trim_end_prefix (p : Char → Bool) (l : Name) : (l.reverse.dropWhile p).reverse <+: l := by
  rw [← reverse_suffix, reverse_reverse]
  exact dropWhile_suffix p

theorem trim_prefix_dropWhile (l : Name) : trim l <+: l.dropWhile isWhitespace := trim_end_prefix _ _

theorem mem_of_mem_trim (h : c ∈ trim l) : c ∈ l :=
  (dropWhile_sublist _).subset ((trim_prefix_dropWhile l).subset h)

theorem trimDots_prefix_self (l : Name) : trimDots l <+: l := trim_end_prefix _ _

theorem getLast?_trimDots (h : c ∈ (trimDots l).getLast?) : c ≠ '.' ∧ c ≠ ' ' := by
  rw [trimDots, getLast?_reverse] at h
  simpa using head?_dropWhile h

/-- A list that starts with no blank keeps its start. -/
theorem trim_cons (h : isWhitespace c = false) (l : Name) : ∃ t, trim (c :: l) = c :: t := by
  have hdrop : (c :: l).dropWhile isWhitespace = c :: l := by rw [dropWhile_cons, h]; rfl
  have hne : trim (c :: l) ≠ [] := by
    intro hnil
    rw [trim, hdrop, reverse_eq_nil_iff, dropWhile_eq_nil_iff] at hnil
    have := hnil c (by simp)
    rw [h] at this
    cases this
  obtain ⟨a, t, ht⟩ := exists_cons_of_ne_nil hne
  have hhead := head?_of_prefix (trim_prefix_dropWhile (c :: l)) hne
  rw [hdrop, ht] at hhead
  obtain rfl : c = a := Option.some.inj hhead
  exact ⟨t, ht⟩

/-! ## Device names -/

theorem mem_digits (h : c.isDigit = true) : c ∈ "0123456789".toList := by
  have hn : 48 ≤ c.toNat ∧ c.toNat ≤ 57 := by
    simp only [Char.isDigit, Bool.and_eq_true, decide_eq_true_eq, ge_iff_le] at h
    exact ⟨UInt32.le_iff_toNat_le.1 h.1, UInt32.le_iff_toNat_le.1 h.2⟩
  obtain ⟨h1, h2⟩ := hn
  have hc : c = Char.ofNat c.toNat := (Char.ofNat_toNat c).symm
  generalize c.toNat = n at h1 h2 hc
  subst hc
  interval_cases n <;> decide

theorem isReserved_iff (stem : Name) : isReserved stem = true ↔ stem ∈ deviceNames := by
  constructor
  · intro h
    simp only [isReserved, Bool.or_eq_true, Bool.and_eq_true, decide_eq_true_eq] at h
    rcases h with (((h | h) | h) | h) | ⟨⟨h, hlen⟩, hdigit⟩
    · subst h; decide
    · subst h; decide
    · subst h; decide
    · subst h; decide
    · rcases h with h | h
      all_goals
        obtain ⟨t, rfl⟩ := isPrefixOf_iff_prefix.1 h
        obtain ⟨c, rfl⟩ := length_eq_one_iff.1 (show t.length = 1 by simpa using hlen)
        refine mem_append_right _ (mem_flatMap.2 ⟨c, mem_digits (by simpa using hdigit), ?_⟩)
        simp
  · have hall : ∀ stem ∈ deviceNames, isReserved stem = true := by decide +kernel
    exact hall stem

theorem deviceNames_plain : ∀ stem ∈ deviceNames, ('.' ∉ stem) ∧ '_' ∉ stem := by decide +kernel

/-! ## The name before the cut -/

/-- What the passes before the length cut establish. -/
structure Sound (d : Name) : Prop where
  ne_nil : d ≠ []
  plain : ∀ c ∈ d, Plain c
  start : ∀ c ∈ d.head?, isWhitespace c = false
  last : ∀ c ∈ d.getLast?, c ≠ '.' ∧ c ≠ ' '
  device : stemOf d ∉ deviceNames

theorem plain_safeChar (h : c ≠ '/' ∧ c ≠ '\\') : Plain (safeChar c) := by
  have hunderscore : Plain '_' := ⟨by decide, by decide⟩
  unfold safeChar
  split
  · exact hunderscore
  · rename_i hf
    split
    · exact hunderscore
    · rename_i hc
      exact ⟨by simp [h.1, h.2, hf], by simpa using hc⟩

theorem mem_lastPart {l : Name} (h : c ∈ lastPart l) : c ≠ '/' ∧ c ≠ '\\' := by
  have := mem_takeWhile_imp (mem_reverse.1 h)
  simpa using this

theorem plain_cleaned (l : Name) : ∀ c ∈ cleaned l, Plain c := by
  intro c hc
  obtain ⟨a, ha, rfl⟩ := mem_map.1 (mem_of_mem_trim ((trimDots_prefix_self _).subset hc))
  exact plain_safeChar (mem_lastPart ha)

theorem start_cleaned (l : Name) : ∀ c ∈ (cleaned l).head?, isWhitespace c = false := by
  intro c hc
  have hne : cleaned l ≠ [] := fun h => by rw [h] at hc; cases hc
  have htrim : trim ((lastPart l).map safeChar) ≠ [] := by
    intro h
    rw [cleaned, h] at hne
    exact hne rfl
  rw [cleaned, ← head?_of_prefix (trimDots_prefix_self _) hne,
    ← head?_of_prefix (trim_prefix_dropWhile _) htrim] at hc
  exact head?_dropWhile hc

theorem stemOf_underscore (d : Name) : stemOf ('_' :: d) ∉ deviceNames := by
  intro h
  have htake : ('_' :: d).takeWhile (· ≠ '.') = '_' :: d.takeWhile (· ≠ '.') := rfl
  obtain ⟨t, ht⟩ := trim_cons (c := '_') (by decide) (d.takeWhile (· ≠ '.'))
  have hmem : '_' ∈ stemOf ('_' :: d) := by
    rw [stemOf, htake, ht]
    exact mem_cons_self
  exact (deviceNames_plain _ h).2 hmem

theorem sound_guarded (h : safeFileName name = some out) :
    Sound (guarded (cleaned name.toList)) ∧ out = shorten (guarded (cleaned name.toList)) := by
  unfold safeFileName at h
  dsimp only at h
  split at h
  · cases h
  · rename_i hne
    refine ⟨?_, (Option.some.inj h).symm⟩
    have hnil : cleaned name.toList ≠ [] := fun h => hne (.inl h)
    have hlast : ∀ c ∈ (cleaned name.toList).getLast?, c ≠ '.' ∧ c ≠ ' ' := fun c => getLast?_trimDots
    unfold guarded
    split
    · refine ⟨cons_ne_nil _ _, forall_mem_cons.2 ⟨⟨by decide, by decide⟩, plain_cleaned _⟩, ?_, ?_,
        stemOf_underscore _⟩
      · intro c hc
        cases hc
        decide
      · intro c hc
        rw [getLast?_cons_of_ne_nil hnil] at hc
        exact hlast c hc
    · rename_i hdev
      exact ⟨hnil, plain_cleaned _, start_cleaned _, hlast, fun h => hdev ((isReserved_iff _).2 h)⟩

theorem Sound.safe (h : Sound d) (hlen : d.length ≤ 180) : SafeName d := by
  refine ⟨h.ne_nil, hlen, h.plain, h.start, h.last, ?_, ?_, h.device⟩
  · rintro rfl
    exact (h.last '.' rfl).1 rfl
  · rintro rfl
    exact (h.last '.' rfl).1 rfl

/-! ## The cut -/

theorem length_le_utf8ByteSize (l : Name) : l.length ≤ (String.ofList l).utf8ByteSize := by
  rw [String.utf8ByteSize_ofList]
  induction l with
  | nil => exact Nat.zero_le _
  | cons c =>
    rw [String.utf8Len_cons, length_cons]
    have := c.utf8Size_pos
    omega

/-- The extension that is kept is the end of the name. -/
theorem keptExt_cases (h : Sound d) :
    keptExt d = [] ∨ ∃ x e, d = x ++ '.' :: e ∧ e ≠ [] ∧ keptExt d = '.' :: e ∧ e.length ≤ 10 := by
  unfold keptExt extension
  split
  · rename_i e he
    split at he
    · cases he
    · split at he
      · rename_i x y hsplit
        split at he
        · cases he
        · cases he
          split
          · rename_i hsize
            have hd := rsplitOnce_eq_some hsplit
            refine .inr ⟨x, e, hd, ?_, rfl, ?_⟩
            · rintro rfl
              exact (h.last '.' (by rw [hd]; simp)).1 rfl
            · have := (length_le_utf8ByteSize _).trans hsize
              rw [length_cons] at this
              omega
          · exact .inl rfl
      · cases he
  · exact .inl rfl

theorem mem_dropWhile {p : Char → Bool} (h : c ∈ l) (hp : p c = false) : c ∈ l.dropWhile p := by
  rw [← takeWhile_append_dropWhile (p := p) (l := l), mem_append] at h
  rcases h with h | h
  · have := mem_takeWhile_imp h
    rw [hp] at this
    cases this
  · exact h

theorem mem_trim_of_mem (h : c ∈ l) (hc : isWhitespace c = false) : c ∈ trim l := by
  rw [trim, mem_reverse]
  exact mem_dropWhile (mem_reverse.2 (mem_dropWhile h hc)) hc

theorem takeWhile_append_of_mem {a b : Name} (h : '.' ∈ a) :
    (a ++ b).takeWhile (· ≠ '.') = a.takeWhile (· ≠ '.') := by
  rw [takeWhile_append, if_neg]
  intro hlen
  have hself := (List.takeWhile_prefix (fun c => decide (c ≠ '.'))).eq_of_length hlen
  rw [← hself] at h
  simpa using mem_takeWhile_imp h

/-- The stem of a name that was cut: if the cut is before the first dot, it is all that is kept. -/
theorem stemOf_cut {x : Name} (hd : stemOf (x ++ l) ∉ deviceNames) (he : e = [] ∨ ∃ t, e = '.' :: t) :
    stemOf (x ++ e) ∉ deviceNames ↔ (trim x).map Char.toUpper ∉ deviceNames := by
  by_cases hdot : '.' ∈ x
  · have hstem : stemOf (x ++ e) = stemOf (x ++ l) := by
      rw [stemOf, stemOf, takeWhile_append_of_mem hdot, takeWhile_append_of_mem hdot]
    refine iff_of_true (hstem ▸ hd) fun h => (deviceNames_plain _ h).1 ?_
    exact mem_map.2 ⟨'.', mem_trim_of_mem hdot (by decide), by decide⟩
  · have hall : ∀ c ∈ x, decide (c ≠ '.') = true := by
      intro c hc
      refine decide_eq_true ?_
      rintro rfl
      exact hdot hc
    have htake : (x ++ e).takeWhile (· ≠ '.') = x := by
      rw [takeWhile_append_of_pos hall]
      rcases he with rfl | ⟨t, rfl⟩ <;> simp
    rw [stemOf, htake]

theorem length_keptExt (h : Sound d) : (keptExt d).length ≤ 11 := by
  rcases keptExt_cases h with he | ⟨x, e, -, -, he, hlen⟩ <;> rw [he]
  · exact Nat.zero_le _
  · exact Nat.succ_le_succ hlen

/-- The cut takes nothing in. -/
theorem shorten_subset (h : Sound d) : ∀ c ∈ shorten d, c ∈ d := by
  intro c hc
  unfold shorten at hc
  split at hc
  · rcases mem_append.1 hc with hc | hc
    · exact mem_of_mem_take hc
    · rcases keptExt_cases h with he | ⟨x, e, hx, -, he, -⟩ <;> rw [he] at hc
      · cases hc
      · rw [hx]
        exact mem_append_right _ hc
  · exact hc

theorem length_shorten (h : Sound d) (hlen : 180 < d.length) : (shorten d).length = 180 := by
  have hext := length_keptExt h
  rw [shorten, if_pos hlen, length_append, length_take]
  omega

theorem shorten_safe_iff (h : Sound d) (hlen : 180 < d.length) : SafeName (shorten d) ↔
    (keptExt d = [] → ∀ c ∈ d[179]?, c ≠ '.' ∧ c ≠ ' ') ∧
      (trim (d.take (180 - (keptExt d).length))).map Char.toUpper ∉ deviceNames := by
  have hcut : shorten d = d.take (180 - (keptExt d).length) ++ keptExt d := if_pos hlen
  have hcases := keptExt_cases h
  have hdrop : stemOf (d.take (180 - (keptExt d).length) ++ d.drop (180 - (keptExt d).length)) ∉ deviceNames := by
    rw [take_append_drop]
    exact h.device
  have hshape : keptExt d = [] ∨ ∃ t, keptExt d = '.' :: t := hcases.imp_right fun ⟨_, e, _, _, he, _⟩ => ⟨e, he⟩
  have hext := length_keptExt h
  have htotal := length_shorten h hlen
  -- all but the end and the stem is as it was before the cut
  have hsafe : SafeName (shorten d) ↔ (∀ c ∈ (shorten d).getLast?, c ≠ '.' ∧ c ≠ ' ') ∧
      stemOf (shorten d) ∉ deviceNames := by
    refine ⟨fun hs => ⟨hs.last, hs.device⟩, fun ⟨hl, hd⟩ => ⟨?_, htotal.le, ?_, ?_, hl, ?_, ?_, hd⟩⟩
    · rw [← length_pos_iff, htotal]
      decide
    · exact fun c hc => h.plain c (shorten_subset h c hc)
    · obtain ⟨a, t, rfl⟩ := exists_cons_of_ne_nil h.ne_nil
      obtain ⟨k, hk⟩ : ∃ k, 180 - (keptExt (a :: t)).length = k + 1 := ⟨179 - (keptExt (a :: t)).length, by omega⟩
      rw [hcut, hk, take_succ_cons]
      exact h.start
    · intro hdot
      rw [hdot] at htotal
      revert htotal
      decide
    · intro hdots
      rw [hdots] at htotal
      revert htotal
      decide
  rw [hsafe, hcut, stemOf_cut hdrop hshape]
  refine and_congr_left fun _ => ?_
  rcases hcases with he | ⟨x, e, hx, hne, he, -⟩
  · rw [he, append_nil, length_nil, Nat.sub_zero, getLast?_take, if_neg (by decide)]
    have hsome : d[179]?.isSome = true := by simp; omega
    obtain ⟨a, ha⟩ := Option.isSome_iff_exists.1 hsome
    rw [show 180 - 1 = 179 from rfl, ha]
    simp
  · have hlast : (d.take (180 - (keptExt d).length) ++ keptExt d).getLast? = d.getLast? := by
      rw [he, hx, getLast?_append, getLast?_append, getLast?_cons_of_ne_nil hne]
      obtain ⟨a, ha⟩ : ∃ a, e.getLast? = some a := ⟨_, getLast?_eq_some_getLast hne⟩
      rw [ha]
      rfl
    rw [hlast, he]
    exact iff_of_true h.last fun hnil => (nomatch hnil)

/-- **A sanitized name is safe if and only if the length cut falls well.** -/
theorem safeFileName_iff (name : String) (out : Name) (h : safeFileName name = some out) :
    SafeName out ↔ CutsWell (guarded (cleaned name.toList)) := by
  obtain ⟨hsound, hout⟩ := sound_guarded h
  rw [hout]
  generalize guarded (cleaned name.toList) = d at hsound
  by_cases hlen : d.length ≤ 180
  · rw [shorten, if_neg (not_lt.2 hlen)]
    exact iff_of_true (hsound.safe hlen) (Or.inl hlen)
  · rw [shorten_safe_iff hsound (not_le.1 hlen)]
    exact (or_iff_right hlen).symm

/-- A plain name stays as it is. -/
theorem safeFileName_iff_report :
    safeFileName "../../report.pdf" = some "report.pdf".toList ∧ SafeName "report.pdf".toList := by
  have h : safeFileName "../../report.pdf" = some "report.pdf".toList := by decide +kernel
  exact ⟨h, (safeFileName_iff _ _ h).2 (Or.inl (by decide +kernel))⟩

/-- The cut leaves a blank at the end, and another name is cut down to a device name. -/
theorem cut_name_unsafe :
    (∃ out, safeFileName (String.ofList (List.replicate 179 'a' ++ " bbbbbbbbbb".toList)) = some out ∧
      ¬ SafeName out) ∧
    ∃ out, safeFileName (String.ofList ("CON".toList ++ List.replicate 180 ' ' ++ "x.pdf".toList)) = some out ∧
      ¬ SafeName out := by
  refine ⟨⟨List.replicate 179 'a' ++ [' '], ?_, fun h => ?_⟩,
    ⟨"CON".toList ++ List.replicate 173 ' ' ++ ".pdf".toList, ?_, fun h => ?_⟩⟩
  · rw [safeFileName, String.toList_ofList]
    decide +kernel
  · exact (h.last ' ' (by decide +kernel)).2 rfl
  · rw [safeFileName, String.toList_ofList]
    decide +kernel
  · exact h.device (by decide +kernel)

end Whatsvelte.Media
