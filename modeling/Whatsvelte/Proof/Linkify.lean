import Whatsvelte.Spec.Linkify

/-!
# Links in a text

The loop of `parts` keeps the end of the last match twice, in `last` and in the expression, and both are the same
index; so a round works on what follows that index (`cut_loop`). The parts are then, for each match in turn, the
text before it, the link, and what was stripped of it (`Cut`).

* **`parts_lossless`**: the parts make up the text, none is empty, and a link is a match without its trailing
  punctuation.
* **`links_point_iff`**: every link points where it says if and only if the matches with a scheme spell `http` in
  small letters.
-/

namespace Whatsvelte.Linkify

open List

variable {text raw before after : Text} {raws : List Text} {ps : List Part} {p : Part} {index n last : ℕ}

/-! ## What the parts are -/

/-- A plain part, unless the text is empty. -/
def plain (t : Text) : List Part := if t = [] then [] else [⟨t, none⟩]

/-- A match as a link, and what was stripped of it. -/
def linked (raw : Text) : List Part := ⟨strip raw, some (hrefOf (strip raw))⟩ :: plain (raw.drop (strip raw).length)

/-- The matches of `URL_RE` in a text, each behind the one before. -/
def urlMatches (text : Text) : List Text :=
  match _h : URL_RE.exec text 0 with
  | none => []
  | some (index, n) => slice text index (index + n) :: urlMatches (text.drop (index + n))
termination_by text.length
decreasing_by
  have := exec_advances _h
  rw [length_drop]
  omega

/-- A text, the matches in it, and its parts: the text before a match, the match, and so on behind it. -/
inductive Cut : Text → List Text → List Part → Prop
  | done {text : Text} (h : URL_RE.exec text 0 = none) : Cut text [] (plain text)
  | link {before raw after : Text} {raws : List Text} {ps : List Part}
      (h : URL_RE.exec (before ++ (raw ++ after)) 0 = some (before.length, raw.length)) (rest : Cut after raws ps) :
      Cut (before ++ (raw ++ after)) (raw :: raws) (plain before ++ linked raw ++ ps)

theorem slice_eq (text : Text) (index n : ℕ) : slice text index (index + n) = (text.drop index).take n := by
  rw [slice, drop_take, Nat.add_sub_cancel_left]

/-- A match splits the text. -/
theorem exists_split (h : URL_RE.exec text 0 = some (index, n)) :
    ∃ before raw after, text = before ++ (raw ++ after) ∧ before.length = index ∧ raw.length = n ∧
      before = text.take index ∧ raw = slice text index (index + n) ∧ after = text.drop (index + n) := by
  obtain ⟨-, hend, -⟩ := Regex.exec_eq_some h
  refine ⟨text.take index, slice text index (index + n), text.drop (index + n), ?_, ?_, ?_, rfl, rfl, rfl⟩
  · rw [slice_eq, ← List.drop_drop, take_append_drop, take_append_drop]
  · rw [length_take]
    omega
  · rw [slice_eq, length_take, length_drop]
    omega

theorem urlMatches_of_none (h : URL_RE.exec text 0 = none) : urlMatches text = [] := by
  rw [urlMatches]
  split
  · rfl
  · next heq => rw [h] at heq; cases heq

theorem urlMatches_of_some (h : URL_RE.exec text 0 = some (index, n)) :
    urlMatches text = slice text index (index + n) :: urlMatches (text.drop (index + n)) := by
  rw [urlMatches]
  split
  · next heq => rw [h] at heq; cases heq
  · next heq => rw [h] at heq; cases heq; rfl

theorem loop_of_none {out : List Part} (h : URL_RE.exec text n = none) : loop text out last n = (out, last) := by
  rw [loop]
  split
  · rfl
  · next heq => rw [h] at heq; cases heq

theorem loop_of_some {out : List Part} {lastIndex : ℕ} (h : URL_RE.exec text lastIndex = some (index, n)) :
    loop text out last lastIndex = loop text (out ++ pushed text last index (slice text index (index + n)))
      (index + (slice text index (index + n)).length) (index + n) := by
  rw [loop]
  split
  · next heq => rw [h] at heq; cases heq
  · next heq => rw [h] at heq; cases heq; rfl

theorem plain_eq_if (h : n = before.length) : plain before = if 0 < n then [⟨before, none⟩] else [] := by
  rw [plain]
  cases before with
  | nil => rw [h]; rfl
  | cons => rw [if_neg (cons_ne_nil _ _), if_pos (by rw [h]; exact Nat.succ_pos _)]

/-- The guards of a round are those of `plain`. -/
theorem pushed_eq (hle : last ≤ index) (hindex : index ≤ text.length) (raw : Text) :
    pushed text last index raw = plain (slice text last index) ++ linked raw := by
  have hlen : (slice text last index).length = index - last := by
    rw [slice, length_drop, length_take]
    omega
  have hstrip : (raw.drop (strip raw).length).length = raw.length - (strip raw).length := length_drop
  rw [pushed, linked, plain_eq_if hlen.symm, plain_eq_if hstrip.symm]
  simp only [gt_iff_lt, Nat.sub_pos_iff_lt]

/-- **The loop**, from any index on: `parts` adds a plain part for what follows the last match. -/
theorem cut_loop (text : Text) (out : List Part) (last : ℕ) (hlast : last ≤ text.length) :
    let r := loop text out last last
    ∃ ps, Cut (text.drop last) (urlMatches (text.drop last)) ps ∧
      (if r.2 < text.length then r.1 ++ [⟨slice text r.2 text.length, none⟩] else r.1) = out ++ ps := by
  -- by what follows the index: a round starts behind the match of the one before
  induction hn : text.length - last using Nat.strong_induction_on generalizing out last with
  | _ m ih =>
  have hdrop := Regex.exec_drop URL_RE hlast
  cases hexec : URL_RE.exec (text.drop last) 0 with
  | none =>
    rw [hexec] at hdrop
    rw [loop_of_none hdrop, urlMatches_of_none hexec]
    refine ⟨_, .done hexec, ?_⟩
    have hrest : slice text last text.length = text.drop last := by rw [slice, take_length]
    rw [plain_eq_if length_drop.symm, hrest]
    by_cases hlt : last < text.length
    · rw [if_pos hlt, if_pos (Nat.sub_pos_of_lt hlt)]
    · rw [if_neg hlt, if_neg (by omega), append_nil]
  | some jn =>
    obtain ⟨j, k⟩ := jn
    rw [hexec, Option.map_some] at hdrop
    obtain ⟨-, hend, -⟩ := Regex.exec_eq_some hexec
    have hadv := exec_advances hexec
    rw [length_drop] at hend hadv
    obtain ⟨before, raw, after, htext, hbefore, hraw, hb, hr, ha⟩ := exists_split hexec
    have hslice : slice text (last + j) (last + j + k) = raw := by
      rw [hr, slice_eq, slice_eq, List.drop_drop]
    have hfront : slice text last (last + j) = before := by
      rw [hb, slice_eq]
    have hafter : text.drop (last + j + k) = after := by
      rw [ha, List.drop_drop, Nat.add_assoc]
    rw [loop_of_some hdrop, hslice, hraw, pushed_eq (by omega) (by omega), hfront]
    obtain ⟨ps, hps, heq⟩ := ih (text.length - (last + j + k)) (by omega)
      (out ++ (plain before ++ linked raw)) (last + j + k) (by omega) rfl
    refine ⟨plain before ++ linked raw ++ ps, ?_, ?_⟩
    · have hmatches : urlMatches (text.drop last) = raw :: urlMatches after := by
        rw [urlMatches_of_some hexec, ← hr, ← ha]
      rw [hmatches, htext]
      refine .link ?_ ?_
      · rw [← htext, hexec, hbefore, hraw]
      · rwa [← hafter]
    · rw [heq, append_assoc]

theorem cut_parts (text : Text) : Cut text (urlMatches text) (parts text) := by
  obtain ⟨ps, hcut, heq⟩ := cut_loop text [] 0 (Nat.zero_le _)
  have hparts : parts text = ps := heq
  rwa [hparts]

theorem Cut.matches (h : Cut text raws ps) : ∀ raw ∈ raws, URL_RE.Matches raw := by
  induction h with
  | done => exact fun _ h => (nomatch h)
  | @link before raw after raws ps h _ ih =>
    refine forall_mem_cons.2 ⟨?_, ih⟩
    have hm := (Regex.exec_eq_some h).2.2
    rwa [drop_left, take_left] at hm

/-! ## Stripping -/

/-- Nothing is stripped before a character that is not punctuation. -/
theorem strip_append_cons {c : Char} (hc : trailing c = false) (t u : Text) :
    strip (t ++ c :: u) = t ++ c :: strip u := by
  induction u using List.reverseRecOn with
  | nil => rw [strip, rdropWhile_concat_neg _ _ _ (by simp [hc])]; rfl
  | append_singleton u d ih =>
    rw [← cons_append, ← append_assoc]
    unfold strip at ih ⊢
    by_cases hd : trailing d = true
    · rw [rdropWhile_concat_pos _ _ _ hd, rdropWhile_concat_pos _ _ _ hd, ih]
    · rw [rdropWhile_concat_neg _ _ _ hd, rdropWhile_concat_neg _ _ _ hd]
      simp

theorem strip_isPrefix (raw : Text) : strip raw <+: raw := rdropWhile_prefix trailing raw

theorem trailing_getLast {c : Char} (h : c ∈ (strip raw).getLast?) : trailing c = false := by
  have hne : strip raw ≠ [] := by
    intro hnil
    rw [hnil] at h
    cases h
  have hlast : ¬ trailing ((strip raw).getLast hne) = true := rdropWhile_last_not trailing raw hne
  rw [getLast?_eq_getLast_of_ne_nil hne] at h
  cases h
  simpa using hlast

/-! ## How a match starts -/

/-- `text` starts with `front` in any letter case. -/
def StartsWith (front text : Text) : Prop := front <+: text.map Char.toLower

/-- The text starts with `http://` or `https://` in any letter case. -/
def HasScheme (text : Text) : Prop := StartsWith "http://".toList text ∨ StartsWith "https://".toList text

theorem startsWith_append {front : Text} (h : front.map Char.toLower = before) (text : Text) :
    StartsWith before (front ++ text) := by
  rw [StartsWith, map_append, h]
  exact prefix_append _ _

theorem not_trailing_of_toLower {c : Char} (h : c.toLower = 'w') : trailing c = false := by
  refine decide_eq_false fun hc => ?_
  simp only [mem_cons, not_mem_nil, or_false] at hc
  rcases hc with rfl | rfl | rfl | rfl | rfl | rfl | rfl | rfl | rfl | rfl | rfl | rfl <;>
    exact absurd h (by decide)

/-- A match starts with a scheme or with `www`, and neither can be stripped. -/
theorem front_of_matches (h : URL_RE.Matches raw) :
    ∃ front rest, raw = front ++ rest ∧ strip raw = front ++ strip rest ∧
      (front.map Char.toLower = "http://".toList ∨ front.map Char.toLower = "https://".toList ∨
        front.map Char.toLower = "www".toList) := by
  cases h with
  | left _ h =>
    obtain ⟨a, _, rfl, ha, h⟩ := h.of_set
    obtain ⟨b, _, rfl, hb, h⟩ := h.of_set
    obtain ⟨c, _, rfl, hc, h⟩ := h.of_set
    obtain ⟨d, _, rfl, hd, h⟩ := h.of_set
    simp only [decide_eq_true_eq] at ha hb hc hd
    rcases h.of_opt with h | ⟨e, _, rfl, he, h⟩
    · obtain ⟨f, _, rfl, hf, h⟩ := h.of_set
      obtain ⟨g, _, rfl, hg, h⟩ := h.of_set
      obtain ⟨k, rest, rfl, hk, h⟩ := h.of_set
      simp only [decide_eq_true_eq] at hf hg hk
      refine ⟨[a, b, c, d, f, g, k], rest, rfl, ?_, .inl ?_⟩
      · exact strip_append_cons (by rw [hk]; decide) [a, b, c, d, f, g] rest
      · simp [ha, hb, hc, hd, hf, hg, hk]
    · obtain ⟨f, _, rfl, hf, h⟩ := h.of_set
      obtain ⟨g, _, rfl, hg, h⟩ := h.of_set
      obtain ⟨k, rest, rfl, hk, h⟩ := h.of_set
      simp only [decide_eq_true_eq] at he hf hg hk
      refine ⟨[a, b, c, d, e, f, g, k], rest, rfl, ?_, .inr (.inl ?_)⟩
      · exact strip_append_cons (by rw [hk]; decide) [a, b, c, d, e, f, g] rest
      · simp [ha, hb, hc, hd, he, hf, hg, hk]
  | right _ h =>
    obtain ⟨a, _, rfl, ha, h⟩ := h.of_set
    obtain ⟨b, _, rfl, hb, h⟩ := h.of_set
    obtain ⟨c, rest, rfl, hc, h⟩ := h.of_set
    simp only [decide_eq_true_eq] at ha hb hc
    refine ⟨[a, b, c], rest, rfl, strip_append_cons (not_trailing_of_toLower hc) [a, b] rest, .inr (.inr ?_)⟩
    simp [ha, hb, hc]

theorem strip_ne_nil (h : URL_RE.Matches raw) : strip raw ≠ [] := by
  obtain ⟨front, rest, -, hstrip, hfront⟩ := front_of_matches h
  rw [hstrip]
  intro hnil
  obtain ⟨rfl, -⟩ := append_eq_nil_iff.1 hnil
  simp at hfront

/-! ## The whole text -/

theorem flatMap_plain (t : Text) : (plain t).flatMap Part.t = t := by
  unfold plain
  split
  · rename_i h
    rw [h]
    rfl
  · simp

theorem flatMap_linked (raw : Text) : (linked raw).flatMap Part.t = raw := by
  rw [linked, flatMap_cons, flatMap_plain]
  exact prefix_append_drop (strip_isPrefix raw) |>.symm

theorem Cut.flatMap (h : Cut text raws ps) : ps.flatMap Part.t = text := by
  induction h with
  | done => exact flatMap_plain _
  | link _ _ ih => rw [flatMap_append, flatMap_append, flatMap_plain, flatMap_linked, ih, append_assoc]

/-- A part is a plain text that is not empty, or the link of a match. -/
theorem Cut.mem (h : Cut text raws ps) (hp : p ∈ ps) :
    p.t ≠ [] ∧ p.href = none ∨ ∃ raw ∈ raws, p = ⟨strip raw, some (hrefOf (strip raw))⟩ := by
  have hplain : ∀ {t : Text}, p ∈ plain t → p.t ≠ [] ∧ p.href = none := by
    intro t hp
    unfold plain at hp
    split at hp
    · cases hp
    · rename_i hne
      obtain rfl := mem_singleton.1 hp
      exact ⟨hne, rfl⟩
  induction h with
  | done => exact .inl (hplain hp)
  | @link before raw after raws ps _ _ ih =>
    rcases mem_append.1 hp with hp | hp
    · rcases mem_append.1 hp with hp | hp
      · exact .inl (hplain hp)
      · rcases mem_cons.1 hp with hp | hp
        · exact .inr ⟨raw, mem_cons_self, hp⟩
        · exact .inl (hplain hp)
    · rcases ih hp with h | ⟨r, hr, h⟩
      · exact .inl h
      · exact .inr ⟨r, mem_cons_of_mem _ hr, h⟩

/-- Every match has its link. -/
theorem Cut.link_mem (h : Cut text raws ps) (hr : raw ∈ raws) : ⟨strip raw, some (hrefOf (strip raw))⟩ ∈ ps := by
  induction h with
  | done => cases hr
  | @link before r after raws ps _ _ ih =>
    rcases mem_cons.1 hr with rfl | hr
    · simp [linked]
    · exact mem_append_right _ (ih hr)

/-- **Nothing is lost**: the parts make up the text in order, none is empty, and a link is a match of the
expression up to its trailing punctuation. -/
theorem parts_lossless (text : Text) :
    (parts text).flatMap Part.t = text ∧ (∀ p ∈ parts text, p.t ≠ []) ∧
    (∀ p ∈ parts text, p.href.isSome → ∃ raw ∈ urlMatches text, URL_RE.Matches raw ∧
      p.t <+: raw ∧ p.t ≠ [] ∧ ∀ c ∈ p.t.getLast?, trailing c = false) ∧
    Cut text (urlMatches text) (parts text) := by
  have hcut := cut_parts text
  refine ⟨hcut.flatMap, fun p hp => ?_, fun p hp hlink => ?_, hcut⟩
  · rcases hcut.mem hp with ⟨hne, -⟩ | ⟨raw, hraw, rfl⟩
    · exact hne
    · exact strip_ne_nil (hcut.matches raw hraw)
  · rcases hcut.mem hp with ⟨-, hnone⟩ | ⟨raw, hraw, rfl⟩
    · rw [hnone] at hlink
      cases hlink
    · have hm := hcut.matches raw hraw
      exact ⟨raw, hraw, hm, strip_isPrefix raw, strip_ne_nil hm, fun c hc => trailing_getLast hc⟩

/-! ## Where the links point -/

/-- The link points where its text says. -/
def Points (url href : Text) : Prop :=
  (HasScheme url → href = url) ∧ (¬ HasScheme url → href = "https://".toList ++ url)

/-- A text that starts with `www` starts with no scheme, and not with `http`. -/
theorem not_http_of_www {front : Text} (h : front.map Char.toLower = "www".toList) (rest : Text) :
    ¬ StartsWith "http".toList (front ++ rest) := by
  rw [StartsWith, map_append, h]
  rintro ⟨u, hu⟩
  cases hu

theorem startsWith_http (h : HasScheme text) : StartsWith "http".toList text := by
  rcases h with h | h
  · exact (prefix_append "http".toList "://".toList).trans h
  · exact (prefix_append "http".toList "s://".toList).trans h

/-- **The link of a match** points where it says if and only if a scheme is spelled in small letters. -/
theorem points_iff (h : URL_RE.Matches raw) :
    Points (strip raw) (hrefOf (strip raw)) ↔ (HasScheme raw → "http".toList <+: raw) := by
  obtain ⟨front, rest, rfl, hstrip, hfront⟩ := front_of_matches h
  rw [hstrip]
  by_cases hwww : front.map Char.toLower = "www".toList
  · have hno : ∀ u, ¬ HasScheme (front ++ u) := fun u hs => not_http_of_www hwww u (startsWith_http hs)
    have hhttp : ¬ "http".toList <+: front ++ strip rest := fun hp =>
      not_http_of_www hwww _ (hp.map Char.toLower)
    rw [hrefOf, if_neg hhttp]
    exact ⟨fun _ hs => absurd hs (hno rest), fun _ => ⟨fun hs => absurd hs (hno _), fun _ => rfl⟩⟩
  · have hscheme : front.map Char.toLower = "http://".toList ∨ front.map Char.toLower = "https://".toList := by
      rcases hfront with h | h | h
      · exact .inl h
      · exact .inr h
      · exact absurd h hwww
    have hyes : ∀ u, HasScheme (front ++ u) := fun u =>
      hscheme.imp (fun h => startsWith_append h u) fun h => startsWith_append h u
    have hlen : "http".toList.length ≤ front.length := by
      have hmap : (front.map Char.toLower).length = front.length := length_map _
      rcases hscheme with h | h <;> rw [← hmap, h] <;> decide
    have hfree : ∀ u, "http".toList <+: front ++ u ↔ "http".toList <+: front := fun u =>
      ⟨fun hp => prefix_of_prefix_length_le hp (prefix_append _ _) hlen,
        fun hp => hp.trans (prefix_append _ _)⟩
    rw [hfree, hrefOf]
    constructor
    · rintro ⟨hsame, -⟩ -
      by_contra hp
      have hdouble := hsame (hyes _)
      rw [if_neg (mt (hfree _).1 hp)] at hdouble
      have hlonger := congrArg List.length hdouble
      rw [length_append] at hlonger
      exact absurd hlonger (Nat.ne_of_gt (Nat.lt_add_of_pos_left (by decide)))
    · intro hp
      exact ⟨fun _ => if_pos ((hfree _).2 (hp (hyes rest))), fun hno => absurd (hyes _) hno⟩

/-- **Links point where they say** if and only if every match with a scheme, in whatever case, spells `http` in
small letters. -/
theorem links_point_iff (text : Text) :
    (∀ p ∈ parts text, ∀ href ∈ p.href, Points p.t href) ↔
      ∀ raw ∈ urlMatches text, HasScheme raw → "http".toList <+: raw := by
  have hcut := cut_parts text
  constructor
  · intro h raw hraw
    exact (points_iff (hcut.matches raw hraw)).1 (h _ (hcut.link_mem hraw) _ rfl)
  · intro h p hp href hhref
    rcases hcut.mem hp with ⟨-, hnone⟩ | ⟨raw, hraw, rfl⟩
    · rw [hnone] at hhref
      cases hhref
    · cases hhref
      exact (points_iff (hcut.matches raw hraw)).2 (h raw hraw)

/-- A scheme in capital letters gets a second one. -/
theorem capital_scheme_doubled :
    let text := "HTTP://a.b".toList
    parts text = [⟨text, some ("https://".toList ++ text)⟩] ∧
      ¬ ∀ p ∈ parts text, ∀ href ∈ p.href, Points p.t href := by
  intro text
  have hexec : URL_RE.exec text 0 = some (0, 10) := by decide +kernel
  have hend : URL_RE.exec text 10 = none := by decide +kernel
  have hparts : parts text = [⟨text, some ("https://".toList ++ text)⟩] := by
    rw [parts, loop_of_some hexec, loop_of_none hend]
    decide +kernel
  refine ⟨hparts, fun h => ?_⟩
  rw [hparts] at h
  have hscheme : HasScheme text := Or.inl (by decide +kernel : "http://".toList <+: text.map Char.toLower)
  exact absurd ((h _ List.mem_cons_self _ rfl).1 hscheme) (by decide +kernel)

end Whatsvelte.Linkify
