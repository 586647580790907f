import Mathlib.Data.List.TakeWhile
import Mathlib.Data.UInt

/-!
# Names put together from parts

A name with separators is taken apart again where the separator does not occur in one of the parts
(`append_cons_inj_left`, `append_cons_inj_right`). `base64Url` is the URL-safe Base64 alphabet without
padding: it has no two readings (`base64Url_injective`), and only letters, digits, `-` and `_`.
-/

namespace Whatsvelte

open List

variable {α : Type} {c : α} {x x' y y' : List α}

/-- A list is cut at the first `c`. -/
theorem append_cons_inj_left (hx : c ∉ x) (hx' : c ∉ x') (h : x ++ c :: y = x' ++ c :: y') :
    x = x' ∧ y = y' := by
  induction x generalizing x' with
  | nil =>
    cases x' with
    | nil => exact ⟨rfl, (List.cons.inj h).2⟩
    | cons => exact absurd (mem_cons.2 (.inl (List.cons.inj h).1)) hx'
  | cons a x ih =>
    cases x' with
    | nil => exact absurd (mem_cons.2 (.inl (List.cons.inj h).1.symm)) hx
    | cons =>
      obtain ⟨hab, h⟩ := List.cons.inj h
      obtain ⟨hxx, hyy⟩ := ih (fun hc => hx (mem_cons_of_mem _ hc)) (fun hc => hx' (mem_cons_of_mem _ hc)) h
      exact ⟨by rw [hab, hxx], hyy⟩

/-- A list is cut at the last `c`. -/
theorem append_cons_inj_right (hy : c ∉ y) (hy' : c ∉ y') (h : x ++ c :: y = x' ++ c :: y') :
    x = x' ∧ y = y' := by
  have hr : y.reverse ++ c :: x.reverse = y'.reverse ++ c :: x'.reverse := by
    simpa using congrArg List.reverse h
  obtain ⟨hyy, hxx⟩ := append_cons_inj_left (by simpa using hy) (by simpa using hy') hr
  exact ⟨reverse_injective hxx, reverse_injective hyy⟩

/-- `s.split_once(c)`: what is before and behind the first `c`. -/
def splitOnce [DecidableEq α] (c : α) (l : List α) : Option (List α × List α) :=
  if c ∈ l then some (l.takeWhile (· ≠ c), (l.dropWhile (· ≠ c)).tail) else none

/-- `s.rsplit_once(c)`: what is before and behind the last `c`. -/
def rsplitOnce [DecidableEq α] (c : α) (l : List α) : Option (List α × List α) :=
  if c ∈ l then
    some ((l.reverse.dropWhile (· ≠ c)).tail.reverse, (l.reverse.takeWhile (· ≠ c)).reverse)
  else none

section

variable [DecidableEq α] {l : List α}

theorem splitOnce_append (hx : c ∉ x) : splitOnce c (x ++ c :: y) = some (x, y) := by
  have hne : ∀ a ∈ x, decide (a ≠ c) = true := fun a ha => by
    simp only [ne_eq, decide_eq_true_eq]
    rintro rfl
    exact hx ha
  rw [splitOnce, if_pos (by simp), takeWhile_append_of_pos hne, dropWhile_append_of_pos hne]
  simp

theorem splitOnce_of_notMem (h : c ∉ l) : splitOnce c l = none := if_neg h

theorem notMem_of_splitOnce (h : splitOnce c l = some (x, y)) : c ∉ x := by
  rw [splitOnce] at h
  split at h
  · cases h
    intro hc
    simpa using mem_takeWhile_imp hc
  · cases h

theorem rsplitOnce_eq_some (h : rsplitOnce c l = some (x, y)) : l = x ++ c :: y := by
  rw [rsplitOnce] at h
  split at h
  · rename_i hc
    cases h
    have hne : l.reverse.dropWhile (· ≠ c) ≠ [] := by
      intro hnil
      have := dropWhile_eq_nil_iff.1 hnil c (mem_reverse.2 hc)
      simp at this
    obtain ⟨a, t, ht⟩ := exists_cons_of_ne_nil hne
    obtain rfl : a = c := by
      have hhead := head?_dropWhile_not (fun a => decide (a ≠ c)) l.reverse
      rw [ht] at hhead
      simpa using hhead
    rw [ht, tail_cons]
    have hrev : l.reverse = l.reverse.takeWhile (· ≠ a) ++ a :: t := by
      rw [← ht, takeWhile_append_dropWhile]
    calc l = l.reverse.reverse := (reverse_reverse l).symm
      _ = (l.reverse.takeWhile (· ≠ a) ++ a :: t).reverse := by rw [← hrev]
      _ = t.reverse ++ a :: (l.reverse.takeWhile (· ≠ a)).reverse := by simp
  · cases h

theorem mem_of_mem_rsplitOnce {a : α} (h : rsplitOnce c l = some (x, y)) (ha : a ∈ x) : a ∈ l := by
  rw [rsplitOnce] at h
  split at h
  · cases h
    rw [mem_reverse] at ha
    exact mem_reverse.1 ((dropWhile_sublist _).subset (mem_of_mem_tail ha))
  · cases h

end

/-- The first piece of a split ends where the first separator stands. -/
theorem head?_splitOnP (p : α → Bool) (l : List α) :
    (l.splitOnP p).head? = some (l.takeWhile fun a => !p a) := by
  induction l with
  | nil => simp
  | cons a l ih =>
    rw [splitOnP_cons_eq_if_modifyHead]
    cases hp : p a with
    | true => simp [hp]
    | false => simp [hp, ih]

/-- White space and line ends of ECMAScript: what `\s` matches and what `trim` removes. -/
def isSpace (c : Char) : Bool :=
  c.toNat ∈ [0x09, 0x0A, 0x0B, 0x0C, 0x0D, 0x20, 0xA0, 0x1680, 0x2028, 0x2029, 0x202F, 0x205F, 0x3000, 0xFEFF] ||
    0x2000 ≤ c.toNat && c.toNat ≤ 0x200A

/-! ## Base64 -/

/-- The URL-safe alphabet. -/
def base64Alphabet : List Char :=
  "ABCDEFGHIJKLMNOPQRSTUVWXYZabcdefghijklmnopqrstuvwxyz0123456789-_".toList

/-- The character of six bits. -/
def base64Char (n : ℕ) : Char := base64Alphabet.getD n 'A'

/-- `URL_SAFE_NO_PAD`: three bytes are four characters, and what is left over is two or three. -/
def base64Url : List UInt8 → List Char
  | [] => []
  | [a] => [base64Char (a.toNat / 4), base64Char (a.toNat % 4 * 16)]
  | [a, b] => [base64Char (a.toNat / 4), base64Char (a.toNat % 4 * 16 + b.toNat / 16),
      base64Char (b.toNat % 16 * 4)]
  | a :: b :: c :: bytes => base64Char (a.toNat / 4) :: base64Char (a.toNat % 4 * 16 + b.toNat / 16) ::
      base64Char (b.toNat % 16 * 4 + c.toNat / 64) :: base64Char (c.toNat % 64) :: base64Url bytes

/-- The six bits of a character. -/
def base64Value (c : Char) : ℕ := base64Alphabet.idxOf c

/-- What `base64Url` made a text of. -/
def base64Bytes : List Char → List UInt8
  | p :: q :: r :: s :: text =>
    UInt8.ofNat (base64Value p * 4 + base64Value q / 16) ::
      UInt8.ofNat (base64Value q % 16 * 16 + base64Value r / 4) ::
      UInt8.ofNat (base64Value r % 4 * 64 + base64Value s) :: base64Bytes text
  | [p, q, r] => [UInt8.ofNat (base64Value p * 4 + base64Value q / 16),
      UInt8.ofNat (base64Value q % 16 * 16 + base64Value r / 4)]
  | [p, q] => [UInt8.ofNat (base64Value p * 4 + base64Value q / 16)]
  | _ => []

theorem base64Value_char {n : ℕ} (hn : n < 64) : base64Value (base64Char n) = n := by
  have hall : ∀ n : Fin 64, base64Value (base64Char n) = n := by decide +kernel
  exact hall ⟨n, hn⟩

theorem base64Char_mem (n : ℕ) : base64Char n ∈ base64Alphabet := by
  rw [base64Char, getD_eq_getElem?_getD]
  cases h : base64Alphabet[n]? with
  | none => decide
  | some => exact mem_of_getElem? h

theorem mem_base64Alphabet {bytes : List UInt8} {c : Char} (h : c ∈ base64Url bytes) :
    c ∈ base64Alphabet := by
  induction bytes using base64Url.induct with
  | case1 => cases h
  | case2 =>
    simp only [base64Url, mem_cons, not_mem_nil, or_false] at h
    rcases h with rfl | rfl <;> exact base64Char_mem _
  | case3 =>
    simp only [base64Url, mem_cons, not_mem_nil, or_false] at h
    rcases h with rfl | rfl | rfl <;> exact base64Char_mem _
  | case4 a b d bytes ih =>
    simp only [base64Url, mem_cons] at h
    rcases h with rfl | rfl | rfl | rfl | h
    iterate 4 exact base64Char_mem _
    exact ih h

theorem ofNat_eq_of_toNat_eq {a : UInt8} {n : ℕ} (h : n = a.toNat) : UInt8.ofNat n = a := by
  rw [h, UInt8.ofNat_toNat]

/-- The text can be read back. -/
theorem base64Bytes_url (bytes : List UInt8) : base64Bytes (base64Url bytes) = bytes := by
  induction bytes using base64Url.induct with
  | case1 => rfl
  | case2 a =>
    have ha := a.toNat_lt
    rw [base64Url, base64Bytes, base64Value_char (by omega), base64Value_char (by omega),
      ofNat_eq_of_toNat_eq (a := a) (by omega)]
  | case3 a b =>
    have ha := a.toNat_lt
    have hb := b.toNat_lt
    rw [base64Url, base64Bytes, base64Value_char (by omega), base64Value_char (by omega),
      base64Value_char (by omega), ofNat_eq_of_toNat_eq (a := a) (by omega),
      ofNat_eq_of_toNat_eq (a := b) (by omega)]
  | case4 a b c bytes ih =>
    have ha := a.toNat_lt
    have hb := b.toNat_lt
    have hc := c.toNat_lt
    rw [base64Url, base64Bytes, base64Value_char (by omega), base64Value_char (by omega),
      base64Value_char (by omega), base64Value_char (by omega), ih,
      ofNat_eq_of_toNat_eq (a := a) (by omega), ofNat_eq_of_toNat_eq (a := b) (by omega),
      ofNat_eq_of_toNat_eq (a := c) (by omega)]

/-- Different bytes have different texts. -/
theorem base64Url_injective : Function.Injective base64Url :=
  Function.LeftInverse.injective base64Bytes_url

/-- A number is read back from its decimal digits. -/
theorem repr_toList_injective {n m : ℕ} (h : n.repr.toList = m.repr.toList) : n = m := by
  rw [Nat.repr, Nat.repr, String.toList_ofList, String.toList_ofList] at h
  have hnm := congrArg (Nat.ofDigitChars 10 · 0) h
  simpa only [Nat.ofDigitChars_ten_toDigits] using hnm

end Whatsvelte
