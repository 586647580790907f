import Mathlib.Data.List.DropRight
import Whatsvelte.Lib.Names
import Whatsvelte.Lib.Regex

/-!
# `Linkify.svelte`

A message text is cut into links and plain parts. A text comes from the backend as UTF-8, so it is a list of
characters here; an index counts characters.
-/

namespace Whatsvelte.Linkify

abbrev Text := List Char

/-- `Part`. -/
structure Part where
  t : Text
  href : Option Text
  deriving DecidableEq

/-- A letter of an expression with the flag `i`. -/
def letter (c : Char) : Regex Char := .set fun x => x.toLower = c

def char (c : Char) : Regex Char := .set (· = c)

/-- `[^\s<]`. -/
def urlChar (c : Char) : Bool := !isSpace c && c ≠ '<'

/-- `/(https?:\/\/[^\s<]+|www\.[^\s<]+\.[^\s<]+)/gi`. -/
def URL_RE : Regex Char :=
  .alt
    (.seqs [letter 'h', letter 't', letter 't', letter 'p', .opt fun x => x.toLower = 's',
      char ':', char '/', char '/', .plus urlChar])
    (.seqs [letter 'w', letter 'w', letter 'w', char '.', .plus urlChar, char '.', .plus urlChar])

/-- `[.,;:!?)\]}>'"]`. -/
def trailing (c : Char) : Bool := c ∈ ['.', ',', ';', ':', '!', '?', ')', ']', '}', '>', '\'', '"']

/-- `raw.replace(/[.,;:!?)\]}>'"]+$/, "")`. -/
def strip (raw : Text) : Text := raw.rdropWhile trailing

/-- `text.slice(start, end)`. -/
def slice (text : Text) (start stop : ℕ) : Text := (text.take stop).drop start

/-- `url.startsWith("http") ? url : "https://" + url`. -/
def hrefOf (url : Text) : Text :=
  if "http".toList <+: url then url else "https://".toList ++ url

/-- What one round of the loop pushes: the text since the last match, the link, and what was stripped of it. -/
def pushed (text : Text) (last index : ℕ) (raw : Text) : List Part :=
  let url := strip raw
  (if index > last then [⟨slice text last index, none⟩] else []) ++
    ⟨url, some (hrefOf url)⟩ ::
      (if url.length < raw.length then [⟨raw.drop url.length, none⟩] else [])

/-! A match is not empty, so the loop ends. -/

theorem ne_nil_of_matches {raw : Text} (h : URL_RE.Matches raw) : raw ≠ [] := by
  cases h with
  | left _ h | right _ h =>
    obtain ⟨a, m, rfl, -⟩ := h.of_set
    exact List.cons_ne_nil _ _

theorem exec_advances {text : Text} {lastIndex index n : ℕ} (h : URL_RE.exec text lastIndex = some (index, n)) :
    text.length - (index + n) < text.length - lastIndex := by
  obtain ⟨hle, hend, hm⟩ := Regex.exec_eq_some h
  have hpos : 0 < n := by
    rcases Nat.eq_zero_or_pos n with rfl | hpos
    · exact absurd rfl (ne_nil_of_matches hm)
    · exact hpos
  omega

/-- The loop over the matches: the parts, and the end of the last match. -/
def loop (text : Text) (out : List Part) (last lastIndex : ℕ) : List Part × ℕ :=
  match _h : URL_RE.exec text lastIndex with
  | none => (out, last)
  | some (index, n) =>
    let raw := slice text index (index + n)
    loop text (out ++ pushed text last index raw) (index + raw.length) (index + n)
termination_by text.length - lastIndex
decreasing_by exact exec_advances _h

/-- `parts`. -/
def parts (text : Text) : List Part :=
  let r := loop text [] 0 0
  if r.2 < text.length then r.1 ++ [⟨slice text r.2 text.length, none⟩] else r.1

end Whatsvelte.Linkify
