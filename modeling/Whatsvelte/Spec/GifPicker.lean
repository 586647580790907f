import Mathlib.Data.List.DropRight
import Whatsvelte.Lib.Names

/-!
# `GifPicker.svelte`

The picker of an app with an API key; without one it shows no list. `load` is cut at its await, so at most one
request is out, and the debounce timer is armed or not. What the API has answered so far is part of the state.
-/

namespace Whatsvelte.GifPicker

/-- `query.trim()`. -/
def trim (query : List Char) : List Char := (query.dropWhile isSpace).rdropWhile isSpace

/-- A call of `klipySearch(q, p)`, or of `klipyTrending(p)` if `q` is empty. -/
structure Request where
  q : List Char
  p : ℕ
  reset : Bool
  deriving DecidableEq

/-- What the API has sent for page `p` of `q`. -/
structure Answer (Gif : Type) where
  q : List Char
  p : ℕ
  gifs : List Gif
  deriving DecidableEq

structure State (Gif : Type) where
  gifs : List Gif
  query : List Char
  /-- The request that is out: `loading`. -/
  request : Option Request
  error : Option String
  page : ℕ
  hasNext : Bool
  /-- The timer is armed. -/
  debounce : Bool
  answers : List (Answer Gif)

inductive Event (Gif : Type)
  /-- The user edits the search box: `bind:value` and `onInput`. -/
  | input (query : List Char)
  /-- The timer of `onInput` fires. -/
  | fire
  /-- `onScroll`, near the bottom or not. -/
  | scroll (nearBottom : Bool)
  /-- The API sends a page. -/
  | page (gifs : List Gif) (hasNext : Bool)
  /-- The request fails, with the message of an `Error` or with something else. -/
  | fail (message : Option String)

section
variable {Gif : Type}

/-- `load` up to its await. -/
def load (s : State Gif) (reset : Bool) : State Gif :=
  if s.request.isSome then s
  else
    { s with
      error := none
      request := some ⟨trim s.query, if reset then 1 else s.page + 1, reset⟩ }

/-- `onMount`. -/
def State.start : State Gif := load ⟨[], [], none, none, 1, false, false, []⟩ true

/-- `load` behind its await. -/
def loaded (s : State Gif) (r : Request) (gifs : List Gif) (hasNext : Bool) : State Gif :=
  { s with
    gifs := if r.reset then gifs else s.gifs ++ gifs
    hasNext := hasNext
    page := r.p
    request := none
    answers := ⟨r.q, r.p, gifs⟩ :: s.answers }

/-- The `catch` of `load`. -/
def failed (s : State Gif) (r : Request) (message : Option String) : State Gif :=
  { s with
    error := some (message.getD "Failed to load GIFs")
    gifs := if r.reset then [] else s.gifs
    request := none }

def onInput (s : State Gif) (query : List Char) : State Gif := { s with query := query, debounce := true }

def onScroll (s : State Gif) (nearBottom : Bool) : State Gif :=
  if s.hasNext && s.request.isNone && nearBottom then load s false else s

def step (s : State Gif) : Event Gif → State Gif
  | .input query => onInput s query
  | .fire => if s.debounce then load { s with debounce := false } true else s
  | .scroll nearBottom => onScroll s nearBottom
  | .page gifs hasNext => s.request.elim s fun r => loaded s r gifs hasNext
  | .fail message => s.request.elim s fun r => failed s r message

end

end Whatsvelte.GifPicker
