import Whatsvelte.Spec.Events

/-!
# `util/album.ts`

Consecutive photos and videos are shown as one album. Items of current clients name the header
message of their album (`albumParentId`); without it, a burst of uncaptioned items of one sender is
taken for an album.
-/

namespace Whatsvelte.Albums

/-- `Row`. -/
inductive Row
  | msg (key : String) (m : UiMessage)
  | album (key : String) (items : List UiMessage)
  deriving DecidableEq

def Row.key : Row → String
  | .msg key _ => key
  | .album key _ => key

/-- The messages that a row shows. -/
def Row.items : Row → List UiMessage
  | .msg _ m => [m]
  | .album _ items => items

/-- Inferred albums need at least this many items. -/
def MIN_INFERRED : ℕ := 4

/-- The largest gap between consecutive items of an inferred album, in seconds. -/
def MAX_GAP_SECS : ℤ := 60

def albumable (m : UiMessage) : Bool :=
  (m.kind = .image || m.kind = .video) && m.media.isSome && !m.deleted && m.quoted.isNone && !isTmp m.id

def sameSender (a b : UiMessage) : Bool := a.fromMe = b.fromMe && a.senderJid = b.senderJid

/-- The items that follow `m` in an explicit album: every one is compared with `m`. -/
def explicitItems (m : UiMessage) (rest : List UiMessage) : List UiMessage :=
  rest.takeWhile fun x => albumable x && x.albumParentId = m.albumParentId && sameSender m x

/-- The items that follow `m` in an inferred album: the sender is compared with `m`, the time with
the item before. -/
def inferredItems (m prev : UiMessage) : List UiMessage → List UiMessage
  | [] => []
  | x :: rest =>
    if albumable x && !truthy x.albumParentId && !truthy x.text && sameSender m x &&
        x.timestamp - prev.timestamp ≤ MAX_GAP_SECS then
      x :: inferredItems m x rest
    else []

/-- `"album:" + m.id`. -/
def albumKey (m : UiMessage) : String := "album:" ++ m.id

/-- The loop of `groupAlbums` from a message on. A run that is too short gives one row, and the scan
goes on with the message after it. -/
def groupAlbums : List UiMessage → List Row
  | [] => []
  | m :: rest =>
    if albumable m && truthy m.albumParentId then
      let items := explicitItems m rest
      if items.length + 1 ≥ 2 then .album (albumKey m) (m :: items) :: groupAlbums (rest.drop items.length)
      else .msg m.id m :: groupAlbums rest
    else if albumable m && !truthy m.text then
      let items := inferredItems m m rest
      if items.length + 1 ≥ MIN_INFERRED then
        .album (albumKey m) (m :: items) :: groupAlbums (rest.drop items.length)
      else .msg m.id m :: groupAlbums rest
    else .msg m.id m :: groupAlbums rest
termination_by list => list.length

end Whatsvelte.Albums
