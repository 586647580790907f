import Whatsvelte.Lib.Table
import Whatsvelte.Spec.Media

/-!
# `save_media_to_downloads`

The copy of a media payload in the Downloads folder: the name that the sender gave is made safe, a
number is added while a file of that name is there, and the copy is refused outside of the folder.

A path is the list of its components, as `Path` compares them. The cached payload is there when the
destination is chosen; the errors before that leave the folder alone and are left out.
-/

namespace Whatsvelte.Media

/-! ## `safe_file_name` -/

/-- `name.rsplit(['/', '\\']).next()`. -/
def lastPart (name : Name) : Name := (name.reverse.takeWhile fun c => c ≠ '/' && c ≠ '\\').reverse

/-- `char::is_control`. -/
def isControl (c : Char) : Bool := c.toNat ≤ 0x1F || (0x7F ≤ c.toNat && c.toNat ≤ 0x9F)

/-- The characters that Windows does not allow in a name. -/
def forbidden : List Char := ['<', '>', ':', '"', '|', '?', '*']

def safeChar (c : Char) : Char := if c ∈ forbidden then '_' else if isControl c then '_' else c

/-- `str::trim`. -/
def trim (l : Name) : Name := ((l.dropWhile isWhitespace).reverse.dropWhile isWhitespace).reverse

/-- `trim_end_matches(['.', ' '])`. -/
def trimDots (l : Name) : Name := (l.reverse.dropWhile fun c => c = '.' || c = ' ').reverse

/-- The name without directories, forbidden characters and blanks around it. -/
def cleaned (name : Name) : Name := trimDots (trim ((lastPart name).map safeChar))

/-- `out.split('.').next().unwrap_or("").trim().to_ascii_uppercase()`. -/
def stemOf (out : Name) : Name := (trim (out.takeWhile (· ≠ '.'))).map Char.toUpper

/-- A reserved device name. Behind three ASCII letters, a fourth byte is a fourth character. -/
def isReserved (stem : Name) : Bool :=
  stem = "CON".toList || stem = "PRN".toList || stem = "AUX".toList || stem = "NUL".toList ||
    (("COM".toList.isPrefixOf stem || "LPT".toList.isPrefixOf stem) && stem.length = 4 &&
      (stem.getD 3 ' ').isDigit)

/-- `Path::extension` of a file name. -/
def extension (file : Name) : Option Name :=
  if file = "..".toList then none
  else
    match rsplitOnce '.' file with
    | some (before, after) => if before = [] then none else some after
    | none => none

/-- `Path::file_stem` of a file name. -/
def fileStem (file : Name) : Name :=
  if file = "..".toList then file
  else
    match rsplitOnce '.' file with
    | some (before, _) => if before = [] then file else before
    | none => file

/-- The extension with its dot, if it is short. -/
def keptExt (out : Name) : Name :=
  match extension out with
  | some e => if (String.ofList ('.' :: e)).utf8ByteSize ≤ 11 then '.' :: e else []
  | none => []

/-- The length cut of `safe_file_name`. -/
def shorten (out : Name) : Name :=
  if out.length > 180 then out.take (180 - (keptExt out).length) ++ keptExt out else out

/-- The name before the length cut: a device name gets an underscore in front. -/
def guarded (out : Name) : Name := if isReserved (stemOf out) then '_' :: out else out

/-- Sanitize a sender-supplied display name into a single, safe filename component. No separator is
left in it, so that it is its own `Path::file_name`. -/
def safeFileName (name : String) : Option Name :=
  let out := cleaned name.toList
  if out = [] ∨ out.all (fun c => c = '.' || c = '_') = true then none else some (shorten (guarded out))

/-! ## Paths -/

inductive Platform
  | unix | windows
  deriving DecidableEq

def Platform.isSep : Platform → Char → Bool
  | .unix, c => c = '/'
  | .windows, c => c = '/' || c = '\\'

/-- A path as its components. A drive is a component of its own, the root is not. -/
abbrev Path := List Name

/-- The components of a relative path that is joined to another. -/
def components (pl : Platform) (s : Name) : Path := (s.splitOnP pl.isSep).filter fun c => c ≠ [] && c ≠ ['.']

/-- A drive prefix and what is behind it. -/
def drive : Platform → Name → Option (Name × Name)
  | .windows, c :: ':' :: rest => if c.isAlpha then some ([c, ':'], rest) else none
  | _, _ => none

/-- `dir.join(s)`: a drive or a root in `s` replaces what was there. -/
def join (pl : Platform) (dir : Path) (s : Name) : Path :=
  match drive pl s with
  | some (d, rest) => d :: components pl rest
  | none =>
    if s.head?.any pl.isSep then dir.takeWhile (fun c => (drive pl c).isSome) ++ components pl s
    else dir ++ components pl s

/-- `Path::parent`. -/
def parent (p : Path) : Option Path := if p = [] then none else some p.dropLast

/-! ## The destination -/

/-- The Downloads folder: names and what is in the files. -/
abbrev Folder := Table (Prod.fst : Name × Bytes → Name)

structure SaveRequest where
  filename : Option String
  mimetype : Option String
  mediaType : String
  fileSha256 : Bytes
  deriving DecidableEq

/-- The display name, made safe, or the name of the cache file. -/
def SaveRequest.base (r : SaveRequest) : Name :=
  (r.filename.bind safeFileName).getD
    (base64Url r.fileSha256 ++ '.' :: (extFor r.mimetype r.mediaType r.filename).toList)

/-- `"{file_stem} ({n}){suffix}"`. -/
def numbered (base : Name) (n : ℤ) : Name :=
  fileStem base ++ " (".toList ++ n.repr.toList ++ ")".toList ++ (extension base).elim [] ('.' :: ·)

/-- `dest.exists()` for a path in the folder. -/
def existsAt (downloads : Path) (d : Folder) (p : Path) : Bool := d.rows.any fun row => p = downloads ++ [row.1]

/-- How the search for a number ends. -/
inductive Search
  /-- The search has not ended yet. -/
  | running
  /-- The counter has overflowed in a build that checks for it. -/
  | panicked
  | found (n : ℤ)
  deriving DecidableEq

/-- The next value of the `i32` counter. -/
def nextNumber (checked : Bool) (n : ℤ) : Option ℤ :=
  if n < 2 ^ 31 - 1 then some (n + 1) else if checked then none else some (-2 ^ 31)

/-- `fuel` turns of the loop `for n in 1..`. The range steps on before it hands out a number. -/
def search (checked : Bool) (taken : ℤ → Bool) : ℕ → ℤ → Search
  | 0, _ => .running
  | fuel + 1, n =>
    match nextNumber checked n with
    | none => .panicked
    | some n' => if taken n then search checked taken fuel n' else .found n

/-- How a save ends. -/
inductive Saved
  | running
  | panicked
  /-- `refusing to save outside Downloads`. -/
  | refused
  | saved (dest : Path) (folder : Folder)
  deriving DecidableEq

/-- The check of the destination, and the copy. -/
def copyTo (downloads : Path) (d : Folder) (payload : Bytes) (dest : Path) : Saved :=
  if parent dest ≠ some downloads then .refused
  else .saved dest (d.set (dest.getLastD [], payload))

/-- The end of `save_media_to_downloads`, with `fuel` turns for its loop. -/
def save (pl : Platform) (checked : Bool) (downloads : Path) (fuel : ℕ) (d : Folder) (r : SaveRequest)
    (payload : Bytes) : Saved :=
  let dest := join pl downloads r.base
  if existsAt downloads d dest then
    match search checked (fun n => existsAt downloads d (join pl downloads (numbered r.base n))) fuel 1 with
    | .running => .running
    | .panicked => .panicked
    | .found n => copyTo downloads d payload (join pl downloads (numbered r.base n))
  else copyTo downloads d payload dest

/-- One save after the other: the paths and the folder at the end. -/
def saveAll (pl : Platform) (checked : Bool) (downloads : Path) (fuel : ℕ) :
    Folder → List (SaveRequest × Bytes) → Option (List Path × Folder)
  | d, [] => some ([], d)
  | d, (r, payload) :: rs =>
    match save pl checked downloads fuel d r payload with
    | .saved dest d' => (saveAll pl checked downloads fuel d' rs).map fun (dests, d'') => (dest :: dests, d'')
    | _ => none

end Whatsvelte.Media
