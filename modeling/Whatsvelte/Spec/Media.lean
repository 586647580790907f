import Whatsvelte.Lib.Names
import Whatsvelte.Lib.Run

/-!
# `commands/media.rs`

The media cache: `ensure_cached` downloads a payload into a `.part` file and renames it to a name that
is made of its SHA-256. Any number of calls run at once, cut at every step that another call or a crash
can see: the file system, the semaphore and the counter. `Action.poll` runs a call up to the next of
them.

A directory entry is a name and the number of the file it leads to, so that a handle stays with its
file when the name is taken away or used again. The download is the library's: it writes what it likes
through the handle (`Action.write`), and it ends well only if what it has written is the payload with
the hash asked for. `sha256` is the hash function, of which nothing is assumed.
-/

namespace Whatsvelte.Media

abbrev Bytes := List UInt8

/-- A file name in the cache directory. -/
abbrev Name := List Char

/-! ## Names -/

/-- Extension of a document's display name, when it is a plain, short one. -/
def nameExt (fileName : Option String) : Option String :=
  match fileName with
  | none => none
  | some fileName =>
    let name := (fileName.toList.reverse.takeWhile fun c => c ≠ '/' && c ≠ '\\').reverse
    match rsplitOnce '.' name with
    | none => none
    | some (stem, ext) =>
      if stem = [] ∨ ext = [] ∨ (String.ofList ext).utf8ByteSize > 10 then none
      else if ext.all Char.isAlphanum then some (String.ofList (ext.map Char.toLower)) else none

/-- `char::is_whitespace`. -/
def isWhitespace (c : Char) : Bool :=
  let n := c.toNat
  (9 ≤ n && n ≤ 13) || n == 0x20 || n == 0x85 || n == 0xA0 || n == 0x1680 ||
    (0x2000 ≤ n && n ≤ 0x200A) || n == 0x2028 || n == 0x2029 || n == 0x202F || n == 0x205F || n == 0x3000

/-- `m.split(';').next().unwrap_or(m).trim()`. -/
def mime (m : String) : String :=
  String.ofList
    (((m.toList.takeWhile (· ≠ ';')).dropWhile isWhitespace).reverse.dropWhile isWhitespace).reverse

/-- The left side of an arm of `ext_for`. -/
inductive Pattern
  | exactly (m : String)
  | starts (m : String)
  deriving DecidableEq

def Pattern.accepts (m : String) : Pattern → Bool
  | .exactly m' => m = m'
  | .starts m' => m'.toList.isPrefixOf m.toList

/-- The arms of `ext_for`, in order. -/
def mimeExts : List (Pattern × String) :=
  [(.exactly "image/png", "png"),
    (.exactly "image/webp", "webp"),
    (.exactly "image/gif", "gif"),
    (.starts "image/", "jpg"),
    (.exactly "video/webm", "webm"),
    (.exactly "video/quicktime", "mov"),
    (.starts "video/", "mp4"),
    (.exactly "audio/ogg", "ogg"),
    (.exactly "audio/mpeg", "mp3"),
    (.starts "audio/", "m4a"),
    (.exactly "application/pdf", "pdf"),
    (.exactly "application/msword", "doc"),
    (.exactly "application/vnd.openxmlformats-officedocument.wordprocessingml.document", "docx"),
    (.exactly "application/vnd.ms-excel", "xls"),
    (.exactly "application/vnd.openxmlformats-officedocument.spreadsheetml.sheet", "xlsx"),
    (.exactly "application/vnd.ms-powerpoint", "ppt"),
    (.exactly "application/vnd.openxmlformats-officedocument.presentationml.presentation", "pptx"),
    (.exactly "application/zip", "zip"),
    (.exactly "application/x-zip-compressed", "zip"),
    (.exactly "application/json", "json"),
    (.exactly "text/plain", "txt"),
    (.exactly "text/csv", "csv"),
    (.exactly "text/html", "html")]

/-- The extension for a media type without a known mimetype. -/
def defaultExt (mediaType : String) : String :=
  if mediaType = "video" then "mp4"
  else if mediaType = "audio" then "ogg"
  else if mediaType = "sticker" then "webp"
  else if mediaType = "document" then "bin"
  else "jpg"

/-- File extension for a cached payload. -/
def extFor (mimetype : Option String) (mediaType : String) (fileName : Option String) : String :=
  match if mediaType = "document" then nameExt fileName else none with
  | some ext => ext
  | none =>
    match (mimetype.map mime).bind fun m => mimeExts.find? (·.1.accepts m) with
    | some (_, ext) => ext
    | none => defaultExt mediaType

/-- What a call of `ensure_cached` asks for. -/
structure Request where
  fileSha256 : Bytes
  mediaType : String
  mimetype : Option String
  fileName : Option String
  deriving DecidableEq

/-- The final name: `{stem}.{ext}`. -/
def Request.path (r : Request) : Name :=
  base64Url r.fileSha256 ++ '.' :: (extFor r.mimetype r.mediaType r.fileName).toList

/-- The name of the download in progress: `{stem}.{ext}.{seq}.part`. -/
def Request.tmp (r : Request) (seq : UInt64) : Name :=
  r.path ++ '.' :: (seq.toNat.repr.toList ++ ".part".toList)

/-! ## State -/

/-- The arguments of a call, with the fields that `b64_decode` reads as it gives them. -/
structure Args where
  mediaKey : Option Bytes
  fileSha256 : Option Bytes
  fileEncSha256 : Option Bytes
  mediaType : String
  mimetype : Option String
  fileName : Option String
  deriving DecidableEq

/-- What a call is about to do. -/
inductive Progress
  /-- Decode the descriptor, create the directory and look the file up. -/
  | start (args : Args)
  /-- `download_permits().acquire()`. -/
  | acquiring (r : Request)
  /-- Look the file up again, with a permit from here on. -/
  | rechecking (r : Request)
  /-- `PART_SEQ.fetch_add(1)`. -/
  | numbering (r : Request)
  /-- `File::create(&tmp)`. -/
  | creating (r : Request) (seq : UInt64)
  /-- The library's download, through a handle of `file`; `written` is what it has put there. -/
  | downloading (r : Request) (seq : UInt64) (file : ℕ) (written : Bytes)
  /-- `file.sync_all()`. -/
  | syncing (r : Request) (seq : UInt64) (file : ℕ) (payload : Bytes)
  /-- `rename(&tmp, &path)`; the handle is closed. -/
  | moving (r : Request) (seq : UInt64) (file : ℕ) (payload : Bytes)
  /-- `remove_file(&tmp)` after an error. -/
  | discarding (r : Request) (seq : UInt64)
  /-- `remove_file(&tmp)` after a rename that failed. -/
  | losing (r : Request) (seq : UInt64)
  /-- Look the file up after a rename that failed. -/
  | checking (r : Request)
  /-- `Ok(path)` or `Err`. -/
  | returned (result : Option Name)
  deriving DecidableEq

def MAX_CONCURRENT_DOWNLOADS : ℕ := 3

structure State where
  /-- The cache directory. -/
  dir : Name → Option ℕ
  /-- What is in the files; a file that has lost its name stays. -/
  files : List Bytes
  permits : ℕ
  /-- `PART_SEQ`. -/
  partSeq : UInt64
  calls : List Progress
  /-- How many numbers this process has taken. -/
  started : ℕ
  /-- The hashes asked for and the payloads of all downloads that have ended well. -/
  verified : List (Bytes × Bytes)

def State.init : State where
  dir _ := none
  files := []
  permits := MAX_CONCURRENT_DOWNLOADS
  partSeq := 0
  calls := []
  started := 0
  verified := []

def State.exists (s : State) (name : Name) : Bool := (s.dir name).isSome

/-! ## Steps -/

inductive Action
  /-- A command calls `ensure_cached`. -/
  | call (args : Args)
  /-- Call `c` takes its step; `ok` says how a fallible one ends. -/
  | poll (c : ℕ) (ok : Bool)
  /-- The download of call `c` writes: its file now holds `bytes`. -/
  | write (c : ℕ) (bytes : Bytes)
  /-- The process dies, and another one starts. -/
  | crash
  deriving DecidableEq

def State.goto (s : State) (c : ℕ) (p : Progress) : State := { s with calls := s.calls.set c p }

/-- Call `c` returns. -/
def State.ret (s : State) (c : ℕ) (result : Option Name) : State := s.goto c (.returned result)

/-- Call `c` returns and drops its permit. -/
def State.done (s : State) (c : ℕ) (result : Option Name) : State :=
  { s.ret c result with permits := s.permits + 1 }

/-- `File::create`: a file that is there is truncated. -/
def State.create (s : State) (name : Name) : State × ℕ :=
  match s.dir name with
  | some i => ({ s with files := s.files.set i [] }, i)
  | none => ({ s with
      dir := Function.update s.dir name (some s.files.length)
      files := s.files ++ [[]] }, s.files.length)

/-- `let _ = remove_file(name)`. -/
def State.remove (s : State) (name : Name) (ok : Bool) : State :=
  if ok then { s with dir := Function.update s.dir name none } else s

section

variable (sha256 : Bytes → Bytes)

/-- The code of a call from where it is to the next step that others can see. -/
def resume (s : State) (c : ℕ) (ok : Bool) : Progress → State
  | .start args =>
    match args.mediaKey, args.fileSha256, args.fileEncSha256 with
    | some _, some fileSha256, some _ =>
      let r : Request := ⟨fileSha256, args.mediaType, args.mimetype, args.fileName⟩
      if !ok then s.ret c none
      else if s.exists r.path then s.ret c (some r.path)
      else s.goto c (.acquiring r)
    | _, _, _ => s.ret c none
  | .acquiring r =>
    if s.permits = 0 then s else { s with permits := s.permits - 1 }.goto c (.rechecking r)
  | .rechecking r => if s.exists r.path then s.done c (some r.path) else s.goto c (.numbering r)
  | .numbering r =>
    { s with partSeq := s.partSeq + 1, started := s.started + 1 }.goto c (.creating r s.partSeq)
  | .creating r seq =>
    if ok then
      let (s, file) := s.create (r.tmp seq)
      s.goto c (.downloading r seq file [])
    else s.done c none
  | .downloading r seq file written =>
    -- the library verifies what it has written before it returns `Ok`
    if ok && sha256 written = r.fileSha256 then
      { s with verified := (r.fileSha256, written) :: s.verified }.goto c (.syncing r seq file written)
    else s.goto c (.discarding r seq)
  | .syncing r seq file payload =>
    if ok then s.goto c (.moving r seq file payload) else s.goto c (.discarding r seq)
  | .moving r seq _ _ =>
    match ok, s.dir (r.tmp seq) with
    | true, some i =>
      { s with dir := Function.update (Function.update s.dir (r.tmp seq) none) r.path (some i) }.done c
        (some r.path)
    | _, _ => s.goto c (.losing r seq)
  | .discarding r seq => (s.remove (r.tmp seq) ok).done c none
  | .losing r seq => (s.remove (r.tmp seq) ok).goto c (.checking r)
  | .checking r => s.done c (if s.exists r.path then some r.path else none)
  | .returned _ => s

def State.step (s : State) : Action → State
  | .call args => { s with calls := s.calls ++ [.start args] }
  | .poll c ok =>
    match s.calls[c]? with
    | some p => resume sha256 s c ok p
    | none => s
  | .write c bytes =>
    match s.calls[c]? with
    | some (.downloading r seq file _) =>
      { s with files := s.files.set file bytes }.goto c (.downloading r seq file bytes)
    | _ => s
  | .crash =>
    -- statics start over, and what was written stays
    { s with calls := [], permits := MAX_CONCURRENT_DOWNLOADS, partSeq := 0, started := 0 }

end

end Whatsvelte.Media
