import Whatsvelte.Spec.Events

/-!
# Boot (`startEventBridge` of `stores/events.ts`)

The listeners are registered first, so events come in between any two waits of the boot. `Phase` is what
the boot waits for. `Boot.step` runs one event, or the code of the boot up to its next wait, when what it
waits for is over (`status`, `resume`) or has failed (`fails`). `loadSnapshot` reads the database when the
boot resumes from it. The name cache, the progress of the loading screen and the channels are left out.
-/

namespace Whatsvelte

/-- The chats whose tails are read in one go. -/
def CHUNK : ℕ := 200

/-- What `auth_status` answers. -/
structure Session where
  jid : Option Jid := none
  lid : Option Jid := none
  registered : Bool := false
  deriving DecidableEq

/-- `Snapshot`. -/
structure Snapshot where
  accountJid : Option Jid
  chats : List Chat
  hasMessages : Bool

def loadSnapshot (w : World) : Snapshot where
  accountJid := w.account.join
  chats := w.chatRows.rows
  hasMessages := !w.msgs.rows.isEmpty

/-- The account is asked for; its own LID is learned at once. -/
def refreshStatus (w : World) (s : Session) : World :=
  if truthy s.lid && truthy s.jid then learnLidMapping w (s.lid.getD "") (s.jid.getD "") else w

/-- The map saved for the account takes the place of what has been learned so far. -/
def loadLidMap (w : World) (saved : Jid → Jid → Option Jid) (s : Session) : World :=
  { w with lidToPn :=
      if truthy s.jid then
        if truthy s.lid then
          Function.update (saved (s.jid.getD "")) (normalizeJid (s.lid.getD ""))
            (some (normalizeJid (s.jid.getD "")))
        else saved (s.jid.getD "")
      else fun _ => none }

def clearLidMap (w : World) : World := { w with lidToPn := fun _ => none }

/-- The cached chats are another account's. -/
def differentAccount (snap : Snapshot) (s : Session) : Bool :=
  truthy snap.accountJid && truthy s.jid &&
    normalizeJid (snap.accountJid.getD "") ≠ normalizeJid (s.jid.getD "")

/-- One chat row of the snapshot; a stale LID chat is re-keyed on the way. -/
def hydrateRow (w : World) (c : Chat) : World :=
  let jid := canonicalJid w c.jid
  let w := if jid ≠ c.jid then movePersistedChat w c.jid jid else w
  hydrateChat w (if jid = c.jid then c else { c with jid := jid })

/-- `[...chats.keys()]`. -/
def chatKeys (w : World) : List Jid := w.chats.rows.map (·.jid)

/-- What the boot waits for. -/
inductive Phase
  /-- `refreshStatus()`. -/
  | status
  /-- The frame in which the loading screen is drawn. -/
  | frame
  /-- `loadSnapshot()`. -/
  | snapshot
  /-- The transactions of the moves. -/
  | moves (tids : List ℕ)
  /-- `loadTails()` of one chunk; `rest` are the chats after it. -/
  | tails (tid : ℕ) (rest : List Jid)
  /-- `clearAll()`. -/
  | wipe
  /-- `resetSession()` and `refreshStatus()` of a boot without a session. -/
  | reset
  /-- `setAccount()`. -/
  | account (tid : ℕ)
  | done
  deriving DecidableEq

structure Boot where
  world : World
  phase : Phase
  session : Session
  /-- The maps in `localStorage`, by account. -/
  saved : Jid → Jid → Option Jid

/-- A start of the application on a database. -/
def Boot.start (saved : Jid → Jid → Option Jid) (msgs : Table UiMessage.key) (chatRows : Table Chat.jid)
    (account : Option (Option Jid)) : Boot where
  world := { World.init with msgs := msgs, chatRows := chatRows, account := account }
  phase := .status
  session := {}
  saved := saved

/-- One of these transactions has still to run. -/
def World.waitsFor (w : World) (tids : List ℕ) : Bool := w.txq.any (fun t => t.tid ∈ tids)

/-- The transaction fails: its continuation does not run. -/
def World.drop (w : World) (tid : ℕ) : World := { w with txq := w.txq.filter (fun t => t.tid ≠ tid) }

/-- Step 4: mirror the stores to the database from now on. -/
def Boot.enable (b : Boot) : Boot := { b with world := enablePersistence b.world, phase := .done }

/-- The end of step 3. -/
def Boot.toAccount (b : Boot) : Boot :=
  if truthy b.session.jid then
    { b with world := setAccount b.world b.session.jid, phase := .account b.world.nextTid }
  else b.enable

/-- The loop over the chunks. -/
def Boot.restore (b : Boot) (jids : List Jid) : Boot :=
  if jids.isEmpty then
    { b with world := (chatKeys b.world).foldl (fun w jid => unifyLid w jid none) b.world }.toAccount
  else
    { b with
      world := b.world.step (.loadTails (jids.take CHUNK) 1)
      phase := .tails b.world.nextTid (jids.drop CHUNK) }

/-- Step 3: reconcile the database with the session. -/
def Boot.reconcile (b : Boot) (snap : Snapshot) : Boot :=
  if b.session.registered then
    if differentAccount snap b.session then
      { b with world := clearAll (clearLidMap b.world), phase := .wipe }
    else
      let w := snap.chats.foldl hydrateRow b.world
      { b with world := w, phase := .moves (List.range' b.world.nextTid (w.nextTid - b.world.nextTid)) }
  else if !snap.chats.isEmpty || snap.hasMessages || truthy snap.accountJid then
    { b with world := clearAll (clearLidMap b.world), phase := .wipe }
  else b.toAccount

/-- What happens next. -/
inductive BootStep
  /-- An event comes in. -/
  | live (ev : Event)
  /-- `auth_status` answers. -/
  | status (s : Session)
  /-- What the boot waits for is over. -/
  | resume
  /-- What the boot waits for has failed. -/
  | fails

def Boot.step (b : Boot) : BootStep → Boot
  | .live ev => { b with world := b.world.handle ev }
  | .status s =>
    let b' := { b with session := s, world := refreshStatus b.world s }
    match b.phase with
    | .status => { b' with phase := if s.registered then .frame else .snapshot }
    | .reset => b'.toAccount
    | _ => b
  | .resume =>
    match b.phase with
    | .frame => { b with world := loadLidMap b.world b.saved b.session, phase := .snapshot }
    | .snapshot => b.reconcile (loadSnapshot b.world)
    | .moves tids => if b.world.waitsFor tids then b else b.restore (chatKeys b.world)
    | .tails tid rest => if b.world.waitsFor [tid] then b else b.restore rest
    | .wipe =>
      if !b.world.wiping.isEmpty || b.world.jobs.any (· = Job.clear) then b
      else if b.session.registered then b.toAccount
      else { b with phase := .reset }
    | .account tid => if b.world.waitsFor [tid] then b else b.enable
    | _ => b
  | .fails =>
    match b.phase with
    | .snapshot => b.toAccount
    | .tails tid _ => { b with world := b.world.drop tid }.toAccount
    | .wipe =>
      { b with world := { b.world with
        wiping := []
        txq := b.world.txq.filter (fun t => t.job ≠ Job.clear) } }.toAccount
    | .account tid => { b with world := b.world.drop tid }.enable
    | _ => b

def Boot.run (b : Boot) (bs : List BootStep) : Boot := Whatsvelte.run Boot.step b bs

end Whatsvelte
