import Mathlib.Logic.Function.Basic
import Whatsvelte.Lib.Run
import Whatsvelte.Spec.Message

/-!
# `stores/contacts.svelte.ts`

The names of contacts: the map that the user interface shows (`contacts`), and the names that are kept over a
restart (`nameCache`, saved in `localStorage` under the account). A JavaScript map is a function to `Option`;
the saved object is read back entry by entry, so that it is a map too. A save that fails only logs and is left
out.

`ensureContact` waits for the backend: `inflight` has the keys that are asked for, each with the name that the
call saw before it asked. The LID map is another store's; here it may change at any time.
-/

namespace Whatsvelte.Contacts

structure Contact where
  name : Option String
  verifiedName : Option String
  lid : Option Jid
  pictureUrl : Option String
  deriving DecidableEq

structure State where
  contacts : Jid → Option Contact
  /-- The requests that wait, with `learned`. -/
  inflight : Jid → Option (Option String)
  fetched : Jid → Bool
  nameCache : Jid → Option String
  /-- The account of `lsKey`. -/
  account : Option String
  saveTimer : Bool
  /-- `localStorage`, by account. -/
  storage : String → Option (Jid → Option String)
  /-- The map of `stores/lid.ts`. -/
  lidToPn : Jid → Option Jid

/-- A start of the application. -/
def State.start (storage : String → Option (Jid → Option String)) : State where
  contacts := fun _ => none
  inflight := fun _ => none
  fetched := fun _ => false
  nameCache := fun _ => none
  account := none
  saveTimer := false
  storage := storage
  lidToPn := fun _ => none

/-- `canonicalJid` of `stores/lid.ts`. -/
def State.canonicalJid (s : State) (jid : Jid) : Jid :=
  if isLid jid then (s.lidToPn jid).getD jid else jid

def contactFor (s : State) (jid : Jid) : Option Contact :=
  let canon := s.canonicalJid jid
  (((s.contacts jid).or (s.contacts (normalizeJid jid))).or (s.contacts canon)).or (s.contacts (normalizeJid canon))

/-- `contacts.get(key)?.name`. -/
def State.nameOf (s : State) (key : Jid) : Option String := (s.contacts key).bind (·.name)

/-- `contacts.set(key, …)` with a new name and the other fields as they were. -/
def State.setName (s : State) (key : Jid) (name : String) : State :=
  let existing := s.contacts key
  { s with contacts := Function.update s.contacts key (some
    { name := some name
      verifiedName := existing.bind (·.verifiedName)
      lid := existing.bind (·.lid)
      pictureUrl := existing.bind (·.pictureUrl) }) }

/-- One entry of the saved names, at the key `jid`. -/
def seeded (contacts : Jid → Option Contact) (names : Jid → Option String) (jid : Jid) : Option Contact :=
  match names jid with
  | none => contacts jid
  | some name =>
    let existing := contacts jid
    if truthy (existing.bind (·.name)) then existing
    else some
      { name := some name
        verifiedName := existing.bind (·.verifiedName)
        lid := existing.bind (·.lid)
        pictureUrl := existing.bind (·.pictureUrl) }

/-- Load the saved names of an account and show them. -/
def loadNameCache (s : State) (account : Option String) : State :=
  let s := { s with nameCache := fun _ => none, account := if truthy account then account else none }
  match s.account.bind s.storage with
  | none => s
  | some names => { s with nameCache := names, contacts := seeded s.contacts names }

/-- Forget learned names. -/
def clearNameCache (s : State) : State :=
  { s with
    storage := match s.account with
      | none => s.storage
      | some account => Function.update s.storage account none
    nameCache := fun _ => none
    fetched := fun _ => false
    contacts := fun _ => none
    account := none }

def scheduleSave (s : State) : State :=
  if s.account.isNone || s.saveTimer then s else { s with saveTimer := true }

/-- The timer of `scheduleSave`. -/
def save (s : State) : State :=
  if s.saveTimer then
    { s with
      saveTimer := false
      storage := match s.account with
        | none => s.storage
        | some account => Function.update s.storage account (some s.nameCache) }
  else s

/-- Record a display name; the map is only filled in. -/
def learnName (s : State) (jid name : Option String) : State :=
  if !truthy jid || !truthy name then s
  else
    let key := normalizeJid (jid.getD "")
    let name := name.getD ""
    if key = "" ∨ key = name then s
    else if s.nameCache key = some name && truthy (s.nameOf key) then s
    else
      let s := scheduleSave { s with nameCache := Function.update s.nameCache key (some name) }
      if truthy (s.nameOf key) then s else s.setName key name

/-- `ensureContact` up to its `await`. -/
def ensureContact (s : State) (jid : Jid) : State :=
  let key := s.canonicalJid jid
  if s.fetched key || (s.inflight key).isSome then s
  else { s with inflight := Function.update s.inflight key (some ((contactFor s key).bind (·.name))) }

/-- The `finally` of `ensureContact`. -/
def settle (s : State) (key : Jid) : State :=
  { s with fetched := Function.update s.fetched key true, inflight := Function.update s.inflight key none }

/-- The rest of `ensureContact` when `getContact` has answered, or has failed (`none`). -/
def ensureContactDone (s : State) (key : Jid) (answer : Option Contact) : State :=
  match s.inflight key with
  | none => s
  | some learned =>
    match answer with
    | some c =>
      let s := { s with contacts := Function.update s.contacts key (some { c with name := c.name.or learned }) }
      settle (if truthy c.name then learnName s (some key) c.name else s) key
    | none =>
      settle { s with contacts := Function.update s.contacts key (some
        { name := learned, verifiedName := none, lid := none, pictureUrl := none }) } key

inductive Step
  | loadNameCache (account : Option String)
  | clearNameCache
  | save
  | learnName (jid name : Option String)
  | ensureContact (jid : Jid)
  | ensureContactDone (key : Jid) (answer : Option Contact)
  /-- The LID map changes. -/
  | remap (lidToPn : Jid → Option Jid)

def State.step (s : State) : Step → State
  | .loadNameCache account => Contacts.loadNameCache s account
  | .clearNameCache => Contacts.clearNameCache s
  | .save => Contacts.save s
  | .learnName jid name => Contacts.learnName s jid name
  | .ensureContact jid => Contacts.ensureContact s jid
  | .ensureContactDone key answer => Contacts.ensureContactDone s key answer
  | .remap lidToPn => { s with lidToPn := lidToPn }

def State.run (s : State) (es : List Step) : State := Whatsvelte.run State.step s es

end Whatsvelte.Contacts
