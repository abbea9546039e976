import MaltClient.Staging

/-! The staging calls. Each one checks its paths against the overlay that it is
about to extend and then appends one operation to the journal; a write first
puts its body into the cache. -/

namespace MaltClient.Staging

open GoText Checked AssocMap
open Journal (Operation Intent)
open LockedFile (Fault)

def initialStatus (offline : Bool) : Journal.Status := if offline then .offlineOnly else .localDirty

def cacheState (offline : Bool) : Cache.State := if offline then .offlineOnly else .localDirty

/-- What a call takes from its surroundings: fresh identities, a reading of the
clock, and the faults of the file writes it makes. -/
structure Env where
  operationID : GoString
  retryID : GoString
  now : Int
  staleFault : Fault
  putFault : Cache.PutFault
  journalFault : Fault

variable [CidFormat]

def newIntent (env : Env) (view : View) (root : Cid) (kind : Journal.Kind)
    (path destination payload : GoString) : Except FsError Intent :=
  (Journal.normalizeIntent
    { operationID := env.operationID, retryID := env.retryID, datasetID := view.datasetID,
      branch := view.branch,
      baseRoot := root.spelling, baseRevision := view.revision, kind := kind, path := path,
      destination := destination, payloadCID := payload, encryptionEpoch := view.encryptionEpoch
        }).mapError .journal

/-- `journal.Append` on the disk of the service. -/
def appendJournal (env : Env) (intent : Intent) (offline : Bool) (disk : Disk) :
    Disk × Except FsError Operation :=
  match Journal.append intent (initialStatus offline) env.now with
  | .error e => (disk, .error (.journal e))
  | .ok edit =>
    let (journal, result) := Journal.store.update env.journalFault edit disk.journal
    ({ disk with journal := journal }, result.mapError .journal)

/-- The common end of the calls: the operation that the checks allowed is
journaled, and a failed check changes nothing. -/
def appendIntent (env : Env) (offline : Bool) (intent : Except FsError Intent) (disk : Disk) :
    Disk × Except FsError Operation :=
  match intent with
  | .error e => (disk, .error e)
  | .ok intent => appendJournal env intent offline disk

variable [PayloadHash]

def requireStagedSize (service : Service) (size : Nat) : Except FsError Unit :=
  reject (service.stagedFileLimit < size) (.cache (.bodyTooLarge size service.stagedFileLimit))

def putBody (env : Env) (binding : Cache.Binding) (body : List UInt8) (offline : Bool)
    (store : Cache.Store) : Cache.Store × Except Cache.CacheError Unit :=
  let (store, result) := Cache.putLocal env.putFault binding body (cacheState offline) store
  (store, result.map fun _ => ())

/-- A remote entry is made stale before a local body replaces it. -/
def replaceBody (env : Env) (binding : Cache.Binding) (body : List UInt8) (offline : Bool)
    (store : Cache.Store) : Cache.Store × Except Cache.CacheError Unit :=
  match Cache.transition env.staleFault binding .stale store with
  | (store, .error e) => (store, .error e)
  | (store, .ok _) => putBody env binding body offline store

def compareBody (service : Service) (binding : Cache.Binding) (body : List UInt8)
    (store : Cache.Store) : Except Cache.CacheError Unit := do
  let existing ← Cache.readLocalBounded store binding service.stagedFileLimit
  reject (existing ≠ body) (.message "local cache body does not match its content identity")

def ensureLocalBody (service : Service) (env : Env) (binding : Cache.Binding) (body : List UInt8)
    (offline : Bool) (store : Cache.Store) : Cache.Store × Except Cache.CacheError Unit :=
  match Cache.inspect store binding with
  | .error .miss => putBody env binding body offline store
  | .error e => (store, .error e)
  | .ok entry =>
    match entry.state with
    | .verifiedClean | .unmaterializedRemote => replaceBody env binding body offline store
    | .stale => putBody env binding body offline store
    | _ => (store, compareBody service binding body store)

/-- The check on a path that an operation fills: it must be free, or what is
there must pass. -/
def admitTarget (found : Except FsError Info) (check : Info → Except FsError Unit) :
    Except FsError Unit :=
  match found with
  | .ok info => check info
  | .error e => reject (e ≠ .notFound) e

section

variable (service : Service) (env : Env) (view : View) (disk : Disk)

/-- The checks of a write, with the identifier of its body. -/
def admitWrite (rawPath : GoString) (body : List UInt8) :
    Except FsError (GoString × Cid × Cid) := do
  let canonical ← canonicalPath rawPath false
  requireStagedSize service body.length
  let root ← validateView view
  let operations ← operations disk.journal view
  requireParentDirectory service disk.cache view operations canonical
  admitTarget (statAt service disk.cache view operations operations.length canonical) fun info =>
    reject (info.kind = .dir) .notFile
  return (canonical, root, rawCid body)

def stageWrite (rawPath : GoString) (body : List UInt8) (offline : Bool) :
    Disk × Except FsError Operation :=
  match admitWrite service view disk rawPath body with
  | .error e => (disk, .error e)
  | .ok (canonical, root, payload) =>
    match ensureLocalBody service env (bindingFor view payload) body offline disk.cache with
    | (cache, .error e) => ({ disk with cache := cache }, .error (.cache e))
    | (cache, .ok _) =>
      appendIntent env offline (newIntent env view root .write canonical [] payload.spelling)
        { disk with cache := cache }

def admitMkdir (rawPath : GoString) : Except FsError Intent := do
  let canonical ← canonicalPath rawPath false
  let root ← validateView view
  let operations ← operations disk.journal view
  requireParentDirectory service disk.cache view operations canonical
  admitTarget (statAt service disk.cache view operations operations.length canonical) fun _ =>
    throw .alreadyExists
  newIntent env view root .mkdir canonical [] []

def stageMkdir (rawPath : GoString) (offline : Bool) : Disk × Except FsError Operation :=
  appendIntent env offline (admitMkdir service env view disk rawPath) disk

def requireEmpty (operations : List Operation) (canonical : GoString) : Except FsError Unit := do
  let entries ← readDirAt service disk.cache view operations canonical
  reject (entries ≠ []) .notEmpty

def admitRemove (rawPath : GoString) (directory : Bool) : Except FsError Intent := do
  let canonical ← canonicalPath rawPath false
  let root ← validateView view
  let operations ← operations disk.journal view
  let info ← statAt service disk.cache view operations operations.length canonical
  reject (directory ≠ (info.kind = .dir : Bool)) (if directory then .notDirectory else .notFile)
  if directory then requireEmpty service view disk operations canonical
  newIntent env view root .unlink canonical [] []

def stageUnlink (rawPath : GoString) (offline : Bool) : Disk × Except FsError Operation :=
  appendIntent env offline (admitRemove service env view disk rawPath false) disk

def stageRemoveDir (rawPath : GoString) (offline : Bool) : Disk × Except FsError Operation :=
  appendIntent env offline (admitRemove service env view disk rawPath true) disk

/-- What a rename may replace: a file by a file, an empty directory by a directory. -/
def admitReplaced (operations : List Operation) (source : Info) (destination : GoString)
    (info : Info) : Except FsError Unit := do
  reject (source.kind ≠ info.kind) (if source.kind = .dir then .notDirectory else .notFile)
  if info.kind = .dir then requireEmpty service view disk operations destination

def admitRename (rawSource rawDestination : GoString) : Except FsError Intent := do
  let source ← canonicalPath rawSource false
  let destination ← canonicalPath rawDestination false
  reject (source = destination ∨ isWithin destination source = true)
    (.message "rename destination is equal to or below its source" [])
  let root ← validateView view
  let operations ← operations disk.journal view
  let sourceInfo ← statAt service disk.cache view operations operations.length source
  requireParentDirectory service disk.cache view operations destination
  admitTarget (statAt service disk.cache view operations operations.length destination)
    (admitReplaced service view disk operations sourceInfo destination)
  newIntent env view root .rename source destination []

def stageRename (rawSource rawDestination : GoString) (offline : Bool) :
    Disk × Except FsError Operation :=
  appendIntent env offline (admitRename service env view disk rawSource rawDestination) disk

end

inductive Action where
  | write (path : GoString) (body : List UInt8)
  | mkdir (path : GoString)
  | unlink (path : GoString)
  | removeDir (path : GoString)
  | rename (source destination : GoString)

structure Call where
  view : View
  action : Action
  offline : Bool
  env : Env

def Call.exec (service : Service) (call : Call) (disk : Disk) : Disk × Except FsError Operation :=
  match call.action with
  | .write path body => stageWrite service call.env call.view disk path body call.offline
  | .mkdir path => stageMkdir service call.env call.view disk path call.offline
  | .unlink path => stageUnlink service call.env call.view disk path call.offline
  | .removeDir path => stageRemoveDir service call.env call.view disk path call.offline
  | .rename source destination =>
    stageRename service call.env call.view disk source destination call.offline

/-- The disk after a sequence of calls. -/
def runCalls (service : Service) (calls : List Call) (disk : Disk) : Disk :=
  calls.foldl (fun disk call => (call.exec service disk).1) disk

end MaltClient.Staging
