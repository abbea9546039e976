import MaltClient.JsonObject
import MaltClient.LockedFile
import MaltClient.NodeApi

/-! The durable workspaces of Bucket synchronisation. Every method reads one
file, edits the workspace of its Bucket branch and replaces the file. -/

namespace MaltClient.BucketSync

open GoText Checked LockedFile NodeApi
open BucketBranch (normalizeSelector)
open JsonObject (Now)

structure Head where
  commitID : GoString
  root : GoString
  revision : UInt64
  deriving DecidableEq, Repr

inductive StashStatus where
  | pending
  | branched
  | other (name : GoString)
  deriving DecidableEq, Repr

structure Stash where
  id : GoString
  pushID : GoString
  candidateRoot : GoString
  base : Head
  changeSetCID : GoString
  message : GoString
  requestFrozen : Bool
  status : StashStatus
  branch : GoString
  conflicts : List Conflict
  createdAt : Int
  updatedAt : Int
  deriving DecidableEq, Repr

structure Workspace where
  bucketID : GoString
  branch : GoString
  initialized : Bool
  base : Head
  remote : Head
  stashes : List Stash
  updatedAt : Int
  deriving DecidableEq, Repr

abbrev Workspaces := AList fun _ : GoString => Workspace

inductive SyncError where
  | notInitialized
  | notStaged
  | io
  | api (cause : ApiError)
  | message (format : String) (args : List GoString)
  | wrapped (format : String) (args : List GoString) (cause : SyncError)
  deriving DecidableEq, Repr

def Head.empty : Head := { commitID := [], root := [], revision := 0 }

def Workspace.zero : Workspace :=
  { bucketID := [], branch := [], initialized := false, base := .empty, remote := .empty,
    stashes := []
    updatedAt := 0 }

section json

def Head.json (h : Head) :
    Head := { h with commitID := jsonText h.commitID, root := jsonText h.root }

def StashStatus.json : StashStatus → StashStatus
  | .other name => .other (jsonText name)
  | status => status

def conflictJSON (c : Conflict) : Conflict :=
  { coordinate := jsonText c.coordinate, base := jsonText c.base, localRoot := jsonText c.localRoot
    remote := jsonText c.remote }

def Stash.json (s : Stash) : Stash :=
  { s with
    id := jsonText s.id
    pushID := jsonText s.pushID
    candidateRoot := jsonText s.candidateRoot
    base := s.base.json
    changeSetCID := jsonText s.changeSetCID
    message := jsonText s.message
    status := s.status.json
    branch := jsonText s.branch
    conflicts := s.conflicts.map conflictJSON }

/-- What `encoding/json` keeps of a workspace. -/
def Workspace.json (w : Workspace) : Workspace :=
  { w with
    bucketID := jsonText w.bucketID
    branch := jsonText w.branch
    base := w.base.json
    remote := w.remote.json
    stashes := w.stashes.map Stash.json }

section texts

/-- The texts of a record, in the order of its fields. -/
def Head.texts (h : Head) : List GoString := [h.commitID, h.root]

def StashStatus.texts : StashStatus → List GoString
  | .other name => [name]
  | _ => []

def conflictTexts (c : Conflict) : List GoString := [c.coordinate, c.base, c.localRoot, c.remote]

def Stash.texts (s : Stash) : List GoString :=
  [s.id, s.pushID, s.candidateRoot] ++ s.base.texts ++ [s.changeSetCID, s.message] ++
    s.status.texts ++ [s.branch] ++
    s.conflicts.flatMap conflictTexts

def Workspace.texts (w : Workspace) : List GoString :=
  [w.bucketID, w.branch] ++ w.base.texts ++ w.remote.texts ++ w.stashes.flatMap Stash.texts

theorem Head.json_eq_self (h : Head) : h.json = h ↔ JsonObject.Valid h.texts := by
  cases h
  simp [Head.json, Head.texts]

theorem StashStatus.json_eq_self (s : StashStatus) : s.json = s ↔ JsonObject.Valid s.texts := by
  cases s <;> simp [StashStatus.json, StashStatus.texts]

theorem conflictJSON_eq_self (c : Conflict) :
    conflictJSON c = c ↔ JsonObject.Valid (conflictTexts c) := by
  cases c
  simp [conflictJSON, conflictTexts]

theorem Stash.json_eq_self (s : Stash) : s.json = s ↔ JsonObject.Valid s.texts := by
  obtain ⟨id, pushID, root, base, changeSet, message, frozen, status, branch, conflicts, createdAt,
    updatedAt⟩ := s
  simp [Stash.json, Stash.texts, base.json_eq_self, status.json_eq_self,
    JsonObject.valid_flatMap conflictJSON_eq_self]

theorem Workspace.json_eq_self (w : Workspace) : w.json = w ↔ JsonObject.Valid w.texts := by
  obtain ⟨bucketID, branch, initialized, base, remote, stashes, updatedAt⟩ := w
  simp [Workspace.json, Workspace.texts, base.json_eq_self, remote.json_eq_self,
    JsonObject.valid_flatMap Stash.json_eq_self]

end texts

theorem Head.json_json (h : Head) : h.json.json = h.json := by
  simp [Head.json, JsonObject.jsonText_jsonText]

theorem Stash.json_json (s : Stash) : s.json.json = s.json := by
  have hstatus : s.status.json.json = s.status.json := by
    cases s.status <;> simp [StashStatus.json, JsonObject.jsonText_jsonText]
  have hconflict : conflictJSON ∘ conflictJSON = conflictJSON := by
    funext c
    simp [conflictJSON, JsonObject.jsonText_jsonText]
  simp [Stash.json, JsonObject.jsonText_jsonText, Head.json_json, hstatus, hconflict]

theorem Workspace.json_json (w : Workspace) : w.json.json = w.json := by
  simp [Workspace.json, JsonObject.jsonText_jsonText, Head.json_json, Stash.json_json]

end json

section base64

def base64Alphabet : List Char :=
  "ABCDEFGHIJKLMNOPQRSTUVWXYZabcdefghijklmnopqrstuvwxyz0123456789-_".toList

def base64Digit (n : Nat) : Rune := .char (base64Alphabet.getD n 'A')

/-- `base64.RawURLEncoding`. -/
def encodeToString : List Nat → GoString
  | a :: b :: c :: rest =>
    base64Digit (a / 4) :: base64Digit (a % 4 * 16 + b / 16) :: base64Digit (b % 16 * 4 + c / 64) ::
      base64Digit (c % 64) :: encodeToString rest
  | [a, b] => [base64Digit (a / 4), base64Digit (a % 4 * 16 + b / 16), base64Digit (b % 16 * 4)]
  | [a] => [base64Digit (a / 4), base64Digit (a % 4 * 16)]
  | [] => []

end base64

def workspaceKey (bucketID branch : GoString) : GoString :=
  bucketID ++ .char '@' :: encodeToString (bytes branch)

/-- A Service as `OpenRemoteBranch` makes it. -/
structure Service where
  bucketID : GoString
  branch : GoString
  bucketID_trimmed : trimSpace bucketID = bucketID
  bucketID_ne : bucketID ≠ []
  branch_normal : normalizeSelector branch = .ok branch

def Service.stateKey (s : Service) : GoString := workspaceKey s.bucketID s.branch

def Service.workspace (s : Service) (state : Workspaces) : Workspace :=
  { (state.lookup s.stateKey).getD .zero with bucketID := s.bucketID, branch := s.branch }

def monotonicHead (current incoming : Head) : Except SyncError Head :=
  if incoming.revision < current.revision then return current
  else if current.revision < incoming.revision then return incoming
  else do
    reject (current ≠ incoming)
      (.message "revision %d identifies different commits or roots"
        [text (toString current.revision.toNat)])
    return current

def StashStatus.isPending : StashStatus → Bool
  | .pending | .branched => true
  | .other _ => false

def hasPending (values : List Stash) : Bool := values.any fun s => s.status.isPending

/-- The base follows the remote head while nothing is stashed. -/
def advanceBase (format : String) (remote : Head) (w : Workspace) : Except SyncError Head :=
  if hasPending w.stashes then return w.base
  else (monotonicHead w.base remote).mapError (.wrapped format [])

def conflictsFromRemote (values : List Conflict) : List Conflict :=
  sortOn Conflict.coordinate values

section

variable [CidFormat]

def validateHead (value : Head) : Except SyncError Unit := do
  if value.commitID = [] then
    reject (value.root ≠ [] ∨ value.revision ≠ 0) (.message "empty head has root or revision" [])
  else
    reject (value.root = [] ∨ value.revision = 0)
      (.message "non-empty head lacks root or revision" [])
    reject (CidFormat.canonical value.root = none) (.api .cid)

def headFromRef (value : ObservedHead) : Except SyncError Head := do
  let head : Head := { commitID := value.commitID, root := value.root, revision := value.revision }
  validateHead head
  return head

def validateStash (id : GoString) (stash : Stash) : Except SyncError Unit := do
  reject (stash.id = [] ∨ stash.pushID = [] ∨ (stash.status ≠ .pending ∧ stash.status ≠ .branched))
    (.message "Bucket %s has an invalid stash" [id])
  reject (CidFormat.canonical stash.candidateRoot = none)
    (.wrapped "Bucket %s stash root: %w" [id] (.api .cid))
  (validateHead stash.base).mapError (.wrapped "Bucket %s stash base: %w" [id])

def validateWorkspace (e : Σ _ : GoString, Workspace) : Except SyncError Unit := do
  let mismatch : SyncError := .message "Bucket workspace key does not match record" []
  let branch ← (normalizeSelector e.2.branch).mapError fun _ => mismatch
  reject (workspaceKey e.2.bucketID branch ≠ e.1) mismatch
  (validateHead e.2.base).mapError (.wrapped "Bucket %s base: %w" [e.1])
  (validateHead e.2.remote).mapError (.wrapped "Bucket %s remote: %w" [e.1])
  forM e.2.stashes (validateStash e.1)

abbrev File := List (Σ _ : GoString, Workspace)

def Workspace.times (w : Workspace) : List Int :=
  w.updatedAt :: w.stashes.flatMap fun s => [s.createdAt, s.updatedAt]

def times (state : Workspaces) : List Int := state.entries.flatMap fun e => e.2.times

/-- `reload`; there is no text of a time that cannot be marshalled. -/
def reload : Option File → Except SyncError Workspaces
  | none => return ∅
  | some file => do
    let state ← required (.message "duplicate JSON object key" []) (JsonObject.decode file)
    JsonObject.marshalTimes (.message "parsing time" []) (times state)
    forM state.entries validateWorkspace
    return state

def persist (state : Workspaces) : Except SyncError File := do
  JsonObject.marshalTimes (.message JsonObject.yearRange []) (times state)
  return JsonObject.encode Workspace.json state

def store : Store File Workspaces SyncError where
  read := reload
  write := persist
  io := .io

/-- What a locked step meets: how its I/O fails, and its readings of the clock,
one for a stash and one for the workspace. -/
structure Env where
  fault : Fault
  stashedAt : Now
  now : Now

/-- The locked step of `Pull`. -/
def pullLocked (service : Service) (remote : Head) (now : Now) :
    Edit Workspaces SyncError Workspace := fun state => do
  let workspace := service.workspace state
  let remote ← (monotonicHead workspace.remote remote).mapError
    (.wrapped "merge observed Bucket head: %w" [])
  let base ← advanceBase "merge Bucket base: %w" remote workspace
  let workspace :=
    { workspace with initialized := true, remote := remote, base := base, updatedAt := now.nanos }
  return (state.insert service.stateKey workspace, workspace)

def pull (service : Service) (head : ObservedHead) (env : Env) (disk : Option File) :
    Option File × Except SyncError Workspace :=
  let checked : Except SyncError Head := do
    (validateObservedHead service.bucketID service.branch head).mapError .api
    headFromRef head
  match checked with
  | .error e => (disk, .error e)
  | .ok remote => store.update env.fault (pullLocked service remote env.now) disk

def Stash.isFor (stash : Stash) (candidateRoot : GoString) : Bool :=
  stash.status = .pending && stash.candidateRoot = candidateRoot

def newStash (id candidateRoot : GoString) (base : Head) (changeSet : Option Cid)
    (message : GoString) (now : Now) :
    Stash :=
  { id := id, pushID := text "push_" ++ id, candidateRoot := candidateRoot, base := base
    changeSetCID := (changeSet.map Cid.spelling).getD [], message := trimSpace message,
      requestFrozen := false
    status := .pending, branch := [], conflicts := [], createdAt := now.nanos,
      updatedAt := now.nanos }

/-- The workspace with its stashes replaced. -/
def Service.restash (service : Service) (state : Workspaces) (stashes : List Stash) (now : Now) :
    Workspaces :=
  state.insert service.stateKey
    { service.workspace state with stashes := stashes, updatedAt := now.nanos }

def stageLocked (service : Service) (candidateRoot : Cid) (base : Head) (changeSet : Option Cid)
    (message id : GoString)
    (now : Now) : Edit Workspaces SyncError Stash := fun state => do
  let workspace := service.workspace state
  reject (workspace.initialized = false) .notInitialized
  match workspace.stashes.find? fun existing => existing.isFor candidateRoot.spelling with
  | some existing =>
    reject (existing.base ≠ base)
      (.message "candidate is already staged against a different base" [])
    return (state, existing)
  | none =>
    let stash := newStash id candidateRoot.spelling base changeSet message now
    return (service.restash state (workspace.stashes ++ [stash]) now, stash)

/-- `Stage`; the identity is the random one it draws. -/
def stage (service : Service) (candidateRoot : Option Cid) (base : Head) (changeSet : Option Cid)
    (message id : GoString)
    (env : Env) (disk : Option File) : Option File × Except SyncError Stash :=
  let checked : Except SyncError Cid := do
    let candidateRoot ← required (.message "candidate root is undefined" []) candidateRoot
    (validateHead base).mapError (.wrapped "candidate base: %w" [])
    return candidateRoot
  match checked with
  | .error e => (disk, .error e)
  | .ok candidateRoot =>
    store.update env.fault (stageLocked service candidateRoot base changeSet message id
      env.now) disk

def sameFrozenStash (existing restored : Stash) : Bool :=
  existing.id = restored.id && existing.pushID = restored.pushID &&
    existing.candidateRoot = restored.candidateRoot && existing.base = restored.base &&
    existing.changeSetCID = restored.changeSetCID && existing.message = restored.message &&
    existing.requestFrozen && existing.status = .pending

/-- The scan of `RestorePending`: the stash that is already there, if any. -/
def findRestored (stash : Stash) : List Stash → Except SyncError (Option Stash)
  | [] => return none
  | existing :: rest =>
    if existing.id = stash.id then do
      reject (sameFrozenStash existing stash = false)
        (.message "restored Bucket stash conflicts with local stash %s" [stash.id])
      return some existing
    else do
      reject (existing.isFor stash.candidateRoot = true)
        (.message "restored Bucket stash candidate already has a different pending identity" [])
      findRestored stash rest

def restoreLocked (service : Service) (stash : Stash) (now : Now) :
    Edit Workspaces SyncError Stash := fun state => do
  let workspace := service.workspace state
  reject (workspace.initialized = false) .notInitialized
  match ← findRestored stash workspace.stashes with
  | some existing => return (state, existing)
  | none =>
    let stash := { stash with updatedAt := now.nanos }
    return (service.restash state (workspace.stashes ++ [stash]) now, stash)

def restorePending (service : Service) (stash : Stash) (env : Env) (disk : Option File) :
    Option File × Except SyncError Stash :=
  let checked : Except SyncError Stash := do
    reject (stash.id = [] ∨ stash.pushID = [] ∨ stash.status ≠ .pending ∨
      stash.requestFrozen = false)
      (.message "restored Bucket stash identity is incomplete" [])
    reject (CidFormat.canonical stash.candidateRoot = none)
      (.wrapped "restored Bucket stash candidate: %w" [] (.api .cid))
    (validateHead stash.base).mapError (.wrapped "restored Bucket stash base: %w" [])
    reject (stash.changeSetCID ≠ [] ∧ CidFormat.canonical stash.changeSetCID = none)
      (.wrapped "restored Bucket stash change set: %w" [] (.api .cid))
    reject (stash.createdAt = 0) (.message "restored Bucket stash creation time is missing" [])
    return { stash with message := trimSpace stash.message }
  match checked with
  | .error e => (disk, .error e)
  | .ok stash => store.update env.fault (restoreLocked service stash env.now) disk

def freezeStash (changeSet : Option Cid) (message : GoString) (now : Now) (stash : Stash) :
    Except SyncError Stash := do
  let requestedChangeSet := (changeSet.map Cid.spelling).getD []
  let requestedMessage := trimSpace message
  if stash.requestFrozen then
    reject (requestedChangeSet ≠ [] ∧ requestedChangeSet ≠ stash.changeSetCID)
      (.message "Bucket retry change set differs from the persisted push request" [])
    reject (requestedMessage ≠ [] ∧ requestedMessage ≠ stash.message)
      (.message "Bucket retry message differs from the persisted push request" [])
    return { stash with updatedAt := now.nanos }
  else
    return { stash with
      changeSetCID := if requestedChangeSet ≠ [] then requestedChangeSet else stash.changeSetCID
      message := if requestedMessage ≠ [] then requestedMessage else stash.message
      requestFrozen := true
      updatedAt := now.nanos }

/-- Freeze the first pending stash of a candidate. -/
def freezeFirst (candidateRoot : GoString) (changeSet : Option Cid) (message : GoString)
    (now : Now) :
    List Stash → Except SyncError (List Stash × Stash)
  | [] => throw .notStaged
  | stash :: rest =>
    if stash.isFor candidateRoot then do
      let stash ← freezeStash changeSet message now stash
      return (stash :: rest, stash)
    else do
      let (rest, frozen) ← freezeFirst candidateRoot changeSet message now rest
      return (stash :: rest, frozen)

/-- The first locked step of `Push`. -/
def freezeLocked (service : Service) (candidateRoot : Cid) (changeSet : Option Cid)
    (message : GoString)
    (stashedAt now : Now) : Edit Workspaces SyncError Stash := fun state => do
  let workspace := service.workspace state
  reject (workspace.initialized = false) .notInitialized
  let (stashes, stash) ← freezeFirst candidateRoot.spelling changeSet message stashedAt
    workspace.stashes
  return (service.restash state stashes now, stash)

/-- The request that `Push` sends for a frozen stash. -/
def applyRequest (service : Service) (stash : Stash) : Except SyncError ApplyRequest :=
  (normalizeApplyRequest service.branch
    { operationID := stash.pushID, branch := service.branch, baseCommit := stash.base.commitID
      baseRoot := stash.base.root, candidateRoot := stash.candidateRoot,
        baseRevision := stash.base.revision
      changeSetCID := stash.changeSetCID, message := stash.message,
        mergePolicy := [] }).mapError .api

/-- The first stash of an identity leaves, or is marked as branched. -/
def settleFirst (id : GoString) (result : ApplyResult) (now : Now) : List Stash → List Stash
  | [] => []
  | stash :: rest =>
    if stash.id = id then
      if result.status = .branched then
        { stash with
          status := .branched
          branch := (result.branch.map ObservedHead.name).getD stash.branch
          conflicts := conflictsFromRemote result.conflicts
          updatedAt := now.nanos } :: rest
      else rest
    else stash :: settleFirst id result now rest

/-- The last locked step of `Push`. -/
def settleLocked (service : Service) (stashID : GoString) (result : ApplyResult)
    (stashedAt now : Now) :
    Edit Workspaces SyncError Workspace :=
  fun state => do
    let current := service.workspace state
    let current := { current with stashes := settleFirst stashID result stashedAt current.stashes }
    let head ← headFromRef result.head
    let remote ← (monotonicHead current.remote head).mapError
      (.wrapped "merge pushed Bucket head: %w" [])
    let base ← advanceBase "merge pushed Bucket base: %w" remote current
    let current := { current with remote := remote, base := base, updatedAt := now.nanos }
    return (state.insert service.stateKey current, current)

/-- Remove the first stash of an identity, which must be the selected branched
candidate. -/
def resolveFirst (id candidateRoot : GoString) : List Stash → Except SyncError (List Stash)
  | [] => throw (.message "branched Bucket stash %s was not found" [id])
  | stash :: rest =>
    if stash.id = id then do
      reject (stash.status ≠ .branched ∨ stash.candidateRoot ≠ candidateRoot)
        (.message "Bucket stash %s is not the selected branched candidate" [id])
      return rest
    else do
      let rest ← resolveFirst id candidateRoot rest
      return stash :: rest

def resolveLocked (service : Service) (stashID candidateRoot : GoString) (now : Now) :
    Edit Workspaces SyncError Workspace :=
  fun state => do
    let workspace := service.workspace state
    let stashes ← resolveFirst stashID candidateRoot workspace.stashes
    let workspace := { workspace with stashes := stashes }
    let base ← advanceBase "advance resolved Bucket base: %w" workspace.remote workspace
    let workspace := { workspace with base := base, updatedAt := now.nanos }
    return (state.insert service.stateKey workspace, workspace)

def resolveBranched (service : Service) (stashID candidateRoot : GoString) (env : Env)
    (disk : Option File) :
    Option File × Except SyncError Workspace :=
  let checked : Except SyncError Unit := do
    reject (trimSpace stashID = []) (.message "branched stash ID is empty" [])
    reject (CidFormat.canonical (trimSpace candidateRoot) = none)
      (.wrapped "branched stash candidate: %w" [] (.api .cid))
  match checked with
  | .error e => (disk, .error e)
  | .ok _ =>
    store.update env.fault (resolveLocked service (trimSpace stashID) (trimSpace candidateRoot)
      env.now) disk

end

end MaltClient.BucketSync
