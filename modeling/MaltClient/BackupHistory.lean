import MaltClient.BucketSync

/-! The history file of backups: the states of the plans, the journal of a
backup that is not yet published, and the checkout of its conflict. Times are
nanoseconds since Go's zero time. -/

namespace MaltClient.BackupHistory

open GoText Checked LockedFile NodeApi AssocMap
open BucketSync (Head Stash Workspace conflictJSON)

structure PushOutcome where
  result : ApplyResult
  workspace : Workspace
  deriving DecidableEq

abbrev Fingerprints := AList fun _ : GoString => GoString

structure Result where
  planID : GoString
  planName : GoString
  branch : GoString
  source : GoString
  profile : GoString
  keyEpoch : UInt32
  encryptedBytes : Int64
  sourceFingerprint : GoString
  bindingFingerprints : Fingerprints
  manifestFingerprint : GoString
  changedBindings : List GoString
  skipped : Bool
  base : Head
  candidateRoot : GoString
  push : PushOutcome
  completedAt : Int
  retriedPending : Bool
  reconciledPending : Bool
  deriving DecidableEq

structure PlanState where
  name : GoString
  lastCheckedAt : Int
  lastAttemptAt : Int
  lastSuccessAt : Int
  lastError : GoString
  failureCount : Int64
  attemptActive : Bool
  lastResult : Option Result
  deriving DecidableEq

structure PendingBackup where
  bucketID : GoString
  planID : GoString
  message : GoString
  stashID : GoString
  pushID : GoString
  candidateBase : GoString
  candidateRecorded : Bool
  result : Result
  createdAt : Int
  deriving DecidableEq

structure BindingConflict where
  bindingID : GoString
  bindingName : GoString
  paths : List GoString
  deriving DecidableEq

structure ConflictCheckout where
  planID : GoString
  stashID : GoString
  branch : GoString
  baseRoot : GoString
  localRoot : GoString
  remoteRoot : GoString
  path : GoString
  bindings : List BindingConflict
  createdAt : Int
  deriving DecidableEq

abbrev Plans := AList fun _ : GoString => PlanState

structure History where
  plans : Plans
  pending : Option PendingBackup
  conflict : Option ConflictCheckout
  deriving DecidableEq

inductive HistoryError where
  | io
  | decode
  | message (format : String) (args : List GoString)
  deriving DecidableEq, Repr

def PlanState.zero : PlanState :=
  { name := [], lastCheckedAt := 0, lastAttemptAt := 0, lastSuccessAt := 0, lastError := [],
    failureCount := 0
    attemptActive := false, lastResult := none }

section json

def refKindJSON : RefKind → RefKind
  | .other name => .other (jsonText name)
  | kind => kind

def refStateJSON : RefState → RefState
  | .other name => .other (jsonText name)
  | state => state

def headJSON (h : ObservedHead) : ObservedHead :=
  { h with
    datasetID := jsonText h.datasetID
    name := jsonText h.name
    kind := refKindJSON h.kind
    state := refStateJSON h.state
    commitID := jsonText h.commitID
    root := jsonText h.root
    createdBy := jsonText h.createdBy }

def commitJSON (c : Commit) : Commit :=
  { c with
    id := jsonText c.id
    datasetID := jsonText c.datasetID
    root := jsonText c.root
    parents := c.parents.map jsonText
    baseRoot := jsonText c.baseRoot
    author := jsonText c.author
    credential := jsonText c.credential
    changeSetCID := jsonText c.changeSetCID
    message := jsonText c.message }

def statusJSON : ApplyStatus → ApplyStatus
  | .other name => .other (jsonText name)
  | status => status

def applyResultJSON (r : ApplyResult) : ApplyResult :=
  { status := statusJSON r.status
    head := headJSON r.head
    candidate := commitJSON r.candidate
    commit := commitJSON r.commit
    branch := r.branch.map headJSON
    mergeBase := jsonText r.mergeBase
    conflicts := r.conflicts.map conflictJSON }

def PushOutcome.json (o : PushOutcome) : PushOutcome :=
  { result := applyResultJSON o.result, workspace := o.workspace.json }

/-- What a strict reader finds of a result that was written, unless two keys of
its fingerprints were written as one. -/
def Result.json (r : Result) : Option Result := do
  let bindingFingerprints ← JsonObject.decode (JsonObject.encode jsonText r.bindingFingerprints)
  return { r with
    planID := jsonText r.planID
    planName := jsonText r.planName
    branch := jsonText r.branch
    source := jsonText r.source
    profile := jsonText r.profile
    sourceFingerprint := jsonText r.sourceFingerprint
    bindingFingerprints := bindingFingerprints
    manifestFingerprint := jsonText r.manifestFingerprint
    changedBindings := r.changedBindings.map jsonText
    base := r.base.json
    candidateRoot := jsonText r.candidateRoot
    push := r.push.json }

def PlanState.json (s : PlanState) : Option PlanState := do
  let lastResult ← s.lastResult.mapM Result.json
  return { s with
      name := jsonText s.name, lastError := jsonText s.lastError, lastResult := lastResult }

def PendingBackup.json (p : PendingBackup) : Option PendingBackup := do
  let result ← p.result.json
  return { p with
    bucketID := jsonText p.bucketID
    planID := jsonText p.planID
    message := jsonText p.message
    stashID := jsonText p.stashID
    pushID := jsonText p.pushID
    candidateBase := jsonText p.candidateBase
    result := result }

def BindingConflict.json (b : BindingConflict) : BindingConflict :=
  { bindingID := jsonText b.bindingID, bindingName := jsonText b.bindingName,
    paths := b.paths.map jsonText }

def ConflictCheckout.json (c : ConflictCheckout) : ConflictCheckout :=
  { c with
    planID := jsonText c.planID
    stashID := jsonText c.stashID
    branch := jsonText c.branch
    baseRoot := jsonText c.baseRoot
    localRoot := jsonText c.localRoot
    remoteRoot := jsonText c.remoteRoot
    path := jsonText c.path
    bindings := c.bindings.map BindingConflict.json }

def History.json (value : History) : Option History := do
  let plans ← JsonObject.reread PlanState.json value.plans
  let pending ← value.pending.mapM PendingBackup.json
  return { plans := plans, pending := pending, conflict :=
    value.conflict.map ConflictCheckout.json }

end json

section times

def headTimes (h : ObservedHead) : List Int := [h.createdAt, h.updatedAt]

def PushOutcome.times (o : PushOutcome) : List Int :=
  headTimes o.result.head ++ [o.result.candidate.createdAt, o.result.commit.createdAt] ++
    o.result.branch.toList.flatMap headTimes ++ o.workspace.times

def Result.times (r : Result) : List Int := r.push.times ++ [r.completedAt]

def PlanState.times (s : PlanState) : List Int :=
  [s.lastCheckedAt, s.lastAttemptAt, s.lastSuccessAt] ++ s.lastResult.toList.flatMap Result.times

def History.times (value : History) : List Int :=
  value.plans.entries.flatMap (fun e => e.2.times) ++
    value.pending.toList.flatMap (fun pending => pending.result.times ++ [pending.createdAt]) ++
    value.conflict.toList.map ConflictCheckout.createdAt

end times

/-- The checks of `load` on the journal and the checkout. -/
def checkPending (value : History) : Except HistoryError Unit :=
  match value.pending with
  | none => return ()
  | some pending =>
    reject (¬ (pending.stashID = [] ↔ pending.pushID = []))
      (.message "pending backup journal has incomplete frozen stash identity" [])

def checkConflict (value : History) : Except HistoryError Unit :=
  let mismatch : HistoryError :=
    .message "backup conflict checkout does not match pending backup" []
  match value.conflict with
  | none => return ()
  | some conflict => do
    let pending ← required mismatch value.pending
    reject (conflict.stashID = [] ∨ conflict.stashID ≠ pending.stashID ∨
      conflict.localRoot ≠ pending.result.candidateRoot ∨ conflict.path = [] ∨
        conflict.bindings = []) mismatch

/-- What a strict reader finds in the file. -/
abbrev File := Option History

def load : Option File → Except HistoryError History
  | none => return { plans := ∅, pending := none, conflict := none }
  | some file => do
    let value ← required .decode file
    checkPending value
    checkConflict value
    return value

def write (value : History) : Except HistoryError File := do
  JsonObject.marshalTimes (.message JsonObject.yearRange []) value.times
  return value.json

def store : Store File History HistoryError where
  read := load
  write := write
  io := .io

/-- A method of `History`: what it checks of its arguments, and its edit. -/
structure Mutation where
  checked : Except HistoryError Unit
  edit : History → Except HistoryError History

def mutate (method : Mutation) (fault : Fault) (disk : Option File) :
    Option File × Except HistoryError Unit :=
  match method.checked with
  | .error e => (disk, .error e)
  | .ok _ =>
    store.update fault (fun value => do
      let value ← method.edit value
      return (value, ())) disk

section methods

/-- The profile of encrypted filesystems. -/
def profileID : GoString := text "malt.encrypted-unixfs/v1"

def setPending (pending : PendingBackup) : Mutation where
  checked := do
    reject (trimSpace pending.bucketID = [] ∨ trimSpace pending.planID = [] ∨
      pending.planID ≠ pending.result.planID ∨
        trimSpace pending.result.source = [] ∨ trimSpace pending.result.candidateRoot = [] ∨
          pending.createdAt = 0)
      (.message "pending backup journal is incomplete" [])
    reject (pending.result.profile = profileID ∧ pending.candidateRecorded = false)
      (.message "encrypted filesystem pending backup lacks a recorded local candidate" [])
  edit value :=
    match value.pending with
    | some existing =>
      throw (.message
        "pending backup candidate %s must be retried before recording another candidate"
        [existing.result.candidateRoot])
    | none => return { value with pending := some pending }

def clearPending (candidate : GoString) : Mutation where
  checked := reject (trimSpace candidate = []) (.message "pending backup candidate is empty" [])
  edit value :=
    match value.pending with
    | none => return value
    | some pending => do
      reject (pending.result.candidateRoot ≠ trimSpace candidate)
        (.message "pending backup candidate changed from %s to %s" [pending.result.candidateRoot,
          trimSpace candidate])
      return { value with pending := none }

/-- The state of a plan after an update. -/
def update (name : GoString) (change : PlanState → PlanState) (value : History) : History :=
  let state := (value.plans.lookup name).getD .zero
  { value with plans := value.plans.insert name (change { state with name := name }) }

/-- The pending backup of a candidate. -/
def pendingOf (candidate : GoString) (unavailable : String) (value : History) :
    Except HistoryError PendingBackup := do
  let pending ← required (.message unavailable [candidate]) value.pending
  reject (pending.result.candidateRoot ≠ candidate) (.message unavailable [candidate])
  return pending

def completePending (candidate planID : GoString) (result : Result) : Mutation where
  checked :=
    reject (trimSpace candidate = [] ∨ trimSpace planID = [] ∨ result.planID ≠ trimSpace planID ∨
        result.candidateRoot ≠ trimSpace candidate)
      (.message "completed backup candidate does not match its result" [])
  edit value := do
    let pending ← pendingOf (trimSpace candidate)
      "pending backup candidate %s is unavailable for completion" value
    reject (pending.planID ≠ trimSpace planID)
      (.message "pending backup candidate %s belongs to backup plan %q" [trimSpace candidate,
        pending.planID])
    return update (trimSpace planID) (fun state =>
      { state with
        lastSuccessAt := result.completedAt
        lastResult := some result
        lastError := []
        failureCount := 0
        attemptActive := false }) { value with pending := none }

def markPendingStaged (candidate : GoString) (stash : Stash) : Mutation where
  checked :=
    reject (trimSpace candidate = [] ∨ stash.id = [] ∨ stash.pushID = [] ∨ stash.candidateRoot ≠
      trimSpace candidate)
      (.message "staged backup journal metadata is incomplete" [])
  edit value := do
    let pending ← pendingOf (trimSpace candidate) "pending backup candidate %s is unavailable" value
    reject (stash.base ≠ pending.result.base ∨ stash.message ≠ pending.message ∨
      stash.changeSetCID ≠ [] ∨ (stash.status ≠ .pending ∧ stash.status ≠ .branched))
      (.message "pending backup candidate %s does not match its staged request"
        [trimSpace candidate])
    reject (pending.stashID ≠ [] ∧ (pending.stashID ≠ stash.id ∨ pending.pushID ≠ stash.pushID))
      (.message "pending backup candidate %s changed its frozen stash identity"
        [trimSpace candidate])
    return { value with pending := some { pending with stashID := stash.id, pushID :=
      stash.pushID } }

def markPendingConflict (candidate : GoString) (result : Result) : Mutation where
  checked :=
    reject (trimSpace candidate = [] ∨ result.candidateRoot ≠ trimSpace candidate ∨
        result.push.result.status ≠ .branched ∨
        ∀ branch ∈ result.push.result.branch, trimSpace branch.name = [])
      (.message "branched backup journal metadata is incomplete" [])
  edit value := do
    let pending ← pendingOf (trimSpace candidate) "pending backup candidate %s is unavailable" value
    return { value with pending := some { pending with result := result } }

def setConflictCheckout (conflict : ConflictCheckout) : Mutation where
  checked :=
    reject (trimSpace conflict.planID = [] ∨ trimSpace conflict.stashID = [] ∨
      trimSpace conflict.localRoot = [] ∨
        trimSpace conflict.remoteRoot = [] ∨ trimSpace conflict.path = [] ∨ conflict.createdAt = 0 ∨
        conflict.bindings = [])
      (.message "backup conflict checkout is incomplete" [])
  edit value := do
    let mismatch : HistoryError :=
      .message "backup conflict checkout does not match the pending candidate" []
    let pending ← required mismatch value.pending
    reject (pending.stashID ≠ conflict.stashID ∨ pending.result.candidateRoot ≠
      conflict.localRoot) mismatch
    return { value with conflict := some conflict }

def clearConflictCheckout (stashID : GoString) : Mutation where
  checked := reject (trimSpace stashID = []) (.message "backup conflict stash ID is empty" [])
  edit value := do
    reject (∃ conflict ∈ value.conflict, conflict.stashID ≠ trimSpace stashID)
      (.message "backup conflict checkout belongs to another stash" [])
    return { value with conflict := none }

def recordResult (name : GoString) (result : Result) : Mutation where
  checked :=
    reject (trimSpace name = [] ∨ result.completedAt = 0)
      (.message "backup result name and completion time are required" [])
  edit value := return update (trimSpace name) (fun state =>
    { state with
      lastCheckedAt := result.completedAt
      lastSuccessAt := result.completedAt
      lastResult := some result
      lastError := []
      failureCount := 0
      attemptActive := false }) value

def recordPlanAttempt (name : GoString) (time : Int) : Mutation where
  checked := reject (trimSpace name = []) (.message "backup plan attempt name is empty" [])
  edit value := return update (trimSpace name) (fun state =>
    { state with lastCheckedAt := time, lastAttemptAt := time, attemptActive := true }) value

def recordPlanFailure (name : GoString) (time : Int) (runErr : Option GoString) : Mutation where
  checked :=
    reject (trimSpace name = [] ∨ runErr = none)
      (.message "backup plan failure name and error are required" [])
  edit value := return update (trimSpace name) (fun state =>
    { state with
      lastCheckedAt := time
      lastAttemptAt := time
      lastError := runErr.getD []
      failureCount := state.failureCount + 1
      attemptActive := false }) value

end methods

inductive Call where
  | setPending (pending : PendingBackup)
  | clearPending (candidate : GoString)
  | completePending (candidate planID : GoString) (result : Result)
  | markPendingStaged (candidate : GoString) (stash : Stash)
  | markPendingConflict (candidate : GoString) (result : Result)
  | setConflictCheckout (conflict : ConflictCheckout)
  | clearConflictCheckout (stashID : GoString)
  | recordResult (name : GoString) (result : Result)
  | recordPlanAttempt (name : GoString) (time : Int)
  | recordPlanFailure (name : GoString) (time : Int) (runErr : Option GoString)

def Call.method : Call → Mutation
  | .setPending pending => BackupHistory.setPending pending
  | .clearPending candidate => BackupHistory.clearPending candidate
  | .completePending candidate planID result =>
    BackupHistory.completePending candidate planID result
  | .markPendingStaged candidate stash => BackupHistory.markPendingStaged candidate stash
  | .markPendingConflict candidate result => BackupHistory.markPendingConflict candidate result
  | .setConflictCheckout conflict => BackupHistory.setConflictCheckout conflict
  | .clearConflictCheckout stashID => BackupHistory.clearConflictCheckout stashID
  | .recordResult name result => BackupHistory.recordResult name result
  | .recordPlanAttempt name time => BackupHistory.recordPlanAttempt name time
  | .recordPlanFailure name time runErr => BackupHistory.recordPlanFailure name time runErr

/-- The file after some calls, of which each may fail. -/
def run (calls : List (Call × Fault)) : Option File :=
  calls.foldl (fun disk c => (mutate c.1.method c.2 disk).1) none

end MaltClient.BackupHistory
