import MaltClient.AssocMap
import MaltClient.Cid
import MaltClient.GoPath
import MaltClient.JsonObject
import MaltClient.LockedFile

/-! The durable operation journal: its records, the normal form that every
reload demands of them, and the reload itself. Times count nanoseconds from
Go's zero time, the first instant of year one. -/

namespace MaltClient.Journal

open GoText Checked AssocMap

inductive Kind where
  | write
  | mkdir
  | rename
  | unlink
  | other (name : GoString)
  deriving DecidableEq, Repr

inductive Status where
  | localDirty
  | offlineOnly
  | pendingUpload
  | conflicted
  | completed
  | superseded
  | other (name : GoString)
  deriving DecidableEq, Repr

structure Intent where
  operationID : GoString
  retryID : GoString
  datasetID : GoString
  branch : GoString
  baseRoot : GoString
  baseRevision : UInt64
  kind : Kind
  path : GoString
  destination : GoString
  payloadCID : GoString
  encryptionEpoch : UInt32
  deriving DecidableEq, Repr

structure Operation extends Intent where
  sequence : UInt64
  status : Status
  conflictID : GoString
  resultRoot : GoString
  replacementOperationID : GoString
  createdAt : Int
  updatedAt : Int
  deriving DecidableEq, Repr

structure PersistedState where
  version : Int
  nextSequence : UInt64
  operations : AList fun _ : GoString => Operation
  usedOperationIDs : AList fun _ : GoString => Bool
  usedRetryIDs : AList fun _ : GoString => Bool
  deriving DecidableEq

/-- The package's sentinel errors, and texts with their arguments. A cause is
an error wrapped by `%w`. -/
inductive JournalError where
  | notFound
  | identityReuse
  | invalidStatus (current next : Status)
  | requestFrozen
  | cid
  | io
  | message (format : String) (args : List GoString)
  | wrapped (format : String) (args : List GoString) (cause : JournalError)
  deriving DecidableEq, Repr

def journalVersion : Int := 1

def backslash : Char := Char.ofNat 92

def Kind.text : Kind → GoString
  | .write => GoText.text "write"
  | .mkdir => GoText.text "mkdir"
  | .rename => GoText.text "rename"
  | .unlink => GoText.text "unlink"
  | .other name => name

def validKind : Kind → Bool
  | .other _ => false
  | _ => true

def validStatus : Status → Bool
  | .other _ => false
  | _ => true

def allowedStatusTransition : Status → Status → Bool
  | .localDirty, next => next = .offlineOnly || next = .pendingUpload || next = .conflicted
  | .offlineOnly, next => next = .localDirty || next = .pendingUpload || next = .conflicted
  | .pendingUpload, next => next = .conflicted || next = .completed
  | _, _ => false

def normalizePath (value : GoString) : Except JournalError GoString := do
  reject (value = [] ∨ ¬ validString value ∨ containsRune value nul ∨ hasPrefix value [slash] ∨
      containsRune value backslash)
    (.message "path must be a non-empty relative slash path" [])
  let cleaned := clean value
  reject (cleaned = dot ∨ cleaned = dotDot ∨ hasPrefix cleaned (dotDot ++ [slash]) ∨
    cleaned ≠ value)
    (.message "path is not canonical" [])
  return cleaned

/-- An error of the called function under the caller's text. -/
def within {α : Type} (format : String) (x : Except JournalError α) : Except JournalError α :=
  x.mapError fun e => .wrapped format [] e

def Intent.trimmed (intent : Intent) : Intent :=
  { intent with
    operationID := trimSpace intent.operationID
    retryID := trimSpace intent.retryID
    datasetID := trimSpace intent.datasetID
    branch := trimSpace intent.branch
    baseRoot := trimSpace intent.baseRoot
    path := trimSpace intent.path
    destination := trimSpace intent.destination
    payloadCID := trimSpace intent.payloadCID }

def Intent.identities (intent : Intent) : List GoString :=
  [intent.operationID, intent.retryID, intent.datasetID, intent.branch]

def emptyState : PersistedState :=
  { version := journalVersion, nextSequence := 1, operations := ∅, usedOperationIDs := ∅,
    usedRetryIDs := ∅ }

section

variable [CidFormat]

def parseCid (s : GoString) : Except JournalError GoString := required .cid (CidFormat.canonical s)

def normalizeIntent (raw : Intent) : Except JournalError Intent := do
  let intent := raw.trimmed
  reject (∃ id ∈ intent.identities, id = [])
    (.message "journal operation, retry, dataset, and branch identities are required" [])
  reject (∃ id ∈ intent.identities, containsRune id nul = true)
    (.message "journal identities contain NUL" [])
  reject (∃ id ∈ intent.identities, ¬ validString id = true)
    (.message "journal identities are not valid UTF-8" [])
  let root ← within "journal base root: %w" (parseCid intent.baseRoot)
  reject (¬ validKind intent.kind = true)
    (.message "unsupported journal operation kind %q" [intent.kind.text])
  let path ← within "journal path: %w" (normalizePath intent.path)
  let intent := { intent with baseRoot := root, path := path }
  match intent.kind with
  | .write =>
    reject (intent.destination ≠ []) (.message "write operation contains a destination" [])
    let payload ← within "journal payload CID: %w" (parseCid intent.payloadCID)
    return { intent with payloadCID := payload }
  | .rename =>
    reject (intent.payloadCID ≠ []) (.message "rename operation contains a payload CID" [])
    let destination ← within "journal rename destination: %w" (normalizePath intent.destination)
    reject (destination = intent.path)
      (.message "journal rename source and destination are equal" [])
    return { intent with destination := destination }
  | .mkdir | .unlink =>
    reject (intent.destination ≠ [] ∨ intent.payloadCID ≠ [])
      (.message "namespace operation contains payload or destination metadata" [])
    return intent
  | .other _ => return intent

def normalizeOperation (raw : Operation) : Except JournalError Operation := do
  let intent ← normalizeIntent raw.toIntent
  reject (raw.sequence = 0 ∨ ¬ validStatus raw.status = true ∨ raw.createdAt = 0 ∨
      raw.updatedAt = 0 ∨ raw.updatedAt < raw.createdAt)
    (.message "operation lifecycle metadata is invalid" [])
  let operation : Operation :=
    { raw with
      toIntent := intent
      conflictID := trimSpace raw.conflictID
      resultRoot := trimSpace raw.resultRoot
      replacementOperationID := trimSpace raw.replacementOperationID }
  reject (¬ validString operation.conflictID = true ∨
    ¬ validString operation.replacementOperationID = true)
    (.message "operation lifecycle identity is not valid UTF-8" [])
  reject (operation.status = .conflicted ∧ operation.conflictID = [])
    (.message "conflicted operation has no conflict identity" [])
  reject (operation.status ≠ .conflicted ∧ operation.status ≠ .superseded ∧
    operation.conflictID ≠ [])
    (.message "non-conflicted operation contains conflict identity" [])
  if operation.status = .superseded then
    reject (operation.replacementOperationID = [] ∨ operation.conflictID = [])
      (.message "superseded operation lacks conflict or replacement identity" [])
  else
    reject (operation.replacementOperationID ≠ [])
      (.message "non-superseded operation contains replacement identity" [])
  if operation.status = .completed then
    let root ← within "completed operation result root: %w" (parseCid operation.resultRoot)
    return { operation with resultRoot := root }
  else
    reject (operation.resultRoot ≠ []) (.message "incomplete operation contains result root" [])
    return operation

structure ReloadScan where
  operations : AList fun _ : GoString => Operation
  seenSequence : List UInt64
  seenRetry : List GoString

def decimal (n : UInt64) : GoString := GoText.text (toString n.toNat)

/-- One round of the loop over the records of a reloaded file. -/
def reloadRecord (next : PersistedState) (scan : ReloadScan)
    (e : Sigma fun _ : GoString => Operation) : Except JournalError ReloadScan := do
  let normalized ← (normalizeOperation e.2).mapError fun err =>
    .wrapped "journal operation %s: %w" [e.1] err
  reject (normalized.operationID ≠ e.1 ∨ normalized.sequence = 0 ∨
    next.nextSequence ≤ normalized.sequence)
    (.message "journal operation %s has invalid persisted identity or sequence" [e.1])
  reject (normalized.sequence ∈ scan.seenSequence)
    (.message "journal contains duplicate sequence %d" [decimal normalized.sequence])
  reject (normalized.retryID ∈ scan.seenRetry)
    (.message "journal contains duplicate retry identity %q" [normalized.retryID])
  reject (next.usedOperationIDs.lookup normalized.operationID ≠ some true ∨
      next.usedRetryIDs.lookup normalized.retryID ≠ some true)
    (.message "journal operation %s is missing durable identity tombstones" [e.1])
  return { operations := scan.operations.replace e.1 normalized
           seenSequence := normalized.sequence :: scan.seenSequence
           seenRetry := normalized.retryID :: scan.seenRetry }

def reloadTombstone (message : String) (e : Sigma fun _ : GoString => Bool) :
    Except JournalError Unit :=
  reject (e.2 ≠ true ∨ trimSpace e.1 = [] ∨ trimSpace e.1 ≠ e.1 ∨ ¬ validString e.1 = true)
    (.message message [])

/-- One round of the loop over the superseded records: the replacement must
exist, and no two records may share it. -/
def reloadReplacement (operations : AList fun _ : GoString => Operation)
    (inbound : AList fun _ : GoString => GoString) (e : Sigma fun _ : GoString => Operation) :
    Except JournalError (AList fun _ : GoString => GoString) :=
  if e.2.status ≠ .superseded then return inbound
  else do
    let invalid : JournalError :=
      .message "superseded journal operation %s has an invalid replacement" [e.1]
    let replacement ← required invalid (operations.lookup e.2.replacementOperationID)
    reject (replacement.sequence ≤ e.2.sequence ∨ replacement.datasetID ≠ e.2.datasetID ∨
      replacement.branch ≠ e.2.branch) invalid
    match inbound.lookup e.2.replacementOperationID with
    | some previous =>
      throw (.message "superseded journal operations %s and %s share replacement %s"
        [previous, e.1, e.2.replacementOperationID])
    | none => return inbound.insert e.2.replacementOperationID e.1

def reloadLocked : Option PersistedState → Except JournalError PersistedState
  | none => return emptyState
  | some next => do
    reject (next.version ≠ journalVersion ∨ next.nextSequence = 0)
      (.message "unsupported operation-journal version %d" [GoText.text (toString next.version)])
    let scan ← next.operations.entries.foldlM (reloadRecord next) ⟨next.operations, [], []⟩
    forM next.usedOperationIDs.entries
      (reloadTombstone "journal contains an invalid operation identity tombstone")
    forM next.usedRetryIDs.entries
      (reloadTombstone "journal contains an invalid retry identity tombstone")
    let _ ← scan.operations.entries.foldlM (reloadReplacement scan.operations) ∅
    return { next with operations := scan.operations }

end

end MaltClient.Journal
