import MaltClient.Journal
import MaltClient.Saturation

/-! The calls that change the journal. Each one checks its arguments, then
edits the reloaded state under the file lock; the edited state is written back
as one file. Every reading of the wall clock is an argument. -/

namespace MaltClient.Journal

open GoText Checked AssocMap
open LockedFile (Fault)
open JsonObject (marshalable)

/-- What `encoding/json` keeps of a record. -/
def jsonOperation (op : Operation) : Operation :=
  { op with
    operationID := jsonText op.operationID
    retryID := jsonText op.retryID
    datasetID := jsonText op.datasetID
    branch := jsonText op.branch
    baseRoot := jsonText op.baseRoot
    path := jsonText op.path
    destination := jsonText op.destination
    payloadCID := jsonText op.payloadCID
    conflictID := jsonText op.conflictID
    resultRoot := jsonText op.resultRoot
    replacementOperationID := jsonText op.replacementOperationID }

def writeLocked (s : PersistedState) : Except JournalError PersistedState := do
  forM s.operations.entries fun e =>
    reject (¬ (marshalable e.2.createdAt ∧ marshalable e.2.updatedAt))
      (.message JsonObject.yearRange [])
  return { s with version := journalVersion, operations := mapValues jsonOperation s.operations }

abbrev Edit (α : Type) := LockedFile.Edit PersistedState JournalError α

def normalizeOperationIDs (values : List GoString) : Except JournalError (List GoString) := do
  reject (values = []) (.message "journal operation batch is empty" [])
  values.foldlM (fun ids value => do
    let value := trimSpace value
    reject (value = [] ∨ ¬ validString value = true ∨ containsRune value nul = true)
      (.message "journal operation identity is empty or invalid" [])
    reject (value ∈ ids) (.message "journal operation batch contains duplicate identity %q" [value])
    return ids ++ [value]) []

def newOperation (now : Int) (intent : Intent) (initial : Status) (s : PersistedState) :
    Operation :=
  { toIntent := intent, sequence := s.nextSequence, status := initial, conflictID := [],
    resultRoot := [], replacementOperationID := [], createdAt := now, updatedAt := now }

/-- The state with a new record, its two tombstones and the next sequence
number. -/
def PersistedState.add (s : PersistedState) (op : Operation) : PersistedState :=
  { s with
    nextSequence := s.nextSequence + 1
    operations := s.operations.insert op.operationID op
    usedOperationIDs := s.usedOperationIDs.insert op.operationID true
    usedRetryIDs := s.usedRetryIDs.insert op.retryID true }

def appendLocked (now : Int) (intent : Intent) (initial : Status) : Edit Operation := fun s =>
  match s.operations.lookup intent.operationID with
  | some existing =>
    if existing.toIntent ≠ intent then throw .identityReuse else return (s, existing)
  | none => do
    reject (s.usedOperationIDs.lookup intent.operationID = some true ∨
      s.usedRetryIDs.lookup intent.retryID = some true) .identityReuse
    let result := newOperation now intent initial s
    return (s.add result, result)

def transitionLocked (operationID : GoString) (next : Status) (conflictID resultRoot : GoString)
    (now : Int) : Edit Operation := fun s => do
  let operation ← required .notFound (s.operations.lookup operationID)
  if operation.status = next then
    reject (operation.conflictID ≠ conflictID ∨ operation.resultRoot ≠ resultRoot) .identityReuse
    return (s, operation)
  else
    reject (allowedStatusTransition operation.status next = false)
      (if operation.status = .pendingUpload ∧ next = .offlineOnly then .requestFrozen
        else .invalidStatus operation.status next)
    let operation :=
      { operation with
          status := next, conflictID := conflictID, resultRoot := resultRoot, updatedAt := now }
    return ({ s with operations := s.operations.insert operationID operation }, operation)

def selectForBatch (s : PersistedState) (allow : Operation → Except JournalError Unit)
    (id : GoString) : Except JournalError Operation := do
  let operation ← required .notFound (s.operations.lookup id)
  allow operation
  return operation

def settled (next : Status) (settle : Operation → Operation) (now : Int) (op : Operation) :
    Operation :=
  { settle op with status := next, updatedAt := now }

/-- The three batch calls: every record is admitted before any is changed, and
those already in the wanted status are left alone. -/
def batchLocked (next : Status) (allow : Operation → Except JournalError Unit)
    (settle : Operation → Operation) (ids : List GoString) (now : Int) :
    Edit (List Operation) := fun s => do
  let selected ← ids.mapM (selectForBatch s allow)
  let changed := (selected.filter fun op => op.status ≠ next).map fun op =>
    (op.operationID, settled next settle now op)
  let result := selected.map fun op => if op.status ≠ next then settled next settle now op else op
  return ({ s with operations := insertAll s.operations changed },
    result.insertionSort fun a b => a.sequence ≤ b.sequence)

def admitFreeze (operation : Operation) : Except JournalError Unit :=
  match operation.status with
  | .localDirty | .offlineOnly | .pendingUpload => return ()
  | current => throw (.invalidStatus current .pendingUpload)

def admitConflict (conflictID : GoString) (operation : Operation) : Except JournalError Unit :=
  if operation.status = .conflicted then reject (operation.conflictID ≠ conflictID) .identityReuse
  else reject (operation.status ≠ .pendingUpload) (.invalidStatus operation.status .conflicted)

def admitComplete (root : GoString) (operation : Operation) : Except JournalError Unit :=
  if operation.status = .completed then reject (operation.resultRoot ≠ root) .identityReuse
  else reject (operation.status ≠ .pendingUpload) (.invalidStatus operation.status .completed)

def Operation.supersede (op : Operation) (replacement : GoString) (now : Int) : Operation :=
  { op with status := .superseded, replacementOperationID := replacement, updatedAt := now }

def resolveLocked (operationID : GoString) (replacement : Intent) (initial : Status)
    (appendedAt supersededAt : Int) : Edit (Operation × Operation) := fun s => do
  let current ← required .notFound (s.operations.lookup operationID)
  if current.status = .superseded then
    reject (current.replacementOperationID ≠ replacement.operationID) .identityReuse
    let existing ← required .identityReuse (s.operations.lookup replacement.operationID)
    reject (existing.toIntent ≠ replacement) .identityReuse
    return (s, current, existing)
  else
    reject (current.status ≠ .conflicted) (.invalidStatus current.status .superseded)
    reject (replacement.datasetID ≠ current.datasetID ∨ replacement.branch ≠ current.branch)
      (.message "replacement operation changes dataset or branch identity" [])
    reject ((s.operations.lookup replacement.operationID).isSome = true) .identityReuse
    let (s, next) ← appendLocked appendedAt replacement initial s
    let current := current.supersede next.operationID supersededAt
    return ({ s with operations := s.operations.insert operationID current }, current, next)

/-- A superseded record joins the selection once its replacement is selected. -/
def joinsPruned (selected : List GoString) (e : Sigma fun _ : GoString => Operation) : Bool :=
  e.2.status = .superseded && decide (e.2.replacementOperationID ∈ selected)

def completedIDs (s : PersistedState) : List GoString :=
  (s.operations.entries.filter fun e => e.2.status = .completed).map Sigma.fst

def prunedIDs (s : PersistedState) : List GoString :=
  Saturation.saturate joinsPruned Sigma.fst s.operations.entries (s.operations.entries.length + 1)
    (completedIDs s)

def pruneLocked : Edit Nat := fun s =>
  return ({ s with operations := eraseAll s.operations (prunedIDs s) }, (prunedIDs s).length)

section

variable [CidFormat]

def store : LockedFile.Store PersistedState PersistedState JournalError :=
  { read := reloadLocked, write := writeLocked, io := .io }

def initialStatus (initial : Status) (message : String) : Except JournalError Unit :=
  reject (initial ≠ .localDirty ∧ initial ≠ .offlineOnly) (.message message [])

def append (intent : Intent) (initial : Status) (now : Int) :
    Except JournalError (Edit Operation) := do
  let intent ← normalizeIntent intent
  initialStatus initial "new journal operation must be local_dirty or offline_only"
  return appendLocked now intent initial

def transition (operationID : GoString) (next : Status) (conflictID resultRoot : GoString)
    (now : Int) : Except JournalError (Edit Operation) := do
  let operationID := trimSpace operationID
  reject (operationID = [] ∨ ¬ validString operationID = true)
    (.message "journal operation identity is empty" [])
  return transitionLocked operationID next conflictID resultRoot now

def normalizeConflictID (conflictID : GoString) : Except JournalError GoString := do
  let conflictID := trimSpace conflictID
  reject (conflictID = [] ∨ ¬ validString conflictID = true)
    (.message "journal conflict identity is empty or not valid UTF-8" [])
  return conflictID

def freezeForUpload (operationID : GoString) (now : Int) : Except JournalError (Edit Operation) :=
  transition operationID .pendingUpload [] [] now

def markOffline (operationID : GoString) (now : Int) : Except JournalError (Edit Operation) :=
  transition operationID .offlineOnly [] [] now

def markConflicted (operationID conflictID : GoString) (now : Int) :
    Except JournalError (Edit Operation) := do
  let conflictID ← normalizeConflictID conflictID
  transition operationID .conflicted conflictID [] now

def complete (operationID resultRoot : GoString) (now : Int) :
    Except JournalError (Edit Operation) := do
  let root ← within "journal result root: %w" (parseCid (trimSpace resultRoot))
  transition operationID .completed [] root now

def freezeBatchForUpload (operationIDs : List GoString) (now : Int) :
    Except JournalError (Edit (List Operation)) := do
  let ids ← normalizeOperationIDs operationIDs
  return batchLocked .pendingUpload admitFreeze id ids now

def markBatchConflicted (operationIDs : List GoString) (conflictID : GoString) (now : Int) :
    Except JournalError (Edit (List Operation)) := do
  let ids ← normalizeOperationIDs operationIDs
  let conflictID ← normalizeConflictID conflictID
  return batchLocked .conflicted (admitConflict conflictID)
    (fun op => { op with conflictID := conflictID })
    ids now

def completeBatch (operationIDs : List GoString) (resultRoot : GoString) (now : Int) :
    Except JournalError (Edit (List Operation)) := do
  let ids ← normalizeOperationIDs operationIDs
  let root ← within "journal result root: %w" (parseCid (trimSpace resultRoot))
  return batchLocked .completed (admitComplete root)
    (fun op => { op with resultRoot := root }) ids now

def resolveConflict (operationID : GoString) (replacement : Intent) (initial : Status)
    (appendedAt supersededAt : Int) : Except JournalError (Edit (Operation × Operation)) := do
  let operationID := trimSpace operationID
  reject (operationID = [] ∨ ¬ validString operationID = true)
    (.message "journal operation identity is empty" [])
  let replacement ← normalizeIntent replacement
  initialStatus initial "replacement operation must be local_dirty or offline_only"
  reject (replacement.operationID = operationID) .identityReuse
  return resolveLocked operationID replacement initial appendedAt supersededAt

end

inductive Call where
  | append (intent : Intent) (initial : Status) (now : Int)
  | freezeForUpload (operationID : GoString) (now : Int)
  | freezeBatchForUpload (operationIDs : List GoString) (now : Int)
  | markOffline (operationID : GoString) (now : Int)
  | markConflicted (operationID conflictID : GoString) (now : Int)
  | markBatchConflicted (operationIDs : List GoString) (conflictID : GoString) (now : Int)
  | resolveConflict (operationID : GoString) (replacement : Intent) (initial : Status)
      (appendedAt supersededAt : Int)
  | complete (operationID resultRoot : GoString) (now : Int)
  | completeBatch (operationIDs : List GoString) (resultRoot : GoString) (now : Int)
  | pruneCompleted

inductive Reply where
  | one (operation : Operation)
  | batch (operations : List Operation)
  | resolved (original replacement : Operation)
  | pruned (removed : Nat)
  deriving DecidableEq

def Edit.reply {α : Type} (wrap : α → Reply) (edit : Edit α) : Edit Reply := fun s => do
  let (s, a) ← edit s
  return (s, wrap a)

variable [CidFormat]

def Call.prepare : Call → Except JournalError (Edit Reply)
  | .append intent initial now => (Journal.append intent initial now).map (Edit.reply .one)
  | .freezeForUpload id now => (Journal.freezeForUpload id now).map (Edit.reply .one)
  | .freezeBatchForUpload ids now => (Journal.freezeBatchForUpload ids now).map (Edit.reply .batch)
  | .markOffline id now => (Journal.markOffline id now).map (Edit.reply .one)
  | .markConflicted id conflict now =>
    (Journal.markConflicted id conflict now).map (Edit.reply .one)
  | .markBatchConflicted ids conflict now =>
    (Journal.markBatchConflicted ids conflict now).map (Edit.reply .batch)
  | .resolveConflict id replacement initial appendedAt supersededAt =>
    (Journal.resolveConflict id replacement initial appendedAt supersededAt).map
      (Edit.reply fun r => .resolved r.1 r.2)
  | .complete id root now => (Journal.complete id root now).map (Edit.reply .one)
  | .completeBatch ids root now => (Journal.completeBatch ids root now).map (Edit.reply .batch)
  | .pruneCompleted => return Edit.reply .pruned pruneLocked

/-- One call on the journal file, with what it returns. -/
def Call.exec (call : Call) (fault : Fault) (disk : Option PersistedState) :
    Option PersistedState × Except JournalError Reply :=
  match call.prepare with
  | .error e => (disk, .error e)
  | .ok edit => store.update fault edit disk

/-- The journal file after a sequence of calls. -/
def runCalls (calls : List (Call × Fault)) (disk : Option PersistedState) : Option PersistedState :=
  calls.foldl (fun disk c => (c.1.exec c.2 disk).1) disk

end MaltClient.Journal
