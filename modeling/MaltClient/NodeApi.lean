import MaltClient.BucketBranch
import MaltClient.Cid

/-! The dataset interface of a node: observed heads, apply requests and
results, and the checks that the client makes on them. -/

namespace MaltClient.NodeApi

open GoText Checked
open BucketBranch (mainBranch normalizeSelector refName)

inductive ApiError where
  | branch (raw : GoString)
  | cid
  | message (format : String) (args : List GoString)
  | wrapped (format : String) (cause : ApiError)
  deriving DecidableEq, Repr

inductive RefKind where
  | main
  | explicit
  | conflict
  | other (name : GoString)
  deriving DecidableEq, Repr

inductive RefState where
  | opened
  | other (name : GoString)
  deriving DecidableEq, Repr

structure ObservedHead where
  datasetID : GoString
  name : GoString
  kind : RefKind
  state : RefState
  commitID : GoString
  root : GoString
  revision : UInt64
  createdBy : GoString
  /-- Nanoseconds since Go's zero time. -/
  createdAt : Int
  updatedAt : Int
  deriving DecidableEq, Repr

structure Commit where
  id : GoString
  datasetID : GoString
  root : GoString
  parents : List GoString
  baseRoot : GoString
  author : GoString
  credential : GoString
  changeSetCID : GoString
  message : GoString
  createdAt : Int
  deriving DecidableEq, Repr

structure Conflict where
  coordinate : GoString
  base : GoString
  localRoot : GoString
  remote : GoString
  deriving DecidableEq, Repr

structure ApplyRequest where
  operationID : GoString
  branch : GoString
  baseCommit : GoString
  baseRoot : GoString
  candidateRoot : GoString
  baseRevision : UInt64
  changeSetCID : GoString
  message : GoString
  mergePolicy : GoString
  deriving DecidableEq, Repr

inductive ApplyStatus where
  | fastForward
  | merged
  | branched
  | other (name : GoString)
  deriving DecidableEq, Repr

structure ApplyResult where
  status : ApplyStatus
  head : ObservedHead
  candidate : Commit
  commit : Commit
  branch : Option ObservedHead
  mergeBase : GoString
  conflicts : List Conflict
  deriving DecidableEq, Repr

def normalizeBranch (raw : GoString) : Except ApiError GoString :=
  (normalizeSelector raw).mapError fun e => .branch e.raw

def preserve : GoString := text "preserve"

section

variable [CidFormat]

def parseCid (s : GoString) : Except ApiError GoString := required .cid (CidFormat.canonical s)

/-- An optional identifier in canonical spelling. -/
def parseOptionalCid (s : GoString) : Except ApiError GoString :=
  if s = [] then return [] else parseCid s

def ApplyRequest.trimmed (request : ApplyRequest) : ApplyRequest :=
  { request with
    operationID := trimSpace request.operationID
    baseCommit := trimSpace request.baseCommit
    baseRoot := trimSpace request.baseRoot
    candidateRoot := trimSpace request.candidateRoot
    changeSetCID := trimSpace request.changeSetCID
    message := trimSpace request.message
    mergePolicy := trimSpace request.mergePolicy }

def normalizeApplyRequest (selectedBranch : GoString) (request : ApplyRequest) :
    Except ApiError ApplyRequest := do
  let request := request.trimmed
  reject (request.mergePolicy ≠ [] ∧ request.mergePolicy ≠ preserve)
    (.message "merge policy must be empty or preserve" [])
  let branch ← normalizeBranch request.branch
  let selectedBranch ← normalizeBranch selectedBranch
  reject (request.branch ≠ [] ∧ branch ≠ selectedBranch)
    (.message "dataset apply branch %q does not match selected branch %q" [branch, selectedBranch])
  reject (request.operationID = [] ∨ 256 < (bytes request.operationID).length)
    (.message "dataset apply operation ID must contain 1..256 bytes" [])
  let candidate ← (parseCid request.candidateRoot).mapError (.wrapped "invalid candidate root: %w")
  reject ((request.baseCommit = [] ↔ request.baseRoot ≠ []) ∨
    (request.baseCommit = [] ↔ request.baseRevision ≠ 0))
    (.message "dataset base commit, root, and non-zero revision must be supplied together" [])
  let base ← (parseOptionalCid request.baseRoot).mapError (.wrapped "invalid base root: %w")
  let changeSet ← (parseOptionalCid request.changeSetCID).mapError
    (.wrapped "invalid change-set CID: %w")
  return { request with
    branch := if selectedBranch = mainBranch then [] else selectedBranch
    candidateRoot := candidate
    baseRoot := base
    changeSetCID := changeSet }

def validateObservedHead (datasetID branch : GoString) (value : ObservedHead) :
    Except ApiError Unit := do
  let wantName ← (refName branch).mapError fun e => .branch e.raw
  let wantKind : RefKind := if wantName = mainBranch then .main else .explicit
  reject (trimSpace datasetID = [] ∨ value.datasetID ≠ datasetID ∨ value.name ≠ wantName ∨
    value.kind ≠ wantKind ∨
      value.state ≠ .opened)
    (.message "remote returned an invalid dataset %s head" [branch])
  if value.commitID = [] then
    reject (value.root ≠ [] ∨ value.revision ≠ 0)
      (.message "remote returned an invalid empty dataset head" [])
  else
    reject (value.root = [] ∨ value.revision = 0)
      (.message "remote returned an invalid dataset head tuple" [])
    reject (CidFormat.canonical value.root = none)
      (.message "remote returned an invalid dataset head root" [])

def validateCommit (datasetID : GoString) (value : Commit) : Except ApiError Unit := do
  reject (value.id = [] ∨ value.datasetID ≠ datasetID)
    (.message "commit identity does not match the selected dataset" [])
  reject (CidFormat.canonical value.root = none) (.message "invalid commit root" [])
  reject (value.baseRoot ≠ [] ∧ CidFormat.canonical value.baseRoot = none)
    (.message "invalid commit base root" [])
  reject (value.changeSetCID ≠ [] ∧ CidFormat.canonical value.changeSetCID = none)
    (.message "invalid commit change-set CID" [])
  let _ ← value.parents.foldlM (fun seen parent => do
    reject (parent = [] ∨ parent = value.id) (ApiError.message "invalid commit parent" [])
    reject (parent ∈ seen) (.message "duplicate commit parent" [])
    return parent :: seen) []
  return ()

def candidateParentsMatchRequest (candidate : Commit) (request : ApplyRequest)
    (allowMissing : Bool) : Bool :=
  if request.baseCommit = [] then candidate.parents.isEmpty
  else candidate.parents = [request.baseCommit] || (allowMissing && candidate.parents.isEmpty)

def validateConflictRef (datasetID : GoString) (value : ObservedHead) : Except ApiError Unit := do
  let nameParts := split value.name
  reject (value.datasetID ≠ datasetID ∨ value.kind ≠ .conflict ∨ value.state ≠ .opened ∨
    nameParts.length ≠ 3 ∨
      nameParts.head? ≠ some (text "conflicts") ∨ [] ∈ nameParts.tail)
    (.message "remote returned an invalid dataset conflict ref" [])
  reject (value.commitID = [] ∨ value.root = [] ∨ value.revision = 0)
    (.message "remote returned an empty dataset conflict ref" [])
  reject (CidFormat.canonical value.root = none)
    (.message "remote returned an invalid dataset conflict ref root" [])

end

def refPointsToCommit (ref : ObservedHead) (commit : Commit) : Bool :=
  ref.datasetID = commit.datasetID && ref.commitID = commit.id && ref.root = commit.root

/-- The parents of a merge commit: the remote side, then the candidate. -/
def mergeParents (candidate commit : Commit) : Bool :=
  match commit.parents with
  | [first, second] => first ≠ [] && first ≠ candidate.id && second = candidate.id
  | _ => false

variable [CidFormat]

/-- What `ValidateApplyResult` asks of each status. -/
def validateOutcome (datasetID : GoString) (request : ApplyRequest) (value : ApplyResult) :
    Except ApiError Unit :=
  match value.status with
  | .fastForward => do
    reject (value.branch ≠ none ∨ value.conflicts ≠ [] ∨ value.mergeBase ≠ [] ∨
      value.head.commitID = [])
      (.message "remote returned an inconsistent fast-forward dataset apply" [])
    reject (value.candidate ≠ value.commit ∨ value.commit.root ≠ request.candidateRoot)
      (.message "remote returned a fast-forward result for a different candidate" [])
    reject (refPointsToCommit value.head value.commit = false)
      (.message "remote returned a fast-forward head that does not point to the final commit" [])
  | .merged => do
    reject (request.mergePolicy = preserve)
      (.message "remote merged a candidate despite preserve policy" [])
    reject (value.branch ≠ none ∨ value.conflicts ≠ [] ∨ value.candidate.id = value.commit.id ∨
      value.head.commitID = [])
      (.message "remote returned an inconsistent merged dataset apply" [])
    reject (value.mergeBase ≠ request.baseRoot)
      (.message "remote returned a merge result for a different base" [])
    reject (mergeParents value.candidate value.commit = false)
      (.message "remote returned a merge commit with inconsistent parents" [])
    reject (value.commit.baseRoot = [])
      (.message "remote returned a merge commit without its remote base root" [])
    reject (refPointsToCommit value.head value.commit = false)
      (.message "remote returned a merged head that does not point to the final commit" [])
  | .branched => do
    let inconsistent : ApiError :=
      .message "remote returned an inconsistent conflicted dataset apply" []
    let branch ← required inconsistent value.branch
    reject (value.candidate ≠ value.commit ∨ value.conflicts = [] ∨
      value.mergeBase ≠ request.baseRoot) inconsistent
    validateConflictRef datasetID branch
    reject (refPointsToCommit branch value.candidate = false)
      (.message "remote returned a conflict branch that does not preserve the candidate" [])
  | .other name => throw (.message "remote returned unsupported dataset apply status %q" [name])

def validateApplyResult (datasetID : GoString) (request : ApplyRequest) (value : ApplyResult) :
    Except ApiError Unit := do
  let request ← normalizeApplyRequest request.branch request
  validateObservedHead datasetID request.branch value.head
  (validateCommit datasetID value.candidate).mapError
    (.wrapped "remote returned an invalid dataset candidate: %w")
  (validateCommit datasetID value.commit).mapError
    (.wrapped "remote returned an invalid final dataset commit: %w")
  reject (value.candidate.root ≠ request.candidateRoot)
    (.message "remote returned a dataset candidate for a different root" [])
  reject (value.candidate.baseRoot ≠ request.baseRoot)
    (.message "remote returned a dataset candidate for a different base root" [])
  reject (value.candidate.changeSetCID ≠ request.changeSetCID ∨ value.candidate.message ≠
    request.message)
    (.message "remote returned a dataset candidate for different apply metadata" [])
  reject (candidateParentsMatchRequest value.candidate request (value.status = .branched) = false)
    (.message "remote returned a dataset candidate with inconsistent parents" [])
  validateOutcome datasetID request value

end MaltClient.NodeApi
