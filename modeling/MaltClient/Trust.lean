import MaltClient.Cid
import MaltClient.JsonObject
import MaltClient.LockedFile

/-! The trust store: accepted roots, candidates and observed heads of each
alias, in one file. -/

namespace MaltClient.Trust

open GoText Checked LockedFile

structure CandidateRoot where
  root : GoString
  baseRoot : GoString
  source : GoString
  observedAt : Int
  deriving DecidableEq, Repr

structure AcceptedRootState where
  root : GoString
  previousRoot : GoString
  source : GoString
  acceptedAt : Int
  deriving DecidableEq, Repr

structure ObservedHead where
  source : GoString
  datasetID : GoString
  branch : GoString
  commitID : GoString
  root : GoString
  revision : UInt64
  observedAt : Int
  deriving DecidableEq, Repr

structure RootState where
  aliasName : GoString
  profile : GoString
  gateway : GoString
  accepted : Option AcceptedRootState
  candidates : List CandidateRoot
  observedHeads : List ObservedHead
  deriving DecidableEq, Repr

abbrev Roots := AList fun _ : GoString => RootState

inductive TrustError where
  | notFound
  | noAcceptedRoot
  | candidateNotFound
  | observationNotFound
  | staleCandidate (format : String) (args : List GoString)
  | acceptedRootChanged (expected current : GoString)
  | staleObservation (observed stored : UInt64)
  | conflictingObservation (revision : UInt64)
  | cid
  | io
  | message (format : String) (args : List GoString)
  | wrapped (format : String) (args : List GoString) (cause : TrustError)
  deriving DecidableEq, Repr

def RootState.zero : RootState :=
  { aliasName := [], profile := [], gateway := [], accepted := none, candidates := [],
    observedHeads := [] }

section json

def CandidateRoot.json (c : CandidateRoot) : CandidateRoot :=
  { c with root := jsonText c.root, baseRoot := jsonText c.baseRoot, source := jsonText c.source }

def AcceptedRootState.json (a : AcceptedRootState) : AcceptedRootState :=
  { a with root := jsonText a.root, previousRoot := jsonText a.previousRoot,
           source := jsonText a.source }

def ObservedHead.json (o : ObservedHead) : ObservedHead :=
  { o with
    source := jsonText o.source
    datasetID := jsonText o.datasetID
    branch := jsonText o.branch
    commitID := jsonText o.commitID
    root := jsonText o.root }

/-- What `encoding/json` keeps of a record. -/
def RootState.json (v : RootState) : RootState :=
  { aliasName := jsonText v.aliasName
    profile := jsonText v.profile
    gateway := jsonText v.gateway
    accepted := v.accepted.map AcceptedRootState.json
    candidates := v.candidates.map CandidateRoot.json
    observedHeads := v.observedHeads.map ObservedHead.json }

def RootState.times (v : RootState) : List Int :=
  v.accepted.toList.map AcceptedRootState.acceptedAt ++ v.candidates.map CandidateRoot.observedAt ++
    v.observedHeads.map ObservedHead.observedAt

end json

def normalizeAlias (aliasName : GoString) : GoString := trimSpace aliasName

def removeCandidate (values : List CandidateRoot) (root : GoString) : List CandidateRoot :=
  values.filter fun value => value.root ≠ root

def observationKey (value : ObservedHead) : GoString :=
  value.source ++ .char (Char.ofNat 0) :: (value.datasetID ++ .char (Char.ofNat 0) :: value.branch)

def sortObservations (values : List ObservedHead) : List ObservedHead :=
  sortOn observationKey values

/-- The first observation of a stream is replaced. -/
def replaceObservation (incoming : ObservedHead) : List ObservedHead → List ObservedHead
  | [] => []
  | existing :: rest =>
    if observationKey existing = observationKey incoming then incoming :: rest
    else existing :: replaceObservation incoming rest

def upsertObservation (values : List ObservedHead) (incoming : ObservedHead) :
    Except TrustError (List ObservedHead) :=
  match values.find? fun existing => observationKey existing = observationKey incoming with
  | some existing => do
    reject (incoming.revision < existing.revision)
      (.staleObservation incoming.revision existing.revision)
    reject (incoming.revision = existing.revision ∧
      (incoming.commitID ≠ existing.commitID ∨ incoming.root ≠ existing.root))
      (.conflictingObservation incoming.revision)
    return sortObservations (replaceObservation incoming values)
  | none => return sortObservations (values ++ [incoming])

def acceptRoot (value : RootState) (root source : GoString) (acceptedAt : Int) : RootState :=
  match value.accepted with
  | none =>
    { value with
      accepted := some { root := root, previousRoot := [], source := source,
                         acceptedAt := acceptedAt }
      candidates := [] }
  | some accepted =>
    let previous := if accepted.root ≠ root then accepted.root else accepted.previousRoot
    { value with
      accepted := some { root := root, previousRoot := previous, source := source,
                         acceptedAt := acceptedAt }
      candidates := removeCandidate value.candidates root }

def acceptedRoot (accepted : Option AcceptedRootState) : Option GoString :=
  accepted.map AcceptedRootState.root

def position (n : Nat) : GoString := text (toString n)

section

variable [CidFormat]

def canonicalCID (raw : GoString) : Except TrustError GoString :=
  required .cid (CidFormat.canonical raw)

def canonicalOptionalCID (raw : GoString) : Except TrustError GoString :=
  if raw = [] then return [] else canonicalCID raw

def trimmedObservation (value : ObservedHead) : ObservedHead :=
  { value with
    source := trimSpace value.source
    datasetID := trimSpace value.datasetID
    branch := trimSpace value.branch
    commitID := trimSpace value.commitID
    root := trimSpace value.root }

def normalizeObservation (raw : ObservedHead) : Except TrustError ObservedHead := do
  let value := trimmedObservation raw
  reject (value.source = [] ∨ value.datasetID = [] ∨ value.branch = [])
    (.message "observed head source, dataset, and branch are required" [])
  if value.commitID = [] then
    reject (value.root ≠ [] ∨ value.revision ≠ 0)
      (.message "empty observed head has a partial commit tuple" [])
    return value
  else
    reject (value.root = [] ∨ value.revision = 0)
      (.message "observed head has an incomplete commit tuple" [])
    let root ← (canonicalCID value.root).mapError (.wrapped "observed head has invalid root: %w" [])
    return { value with root := root }

def normalizeAccepted (aliasName : GoString) (accepted : AcceptedRootState) :
    Except TrustError AcceptedRootState := do
  let root ← (canonicalCID accepted.root).mapError
    (.wrapped "trusted-root alias %q has invalid accepted root: %w" [aliasName])
  let previous ← (canonicalOptionalCID accepted.previousRoot).mapError
    (.wrapped "trusted-root alias %q has invalid previous root: %w" [aliasName])
  return { accepted with root := root, previousRoot := if previous = root then [] else previous }

/-- One round of the loop over the candidates of a record. -/
def normalizeCandidate (aliasName : GoString) (accepted : Option AcceptedRootState) (index : Nat)
    (candidate : CandidateRoot) : Except TrustError CandidateRoot := do
  let root ← (canonicalCID candidate.root).mapError
    (.wrapped "trusted-root alias %q candidate %d has invalid root: %w" [aliasName, position index])
  let baseRoot ← (canonicalOptionalCID candidate.baseRoot).mapError
    (.wrapped "trusted-root alias %q candidate %d has invalid base root: %w" [aliasName,
      position index])
  reject (accepted = none ∧ baseRoot ≠ [])
    (.message "trusted-root alias %q bootstrap candidate has a base root" [aliasName])
  reject (accepted ≠ none ∧ baseRoot = [])
    (.message "trusted-root alias %q candidate has no accepted base root" [aliasName])
  return { candidate with root := root, baseRoot := baseRoot }

def normalizeCandidates (aliasName : GoString) (accepted : Option AcceptedRootState) :
    Nat → List CandidateRoot → List CandidateRoot → Except TrustError (List CandidateRoot)
  | _, kept, [] => return kept
  | index, kept, candidate :: rest => do
    let candidate ← normalizeCandidate aliasName accepted index candidate
    if acceptedRoot accepted = some candidate.root then
      normalizeCandidates aliasName accepted (index + 1) kept rest
    else
      normalizeCandidates aliasName accepted (index + 1)
        (removeCandidate kept candidate.root ++ [candidate]) rest

def normalizeObservations (aliasName : GoString) :
    Nat → List ObservedHead → List ObservedHead → Except TrustError (List ObservedHead)
  | _, kept, [] => return kept
  | index, kept, observation :: rest => do
    reject (observation.observedAt = 0)
      (.message "trusted-root alias %q observation %d has no observation time" [aliasName,
        position index])
    let invalid :=
  TrustError.wrapped "trusted-root alias %q observation %d is invalid: %w" [aliasName,
    position index]
    let normalized ← (normalizeObservation observation).mapError invalid
    let kept ← (upsertObservation kept normalized).mapError invalid
    normalizeObservations aliasName (index + 1) kept rest

def normalizeRootState (aliasName : GoString) (value : RootState) :
    Except TrustError RootState := do
  reject (normalizeAlias aliasName = [] ∨ normalizeAlias aliasName ≠ aliasName)
    (.message "trust store contains invalid alias key %q" [aliasName])
  reject (normalizeAlias (if value.aliasName = [] then aliasName else value.aliasName) ≠ aliasName)
    (.message "trust-store alias %q contains mismatched identity %q" [aliasName, value.aliasName])
  let accepted ← value.accepted.mapM (normalizeAccepted aliasName)
  let candidates ← normalizeCandidates aliasName accepted 0 [] value.candidates
  let observedHeads ← normalizeObservations aliasName 0 [] value.observedHeads
  reject (accepted = none ∧ candidates = [] ∧ observedHeads = [])
    (.message "trusted-root alias %q has no accepted root, candidate, or observation" [aliasName])
  return { value with
    aliasName := aliasName
    accepted := accepted
    candidates := candidates
    observedHeads := observedHeads }

abbrev File := List (Σ _ : GoString, RootState)

def reloadLocked : Option File → Except TrustError Roots
  | none => return ∅
  | some file => do
    let roots ← required (.message "decode trust store: duplicate JSON object key" [])
      (JsonObject.decode file)
    roots.entries.foldlM (fun (roots : Roots) e => do
      let value ← normalizeRootState e.1 e.2
      return roots.replace e.1 value) roots

def writeLocked (roots : Roots) : Except TrustError File := do
  JsonObject.marshalTimes (.message JsonObject.yearRange [])
    (roots.entries.flatMap fun e => e.2.times)
  return JsonObject.encode RootState.json roots

def store : Store File Roots TrustError where
  read := reloadLocked
  write := writeLocked
  io := .io

def getState (aliasName : GoString) (disk : Option File) : Except TrustError RootState := do
  let roots ← reloadLocked disk
  required .notFound (roots.lookup (normalizeAlias aliasName))

/-- The record of an alias, to be edited. -/
def rootState (aliasName : GoString) (roots : Roots) : RootState :=
  { (roots.lookup aliasName).getD .zero with aliasName := aliasName }

abbrev Revision := LockedFile.Revision Roots TrustError RootState

def put (aliasName : GoString) (value : RootState) (roots : Roots) : Option Roots × RootState :=
  (some (roots.insert aliasName value), value)

def trust (aliasName root profile gateway source : GoString) (now : Int) :
    Except TrustError Revision := do
  let aliasName := normalizeAlias aliasName
  reject (aliasName = []) (.message "trusted-root alias is empty" [])
  let root ← (canonicalCID root).mapError (.wrapped "invalid trusted root: %w" [])
  return fun roots =>
    let value := { rootState aliasName roots with profile := profile, gateway := gateway }
    return put aliasName (acceptRoot value root source now) roots

/-- The check that a candidate is based on the accepted root. -/
def requireCurrentBase (accepted : Option AcceptedRootState) (baseRoot : GoString) :
    Except TrustError Unit :=
  match accepted with
  | none =>
    reject (baseRoot ≠ []) (.staleCandidate "bootstrap candidate has unexpected base %s" [baseRoot])
  | some accepted => reject (baseRoot ≠ accepted.root)
      (.staleCandidate "candidate base %q, accepted root %s" [baseRoot, accepted.root])

def addCandidateLocked (aliasName root baseRoot source : GoString) (now : Int) : Revision :=
  fun roots => do
  let value := rootState aliasName roots
  requireCurrentBase value.accepted baseRoot
  if acceptedRoot value.accepted = some root then return (none, value)
  else
    let candidate :
      CandidateRoot := { root := root, baseRoot := baseRoot, source := source, observedAt := now }
    return put aliasName { value with candidates := removeCandidate value.candidates root ++
      [candidate] } roots

def candidateBase (baseRoot : GoString) : Except TrustError GoString :=
  if trimSpace baseRoot = [] then return []
  else (canonicalCID baseRoot).mapError (.wrapped "invalid candidate base root: %w" [])

def addCandidate (aliasName root baseRoot source : GoString) (now : Int) :
    Except TrustError Revision := do
  let aliasName := normalizeAlias aliasName
  reject (aliasName = []) (.message "candidate alias is empty" [])
  let root ← (canonicalCID root).mapError (.wrapped "invalid candidate root: %w" [])
  let baseRoot ← candidateBase baseRoot
  return addCandidateLocked aliasName root baseRoot source now

def observeHead (aliasName : GoString) (observation : ObservedHead) (now : Int) :
    Except TrustError Revision := do
  let aliasName := normalizeAlias aliasName
  reject (aliasName = []) (.message "observed-head alias is empty" [])
  let observation ← normalizeObservation observation
  return fun roots => do
    let value := rootState aliasName roots
    let observedHeads ← upsertObservation value.observedHeads { observation with observedAt := now }
    return put aliasName { value with observedHeads := observedHeads } roots

/-- The check that a candidate may be promoted. -/
def requirePromotable (accepted : Option AcceptedRootState) (candidate : CandidateRoot) :
    Except TrustError Unit :=
  match accepted with
  | none =>
    reject (candidate.baseRoot ≠ [])
      (.staleCandidate "bootstrap candidate base %q" [candidate.baseRoot])
  | some accepted => reject (candidate.baseRoot = [] ∨ candidate.baseRoot ≠ accepted.root)
      (.staleCandidate "candidate base %q, accepted root %s" [candidate.baseRoot, accepted.root])

def acceptCandidateLocked (aliasName root source : GoString) (now : Int) : Revision :=
  fun roots => do
  let value ← required .notFound (roots.lookup aliasName)
  let candidate ← required .candidateNotFound (value.candidates.find? fun item => item.root = root)
  requirePromotable value.accepted candidate
  return put aliasName (acceptRoot value root source now) roots

def acceptCandidate (aliasName root source : GoString) (now : Int) :
    Except TrustError Revision := do
  let root ← (canonicalCID root).mapError (.wrapped "invalid candidate root: %w" [])
  return acceptCandidateLocked (normalizeAlias aliasName) root source now

def acceptObservedLocked (aliasName root profile gateway source : GoString) (now : Int) :
    Revision := fun roots => do
  let value ← required .notFound (roots.lookup aliasName)
  reject ((value.observedHeads.any fun observation => observation.root = root) = false)
    .observationNotFound
  return put aliasName (acceptRoot { value with profile := profile, gateway := gateway } root
    source now) roots

def acceptObserved (aliasName root profile gateway source : GoString) (now : Int) :
    Except TrustError Revision := do
  let root ← (canonicalCID root).mapError (.wrapped "invalid observed root: %w" [])
  return acceptObservedLocked (normalizeAlias aliasName) root profile gateway source now

end

inductive Call where
  | trust (aliasName root profile gateway source : GoString) (now : Int)
  | addCandidate (aliasName root baseRoot source : GoString) (now : Int)
  | observeHead (aliasName : GoString) (observation : ObservedHead) (now : Int)
  | acceptCandidate (aliasName root source : GoString) (now : Int)
  | acceptObserved (aliasName root profile gateway source : GoString) (now : Int)

variable [CidFormat]

def Call.prepare : Call → Except TrustError Revision
  | .trust aliasName root profile gateway source now =>
    Trust.trust aliasName root profile gateway source now
  | .addCandidate aliasName root baseRoot source now =>
    Trust.addCandidate aliasName root baseRoot source now
  | .observeHead aliasName observation now => Trust.observeHead aliasName observation now
  | .acceptCandidate aliasName root source now => Trust.acceptCandidate aliasName root source now
  | .acceptObserved aliasName root profile gateway source now =>
    Trust.acceptObserved aliasName root profile gateway source now

/-- One call on the trust-store file, with what it returns. -/
def Call.exec (call : Call) (fault : Fault) (disk : Option File) :
    Option File × Except TrustError RootState :=
  match call.prepare with
  | .error e => (disk, .error e)
  | .ok revision => store.revise fault revision disk

/-- The file after a sequence of calls. -/
def runCalls (calls : List (Call × Fault)) (disk : Option File) : Option File :=
  calls.foldl (fun disk c => (c.1.exec c.2 disk).1) disk

end MaltClient.Trust
