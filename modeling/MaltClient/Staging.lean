import MaltClient.Cache
import MaltClient.StagedPath

/-! The staging service's overlay. A path is looked up through the journaled
operations of a view, newest first, down to the verified base; a listing
gathers names from the base and from the operations and looks each one up. -/

namespace MaltClient.Staging

open GoText Checked AssocMap
open Journal (Operation PersistedState)

inductive FileKind where
  | dir
  | file
  deriving DecidableEq, Repr

inductive FsError where
  | notFound
  | notDirectory
  | notFile
  | alreadyExists
  | notEmpty
  | path (e : StagedPath.PathError)
  | journal (e : Journal.JournalError)
  | cache (e : Cache.CacheError)
  | message (format : String) (args : List GoString)
  | other (text : GoString)
  deriving DecidableEq, Repr

structure DirEntry where
  name : GoString
  kind : FileKind
  deriving DecidableEq, Repr

def isWithin (value ancestor : GoString) : Bool :=
  ancestor = [] || value = ancestor || hasPrefix value (ancestor ++ [slash])

def isStrictDescendant (value ancestor : GoString) : Bool :=
  value ≠ ancestor && isWithin value ancestor

def joinPath (parent name : GoString) : GoString :=
  if parent = [] then name else if name = [] then parent else parent ++ slash :: name

def trimPrefix (s p : GoString) : GoString := if hasPrefix s p then s.drop p.length else s

def replacePrefix (value source target : GoString) : GoString :=
  if value = source then target else joinPath target (trimPrefix value (source ++ [slash]))

def forwardPath : GoString → List Operation → Option GoString
  | current, [] => some current
  | current, operation :: newer =>
    match operation.kind with
    | .unlink => if isWithin current operation.path then none else forwardPath current newer
    | .write =>
      if isStrictDescendant current operation.path then none else forwardPath current newer
    | .rename =>
      if isWithin current operation.path then
        forwardPath (replacePrefix current operation.path operation.destination) newer
      else if isWithin current operation.destination then none
      else forwardPath current newer
    | _ => forwardPath current newer

/-- The candidate names are a set, kept as a list without repetitions. -/
def addImmediateCandidate (candidates : List GoString) (parent value : GoString) : List GoString :=
  if value = parent ∨ isWithin value parent = false then candidates
  else
    let relative := if parent ≠ [] then trimPrefix value (parent ++ [slash]) else value
    let name := relative.takeWhile (· ≠ slash)
    if name ≠ [] then candidates.insert name else candidates

def operationTargets (operation : Operation) : List GoString :=
  match operation.kind with
  | .write | .mkdir => [operation.path]
  | .rename => [operation.destination]
  | _ => []

def addForwarded (candidates : List GoString) (parent path : GoString) (newer : List Operation) :
    List GoString :=
  match forwardPath path newer with
  | none => candidates
  | some current => addImmediateCandidate candidates parent current

/-- The names that the operations put into a directory, oldest first, each one
followed through the operations after it. -/
def addTargets (parent : GoString) : List Operation → List GoString → List GoString
  | [], candidates => candidates
  | operation :: newer, candidates =>
    addTargets parent newer
      ((operationTargets operation).foldl (fun cs target => addForwarded cs parent target newer)
        candidates)

def sortNames (names : List GoString) : List GoString :=
  names.insertionSort fun a b => leBytes (bytes a) (bytes b) = true

def sortOperations (operations : List Operation) : List Operation :=
  operations.insertionSort fun a b => a.sequence ≤ b.sequence

def canonicalPath (raw : GoString) (allowRoot : Bool) : Except FsError GoString :=
  if raw = [] ∧ allowRoot = true then return []
  else do
    let segments ← (StagedPath.parseCanonicalStagedPath raw).mapError .path
    reject (segments = []) (.message "filesystem staging path must not be root" [])
    return join segments

section

variable [CidFormat]

structure View where
  datasetID : GoString
  branch : GoString
  root : Option Cid
  revision : UInt64
  encryptionEpoch : UInt32
  deriving DecidableEq

structure Info where
  path : GoString
  name : GoString
  kind : FileKind
  payload : Option Cid
  size : Nat

structure ResolvedNode where
  info : Info
  isLocal : Bool
  remotePath : GoString
  binding : Option Cache.Binding
  createdAt : Nat

/-- The verified immutable file system below the overlay. -/
structure Base where
  stat : View → GoString → Except FsError Info
  readDir : View → GoString → Except FsError (List DirEntry)

/-- The parts of a service that do not change while it runs. -/
structure Service where
  base : Base
  maxFile : Nat
  maxFile_le : maxFile ≤ Cache.maxInt

/-- The files that the service owns. -/
structure Disk where
  journal : Option PersistedState
  cache : Cache.Store

def defaultMaxStagedFileBytes : Nat := 256 * 2 ^ 20

def Service.stagedFileLimit (service : Service) : Nat :=
  if service.maxFile ≠ 0 then service.maxFile else defaultMaxStagedFileBytes

theorem Service.stagedFileLimit_le (service : Service) :
    service.stagedFileLimit ≤ Cache.maxInt := by
  unfold stagedFileLimit
  split_ifs
  · exact service.maxFile_le
  · decide

def validateIdentity (name : String) (value : GoString) : Except FsError Unit :=
  reject (value = [] ∨ trimSpace value ≠ value ∨ ¬ validString value = true ∨
      containsRune value nul = true)
    (.message "filesystem staging View %s identity is empty or not canonical UTF-8"
      [GoText.text name])

def validateView (view : View) : Except FsError Cid := do
  validateIdentity "dataset" view.datasetID
  validateIdentity "branch" view.branch
  required (.message "filesystem staging View is incomplete" []) view.root

def belongsTo (view : View) (root : Cid) (operation : Operation) : Bool :=
  operation.status ≠ .superseded && operation.datasetID = view.datasetID && operation.branch =
    view.branch &&
    operation.baseRoot = root.spelling && operation.baseRevision = view.revision &&
    operation.encryptionEpoch = view.encryptionEpoch

def listOperations (disk : Option PersistedState) : Except FsError (List Operation) := do
  let state ← (Journal.reloadLocked disk).mapError .journal
  return sortOperations (state.operations.entries.map Sigma.snd)

def operations (disk : Option PersistedState) (view : View) : Except FsError (List Operation) := do
  let root ← validateView view
  let all ← listOperations disk
  return sortOperations (all.filter (belongsTo view root))

def bindingFor (view : View) (payload : Cid) : Cache.Binding :=
  { datasetID := view.datasetID, branch := view.branch, root := view.root,
    revision := view.revision, cid := some payload, encryptionEpoch := view.encryptionEpoch }

def bindingFromOperation (operation : Operation) : Cache.Binding :=
  { datasetID := operation.datasetID, branch := operation.branch,
    root := Cid.parse operation.baseRoot,
    revision := operation.baseRevision, cid := Cid.parse operation.payloadCID,
    encryptionEpoch := operation.encryptionEpoch }

def baseName (canonical : GoString) : GoString := if canonical = [] then [] else base canonical

def localInfo (canonical : GoString) (kind : FileKind) (payload : Option Cid) (size : Nat) : Info :=
  { path := canonical, name := baseName canonical, kind := kind, payload := payload, size := size }

variable [PayloadHash]

section

variable (service : Service) (cache : Cache.Store) (view : View)

/-- The loop of `resolveAt` over the operations still to be looked at, the
newest first. -/
def resolveBack (canonical : GoString) : List Operation → GoString → Except FsError ResolvedNode
  | [], mapped => do
    let info ← service.base.stat view mapped
    return { info := { info with path := canonical, name := baseName canonical }
             isLocal := false, remotePath := mapped, binding := none, createdAt := 0 }
  | operation :: older, mapped =>
    match operation.kind with
    | .write =>
      if mapped = operation.path then do
        let binding := bindingFromOperation operation
        let entry ← (Cache.verifyLocal cache binding service.stagedFileLimit).mapError .cache
        return { info := localInfo canonical .file binding.cid entry.size
                 isLocal := true, remotePath := [], binding := some binding, createdAt := 0 }
      else if isStrictDescendant mapped operation.path then throw .notDirectory
      else resolveBack canonical older mapped
    | .mkdir =>
      if mapped = operation.path then
        return { info := localInfo canonical .dir none 0
                 isLocal := true, remotePath := [], binding := none, createdAt := older.length + 1 }
      else if isStrictDescendant mapped operation.path then throw .notFound
      else resolveBack canonical older mapped
    | .unlink =>
      if isWithin mapped operation.path then throw .notFound else resolveBack canonical older mapped
    | .rename =>
      if isWithin mapped operation.destination then
        resolveBack canonical older (replacePrefix mapped operation.destination operation.path)
      else if isWithin mapped operation.path then throw .notFound
      else resolveBack canonical older mapped
    | .other _ => resolveBack canonical older mapped

def resolveAt (operations : List Operation) (limit : Nat) (canonical : GoString) :
    Except FsError ResolvedNode :=
  resolveBack service cache view canonical (operations.take limit).reverse canonical

def statAt (operations : List Operation) (limit : Nat) (canonical : GoString) :
    Except FsError Info := do
  let resolved ← resolveAt service cache view operations limit canonical
  return resolved.info

/-- The loop that looks up each candidate name: a name that is not found is left out. -/
def listCandidates (operations : List Operation) (canonical : GoString) :
    List GoString → Except FsError (List DirEntry)
  | [] => return []
  | name :: names =>
    match statAt service cache view operations operations.length (joinPath canonical name) with
    | .error .notFound => listCandidates operations canonical names
    | .error e => throw e
    | .ok info => do
      let entries ← listCandidates operations canonical names
      return { name := name, kind := info.kind } :: entries

def baseCandidates (operations : List Operation) (canonical : GoString) (resolved : ResolvedNode) :
    Except FsError (List GoString) :=
  if resolved.isLocal then return []
  else do
    let entries ← service.base.readDir view resolved.remotePath
    return entries.foldl (fun candidates entry =>
      addForwarded candidates canonical (joinPath resolved.remotePath entry.name) operations) []

def readDirAt (operations : List Operation) (canonical : GoString) :
    Except FsError (List DirEntry) := do
  let resolved ← resolveAt service cache view operations operations.length canonical
  reject (resolved.info.kind ≠ .dir) .notDirectory
  let candidates ← baseCandidates service view operations canonical resolved
  let candidates := addTargets canonical (operations.drop resolved.createdAt) candidates
  listCandidates service cache view operations canonical (sortNames candidates)

def requireParentDirectory (operations : List Operation) (canonical : GoString) :
    Except FsError Unit := do
  let parent := if dir canonical = dot then [] else dir canonical
  let info ← statAt service cache view operations operations.length parent
  reject (info.kind ≠ .dir) .notDirectory

end

end

end MaltClient.Staging
