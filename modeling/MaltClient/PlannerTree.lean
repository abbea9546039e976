import MaltClient.Journal
import MaltClient.NamedTree
import MaltClient.Projection

/-! The planner's directory tree and the replay of journaled operations on it.
Directories are loaded when the replay first opens them; every directory on the
way to a change is marked for rebuilding. -/

namespace MaltClient.Planner

open GoText Checked NamedTree
open Journal (Operation)

inductive PlanError where
  | path (e : StagedPath.PathError)
  | cid
  | message (format : String) (args : List GoString)
  | wrapped (format : String) (args : List GoString) (cause : Option PlanError)
  deriving Repr

section

variable [CidFormat]

/-- What the load closure of a directory has captured. -/
structure LoadContext where
  depth : Nat
  lineage : List Cid

/-- The fields of a directory node. The key of a new directory is undefined
until it is built, and the context is gone once the directory is loaded. -/
structure DirState where
  key : Option Cid
  manifest : Option Cid
  dirty : Bool
  manifestDirty : Bool
  retained : Option Unixfs.Bindings
  load : Option LoadContext

abbrev TreeNode (κ : Type) := Tree GoString DirState κ

def newDirectory {κ : Type} : TreeNode κ :=
  .dir { key := none, manifest := none, dirty := true, manifestDirty := true, retained := none,
         load := none } []

def DirState.markDirty (manifest : Bool) (d : DirState) : DirState :=
  { d with dirty := true, manifestDirty := d.manifestDirty || manifest }

variable {κ σ : Type}

/-- A loader fills in a directory that has not been opened, at some cost. -/
abbrev Loader (σ κ : Type) := LoadContext → DirState → σ →
  Except PlanError (σ × DirState × List (GoString × TreeNode κ))

def ensure (load : Loader σ κ) (s : σ) : TreeNode κ → Except PlanError (σ × TreeNode κ)
  | .file c => return (s, .file c)
  | .dir d cs =>
    match d.load with
    | none => return (s, .dir d cs)
    | some context => do
      let (s, d, cs) ← load context d s
      return (s, .dir { d with load := none } cs)

/-- Open the directory at a path, loading what is on the way. -/
def directoryAt (load : Loader σ κ) (whole : List GoString) :
    List GoString → σ → TreeNode κ → Except PlanError (σ × TreeNode κ)
  | [], s, node => ensure load s node
  | segment :: rest, s, node => do
    let (s, node) ← ensure load s node
    match node with
    | .file _ => throw (.message "filesystem directory %q is absent" [join whole])
    | .dir d cs =>
      match child? segment cs with
      | none => throw (.message "filesystem directory %q is absent" [join whole])
      | some child =>
        reject (child.isDir = false)
          (.message "filesystem path component %q is not a directory" [segment])
        let (s, child) ← directoryAt load whole rest s child
        return (s, .dir d (setChild segment child cs))

/-- The child of an opened directory. -/
def childAt (parent : List GoString) (name : GoString) (root : TreeNode κ) : Option (TreeNode κ) :=
  get? (parent ++ [name]) root

/-- Change the children of an opened directory and mark its ancestors. -/
def editDirectory (parent : List GoString) (manifest : Bool)
    (edit : List (GoString × TreeNode κ) → List (GoString × TreeNode κ)) (root : TreeNode κ) :
    TreeNode κ :=
  updateAt (DirState.markDirty false)
    (fun d cs => .dir (d.markDirty manifest) (edit cs)) parent root

def isNonEmptyDirectory : TreeNode κ → Bool
  | .file _ => false
  | .dir _ cs => !cs.isEmpty

def parseSegments (raw : GoString) (format : String) (args : List GoString) :
    Except PlanError (List GoString × GoString) := do
  let segments ← (StagedPath.parseCanonicalStagedPath raw).mapError fun e =>
    .wrapped format args (some (.path e))
  match segments.getLast? with
  | none => throw (.wrapped format args none)
  | some name => return (segments.dropLast, name)

variable (load : Loader σ κ)

/-- What a rename may replace: nothing, a file by a file, an empty directory by a directory. -/
def checkReplaced (destinationPath : GoString) (value : TreeNode κ) (existing : Option (TreeNode κ))
    (s : σ) : Except PlanError σ :=
  match existing with
  | none => return s
  | some existing => do
    let (s, existing) ← ensure load s existing
    reject (existing.isDir ≠ value.isDir)
      (.message "destination %q has a different kind" [destinationPath])
    reject (isNonEmptyDirectory existing = true)
      (.message "destination %q is a non-empty directory" [destinationPath])
    return s

def applyRename (source : List GoString) (sourceName : GoString) (rawDestination : GoString) (s : σ)
    (root : TreeNode κ) : Except PlanError (σ × TreeNode κ) := do
  let (destination, destinationName) ← parseSegments rawDestination "invalid destination: %w" []
  let sourcePath := join (source ++ [sourceName])
  let destinationPath := join (destination ++ [destinationName])
  reject (sourcePath = destinationPath ∨ hasPrefix destinationPath (sourcePath ++ [slash]))
    (.message "destination is equal to or below source" [])
  let (s, root) ← directoryAt load source source s root
  let (s, root) ← directoryAt load destination destination s root
  let value ← required (.message "source %q is absent" [sourcePath])
    (childAt source sourceName root)
  let s ← checkReplaced load destinationPath value (childAt destination destinationName root) s
  let root := editDirectory source true (removeChild sourceName) root
  return (s, editDirectory destination true (setChild destinationName value) root)

variable [PayloadHash] (ofPayload : Cid → κ)

def applyOperation (operation : Operation) (s : σ) (root : TreeNode κ) :
    Except PlanError (σ × TreeNode κ) := do
  let (parent, name) ← parseSegments operation.path "filesystem operation %s has invalid path: %w"
    [operation.operationID]
  match operation.kind with
  | .write => do
    let invalid : PlanError :=
      .message "filesystem write %s has invalid raw payload CID" [operation.operationID]
    let payload ← required invalid (Cid.parse operation.payloadCID)
    reject (PayloadHash.isRaw payload = false) invalid
    let (s, root) ← directoryAt load parent parent s root
    let existing := childAt parent name root
    reject (existing.any Tree.isDir = true)
      (.message "filesystem write %q replaces a directory" [operation.path])
    return (s, editDirectory parent existing.isNone
      (setChild name (.file (ofPayload payload))) root)
  | .mkdir => do
    let (s, root) ← directoryAt load parent parent s root
    reject ((childAt parent name root).isSome = true)
      (.message "filesystem mkdir %q already exists" [operation.path])
    return (s, editDirectory parent true (setChild name newDirectory) root)
  | .unlink => do
    let (s, root) ← directoryAt load parent parent s root
    let child ← required (.message "filesystem unlink %q is absent" [operation.path])
      (childAt parent name root)
    let (s, child) ← ensure load s child
    reject (isNonEmptyDirectory child = true)
      (.message "filesystem unlink %q is a non-empty directory" [operation.path])
    return (s, editDirectory parent true (removeChild name) root)
  | .rename =>
    (applyRename load parent name operation.destination s root).mapError fun e =>
      .wrapped "filesystem rename %s: %w" [operation.operationID] (some e)
  | .other kind =>
    throw (.message "filesystem operation %s has unsupported kind %q" [operation.operationID, kind])

def applyOperations (operations : List Operation) (s : σ) (root : TreeNode κ) :
    Except PlanError (σ × TreeNode κ) :=
  operations.foldlM (fun (s, root) operation => applyOperation load ofPayload operation s root)
    (s, root)

end

end MaltClient.Planner
