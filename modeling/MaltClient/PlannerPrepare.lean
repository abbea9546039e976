import MaltClient.DirectoryManifest
import MaltClient.PlannerTree

/-! Planning a batch of operations: directories are loaded from the state that
their Root authenticates, and the marked ones are committed again, children
before parents. -/

namespace MaltClient

open GoText Unixfs

/-- Manifest identifiers, of a collision-free hash of the manifest text. -/
class ManifestHash [CidFormat] where
  manifestCid : GoString → Cid
  isManifest : Cid → Bool
  sums : Cid → GoString → Bool
  isManifest_manifestCid : ∀ data, isManifest (manifestCid data) = true
  sums_manifestCid : ∀ {data data'}, sums (manifestCid data) data' = true ↔ data' = data

/-- The authentication engine. A Root is determined by the descriptor and the
entries of a state, whether it is built or updated, and determines them. -/
class Engine [CidFormat] [ManifestHash] where
  Descriptor : Type
  /-- Whether a descriptor is that of a map with SHA-256 derivation. -/
  isDirectory : Descriptor → Bool
  parseRoot : Cid → Option Descriptor
  root : Descriptor → (Finmap fun _ : GoString => Option Cid) → Cid
  root_injective : ∀ {d d' e e'}, root d e = root d' e' → d = d' ∧ e = e'
  not_isManifest_root : ∀ d e, ManifestHash.isManifest (root d e) = false

namespace Planner

open Checked NamedTree DirectoryManifest AssocMap
open Journal (Operation)

section

variable [CidFormat] [ManifestHash] [Engine]

/-- A writer stands for the state that it holds, and knows the Root that the
state replaces. -/
structure Writer where
  descriptor : Engine.Descriptor
  entries : Bindings
  previous : Option Cid := none

def Writer.root (w : Writer) : Cid := Engine.root w.descriptor w.entries.toFinmap

structure AuthenticationCandidate where
  root : GoString
  state : Writer
  /-- What the writer cache charges for the candidate. -/
  size : Nat

/-- `authentication.NewWriter`, which authenticates the state against the Root. -/
def newWriter (candidate : AuthenticationCandidate) : Except PlanError Writer := do
  reject (candidate.state.root.spelling ≠ candidate.root)
    (.message "candidate does not match its Root" [])
  return candidate.state

structure CachedWriter where
  root : Cid
  writer : Writer
  bytes : Nat

/-- The writers at hand, the least recently used one first. -/
structure WriterCache where
  lru : List CachedWriter
  bytes : Nat

def writerCacheBytes : Nat := 64 * 2 ^ 20

def writerCacheRoots : Nat := 64

/-- Make room for a writer of the given size. -/
def evict (size : Nat) : List CachedWriter → Nat → WriterCache
  | [], bytes => { lru := [], bytes := bytes }
  | old :: rest, bytes =>
    if bytes + size > writerCacheBytes ∨ rest.length + 1 ≥ writerCacheRoots then
      evict size rest (bytes - old.bytes)
    else { lru := old :: rest, bytes := bytes }

/-- What a planner is made of, apart from its writer cache. -/
structure Capabilities where
  layout : LayoutKind
  blocks : Cid → Option GoString
  remote : Cid → Option AuthenticationCandidate

/-- What `loadWriter` imports for a Root that is not resident. -/
def importWriter (p : Capabilities) (root : Cid) : Except PlanError CachedWriter := do
  let candidate ← required (.message "directory source failed" []) (p.remote root)
  reject (candidate.root ≠ root.spelling) (.message "directory source substituted selected Root" [])
  reject (candidate.state.entries.entries.length > 65536)
    (.message "directory entry bound exceeded" [])
  let writer ← newWriter candidate
  return { root := root, writer := writer, bytes := candidate.size }

def loadWriter (p : Capabilities) (root : Cid) (c : WriterCache) :
    Except PlanError (WriterCache × Writer) :=
  match c.lru.find? fun item => item.root = root with
  | some item =>
    return ({ c with lru := c.lru.filter (fun item => item.root ≠ root) ++ [item] }, item.writer)
  | none => do
    let item ← importWriter p root
    if item.bytes ≤ writerCacheBytes then
      let c := evict item.bytes c.lru c.bytes
      return ({ lru := c.lru ++ [item], bytes := c.bytes + item.bytes }, item.writer)
    else return (c, item.writer)

/-- What the load and build closures of one `Prepare` share. -/
structure Progress where
  writers : WriterCache
  bases : AList fun _ : Cid => Writer
  knownRoots : List Cid
  objects : Nat
  entries : Nat

variable {κ : Type}

def TreeNode.key : TreeNode (Option Cid) → Option Cid
  | .file c => c
  | .dir d _ => d.key

def TreeNode.manifest : TreeNode (Option Cid) → Option Cid
  | .file _ => none
  | .dir d _ => d.manifest

mutual

def authenticationBindings (layout : LayoutKind) : TreeNode (Option Cid) → Bindings
  | .file _ => ∅
  | .dir d cs =>
    match d.dirty, d.retained with
    | false, some retained => retained
    | _, _ =>
      projectDirectoryBindings layout (sortOn DirectoryChild.name (projectedChildren layout cs))

def projectedChildren (layout : LayoutKind) :
    List (GoString × TreeNode (Option Cid)) → List DirectoryChild
  | [] => []
  | (name, child) :: cs =>
    { name := name
      directory := child.isDir
      root := child.key
      manifest := child.manifest
      descendants :=
        if child.isDir = true ∧ layout ≠ .rootedV1 then authenticationBindings layout child
          else ∅ } ::
      projectedChildren layout cs

end

def authenticationEntries (layout : LayoutKind) (d : DirState)
    (cs : List (GoString × TreeNode (Option Cid))) : Bindings :=
  (authenticationBindings layout (.dir d cs)).insert payloadLabel d.manifest

def requireAuthenticationBindings (layout : LayoutKind) (node : TreeNode (Option Cid))
    (actual : Bindings) : Except PlanError Unit := do
  let expected := authenticationBindings layout node
  reject (expected.entries.length ≠ actual.entries.length)
    (.message "directory manifest and bindings differ" [])
  forM expected.entries fun e =>
    reject (actual.lookup e.1 ≠ some e.2) (.message "directory projection differs at %q" [e.1])

def equalBindings (want got : Bindings) : Except PlanError Unit := do
  reject (want.entries.length ≠ got.entries.length)
    (.message "directory descendant projections differ" [])
  forM want.entries fun e =>
    reject ((got.lookup e.1).getD none ≠ e.2)
      (.message "directory descendant projection differs at %q" [e.1])

variable [JsonDecoder]

def readManifest (p : Capabilities) (key : Option Cid) :
    Except PlanError (List DirectoryEntry) := do
  let key ← required (.message "directory manifest CID is undefined" []) key
  let body ← required (.message "block source failed" []) (p.blocks key)
  reject (ManifestHash.sums key body = false)
    (.message "directory manifest bytes do not match CID %s" [key.spelling])
  reject (ManifestHash.isManifest key = false)
    (.message "unsupported UnixFS directory manifest codec 0x%x" [])
  (parseDirectoryJSON body).mapError fun _ => .message "invalid directory manifest" []

/-- Whether a directory is authenticated by a Root of its own. In the flat
layout only the base is. -/
def hasRoot (layout : LayoutKind) (base : Cid) (key : Option Cid) : Prop :=
  layout ≠ .flatV1 ∨ key = some base

instance (layout : LayoutKind) (base : Cid) (key : Option Cid) :
    Decidable (hasRoot layout base key) :=
  inferInstanceAs (Decidable (_ ∨ _))

def checkLabel (layout : LayoutKind) (name : GoString) : Except PlanError Unit :=
  let invalid : PlanError := .message "invalid directory label" []
  match StagedPath.parseCanonicalStagedPath name with
  | .error _ => throw invalid
  | .ok parts =>
    reject (parts = [] ∨ join parts ≠ name ∨ (layout = .rootedV1 ∧ parts.length ≠ 1)) invalid

/-- The hybrid layout repeats the labels of a directory in those above it. -/
def checkRetained (layout : LayoutKind) (retained : Option Bindings) (targets : Bindings) :
    Except PlanError Unit :=
  match layout, retained with
  | .hybridV1, some retained => equalBindings retained targets
  | _, _ => return ()

/-- The state of a directory with its own Root: its manifest and its labels. -/
def openRoot (p : Capabilities) (lineage : List Cid) (d : DirState) (s : Progress) :
    Except PlanError (Progress × DirState × Bindings × List Cid) := do
  let key ← required (.message "directory source substituted selected Root" []) d.key
  reject (key ∈ lineage) (.message "cyclic directory" [])
  let (writers, writer) ← loadWriter p key s.writers
  reject (Engine.isDirectory writer.descriptor = false)
    (.message "directory input rule differs from selected layout" [])
  let entries := s.entries + writer.entries.entries.length
  reject (entries > 65536) (.message "directory entry bound exceeded" [])
  let targets := writer.entries.erase payloadLabel
  forM targets.keys (checkLabel p.layout)
  checkRetained p.layout d.retained targets
  let s := { s with writers := writers, bases := s.bases.insert key writer, entries := entries }
  return (s, { d with manifest := (writer.entries.lookup payloadLabel).getD d.manifest }, targets,
    key :: lineage)

def openDirectory (p : Capabilities) (base : Cid) (lineage : List Cid) (d : DirState)
    (s : Progress) : Except PlanError (Progress × DirState × Bindings × List Cid) :=
  if hasRoot p.layout base d.key then openRoot p lineage d s
  else return (s, d, d.retained.getD ∅, lineage)

/-- The labels below a child, without the name of the child. -/
def retainedBelow (name : GoString) (targets : Bindings) : Bindings :=
  insertAll ∅ ((targets.entries.filter fun e => hasPrefix e.1 (name ++ [slash])).map fun e =>
    (e.1.drop (name.length + 1), e.2))

def loadChild (layout : LayoutKind) (targets : Bindings) (context : LoadContext)
    (entry : DirectoryEntry) : Except PlanError (GoString × TreeNode (Option Cid)) := do
  let target ← required (.message "manifest child missing" []) (targets.lookup entry.name)
  match entry.type with
  | .dir => do
    if layout = .flatV1 then
      reject (target.any ManifestHash.isManifest = false)
        (.message "flat directory must target its manifest" [])
    else
      reject ((target.bind Engine.parseRoot).any Engine.isDirectory = false)
        (.message "directory target differs from selected layout" [])
    return (entry.name, .dir
      { key := target
        manifest := if layout = .flatV1 then target else none
        dirty := false
        manifestDirty := false
        retained := if layout = .rootedV1 then none else some (retainedBelow entry.name targets)
        load := some context } [])
  | .file => return (entry.name, .file target)
  | .other _ => throw (.message "unsupported directory entry type" [])

/-- The Roots of the child directories. -/
def childRoots (layout : LayoutKind) (cs : List (GoString × TreeNode (Option Cid))) : List Cid :=
  if layout = .flatV1 then [] else (cs.filter fun c => c.2.isDir).filterMap fun c => c.2.key

def loadDirectory (p : Capabilities) (base : Cid) : Loader Progress (Option Cid) :=
  fun context d s => do
  let s := { s with objects := s.objects + 1 }
  reject (s.objects > 4096 ∨ context.depth > 256) (.message "directory traversal bound exceeded" [])
  let (s, d, targets, lineage) ← openDirectory p base context.lineage d s
  let entries ← readManifest p d.manifest
  let cs ← entries.mapM
    (loadChild p.layout targets { depth := context.depth + 1, lineage := lineage })
  requireAuthenticationBindings p.layout (.dir { d with retained := none } cs) targets
  return ({ s with knownRoots := s.knownRoots ++ childRoots p.layout cs },
    { d with retained := some targets }, cs)

structure Plan where
  base : Cid
  root : Option Cid
  required : List (Option Cid)
  candidates : List Writer
  blocks : List (Cid × GoString)

/-- What `build` accumulates. -/
structure Draft where
  progress : Progress
  required : List (Option Cid)
  candidates : List Writer
  produced : List Cid
  blocks : List (Cid × GoString)

abbrev Build := StateT Draft (Except PlanError)

def typeOf {δ : Type} (node : Tree GoString δ (Option Cid)) : EntryType :=
  if node.isDir then .dir else .file

def childEntries {δ : Type} (cs : List (GoString × Tree GoString δ (Option Cid))) :
    List DirectoryEntry :=
  cs.map fun c => { name := c.1, type := typeOf c.2 }

def storeManifest (d : DirState) (cs : List (GoString × TreeNode (Option Cid))) :
    Build DirState := do
  if d.manifestDirty = false then return d
  let data ← (marshalDirectoryEntries (childEntries cs)).mapError fun _ =>
    PlanError.message "invalid directory manifest" []
  let expected := ManifestHash.manifestCid data
  if d.manifest ≠ some expected then
    modify fun draft => { draft with blocks := draft.blocks ++ [(expected, data)] }
  return { d with manifest := some expected, manifestDirty := false }

/-- The stored writer of a Root that the base already has. -/
def persistedWriter (p : Capabilities) (root : Cid) : Build (Option Writer) := do
  let draft ← get
  match draft.progress.bases.lookup root with
  | some writer => return some writer
  | none =>
    if root ∈ draft.progress.knownRoots then
      let (writers, writer) ← loadWriter p root draft.progress.writers
      let progress := {
        draft.progress with writers := writers, bases := draft.progress.bases.insert root writer }
      set { draft with progress := progress }
      return some writer
    else return none

def exportCandidate (p : Capabilities) (base : Cid) (top : Bool) (writer : Writer) :
    Build Unit := do
  match ← persistedWriter p writer.root with
  | some persisted =>
    if top = true ∧ writer.root ≠ base then
      modify fun draft => { draft with candidates := draft.candidates ++ [persisted] }
  | none =>
    modify fun draft =>
      if writer.root ∈ draft.produced then draft
      else { draft with candidates := draft.candidates ++ [writer], produced := draft.produced ++
        [writer.root] }

/-- Commit the state of a directory whose children are built. An existing
directory keeps its descriptor, a new one takes that of the base. -/
def commitDirectory (p : Capabilities) (base : Cid) (initial : Engine.Descriptor) (top : Bool)
    (d : DirState) (cs : List (GoString × TreeNode (Option Cid))) : Build DirState := do
  let draft ← get
  let old := d.key.bind draft.progress.bases.lookup
  let writer : Writer :=
    { descriptor := (old.map Writer.descriptor).getD initial
      entries := authenticationEntries p.layout d cs
      previous := old.map Writer.root }
  exportCandidate p base top writer
  return { d with key := some writer.root }

def buildFile (isRaw : Cid → Bool) (c : Option Cid) : Build (TreeNode (Option Cid)) := do
  if c.any isRaw then modify fun draft => { draft with required := draft.required ++ [c] }
  return .file c

/-- In the flat layout a directory below the base is bound by its manifest. -/
def sealDirectory (p : Capabilities) (base : Cid) (initial : Engine.Descriptor) (top : Bool)
    (d : DirState) (cs : List (GoString × TreeNode (Option Cid))) : Build DirState :=
  if p.layout = .flatV1 ∧ top = false then return { d with key := d.manifest }
  else commitDirectory p base initial top d cs

def runAll {α : Type} : List (GoString × Build α) → Build (List (GoString × α))
  | [] => return []
  | (name, run) :: rest => do
    let a ← run
    let as ← runAll rest
    return (name, a) :: as

mutual

def build [PayloadHash] (p : Capabilities) (base : Cid) (initial : Engine.Descriptor) (top : Bool) :
    TreeNode (Option Cid) → Build (TreeNode (Option Cid))
  | .file c => buildFile PayloadHash.isRaw c
  | .dir d cs =>
    if d.dirty = false then return .dir d cs
    else do
      let cs ← runAll (sortOn Prod.fst (builds p base initial cs))
      let d ← storeManifest d cs
      let d ← sealDirectory p base initial top d cs
      return .dir d cs

def builds [PayloadHash] (p : Capabilities) (base : Cid) (initial : Engine.Descriptor) :
    List (GoString × TreeNode (Option Cid)) → List (GoString × Build (TreeNode (Option Cid)))
  | [] => []
  | (name, child) :: cs => (name, build p base initial false child) :: builds p base initial cs

end

/-- The checks of one operation of a batch against the one before it and the first one. -/
def validateOperation (base : Cid) (first previous : Option Operation) (operation : Operation) :
    Except PlanError Unit := do
  reject (∃ o ∈ previous, operation.sequence ≤ o.sequence)
    (.message "UnixFS filesystem operations are not in strict journal order" [])
  reject (Cid.parse operation.baseRoot ≠ some base)
    (.message "filesystem operation %s has a stale base root" [operation.operationID])
  reject (operation.status ≠ .pendingUpload ∧ operation.status ≠ .completed)
    (.message "filesystem operation %s is not frozen or completed" [operation.operationID])
  reject (∃ o ∈ first, operation.datasetID ≠ o.datasetID ∨ operation.branch ≠ o.branch ∨
      operation.baseRevision ≠ o.baseRevision ∨ operation.encryptionEpoch ≠ o.encryptionEpoch)
    (.message "filesystem operation batch crosses an immutable View" [])

def validateFrom (base : Cid) :
    Option Operation → Option Operation → List Operation → Except PlanError Unit
  | _, _, [] => return ()
  | first, previous, operation :: operations => do
    validateOperation base first previous operation
    validateFrom base (first.or (some operation)) (some operation) operations

def validateOperations (base : Cid) (operations : List Operation) : Except PlanError Unit := do
  reject (operations = []) (.message "UnixFS planner operation batch is empty" [])
  validateFrom base none none operations

def baseTree (base : Cid) : TreeNode (Option Cid) :=
  .dir { key := some base, manifest := none, dirty := false, manifestDirty := false,
         retained := none, load := some { depth := 0, lineage := [] } } []

/-- The tree that the operations leave, loaded as far as they need it. -/
def replayOperations [PayloadHash] (p : Capabilities) (writers : WriterCache) (base : Cid)
    (operations : List Operation) : Except PlanError (Progress × TreeNode (Option Cid)) := do
  let s : Progress := { writers := writers, bases := ∅, knownRoots := [base], objects := 0,
                        entries := 0 }
  let (s, tree) ← ensure (loadDirectory p base) s (baseTree base)
  applyOperations (loadDirectory p base) some operations s tree

def buildPlan [PayloadHash] (p : Capabilities) (base : Cid) (s : Progress)
    (tree : TreeNode (Option Cid)) : Except PlanError (WriterCache × Plan) := do
  let initial ← required (.message "typed planner capabilities are required" [])
    (s.bases.lookup base)
  let draft :
    Draft := { progress := s, required := [], candidates := [], produced := [], blocks := [] }
  let (tree, draft) ← (build p base initial.descriptor true tree).run draft
  let plan : Plan :=
    { base := base
      root := tree.key
      required := draft.required
      candidates := draft.candidates
      blocks := draft.blocks }
  return (draft.progress.writers, plan)

def prepare [PayloadHash] (p : Capabilities) (writers : WriterCache) (base : Cid)
    (operations : List Operation) : Except PlanError (WriterCache × Plan) := do
  validateOperations base operations
  let (s, tree) ← replayOperations p writers base operations
  buildPlan p base s tree

end

end Planner

end MaltClient
