import MaltClient.EncryptedEnvelope
import MaltClient.EncryptedGeometry
import MaltClient.StagedPath

/-! Building the encrypted tree of a directory, and reading its files back. -/

namespace MaltClient.EncryptedUnixFs

open GoText Checked Payloads Slices
open StagedPath (parsePath)

variable {Key : Type} [Cipher Key] [CidFormat] [PayloadHash] [ChunkJson]

/-- `encodeCanonical` and `decodeStrict` on manifests. What passes the checks is
text without bytes that `encoding/json` replaces. -/
class ManifestJson where
  encodeDirectory : DirectoryManifest → List UInt8
  decodeDirectory : List UInt8 → Option DirectoryManifest
  encodeFile : FileManifest → List UInt8
  decodeFile : List UInt8 → Option FileManifest
  decode_directory :
    ∀ m, validateDirectoryManifest m = .ok () → decodeDirectory (encodeDirectory m) = some m
  decode_file : ∀ m, validateFileManifest m = .ok () → decodeFile (encodeFile m) = some m

variable [ManifestJson]

/-- What an identifier binds: a block, a sequence of chunks, or a map. -/
inductive Target [CidFormat] where
  | block (key : Cid)
  | positional (chunks : List Cid) (metadata : Cid)
  | map (bindings : List (GoString × Target))

def payloadLabel : GoString := text "@payload"

def contentLabel : GoString := text "@content"

/-- The identities under which the objects of a binding are sealed. -/
structure BindingIds where
  datasetID : GoString
  branch : GoString
  bindingID : GoString

namespace BindingIds

variable (ids : BindingIds) (relativePath : GoString)

def directory : Place := .directory (utf8 ids.datasetID) (utf8 ids.branch) (utf8 ids.bindingID)
    (utf8 relativePath)

def file : Place :=
  .file (utf8 ids.datasetID) (utf8 ids.branch) (utf8 ids.bindingID) (utf8 relativePath)

def chunk (index : UInt64) : Place :=
  .chunk (utf8 ids.datasetID) (utf8 ids.branch) (utf8 ids.bindingID) (utf8 relativePath) index

/-- The token of a name, under the key of the namespace. -/
def entryToken (indexKey : Key) (name : GoString) : GoString :=
  EncryptedUnixFs.entryToken (bindingKey indexKey (utf8 ids.datasetID) (utf8 ids.branch)
    (utf8 ids.bindingID)) (utf8 relativePath) (utf8 name)

end BindingIds

def payloadError : PayloadError → RestoreError
  | .message format => .message format []
  | _ => .io

section source

/-- A regular file as the builder meets it: the size that `Stat` gives and the
bytes that its reads deliver, which need not agree. Sizes and offsets of a file
are signed 64-bit numbers. -/
structure SourceFile where
  mode : UInt32
  size : Nat
  size_lt : size < 2 ^ 63
  data : List UInt8
  data_lt : data.length < 2 ^ 63
  /-- A read fails after the bytes. -/
  fails : Bool
  /-- Another file has been opened than the one listed. -/
  changed : Bool

/-- The children of a directory stand in the order in which `ReadDir` returns
them. -/
inductive Source where
  | file (f : SourceFile)
  | directory (mode : UInt32) (children : List (GoString × Source))
  | symlink (mode : UInt32) (target : GoString)
  | unreadable
  | other

end source

section builder

structure Builder where
  chunkSize : Nat
  positive : 0 < chunkSize
  bounded : chunkSize ≤ 2 ^ 32 - 1 - envelopeOverhead.toNat

def defaultPlaintextChunkSize : Nat := 256 * 1024

omit [CidFormat] [PayloadHash] [ChunkJson] [ManifestJson] in
theorem defaultPlaintextChunkSize_bounded :
    0 < defaultPlaintextChunkSize ∧ defaultPlaintextChunkSize ≤ 2 ^ 32 - 1 -
      envelopeOverhead.toNat := by decide

def newBuilder (plaintextChunkSize : Int) : Except RestoreError Builder :=
  if plaintextChunkSize = 0 then
    return ⟨_, defaultPlaintextChunkSize_bounded.1, defaultPlaintextChunkSize_bounded.2⟩
  else if h :
    0 < plaintextChunkSize.toNat ∧ plaintextChunkSize.toNat ≤ 2 ^ 32 - 1 -
      envelopeOverhead.toNat then
    return ⟨_, h.1, h.2⟩
  else throw (.message "encrypted UnixFS plaintext chunk size is invalid" [])

/-- The random bytes of the machine, and what the graph refuses. -/
structure Host [CidFormat] where
  nonce : Nat → Option Nonce
  refusesMap : List (GoString × Target) → Bool
  refusesList : List Cid → Cid → Bool

/-- The blocks written so far, and the nonces drawn. -/
structure Build [CidFormat] where
  blocks : Blocks
  drawn : Nat

structure BuildContext (Key : Type) where
  ids : BindingIds
  epoch : UInt32
  bucketKey : Key
  indexKey : Key

variable (host : Host) (ctx : BuildContext Key)

def sealNext (place : Place) (plaintext : List UInt8) (s : Build) :
    Except RestoreError (List UInt8 × Build) := do
  let sealed ← sealAt ctx.bucketKey ctx.epoch place (host.nonce s.drawn) plaintext
  return (sealed, { s with drawn := s.drawn + 1 })

def putVerified (data : List UInt8) (s : Build) : Except RestoreError (Cid × Build) := do
  let (blocks, key) ← (s.blocks.put data).mapError payloadError
  reject (PayloadHash.sums key data = false)
    (.message "block writer returned CID %s for different bytes" [])
  return (key, { s with blocks := blocks })

/-- A file of which some chunks are stored. -/
structure FileBuild [CidFormat] where
  build : Build
  chunks : List Cid
  totalCipher : UInt64
  index : UInt64

def sealChunk (relative : GoString) (chunk : List UInt8) (a : FileBuild) :
    Except RestoreError FileBuild := do
  let (sealed, s) ← sealNext host ctx (ctx.ids.chunk relative a.index) chunk a.build
  let (key, s) ← putVerified sealed s
  return { build := s, chunks := a.chunks ++ [key], totalCipher := a.totalCipher +
    UInt64.ofNat sealed.length
           index := a.index + 1 }

/-- `io.ReadFull` into a buffer of the chunk size until the file ends. An empty
file has one empty chunk. The first argument bounds the rounds. -/
def sealChunks (chunkSize : Nat) (relative : GoString) (fails : Bool) :
    Nat → List UInt8 → FileBuild → Except RestoreError FileBuild
  | 0, _, _ => throw .io
  | rounds + 1, data, a =>
    if data.length < chunkSize then do
      reject (fails = true) .io
      if data ≠ [] ∨ a.index = 0 then sealChunk host ctx relative data a else return a
    else do
      let a ← sealChunk host ctx relative (data.take chunkSize) a
      sealChunks chunkSize relative fails rounds (data.drop chunkSize) a

/-- One chunk is stored as it is, more of them as a list with its metadata. -/
def storeContent (totalCipher cipherChunkSize : UInt64) (chunks : List Cid) (s : Build) :
    Except RestoreError (Target × Storage × Build) :=
  match chunks with
  | [] => throw (.message "encrypted UnixFS file produced no chunks" [])
  | [key] => return (.block key, .raw, s)
  | chunks => do
    let metadata ←
      (encodeChunkMetadata totalCipher cipherChunkSize (UInt64.ofNat chunks.length)).mapError
        payloadError
    let (blocks, payload) ← (s.blocks.put metadata).mapError payloadError
    (verifyPayloadCID payload metadata).mapError payloadError
    reject (host.refusesList chunks payload = true)
      (.message "materialize encrypted UnixFS file List: %w" [])
    return (.positional chunks payload, .list, { s with blocks := blocks })

def createStagedRoot (failure : RestoreError) (bindings : List (GoString × Target)) :
    Except RestoreError Target := do
  reject (host.refusesMap bindings = true) failure
  return .map bindings

def storeFileManifest (relative : GoString) (manifest : FileManifest) (s : Build) :
    Except RestoreError (Cid × Build) := do
  let (sealed, s) ← sealNext host ctx (ctx.ids.file relative) (ManifestJson.encodeFile manifest) s
  putVerified sealed s

def fileManifest (b : Builder) (file : SourceFile) (storage : Storage) (a : FileBuild) :
    FileManifest :=
  { profile := profileID, version := profileVersion, kind := .file, mode := file.mode,
    size := UInt64.ofNat file.size
    storage := storage, plaintextChunkSize := UInt64.ofNat b.chunkSize
    ciphertextChunkSize := UInt64.ofNat (b.chunkSize + envelopeOverhead.toNat),
      ciphertextSize := a.totalCipher
    chunkCount := UInt64.ofNat a.chunks.length, linkTarget := [] }

def buildFile (b : Builder) (relative : GoString) (file : SourceFile) (s : Build) :
    Except RestoreError (Target × Build) := do
  reject (file.changed = true)
    (.message "encrypted UnixFS file %s changed while it was opened" [relative])
  let a ← sealChunks host ctx b.chunkSize relative file.fails (file.data.length + 1) file.data
    { build := s, chunks := [], totalCipher := 0, index := 0 }
  let (content, storage, s) ← storeContent host a.totalCipher
    (UInt64.ofNat (b.chunkSize + envelopeOverhead.toNat))
    a.chunks a.build
  let manifest := fileManifest b file storage a
  validateFileManifest manifest
  let (manifestCID, s) ← storeFileManifest host ctx relative manifest s
  let root ← createStagedRoot host (.message "materialize encrypted UnixFS file root: %w" [])
    [(payloadLabel, .block manifestCID), (contentLabel, content)]
  return (root, s)

def linkManifest (mode : UInt32) (target : GoString) : FileManifest :=
  { profile := profileID, version := profileVersion, kind := .symlink, mode := mode, size := 0,
    storage := .unset
    plaintextChunkSize := 0, ciphertextChunkSize := 0, ciphertextSize := 0, chunkCount := 0,
      linkTarget := target }

def buildSymlink (relative : GoString) (mode : UInt32) (target : GoString) (s : Build) :
    Except RestoreError (Target × Build) := do
  let portableTarget ← validateSymlinkTarget relative target
  let manifest := linkManifest mode portableTarget
  validateFileManifest manifest
  let (manifestCID, s) ← storeFileManifest host ctx relative manifest s
  let root ← createStagedRoot host (.message "materialize encrypted UnixFS symlink root: %w" [])
    [(payloadLabel, .block manifestCID)]
  return (root, s)

/-- The entries of a directory with what their tokens lead to. -/
structure Listing [CidFormat] where
  entries : List DirectoryEntry
  bindings : List (GoString × Target)

def storeDirectory (mode : UInt32) (relativePath : GoString) (listing : Listing) (s : Build) :
    Except RestoreError (Target × Build) := do
  let manifest : DirectoryManifest :=
    { profile := profileID, version := profileVersion, kind := .directory, mode := mode
      entries := sortOn DirectoryEntry.name listing.entries }
  validateDirectoryManifest manifest
  let (sealed, s) ← sealNext host ctx (ctx.ids.directory relativePath)
    (ManifestJson.encodeDirectory manifest) s
  let (manifestCID, s) ← putVerified sealed s
  let root ← createStagedRoot host (.message "materialize encrypted UnixFS directory root: %w" [])
    ((payloadLabel, .block manifestCID) :: listing.bindings)
  return (root, s)

def childPath (relativePath name : GoString) : GoString :=
  if relativePath = [] then name else pathJoin [relativePath, name]

/-- What builds a child of a directory, given its path. -/
abbrev Child (σ : Type) := GoString → σ → Except RestoreError (EntryType × Target × σ)

/-- The loop of `buildDirectory`. -/
def buildChildren {σ : Type} (relativePath : GoString) :
    List (GoString × Child σ) → σ → Except RestoreError (Listing × σ)
  | [], s => return ({ entries := [], bindings := [] }, s)
  | (name, build) :: children, s => do
    (validateEntryName name).mapError fun _ =>
      .message "project encrypted UnixFS path %s: %w" [pathJoin [relativePath, name]]
    let (type, target, s) ← build (childPath relativePath name) s
    let token := ctx.ids.entryToken relativePath ctx.indexKey name
    let (listing, s) ← buildChildren relativePath children s
    return ({ entries := { name := name, type := type, token := token } :: listing.entries
              bindings := (token, target) :: listing.bindings }, s)

mutual

def buildObject (b : Builder) : Source → Child Build
  | .file f, relative, s => do
    let (root, s) ← buildFile host ctx b relative f s
    return (.file, root, s)
  | .symlink mode target, relative, s => do
    let (root, s) ← buildSymlink host ctx relative mode target s
    return (.symlink, root, s)
  | .directory mode children, relative, s => do
    let (listing, s) ← buildChildren ctx relative (sortOn Prod.fst (buildersOf b children)) s
    let (root, s) ← storeDirectory host ctx mode relative listing s
    return (.directory, root, s)
  | .unreadable, _, _ => throw .io
  | .other, relative, _ =>
    throw (.message "unsupported filesystem object in encrypted UnixFS binding: %s" [relative])

def buildersOf (b : Builder) : List (GoString × Source) → List (GoString × Child Build)
  | [] => []
  | (name, child) :: children => (name, buildObject b child) :: buildersOf b children

end

theorem buildersOf_eq_map (b : Builder) (children : List (GoString × Source)) :
    buildersOf host ctx b children = children.map fun c => (c.1, buildObject host ctx b c.2) := by
  induction children with
  | nil => rfl
  | cons c children ih => rw [buildersOf, ih, List.map_cons]

theorem sortOn_buildersOf (b : Builder) (children : List (GoString × Source)) :
    sortOn Prod.fst (buildersOf host ctx b children) =
      (sortOn Prod.fst children).map fun c => (c.1, buildObject host ctx b c.2) := by
  rw [buildersOf_eq_map]
  exact (map_sortOn (fun _ => rfl) children).symm

/-- The request for one binding, apart from where its directory is. -/
structure BindingSource (Key : Type) extends BuildContext Key where
  datasetName : GoString
  bindingName : GoString
  pathName : GoString

def prepareBinding (b : Builder) (request : BindingSource Key) (source : Source) (s : Build) :
    Except RestoreError (Target × Build) := do
  reject (trimSpace request.ids.datasetID = [] ∨ trimSpace request.datasetName = [] ∨
    trimSpace request.ids.branch = [] ∨
      trimSpace request.ids.bindingID = [] ∨ trimSpace request.bindingName = [] ∨
        request.pathName = [] ∨
      request.epoch = 0 ∨ validString request.ids.datasetID = false ∨
        validString request.datasetName = false ∨
      validString request.ids.branch = false ∨ validString request.ids.bindingID = false ∨
      validString request.bindingName = false ∨ validString request.pathName = false)
    (.message "encrypted UnixFS binding source is incomplete" [])
  (validateEntryName request.pathName).mapError fun _ =>
    .message "encrypted UnixFS binding path name: %w" []
  match source with
  | .directory mode children => do
    let (_, root, s) ← buildObject host request.toBuildContext b (.directory mode children) [] s
    return (root, s)
  | _ => throw (.message "encrypted UnixFS binding source must be a real directory" [])

end builder

namespace Reader

variable [InlineBody]

def namespaceKeyEpoch : UInt32 := 1

def notFound (path : GoString) : RestoreError :=
  .message "encrypted UnixFS path not found: %s" [path]

/-- One authenticated step from a root. -/
def resolve (root : Target) (segment : GoString) : Except RestoreError Target :=
  match root with
  | .map bindings => required (notFound segment) (bindings.lookup segment)
  | _ => throw .io

/-- The block of an identifier, checked against it. -/
def fetchBlock (blocks : Blocks) : Target → Except RestoreError (List UInt8)
  | .block key => (getBoundBlock blocks key).mapError payloadError
  | _ => throw .io

/-- Both the key of an envelope and that of the namespace are loaded before the
envelope is opened. -/
def withNamespace (keys : UInt32 → Except RestoreError Key) (epoch : UInt32) :
    Except RestoreError Key := do
  let bucketKey ← keys epoch
  let _ ← keys namespaceKeyEpoch
  return bucketKey

structure DirectoryView [CidFormat] where
  root : Target
  manifest : DirectoryManifest

structure FileView [CidFormat] where
  content : Option Target
  epoch : UInt32
  manifest : FileManifest
  relativePath : GoString

/-- A verified dataset: its identity and the roots of its bindings. -/
structure DatasetView [CidFormat] where
  datasetID : GoString
  branch : GoString
  bindings : List (GoString × Target)

def DatasetView.ids (dataset : DatasetView) (bindingID : GoString) : BindingIds :=
  { datasetID := dataset.datasetID, branch := dataset.branch, bindingID := bindingID }

def findDirectoryEntry (entries : List DirectoryEntry) (name : GoString) : Option DirectoryEntry :=
  entries.find? fun entry => entry.name = name

def parseRelativePath (raw : GoString) : Except RestoreError (List GoString) := do
  let segments ← (parsePath raw).mapError fun _ => .message "%w" [raw]
  reject (join segments ≠ raw) (.message "encrypted UnixFS path is not canonical: %q" [raw])
  return segments

variable (blocks : Blocks) (keys : UInt32 → Except RestoreError Key)

def openDirectoryAt (ids : BindingIds) (relativePath : GoString) (root : Target) :
    Except RestoreError DirectoryView := do
  let manifestCID ← (resolve root payloadLabel).mapError fun _ =>
    .message "resolve encrypted UnixFS directory manifest: %w" []
  let sealed ← fetchBlock blocks manifestCID
  let (plaintext, _) ← openAt (withNamespace keys) (ids.directory relativePath) none sealed
  let manifest ← required (.message "decode encrypted UnixFS directory manifest: %w" [])
    (ManifestJson.decodeDirectory plaintext)
  validateDirectoryManifest manifest
  let indexKey ← keys namespaceKeyEpoch
  forM manifest.entries fun entry =>
    reject (entry.token ≠ ids.entryToken relativePath indexKey entry.name)
      (.message "encrypted UnixFS entry %q token is not derived from its parent" [entry.name])
  return { root := root, manifest := manifest }

def storageMatches : Storage → Target → Bool
  | .list, .positional _ _ => true
  | .list, _ => false
  | _, .block key => PayloadHash.isRaw key
  | _, _ => false

/-- The content of a regular file, which has to be of the storage that the
manifest names. A link has none. -/
def openContent (manifest : FileManifest) (root : Target) : Except RestoreError (Option Target) :=
  if manifest.kind = .file then do
    let content ← (resolve root contentLabel).mapError fun _ =>
      .message "resolve encrypted UnixFS file content: %w" []
    reject (storageMatches manifest.storage content = false)
      (.message "encrypted UnixFS file storage kind does not match its authenticated content" [])
    return some content
  else return none

def openFileAt (ids : BindingIds) (relativePath : GoString) (entryType : EntryType)
    (root : Target) : Except RestoreError FileView := do
  let manifestCID ← (resolve root payloadLabel).mapError fun _ =>
    .message "resolve encrypted UnixFS file manifest: %w" []
  let sealed ← fetchBlock blocks manifestCID
  let (plaintext, epoch) ← openAt keys (ids.file relativePath) none sealed
  let manifest ← required (.message "decode encrypted UnixFS file manifest: %w" [])
    (ManifestJson.decodeFile plaintext)
  validateFileManifest manifest
  reject (manifest.kind ≠ entryType) (.message "encrypted UnixFS parent/file type mismatch" [])
  let content ← openContent manifest root
  return { content := content, epoch := epoch, manifest := manifest, relativePath := relativePath }

/-- The directory at the end of a path, through the manifests of its parents. -/
def walkDirectories (ids : BindingIds) :
    List GoString → GoString → Target → Except RestoreError DirectoryView
  | [], currentPath, currentRoot => openDirectoryAt blocks keys ids currentPath currentRoot
  | segment :: segments, currentPath, currentRoot => do
    let directory ← openDirectoryAt blocks keys ids currentPath currentRoot
    let entry ← required (notFound (pathJoin [currentPath, segment]))
      (findDirectoryEntry directory.manifest.entries segment)
    reject (entry.type ≠ .directory)
      (.message "encrypted UnixFS path is not a directory: %s" [pathJoin [currentPath, segment]])
    let next ← resolve currentRoot entry.token
    walkDirectories ids segments (pathJoin [currentPath, segment]) next

def openDirectory (dataset : DatasetView) (bindingID relativePath : GoString) :
    Except RestoreError DirectoryView := do
  let binding ← required (notFound bindingID) (dataset.bindings.lookup bindingID)
  let segments ← parseRelativePath relativePath
  walkDirectories blocks keys (dataset.ids bindingID) segments [] binding

def openFile (dataset : DatasetView) (bindingID relativePath : GoString) :
    Except RestoreError FileView := do
  let segments ← parseRelativePath relativePath
  let name ← required (.message "encrypted UnixFS file path is empty" []) segments.getLast?
  let parent ← openDirectory blocks keys dataset bindingID (join segments.dropLast)
  let entry ← required (notFound relativePath) (findDirectoryEntry parent.manifest.entries name)
  reject (entry.type ≠ .file ∧ entry.type ≠ .symlink)
    (.message "encrypted UnixFS path is not a file: %s" [relativePath])
  let fileRoot ← resolve parent.root entry.token
  openFileAt blocks keys (dataset.ids bindingID) (join segments) entry.type fileRoot

/-- The ciphertext of a chunk: the whole block of a raw file, or a range of a
list whose measures have to be those of the manifest. -/
def readSealed (file : FileView) (index length : UInt64) : Except RestoreError (List UInt8) :=
  match file.manifest.storage with
  | .raw => do
    reject (index ≠ 0) (.message "raw encrypted UnixFS file has more than one chunk" [])
    let content ← required .io file.content
    fetchBlock blocks content
  | .list => do
    let offset ← chunkOffset file.manifest index
    match file.content with
    | some (.positional chunks metadata) => do
      let part ← (readTypedRange blocks chunks metadata offset (some length) none).mapError
        payloadError
      reject (part.offset ≠ offset ∨ UInt64.ofNat part.body.length ≠ length ∨
          part.totalSize ≠ file.manifest.ciphertextSize ∨ part.chunkSize ≠
            file.manifest.ciphertextChunkSize)
        (.message "verified encrypted UnixFS List range has inconsistent geometry" [])
      return part.body
    | _ => throw .io
  | _ => throw (.message "unsupported encrypted UnixFS storage kind %q" [])

def readChunk (ids : BindingIds) (file : FileView) (index : UInt64) :
    Except RestoreError (List UInt8) := do
  let length ← chunkCiphertextLength file.manifest index
  let sealed ← readSealed blocks file index length
  reject (UInt64.ofNat sealed.length ≠ length)
    (.message "encrypted UnixFS ciphertext chunk length mismatch" [])
  let (plaintext, _) ← openAt keys (ids.chunk file.relativePath index) (some file.epoch) sealed
  let want ← chunkPlaintextLength file.manifest index
  reject (UInt64.ofNat plaintext.length ≠ want)
    (.message "encrypted UnixFS plaintext chunk length mismatch" [])
  return plaintext

/-- The chunks from a number on, one after the other. -/
def readChunks (ids : BindingIds) (file : FileView) :
    Nat → UInt64 → Except RestoreError (List UInt8)
  | 0, _ => return []
  | left + 1, index => do
    let chunk ← readChunk blocks keys ids file index
    let rest ← readChunks ids file left (index + 1)
    return chunk ++ rest

def readFile (dataset : DatasetView) (bindingID relativePath : GoString) :
    Except RestoreError (List UInt8) := do
  let file ← openFile blocks keys dataset bindingID relativePath
  reject (file.manifest.kind ≠ .file)
    (.message "encrypted UnixFS path is not a regular file: %s" [relativePath])
  reject (2 ^ 63 - 1 < file.manifest.size.toNat)
    (.message "encrypted UnixFS file is too large to materialize in memory" [])
  let result ← readChunks blocks keys (dataset.ids bindingID) file file.manifest.chunkCount.toNat 0
  reject (UInt64.ofNat result.length ≠ file.manifest.size)
    (.message "encrypted UnixFS file plaintext size mismatch" [])
  return result

/-- The parts of the chunks that lie in a range. -/
def readParts (ids : BindingIds) (file : FileView) (offset length : UInt64) :
    Nat → UInt64 → Except RestoreError (List UInt8)
  | 0, _ => return []
  | left + 1, index => do
    let chunk ← readChunk blocks keys ids file index
    let chunkStart := index * file.manifest.plaintextChunkSize
    let start := if offset > chunkStart then offset - chunkStart else 0
    let size := UInt64.ofNat chunk.length
    let stop := if offset + length < chunkStart + size then offset + length - chunkStart else size
    let part ← (bytesBetween chunk start stop).mapError payloadError
    let rest ← readParts ids file offset length left (index + 1)
    return part ++ rest

def readFileRange (dataset : DatasetView) (bindingID relativePath : GoString)
    (offset length : UInt64) : Except RestoreError (List UInt8) := do
  let file ← openFile blocks keys dataset bindingID relativePath
  reject (file.manifest.kind ≠ .file ∨ offset > file.manifest.size ∨
    length > file.manifest.size - offset)
    (.message "invalid encrypted UnixFS file range" [])
  if length = 0 then return []
  else do
    reject (2 ^ 63 - 1 < length.toNat)
      (.message "encrypted UnixFS range is too large to materialize in memory" [])
    let first := offset / file.manifest.plaintextChunkSize
    let last := (offset + length - 1) / file.manifest.plaintextChunkSize
    readParts blocks keys (dataset.ids bindingID) file offset length (last.toNat + 1 -
      first.toNat) first

end Reader

end MaltClient.EncryptedUnixFs
