import MaltClient.ChunkedPayload
import MaltClient.DirectoryManifest
import MaltClient.PayloadCache
import MaltClient.Projection
import MaltClient.Staging

/-! The read-only file system of a selected root. Paths and files come from a
verified reader; whole raw bodies may also come from the payload cache. -/

namespace MaltClient.Filesystem

open GoText Checked FaultyIO FaultyIO.Prog Slices
open Cache (Binding sumsBody)
open PayloadCache (Stamp VerificationEvidence BindingHash)
open Staging (View baseName)
open StagedPath (PathError parsePath)
open Unixfs (LayoutKind payloadLabel)
open DirectoryManifest (DirectoryEntry)

inductive Kind where
  | file
  | directory
  | other (name : GoString)
  deriving DecidableEq, Repr

inductive PayloadKind where
  | raw
  | positional
  | other (name : GoString)
  deriving DecidableEq, Repr

structure Request where
  profile : GoString
  root : GoString
  steps : List GoString
  operation : GoString
  label : Option GoString
  start : Option UInt64
  stop : Option UInt64
  deriving DecidableEq, Repr

/-- The proofs of a result are only handed to the verifier. -/
structure AuthenticationResult where
  resolved : GoString
  absentStep : Option Nat
  proof : List UInt8
  deriving DecidableEq, Repr

structure AuthenticationVerification where
  request : Request
  result : AuthenticationResult
  deriving DecidableEq, Repr

/-- The parts of malt-core that the service calls. -/
class Protocol [CidFormat] where
  pathProfile : GoString
  validate : Request → Bool
  parseRoot : Cid → Bool
  verify : Request → AuthenticationResult → Bool

variable [CidFormat]

structure Resolution where
  authentication : Option AuthenticationVerification
  target : Option Cid
  deriving DecidableEq

structure Stat where
  kind : Kind
  nodeRoot : Option Cid
  payload : Option Cid
  payloadKind : PayloadKind
  size : UInt64
  entries : List DirectoryEntry
  resolution : Resolution
  payloadBinding : Option Resolution

structure ReadResult where
  body : List UInt8
  target : Option Cid
  offset : UInt64
  stop : UInt64
  totalSize : UInt64

structure Info where
  path : GoString
  name : GoString
  kind : Kind
  nodeRoot : Option Cid
  payload : Option Cid
  storageKind : PayloadKind
  size : UInt64
  deriving DecidableEq

inductive ServiceError where
  | notFile
  | path (e : PathError)
  | reader (text : GoString)
  | message (text : String)
  deriving DecidableEq, Repr

/-- An error with the metadata that is returned beside it. -/
structure Failure where
  info : Option Info
  cause : ServiceError
  deriving DecidableEq

/-- The verified reader, with the texts of its errors. -/
structure Reader where
  lookup : Cid → GoString → Except GoString (Option Stat)
  stat : Cid → GoString → Except GoString (Option Stat)
  readFile : Cid → GoString → Except GoString (Option ReadResult)
  readFileRange : Cid → GoString → UInt64 → UInt64 → Except GoString (Option ReadResult)

def Reader.readPart (reader : Reader) (root : Cid) (path : GoString) (offset : UInt64) :
    Option UInt64 → Except GoString (Option ReadResult)
  | none => reader.readFile root path
  | some length => reader.readFileRange root path offset length

structure Service where
  layout : LayoutKind
  reader : Reader
  cached : Bool
  now : Stamp
  verifiedAt : Int

structure PathProofEvidence where
  version : Int
  datasetID : GoString
  branch : GoString
  revision : UInt64
  encryptionEpoch : UInt32
  path : GoString
  resolution : Resolution
  deriving DecidableEq

/-- `encoding/json` on evidence and requests. A document with unknown fields or
trailing values is not decoded. No value in the evidence has a marshal error. -/
class EvidenceJson where
  encode : PathProofEvidence → Option (List UInt8)
  decode : List UInt8 → Option PathProofEvidence
  encodeRequest : Request → List UInt8
  isSome_encode : ∀ evidence, (encode evidence).isSome = true

section values

def normalizeView (raw : View) : Except ServiceError (View × Cid) := do
  let view := { raw with datasetID := trimSpace raw.datasetID, branch := trimSpace raw.branch }
  reject (view.datasetID = [] ∨ view.branch = [] ∨ validString view.datasetID = false ∨
    validString view.branch = false)
    (.message "filesystem dataset and branch are required valid UTF-8")
  let root ← required (.message "filesystem selected root is undefined") view.root
  return (view, root)

def canonicalPath (raw : GoString) : Except ServiceError (GoString × List GoString) := do
  let segments ← (parsePath raw).mapError .path
  return (join segments, segments)

def infoFromStat (canonical : GoString) (stat : Stat) : Info :=
  { path := canonical, name := baseName canonical, kind := stat.kind, nodeRoot := stat.nodeRoot,
    payload := stat.payload, storageKind := stat.payloadKind, size := stat.size }

def saturatingAdd (left right : UInt64) : UInt64 :=
  if UInt64.ofNat (2 ^ 64 - 1) - left < right then UInt64.ofNat (2 ^ 64 - 1) else left + right

/-- The end of a range in a file of the given size. -/
def clampEnd (size offset : UInt64) : Option UInt64 → UInt64
  | none => size
  | some length =>
    let stop := saturatingAdd offset length
    if size < stop then size else stop

def sliceRange (body : List UInt8) (offset : UInt64) (length : Option UInt64) : List UInt8 :=
  let size := UInt64.ofNat body.length
  if size ≤ offset ∨ length = some 0 then []
  else slice body offset.toNat (clampEnd size offset length).toNat

/-- The selectors of a path: one label for all of it, or one for each name. -/
def expectedSteps (layout : LayoutKind) (segments : List GoString) (payload : Bool) :
    List GoString :=
  let steps :=
    if layout ≠ .rootedV1 then (if segments = [] then [] else [join segments]) else segments
  if payload = true then steps ++ [payloadLabel] else steps

variable [Protocol]

def validateResolution (layout : LayoutKind) (root : Cid) (segments : List GoString)
    (payload : Bool)
    (resolution : Resolution) (target : Option Cid) : Except ServiceError Unit := do
  let wire ← required (.message "typed resolution is missing") resolution.authentication
  reject (Protocol.validate wire.request = false ∨ wire.request.profile ≠ Protocol.pathProfile ∨
      wire.request.root ≠ root.spelling ∨ wire.request.operation ≠ text "resolve" ∨
      some wire.result.resolved ≠ target.map Cid.spelling ∨ wire.result.absentStep ≠ none ∨
      resolution.target ≠ target)
    (.message "typed resolution does not match selected Root/path")
  reject (Protocol.parseRoot root = false) (.message "parse root")
  let expected := expectedSteps layout segments payload
  reject (wire.request.steps.length ≠ expected.length)
    (.message "typed resolution changed path length")
  reject (wire.request.steps ≠ expected) (.message "typed resolution changed path selector")

def validateBinding (layout : LayoutKind) (root : Cid) (segments : List GoString) (stat : Stat) :
    Except ServiceError Unit :=
  match stat.payloadBinding with
  | some binding => validateResolution layout root segments true binding stat.payload
  | none =>
    reject (stat.payload ≠ stat.nodeRoot)
      (.message "verified UnixFS stat has an unbound payload target")

def validateShape (stat : Stat) : Except ServiceError Unit :=
  if stat.kind = .file then do
    reject (stat.payloadKind ≠ .raw ∧ stat.payloadKind ≠ .positional)
      (.message "verified UnixFS file has unsupported payload kind %q")
    reject (stat.entries ≠ []) (.message "verified UnixFS file contains directory entries")
  else reject (stat.size ≠ 0) (.message "verified UnixFS directory declares a file size")

def validateStat (layout : LayoutKind) (root : Cid) (segments : List GoString)
    (found : Option Stat) : Except ServiceError Stat := do
  let stat ← required (.message "verified UnixFS reader returned a nil stat") found
  reject (stat.kind ≠ .file ∧ stat.kind ≠ .directory)
    (.message "verified UnixFS reader returned unsupported kind %q")
  reject (stat.nodeRoot = none ∨ stat.payload = none ∨ stat.resolution.target ≠ stat.nodeRoot)
    (.message "verified UnixFS stat has inconsistent node or payload identity")
  validateResolution layout root segments false stat.resolution stat.nodeRoot
  validateBinding layout root segments stat
  validateShape stat
  return stat

end values

section results

def validateReadResult (stat : Stat) (offset : UInt64) (length : Option UInt64)
    (found : Option ReadResult) : Except ServiceError ReadResult := do
  let result ← required (.message "verified UnixFS read does not match the requested file") found
  reject (result.target ≠ stat.payload ∨ result.totalSize ≠ stat.size ∨ result.offset ≠ offset)
    (.message "verified UnixFS read does not match the requested file")
  let expectedEnd := clampEnd stat.size offset length
  reject (result.stop ≠ expectedEnd ∨ UInt64.ofNat result.body.length ≠ expectedEnd - offset)
    (.message "verified UnixFS read returned an inconsistent range")
  return result

def validateRawReadResult (stat : Stat) (found : Option ReadResult) :
    Except ServiceError ReadResult := do
  let result ← required
    (.message "verified UnixFS raw read does not match the requested file") found
  reject (result.target ≠ stat.payload ∨ result.offset ≠ 0 ∨ result.stop ≠ result.totalSize ∨
      result.totalSize ≠ UInt64.ofNat result.body.length)
    (.message "verified UnixFS raw read does not match the requested file")
  return result

end results

section evidence

def cacheEvidenceProfile : GoString := text "malt.filesystem.path-proof/v1"

def payloadResolution (stat : Stat) : Resolution := stat.payloadBinding.getD stat.resolution

variable [EvidenceJson]

def marshalCacheEvidence (view : View) (path : GoString) (stat : Stat) :
    Except ServiceError (List UInt8) :=
  required (.message "json") <| EvidenceJson.encode
    { version := 1, datasetID := view.datasetID, branch := view.branch, revision := view.revision,
      encryptionEpoch := view.encryptionEpoch, path := path, resolution := payloadResolution stat }

variable [Protocol]

/-- The check of stored evidence, as far as it accepts. -/
def acceptsEvidence (expected : AuthenticationVerification) (path : GoString) (binding : Binding)
    (evidence : VerificationEvidence) : Bool :=
  evidence.profile = cacheEvidenceProfile &&
    (EvidenceJson.decode evidence.evidence).any fun stored =>
      stored.version = 1 && stored.datasetID = binding.datasetID && stored.branch =
        binding.branch &&
        stored.revision = binding.revision && stored.encryptionEpoch = binding.encryptionEpoch &&
        stored.path = path &&
        stored.resolution.authentication.any fun wire =>
          EvidenceJson.encodeRequest expected.request = EvidenceJson.encodeRequest wire.request &&
            some wire.request.root = binding.root.map Cid.spelling &&
            some wire.result.resolved = binding.cid.map Cid.spelling &&
            stored.resolution.target = binding.cid && Protocol.verify wire.request wire.result

def newCacheProofVerifier (path : GoString) (stat : Stat) :
    Except ServiceError (Binding → VerificationEvidence → Bool) := do
  let expected ← required (.message "filesystem authentication evidence is missing")
    (payloadResolution stat).authentication
  return acceptsEvidence expected path

end evidence

section service

variable [Protocol] [EvidenceJson] [BindingHash] [PayloadHash] (s : Service)

def Service.readerCall {α : Type} (x : Except GoString α) : Prog PayloadCache.Disk ServiceError α :=
  checked (x.mapError .reader)

/-- A raw body from the cache, if there is one that is verified. -/
def Service.readCached (binding : Binding) (canonical : GoString) (stat : Stat) :
    Prog PayloadCache.Disk ServiceError (Option (List UInt8)) :=
  if s.cached = true then do
    let verifier ← checked (newCacheProofVerifier canonical stat)
    let hit ← orNone (PayloadCache.readVerified s.now binding verifier)
    return hit.map Prod.fst
  else return none

def Service.readRaw (view : View) (root : Cid) (canonical : GoString) (stat : Stat) :
    Prog PayloadCache.Disk ServiceError (List UInt8) := do
  let binding : Binding :=
    { datasetID := view.datasetID, branch := view.branch, root := some root,
      revision := view.revision, cid := stat.payload, encryptionEpoch := view.encryptionEpoch }
  let hit ← s.readCached binding canonical stat
  match hit with
  | some body => return body
  | none => do
    let found ← readerCall (s.reader.readFile root canonical)
    let result ← checked (validateRawReadResult stat found)
    checked (reject (sumsBody stat.payload result.body = false)
      (.message "verified UnixFS raw body does not match its authenticated CID"))
    if s.cached = true then do
      let evidence ← checked (marshalCacheEvidence view canonical stat)
      let _ ← orNone (PayloadCache.putVerified s.now binding result.body
        { profile := cacheEvidenceProfile, evidence := evidence, verifiedAt := s.verifiedAt })
    return result.body

def Service.stat (rawView : View) (rawPath : GoString) :
    Prog PayloadCache.Disk ServiceError Info := do
  let (view, root) ← checked (normalizeView rawView)
  let (canonical, segments) ← checked (canonicalPath rawPath)
  let found ← readerCall (s.reader.lookup root canonical)
  let stat ← checked (validateStat s.layout root segments found)
  if stat.kind = .directory then return infoFromStat canonical stat
  else if stat.payloadKind = .raw ∧ s.cached = true then do
    let body ← s.readRaw view root canonical stat
    return infoFromStat canonical { stat with size := UInt64.ofNat body.length }
  else do
    let found ← readerCall (s.reader.stat root canonical)
    let stat ← checked (validateStat s.layout root segments found)
    return infoFromStat canonical stat

def Service.readPositional (root : Cid) (canonical : GoString) (segments : List GoString)
    (offset : UInt64)
    (length : Option UInt64) : Prog PayloadCache.Disk Failure (List UInt8 × Info) := do
  let stat ← mapError (Failure.mk none) do
    let found ← readerCall (s.reader.stat root canonical)
    checked (validateStat s.layout root segments found)
  let info := infoFromStat canonical stat
  if length.any (fun length => length = 0 ∨ stat.size ≤ offset) = true then return ([], info)
  else mapError (Failure.mk (some info)) do
    let found ← readerCall (s.reader.readPart root canonical offset length)
    let result ← checked (validateReadResult stat offset length found)
    return (result.body, info)

def Service.read (rawView : View) (rawPath : GoString) (offset : UInt64) (length : Option UInt64) :
    Prog PayloadCache.Disk Failure (List UInt8 × Info) := do
  let ((view, root), (canonical, segments), stat) ← mapError (Failure.mk none) do
    let (view, root) ← checked (normalizeView rawView)
    let (canonical, segments) ← checked (canonicalPath rawPath)
    let found ← readerCall (s.reader.lookup root canonical)
    let stat ← checked (validateStat s.layout root segments found)
    return ((view, root), (canonical, segments), stat)
  if stat.kind ≠ .file then fail ⟨some (infoFromStat canonical stat), .notFile⟩
  else if stat.payloadKind = .raw then do
    let body ← mapError (Failure.mk (some (infoFromStat canonical stat)))
      (s.readRaw view root canonical stat)
    return (sliceRange body offset length,
      infoFromStat canonical { stat with size := UInt64.ofNat body.length })
  else s.readPositional root canonical segments offset length

def Service.readFile (view : View) (path : GoString) :
    Prog PayloadCache.Disk Failure (List UInt8 × Info) :=
  s.read view path 0 none

def Service.readFileRange (view : View) (path : GoString) (offset length : UInt64) :
    Prog PayloadCache.Disk Failure (List UInt8 × Info) := s.read view path offset (some length)

end service

end MaltClient.Filesystem
