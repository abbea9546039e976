import MaltClient.Cache
import MaltClient.FaultyIO
import MaltClient.Slices

/-! The payload cache on disk: a metadata file and a file for each body. Every
call reloads the metadata under the lock and may fail or end at any of its steps. -/

namespace MaltClient.PayloadCache

open GoText Checked AssocMap FaultyIO FaultyIO.Prog Slices
open Cache (State CacheError Binding normalizeBinding isLocalBodyState maxInt sumsBody)

/-- A reading of the clock, in nanoseconds since the zero time. -/
abbrev Stamp := { t : Int // t ≠ 0 }

structure VerificationEvidence where
  profile : GoString
  evidence : List UInt8
  verifiedAt : Int
  deriving DecidableEq, Repr

def VerificationEvidence.Complete (e : VerificationEvidence) : Prop :=
  trimSpace e.profile ≠ [] ∧ validString e.profile = true ∧ e.evidence ≠ [] ∧ e.verifiedAt ≠ 0

instance (e : VerificationEvidence) : Decidable e.Complete := inferInstanceAs (Decidable (_ ∧ _))

variable [CidFormat]

/-- A state of `none` is a text that names no state. -/
structure Entry where
  binding : Binding
  state : Option State
  verification : Option VerificationEvidence
  bodyPresent : Bool
  size : Int
  updatedAt : Int
  deriving DecidableEq

abbrev Metadata := AList fun _ : GoString => Entry

def metadataVersion : Int := 1

/-- What the metadata file holds, as far as it can be decoded. -/
inductive Content where
  | malformed
  | document (version : Int) (entries : Option Metadata)

/-- The cache directory. Temporary files are only counted: nothing reads them. -/
structure Disk where
  metadata : Option Content
  blobs : AList fun _ : GoString => List UInt8
  metadataTemps : Nat
  bodyTemps : Nat

abbrev Call (α : Type) := Prog Disk CacheError α

/-- A call to the system that changes nothing the cache reads. -/
def attempt (e : CacheError) : Call Unit := call e id

def step : Call Unit := attempt .io

/-- `sha256` of the encoded binding. -/
class BindingHash where
  bindingID : Binding → GoString

export BindingHash (bindingID)

section entries

def allowedPut (current : Option State) (next : State) : Bool :=
  current.any (Cache.allowedPut · next)

def allowedTransition (current : Option State) (next : State) : Bool :=
  current.any (Cache.allowedTransition · next)

def isLocalBody (state : Option State) : Bool := state.any isLocalBodyState

def checkShape (entry : Entry) : Except CacheError Unit :=
  match entry.state with
  | some .unmaterializedRemote =>
    reject (entry.bodyPresent = true ∨ entry.size ≠ 0 ∨ entry.verification.isSome = true)
      (.message "unmaterialized entry contains body or verification metadata")
  | some .verifiedClean =>
    reject (¬ (∃ e ∈ entry.verification, e.Complete) ∨ entry.bodyPresent = false)
      (.message "verified-clean entry lacks verification evidence or body")
  | some .stale =>
    reject (entry.verification.isSome = true)
      (.message "stale entry contains verification evidence")
  | some _ =>
    reject (entry.bodyPresent = false ∨ entry.verification.isSome = true)
      (.message "local mutation entry lacks a body or contains verification evidence")
  | none => pure ()

def normalizeEntry (raw : Entry) : Except CacheError Entry := do
  let binding ← normalizeBinding raw.binding
  let entry := { raw with binding := binding }
  reject (entry.state = none ∨ entry.updatedAt = 0 ∨ entry.size < 0)
    (.message "invalid state metadata")
  reject (entry.bodyPresent = false ∧ entry.size ≠ 0) (.message "bodyless entry has a nonzero size")
  checkShape entry
  return entry

def hasRelatedBinding (m : Metadata) (binding : Binding) : Bool :=
  m.entries.any fun e => e.2.binding.datasetID = binding.datasetID ∧ e.2.binding.branch =
    binding.branch ∧ e.2.binding.cid = binding.cid

end entries

section files

inductive Target where
  | metadata (content : Content)
  | body (id : GoString) (data : List UInt8)

def Target.create : Target → Disk → Disk
  | .metadata _, d => { d with metadataTemps := d.metadataTemps + 1 }
  | .body _ _, d => { d with bodyTemps := d.bodyTemps + 1 }

def removeMetadataTemp (d : Disk) : Disk := { d with metadataTemps := d.metadataTemps - 1 }

def removeBodyTemp (d : Disk) : Disk := { d with bodyTemps := d.bodyTemps - 1 }

def Target.discard : Target → Disk → Disk
  | .metadata _, d => removeMetadataTemp d
  | .body _ _, d => removeBodyTemp d

def Target.rename : Target → Disk → Disk
  | .metadata content, d =>
    { d with metadata := some content, metadataTemps := d.metadataTemps - 1 }
  | .body id data, d => { d with blobs := d.blobs.insert id data, bodyTemps := d.bodyTemps - 1 }

def removeBlob (id : GoString) (d : Disk) : Disk := { d with blobs := d.blobs.erase id }

def writeAtomic (t : Target) : Call Unit := do
  step -- os.MkdirAll
  call .io t.create
  recover (do
      step -- securefile.Secure
      step -- tmp.Write
      step -- tmp.Sync
      step -- tmp.Close
      call .io t.rename)
    fun e => do
      ignoring (call .io t.discard)
      fail e
  step -- durablefile.SyncParent
  step -- securefile.Secure

/-- A marshalling error is one way for the first step to fail. -/
def writeMetadataLocked (m : Metadata) : Call Unit := do
  step
  writeAtomic (.metadata (.document metadataVersion (some m)))

def writeBodyLocked (id : GoString) (data : List UInt8) : Call Unit := writeAtomic (.body id data)

def referenced (m : Metadata) (id : GoString) : Bool := (m.lookup id).any Entry.bodyPresent

def reconcileLocked (m : Metadata) : Call Unit := do
  let (temps, ids) ← query .io fun d => (d.bodyTemps, d.blobs.keys)
  each (List.replicate temps ()) fun _ => call .io removeBodyTemp
  each ids fun id => if referenced m id = true then pure () else call .io (removeBlob id)
  let temps ← query .io Disk.metadataTemps
  each (List.replicate temps ()) fun _ => call .io removeMetadataTemp

variable [BindingHash]

def loadEntry (id : GoString) (raw : Entry) : Except CacheError Entry := do
  let entry ← normalizeEntry raw
  reject (bindingID entry.binding ≠ id) (.message "cache entry %s has mismatched binding identity")
  return entry

def decodeMetadata : Content → Except CacheError Metadata
  | .malformed => .error (.message "decode cache metadata: %w")
  | .document version entries => do
    reject (version ≠ metadataVersion) (.message "unsupported cache metadata version %d")
    let next ← required (.message "unsupported cache metadata version %d") entries
    next.entries.foldlM (fun (acc : Metadata) e => do
      let entry ← loadEntry e.1 e.2
      return acc.replace e.1 entry) next

def reloadLocked : Call Metadata := do
  let file ← query .io Disk.metadata
  match file with
  | none => do
    reconcileLocked ∅
    return ∅
  | some content => do
    step -- securefile.Secure
    let next ← checked (decodeMetadata content)
    reconcileLocked next
    return next

def underLock {α : Type} (write : Bool) (operation : Metadata → Call (Metadata × α)) : Call α := do
  let state ← reloadLocked
  let (state, result) ← operation state
  if write = true then writeMetadataLocked state
  return result

def withState {α : Type} (write : Bool) (operation : Metadata → Call (Metadata × α)) : Call α := do
  step -- os.MkdirAll
  step -- filelock.Acquire
  deferring (underLock write operation) step

/-- The entry is written down as stale before the call fails with the cause. -/
def markCorruptLocked {α : Type} (now : Stamp) (id : GoString) (entry : Entry) (state : Metadata)
    (cause : CacheError) : Call α := do
  ignoring (writeMetadataLocked
    (state.insert id { entry with state := some .stale, verification := none, updatedAt := now }))
  fail cause

end files

variable [BindingHash] [PayloadHash]

section puts

def verifyPayloadCID (payload : Option Cid) (body : List UInt8) : Except CacheError Unit :=
  reject (sumsBody payload body = false) (.message "payload CID mismatch: expected %s, got %s")

def recordRemote (now : Stamp) (raw : Binding) : Call Entry := do
  let binding ← checked (normalizeBinding raw)
  withState true fun state =>
    match state.lookup (bindingID binding) with
    | some existing => pure (state, existing)
    | none =>
      let entry :
        Entry := { binding := binding, state := some .unmaterializedRemote, verification := none,
                             bodyPresent := false, size := 0, updatedAt := now }
      pure (state.insert (bindingID binding) entry, entry)

/-- The body is written before the entry. When the entry cannot be written, a
body that no entry had is removed again. -/
def putWithBody (entry : Entry) (next : State) (body : List UInt8) : Call Unit :=
  withState false fun state => do
    let id := bindingID entry.binding
    let existing := state.lookup id
    checked (reject (existing.any (fun e => !allowedPut e.state next) = true) .invalidState)
    writeBodyLocked id body
    recover (writeMetadataLocked (state.insert id entry)) fun e => do
      if existing.any Entry.bodyPresent = false then ignoring (call .io (removeBlob id))
      fail e
    return (state.insert id entry, ())

def putVerified (now : Stamp) (raw : Binding) (body : List UInt8)
    (evidence : VerificationEvidence) : Call Entry := do
  let binding ← checked (normalizeBinding raw)
  let evidence := { evidence with profile := trimSpace evidence.profile }
  checked (reject (evidence.profile = [] ∨ validString evidence.profile = false ∨
    evidence.evidence = [] ∨
    evidence.verifiedAt = 0) (.message "verified cache evidence is incomplete"))
  checked (verifyPayloadCID binding.cid body)
  let entry :
    Entry := { binding := binding, state := some .verifiedClean, verification := some evidence,
                         bodyPresent := true, size := body.length, updatedAt := now }
  putWithBody entry .verifiedClean body
  return entry

def putLocal (now : Stamp) (raw : Binding) (body : List UInt8) (state : State) : Call Entry := do
  let binding ← checked (normalizeBinding raw)
  checked (reject (state ≠ .localDirty ∧ state ≠ .offlineOnly) .invalidState)
  checked (verifyPayloadCID binding.cid body)
  let entry : Entry := { binding := binding, state := some state, verification := none,
                         bodyPresent := true, size := body.length, updatedAt := now }
  putWithBody entry state body
  return entry

end puts

section reads

def readFile (id : GoString) : Call (Option (List UInt8)) :=
  recover (query .io fun d => d.blobs.lookup id) fun _ => pure none

/-- `ReadVerified` up to the end of its lock. -/
def readLocked (now : Stamp) (binding : Binding) :
    Call (List UInt8 × Entry × VerificationEvidence) :=
  withState false fun state => do
    let id := bindingID binding
    let entry ← checked (required
      (if hasRelatedBinding state binding = true then .bindingMismatch else .miss)
      (state.lookup id))
    checked (reject (entry.state ≠ some .verifiedClean) .notVerified)
    let evidence ← checked (required .notVerified entry.verification)
    if entry.bodyPresent = false then markCorruptLocked now id entry state .corrupt
    else do
      let file ← readFile id
      match file with
      | none => markCorruptLocked now id entry state .corrupt
      | some body =>
        if (body.length : Int) ≠ entry.size then markCorruptLocked now id entry state .corrupt
        else if sumsBody binding.cid body = false then markCorruptLocked now id entry state .corrupt
        else pure (state, body, entry, evidence)

def invalidate (now : Stamp) (binding : Binding) (rejected : VerificationEvidence) : Call Unit :=
  withState true fun state => do
    let id := bindingID binding
    let entry ← checked (required .miss (state.lookup id))
    if entry.verification ≠ some rejected then pure (state, ())
    else pure (state.insert id
      { entry with state := some .stale, verification := none, updatedAt := now }, ())

/-- The proof verifier runs between the two locked sections. -/
def readVerified (now : Stamp) (raw : Binding) (verifier : Binding → VerificationEvidence → Bool) :
    Call (List UInt8 × Entry) := do
  let binding ← checked (normalizeBinding raw)
  let (body, entry, evidence) ← readLocked now binding
  if verifier binding evidence = true then return (body, entry)
  else do
    ignoring (invalidate now binding evidence)
    fail (.message "verify cached ProofList evidence: %w")

/-- Opens the file and looks at its size. -/
def openBoundedLocalBodyLocked (id : GoString) (entry : Entry) (maxBytes : UInt64) : Call Unit := do
  checked (reject (isLocalBody entry.state = false ∨ entry.bodyPresent = false ∨
    entry.size < 0) .invalidState)
  checked (reject ((maxBytes.toNat : Int) < entry.size ∨ (maxInt : Int) < entry.size)
    (.bodyTooLarge entry.size.toNat maxBytes.toNat))
  let file ← query .corrupt fun d => d.blobs.lookup id
  let data ← checked (required .corrupt file)
  attempt .corrupt -- file.Stat
  checked (reject ((data.length : Int) ≠ entry.size) .corrupt)

/-- What the open file gives to its reader. -/
def readOpened (id : GoString) : Call (List UInt8) := do
  let file ← query .corrupt fun d => d.blobs.lookup id
  checked (required .corrupt file)

/-- At most `size` bytes are hashed, and there may be no more. -/
def verifyLocalStream (data : List UInt8) (payload : Option Cid) (size : Int) :
    Except CacheError Unit := do
  reject ((data.length : Int) < size ∨ sumsBody payload (data.take size.toNat) = false) .corrupt
  reject (size < data.length) .corrupt

def readLocalBounded (raw : Binding) (maxBytes : UInt64) : Call (List UInt8 × Entry) := do
  let binding ← checked (normalizeBinding raw)
  withState false fun state => do
    let id := bindingID binding
    let entry ← checked (required .miss (state.lookup id))
    checked (reject (entry.state = some .verifiedClean ∨ entry.state = some .unmaterializedRemote ∨
      entry.state = some .stale ∨ entry.bodyPresent = false) .invalidState)
    openBoundedLocalBodyLocked id entry maxBytes
    let data ← readOpened id
    let body := data.take entry.size.toNat
    checked (reject ((data.length : Int) < entry.size) .corrupt)
    checked (reject (entry.size < data.length) .corrupt)
    checked (reject (sumsBody binding.cid body = false) .corrupt)
    return (state, body, entry)

def verifyLocal (raw : Binding) (maxBytes : UInt64) : Call Entry := do
  let binding ← checked (normalizeBinding raw)
  withState false fun state => do
    let id := bindingID binding
    let entry ← checked (required .miss (state.lookup id))
    openBoundedLocalBodyLocked id entry maxBytes
    let data ← readOpened id
    checked (verifyLocalStream data entry.binding.cid entry.size)
    return (state, entry)

structure RangeCapture where
  offset : UInt64
  seen : UInt64
  body : List UInt8
  copied : Nat
  deriving DecidableEq, Repr

def RangeCapture.write (w : RangeCapture) (chunk : List UInt8) : RangeCapture :=
  let start := w.seen
  let stop := start + UInt64.ofNat chunk.length
  let wantedEnd := w.offset + UInt64.ofNat w.body.length
  if stop ≤ w.offset ∨ wantedEnd ≤ start then { w with seen := stop }
  else
    let copyStart := if start < w.offset then w.offset else start
    let copyEnd := if wantedEnd < stop then wantedEnd else stop
    let source := slice chunk (copyStart - start).toNat (copyEnd - start).toNat
    let destination := (copyStart - w.offset).toNat
    let copied := source.take (w.body.length - destination)
    { w with
      seen := stop
      body := w.body.take destination ++ copied ++ w.body.drop (destination + copied.length)
      copied := w.copied + copied.length }

/-- The capture of some bytes from an offset, after some pieces of a stream. -/
def RangeCapture.after (offset : UInt64) (n : Nat) (chunks : List (List UInt8)) : RangeCapture :=
  chunks.foldl RangeCapture.write
    { offset := offset, seen := 0, body := List.replicate n 0, copied := 0 }

/-- How a file is read, piece by piece. -/
structure Pieces where
  split : List UInt8 → List (List UInt8)
  flatten_split : ∀ data, (split data).flatten = data

def wantedBytes (size offset length : UInt64) : UInt64 :=
  if length ≠ 0 ∧ offset < size then
    let stop := offset + length
    let stop := if stop < offset ∨ size < stop then size else stop
    stop - offset
  else 0

def readLocalRange (pieces : Pieces) (raw : Binding) (offset length maxBytes : UInt64) :
    Call (List UInt8 × Entry) := do
  let binding ← checked (normalizeBinding raw)
  withState false fun state => do
    let id := bindingID binding
    let entry ← checked (required .miss (state.lookup id))
    openBoundedLocalBodyLocked id entry maxBytes
    let wanted := wantedBytes (UInt64.ofNat entry.size.toNat) offset length
    checked (reject (maxInt < wanted.toNat) (.bodyTooLarge 0 0))
    let data ← readOpened id
    let capture :=
      RangeCapture.after offset wanted.toNat (pieces.split (data.take entry.size.toNat))
    checked (verifyLocalStream data entry.binding.cid entry.size)
    checked (reject (capture.copied ≠ wanted.toNat) .corrupt)
    return (state, capture.body, entry)

def inspect (raw : Binding) : Call Entry := do
  let binding ← checked (normalizeBinding raw)
  withState false fun state => do
    let entry ← checked (required .miss (state.lookup (bindingID binding)))
    return (state, entry)

def list : Call (List Entry) :=
  withState false fun state =>
    pure (state, sortOn (fun e => bindingID e.binding) (state.entries.map fun e => e.2))

end reads

section changes

def transition (now : Stamp) (raw : Binding) (next : State) : Call Entry := do
  let binding ← checked (normalizeBinding raw)
  withState true fun state => do
    let id := bindingID binding
    let entry ← checked (required .miss (state.lookup id))
    checked (reject (allowedTransition entry.state next = false) .invalidState)
    let entry := { entry with
      state := some next
      updatedAt := now
      verification := if next ≠ .verifiedClean then none else entry.verification }
    return (state.insert id entry, entry)

def reconcileLocalStateBounded (now : Stamp) (raw : Binding) (next : State) (maxBytes : UInt64) :
    Call Entry := do
  let binding ← checked (normalizeBinding raw)
  checked (reject (isLocalBodyState next = false) .invalidState)
  withState false fun state => do
    let id := bindingID binding
    let entry ← checked (required .miss (state.lookup id))
    checked (reject (isLocalBody entry.state = false ∨ entry.bodyPresent = false) .invalidState)
    openBoundedLocalBodyLocked id entry maxBytes
    let data ← readOpened id
    checked (verifyLocalStream data entry.binding.cid entry.size)
    let entry := { entry with state := some next, verification := none, updatedAt := now }
    writeMetadataLocked (state.insert id entry)
    return (state.insert id entry, entry)

def remove (raw : Binding) : Call Unit := do
  let binding ← checked (normalizeBinding raw)
  let id := bindingID binding
  withState false fun state => do
    checked (reject ((state.lookup id).isNone = true) .miss)
    call .io (removeBlob id)
    writeMetadataLocked (state.erase id)
    return (state.erase id, ())

end changes

end MaltClient.PayloadCache
