import MaltClient.AssocMap
import MaltClient.Cid
import MaltClient.Dialogue
import MaltClient.Slices

/-! File payloads: a small body is one raw block, a larger one a list of chunks
with a metadata document, and ranges are read back from either. -/

namespace MaltClient.Payloads

open GoText Checked Dialogue

inductive PayloadError where
  | io
  | tooLong
  | message (format : String)
  deriving DecidableEq, Repr

section metadata

def chunkMetadataProfile : GoString := text "malt.unixfs.chunks/1"

structure ChunkMetadata where
  profile : GoString
  chunkSize : UInt64
  totalSize : UInt64
  mode : Option UInt32
  deriving DecidableEq, Repr

/-- `encoding/json` on metadata documents: one that names the profile is read
back as it was written. -/
class ChunkJson where
  marshal : ChunkMetadata → List UInt8
  unmarshal : List UInt8 → Option ChunkMetadata
  unmarshal_marshal : ∀ m, m.profile = chunkMetadataProfile → unmarshal (marshal m) = some m

def ChunkMetadata.validate (m : ChunkMetadata) (count : UInt64) : Except PayloadError Unit := do
  reject (m.profile ≠ chunkMetadataProfile ∨ m.chunkSize = 0)
    (.message "invalid chunk metadata profile or width")
  let expected := if 0 < m.totalSize then (m.totalSize - 1) / m.chunkSize + 1 else 0
  reject (expected ≠ count) (.message "chunk metadata does not match authenticated count")

def encodeChunkMetadata [ChunkJson] (total chunk count : UInt64) :
    Except PayloadError (List UInt8) := do
  let m : ChunkMetadata := { profile := chunkMetadataProfile, chunkSize := chunk,
                             totalSize := total, mode := none }
  m.validate count
  return ChunkJson.marshal m

variable [CidFormat] [PayloadHash]

def verifyPayloadCID (key : Cid) (data : List UInt8) : Except PayloadError Unit :=
  reject (PayloadHash.sums key data = false) (.message "metadata bytes do not match payload CID")

def parseChunkMetadata [ChunkJson] (key : Cid) (data : List UInt8) (count : UInt64) :
    Except PayloadError ChunkMetadata := do
  verifyPayloadCID key data
  reject (PayloadHash.isRaw key = false) (.message "chunk metadata requires raw JSON content")
  let m ← required .io (ChunkJson.unmarshal data)
  m.validate count
  reject (ChunkJson.marshal m ≠ data) (.message "noncanonical chunk metadata JSON")
  return m

end metadata

section stream

/-- An error of a reader, as far as `==` and `errors.Is` tell. -/
inductive ReadError where
  | eof
  | unexpectedEOF
  /-- Another error, in which `errors.Is` finds one of the two. -/
  | wrapsEnd (text : String)
  | tooLong (declared : Nat)
  | invalidCount
  | other (text : String)
  deriving DecidableEq, Repr

/-- `errors.Is(err, io.EOF) || errors.Is(err, io.ErrUnexpectedEOF)` -/
def ReadError.isEnd : ReadError → Bool
  | .eof | .unexpectedEOF | .wrapsEnd _ => true
  | _ => false

/-- The byte count that a reader returns, with the bytes it stands for. A count
beyond the buffer is a list that is too long. -/
inductive Count where
  | bytes (data : List UInt8)
  | negative
  deriving DecidableEq, Repr

def Count.data : Count → List UInt8
  | .bytes data => data
  | .negative => []

structure ReadAnswer where
  count : Count
  err : Option ReadError
  deriving DecidableEq, Repr

inductive StreamError where
  | negativeSize
  | chunkSize
  | read (err : ReadError)
  | incomplete (got expected : Nat)
  | emptySequence
  | metadata (err : PayloadError)
  | store (text : String)
  /-- The model has stopped a call that goes on. -/
  | cut
  deriving DecidableEq, Repr

variable [CidFormat]

inductive Question where
  | read (room : Nat)
  | put (data : List UInt8)
  | flush
  | create (chunks : List Cid) (metadata : Cid)

abbrev Answer : Question → Type
  | .read _ => ReadAnswer
  | .put _ => Except StreamError Cid
  | .flush => Except StreamError Unit
  | .create _ _ => Except StreamError Cid

abbrev Stream := Prog Answer StreamError

/-- What a call of `Read` returns, and what the reader still expects. -/
structure Part where
  data : List UInt8
  err : Option ReadError
  remaining : Nat
  deriving DecidableEq

def extraPart (expected : Nat) (answer : ReadAnswer) : Part :=
  if answer.count.data = [] then ⟨[], answer.err, 0⟩ else ⟨[], some (.tooLong expected), 0⟩

def countedPart (remaining room : Nat) (answer : ReadAnswer) : Part :=
  match answer.count with
  | .negative => ⟨[], some .invalidCount, remaining⟩
  | .bytes data =>
    if room < data.length then ⟨[], some .invalidCount, remaining⟩
    else ⟨data, answer.err, remaining - data.length⟩

/-- `declaredSizeReader.Read`, for a buffer that is not empty. -/
def declaredRead (expected remaining room : Nat) : Stream Part :=
  if remaining = 0 then .attempt (.read 1) fun answer => .ok (extraPart expected answer)
  else .attempt (.read (min room remaining)) fun answer =>
    .ok (countedPart remaining (min room remaining) answer)

/-- What `io.ReadFull` makes of the error that ends it. -/
def shortError (data : List UInt8) (err : ReadError) : ReadError :=
  if 0 < data.length ∧ err = .eof then .unexpectedEOF else err

/-- The end of `io.ReadFull`: a full buffer drops the error. -/
def fullPart (want : Nat) (data : List UInt8) (err : ReadError) (remaining : Nat) : Part :=
  if want ≤ data.length then ⟨data, none, remaining⟩
    else ⟨data, some (shortError data err), remaining⟩

/-- `io.ReadFull`, after it has read `got`. -/
def readFull (expected want : Nat) : Nat → Nat → List UInt8 → Stream Part
  | fuel, remaining, got =>
    if want ≤ got.length then return ⟨got, none, remaining⟩
    else match fuel with
      | 0 => .stop (.error .cut)
      | fuel + 1 => do
        let part ← declaredRead expected remaining (want - got.length)
        match part.err with
        | none => readFull expected want fuel part.remaining (got ++ part.data)
        | some err => return fullPart want (got ++ part.data) err part.remaining

/-- `io.ReadAll`. The room in its buffer is one byte at least; how much more there
is depends on how the buffer grows. -/
def readAll (spare : Nat → Nat) (expected : Nat) :
    Nat → Nat → List UInt8 → Stream (List UInt8 × Nat)
  | 0, _, _ => .stop (.error .cut)
  | fuel + 1, remaining, got => do
    let part ← declaredRead expected remaining (spare got.length + 1)
    match part.err with
    | none => readAll spare expected fuel part.remaining (got ++ part.data)
    | some err =>
      if err = .eof then return (got ++ part.data, part.remaining)
      else .stop (.error (.read err))

def putChunk (chunks : List Cid) (data : List UInt8) : Stream (List Cid) :=
  if data = [] then return chunks
  else do
    let key ← .attempt (.put data) id
    return chunks ++ [key]

/-- `StreamPayloadChunks`, with the chunks that are stored so far. -/
def streamPayloadChunks (expected chunkSize calls : Nat) :
    Nat → Nat → List Cid → Stream (List Cid × Nat)
  | 0, _, _ => .stop (.error .cut)
  | fuel + 1, remaining, chunks => do
    let part ← readFull expected chunkSize calls remaining []
    match part.err with
    | none => do
      let chunks ← putChunk chunks part.data
      streamPayloadChunks expected chunkSize calls fuel part.remaining chunks
    | some err =>
      if err.isEnd = true then do
        let chunks ← putChunk chunks part.data
        return (chunks, part.remaining)
      else .stop (.error (.read err))

def validateComplete (expected remaining : Nat) : Except StreamError Unit :=
  reject (remaining ≠ 0) (.incomplete (expected - remaining) expected)

def flushBlocks (flusher : Bool) : Stream Unit :=
  if flusher = true then .attempt .flush id else return ()

variable [PayloadHash] [ChunkJson]

/-- The end of `MaterializeMeasuredPayload`, with the chunks stored. -/
def finishMeasured (flusher : Bool) (totalSize chunkSize : Nat) (chunks : List Cid) :
    Stream Cid := do
  Prog.stop (reject (chunks = []) .emptySequence)
  let metadata ← .stop ((encodeChunkMetadata (UInt64.ofNat totalSize) (UInt64.ofNat chunkSize)
    (UInt64.ofNat chunks.length)).mapError .metadata)
  let payload ← .attempt (.put metadata) id
  Prog.stop ((verifyPayloadCID payload metadata).mapError .metadata)
  flushBlocks flusher
  Prog.attempt (.create chunks payload) id

def materializeMeasuredPayload (flusher : Bool) (fuel totalSize chunkSize : Nat) : Stream Cid := do
  let read ← streamPayloadChunks totalSize chunkSize fuel fuel totalSize []
  Prog.stop (validateComplete totalSize read.2)
  finishMeasured flusher totalSize chunkSize read.1

def materializeRaw (spare : Nat → Nat) (fuel size : Nat) : Stream Cid := do
  let read ← readAll spare size fuel size []
  Prog.stop (validateComplete size read.2)
  Prog.attempt (.put read.1) id

/-- `MaterializeStagedFilePayload`, and whether the payload is chunked. -/
def materializeStagedFilePayload (spare : Nat → Nat) (flusher : Bool) (fuel : Nat)
    (size chunkSize : Int) : Stream (Cid × Bool) :=
  if size < 0 then .stop (.error .negativeSize)
  else if chunkSize ≤ 0 then .stop (.error .chunkSize)
  else if size ≤ chunkSize then do
    return (← materializeRaw spare fuel size.toNat, false)
  else do
    return (← materializeMeasuredPayload flusher fuel size.toNat chunkSize.toNat, true)

end stream

variable [CidFormat] [PayloadHash]

/-- The block store, with the puts that it refuses. -/
structure Blocks where
  held : AList fun _ : Cid => List UInt8
  refuses : List UInt8 → Bool

def Blocks.put (blocks : Blocks) (data : List UInt8) : Except PayloadError (Blocks × Cid) := do
  reject (blocks.refuses data = true) .io
  return ({ blocks with held := blocks.held.insert (rawCid data) data }, rawCid data)

def Blocks.get (blocks : Blocks) (key : Cid) : Except PayloadError (List UInt8) :=
  required .io (blocks.held.lookup key)

/-- What a payload identifier is known to bind: a raw body, or a sequence of
chunks and a metadata document. -/
inductive Payload where
  | raw (key : Cid)
  | positional (chunks : List Cid) (metadata : Cid)
  deriving DecidableEq

section materialize

/-- A reader that delivers these fragments, and then the end. -/
abbrev Reader := List (List UInt8)

/-- One call with room for `n` bytes. -/
def read (n : Nat) : Reader → ReadAnswer × Reader
  | [] => (⟨.bytes [], some .eof⟩, [])
  | f :: fs =>
    if f.length ≤ n then (⟨.bytes f, none⟩, fs) else (⟨.bytes (f.take n), none⟩, f.drop n :: fs)

/-- A bound on the calls that a reader can answer before its end. -/
def weight (reader : Reader) : Nat := (reader.map fun f => f.length + 1).sum + 1

/-- A reader and a block store, with the list that was created last. -/
structure Storage where
  reader : Reader
  blocks : Blocks
  created : Option Payload

def storage : Dialogue.Machine Answer Storage := fun s q =>
  match q with
  | .read n => ((read n s.reader).1, { s with reader := (read n s.reader).2 })
  | .put data =>
    match s.blocks.put data with
    | .ok (blocks, key) => (.ok key, { s with blocks := blocks })
    | .error _ => (.error (.store "block store failed"), s)
  | .flush => (.ok (), s)
  | .create chunks metadata =>
    (.ok metadata, { s with created := some (.positional chunks metadata) })

variable [ChunkJson]

/-- The blocks and the payload that storing a body leaves. -/
def storeBody (spare : Nat → Nat) (flusher : Bool) (blocks : Blocks) (reader : Reader)
    (size chunkSize : Int) : Except StreamError (Blocks × Payload) :=
  match (materializeStagedFilePayload spare flusher (weight reader) size chunkSize).against storage
    ⟨reader, blocks, none⟩ with
  | (.ok (key, chunked), s) =>
    .ok (s.blocks, if chunked = true then s.created.getD (.raw key) else .raw key)
  | (.error e, _) => .error e

end materialize

section readback

def saturatingAdd (a b : UInt64) : UInt64 :=
  if b > UInt64.ofNat (2 ^ 64 - 1) - a then UInt64.ofNat (2 ^ 64 - 1) else a + b

/-- A slice expression, which stops the program when it is out of range. -/
def bytesBetween (data : List UInt8) (first last : UInt64) : Except PayloadError (List UInt8) := do
  reject (last < first ∨ data.length < last.toNat) (.message "slice bounds out of range")
  return Slices.slice data first.toNat last.toNat

def getBoundBlock (blocks : Blocks) (key : Cid) : Except PayloadError (List UInt8) := do
  let data ← blocks.get key
  reject (PayloadHash.sums key data = false)
    (.message "payload bytes do not match authenticated CID %s")
  return data

/-- The body that an identity identifier carries. -/
class InlineBody where
  inline : Cid → Option (List UInt8)
  inline_rawCid : ∀ {data body}, inline (rawCid data) = some body → body = data

/-- `engine.Metadata`, as it is verified for a sequence. -/
structure Metadata where
  payloadCID : Cid
  count : UInt64
  deriving DecidableEq

structure ReadResult where
  body : List UInt8
  target : Payload
  offset : UInt64
  stop : UInt64
  totalSize : UInt64
  chunkSize : UInt64
  deriving DecidableEq

/-- A file payload, with what a stat of it has retained. -/
structure Stat where
  payload : Payload
  size : UInt64
  rawBody : Option (List UInt8)
  chunkMetadataBody : Option (List UInt8)
  deriving DecidableEq

/-- A body that is there already, or the block. -/
def loadBody (blocks : Blocks) (key : Cid) : Option (List UInt8) → Except PayloadError (List UInt8)
  | some body => return body
  | none => getBoundBlock blocks key

variable [ChunkJson] [InlineBody]

def readChunkMetadata (blocks : Blocks) (rootMetadata : Metadata) (body : Option (List UInt8)) :
    Except PayloadError (ChunkMetadata × List UInt8) := do
  let body ← loadBody blocks rootMetadata.payloadCID
    (body.or (InlineBody.inline rootMetadata.payloadCID))
  let geometry ← parseChunkMetadata rootMetadata.payloadCID body rootMetadata.count
  return (geometry, body)

/-- The parts of the chunks that a range covers. Each block is fetched once. -/
def readSegments (blocks : Blocks) (geometry : ChunkMetadata) (start stop : UInt64) :
    UInt64 → (AList fun _ : Cid => List UInt8) → List Cid → Except PayloadError (List UInt8)
  | _, _, [] => return []
  | i, fetched, target :: rest => do
    let data ← loadBody blocks target (fetched.lookup target)
    let index := start / geometry.chunkSize + i
    let offset := index * geometry.chunkSize
    let expected := min geometry.chunkSize (geometry.totalSize - offset)
    reject (UInt64.ofNat data.length ≠ expected)
      (.message "payload chunk length differs from authenticated measurements")
    let first := if start > offset then start - offset else 0
    let last := min expected (stop - offset)
    let part ← bytesBetween data first last
    let parts ← readSegments blocks geometry start stop (i + 1) (fetched.insert target data) rest
    return part ++ parts

def readTypedRange (blocks : Blocks) (chunks : List Cid) (metadata : Cid) (start : UInt64)
    (length : Option UInt64)
    (metadataBody : Option (List UInt8)) : Except PayloadError ReadResult := do
  let rootMetadata : Metadata := { payloadCID := metadata, count := UInt64.ofNat chunks.length }
  let (geometry, _) ← readChunkMetadata blocks rootMetadata metadataBody
  if start ≥ geometry.totalSize ∨ length = some 0 then
    return { body := [], target := .positional chunks metadata, offset := start, stop := start
             totalSize := geometry.totalSize, chunkSize := geometry.chunkSize }
  else do
    let stop :=
      length.elim geometry.totalSize fun length => min geometry.totalSize
        (saturatingAdd start length)
    let firstIndex := start / geometry.chunkSize
    let stopIndex := (stop - 1) / geometry.chunkSize + 1
    let segments := Slices.slice chunks firstIndex.toNat stopIndex.toNat
    let body ← readSegments blocks geometry start stop 0 ∅ segments
    reject (UInt64.ofNat body.length ≠ stop - start)
      (.message "incomplete authenticated byte range")
    return { body := body, target := .positional chunks metadata, offset := start, stop := stop
             totalSize := geometry.totalSize, chunkSize := geometry.chunkSize }

/-- The part of a raw body, and where it ends. -/
def rawRange (body : List UInt8) (offset : UInt64) (length : Option UInt64) :
    Except PayloadError (List UInt8 × UInt64) :=
  let total := UInt64.ofNat body.length
  match length with
  | some length =>
    if offset ≥ total ∨ length = 0 then return ([], offset)
    else do
      let sum := saturatingAdd offset length
      let stop := if sum > total then total else sum
      let part ← bytesBetween body offset stop
      return (part, stop)
  | none =>
    if offset > 0 then
      if offset ≥ total then return ([], offset)
      else do
        let part ← bytesBetween body offset total
        return (part, total)
    else return (body, total)

def readStatFile (blocks : Blocks) (stat : Stat) (offset : UInt64) (length : Option UInt64) :
    Except PayloadError ReadResult :=
  match stat.payload with
  | .positional chunks metadata =>
    readTypedRange blocks chunks metadata offset length stat.chunkMetadataBody
  | .raw key => do
    let body ← loadBody blocks key stat.rawBody
    let (part, stop) ← rawRange body offset length
    return { body := part, target := .raw key, offset := offset, stop := stop
             totalSize := UInt64.ofNat body.length, chunkSize := 0 }

/-- A lookup retains nothing. -/
def lookup (payload : Payload) :
    Stat := { payload := payload, size := 0, rawBody := none, chunkMetadataBody := none }

def stat (blocks : Blocks) (payload : Payload) : Except PayloadError Stat :=
  match payload with
  | .positional chunks metadata => do
    let (geometry, body) ←
      readChunkMetadata blocks { payloadCID := metadata, count := UInt64.ofNat chunks.length } none
    return { payload := payload, size := geometry.totalSize, rawBody := none,
             chunkMetadataBody := some body }
  | .raw key => do
    let body ← getBoundBlock blocks key
    return { payload := payload, size := UInt64.ofNat body.length, rawBody := some body,
             chunkMetadataBody := none }

end readback

end MaltClient.Payloads
