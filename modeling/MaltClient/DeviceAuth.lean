import MaltClient.Base64
import MaltClient.ByteFields
import MaltClient.JsonObject
import MaltClient.Keyring
import MaltClient.ReplacedFile

/-! Device authorization: every request is signed together with a counter, which
is reserved in the credential file before the request can be sent. Processes
share the file and its lock. -/

namespace MaltClient.DeviceAuth

open GoText Checked ReplacedFile Base64
open BackupKeys (formatUint)

structure Url where
  scheme : GoString
  host : GoString
  requestURI : GoString
  deriving DecidableEq, Repr

/-- What a proof is made with: `net/url`, the tables for the case of letters,
SHA-256 and Ed25519. -/
class DeviceLibrary where
  parse : GoString → Option Url
  toLowerChar : Char → Char
  /-- One of the letters that fold to the same. -/
  foldChar : Char → Char
  sum256 : List UInt8 → List UInt8
  sign : (privateKey message : List UInt8) → List UInt8
  parse_address : ∃ url, parse (text "https://gateway") = some url

inductive AuthError where
  | notFound
  | io
  | message (format : String) (args : List GoString)
  | wrapped (format : String) (cause : AuthError)
  deriving DecidableEq, Repr

structure Credential where
  version : Int
  gateway : GoString
  name : GoString
  credentialID : GoString
  tenantID : GoString
  principalID : GoString
  publicKey : GoString
  privateKey : GoString
  keyProvider : GoString
  counter : UInt64
  /-- Nanoseconds since Go's zero time. -/
  createdAt : Int
  deriving DecidableEq, Repr

def credentialVersion : Int := 2

def publicKeySize : Nat := 32

def privateKeySize : Nat := 64

def maxSignedRequestBody : Nat := 96 * 2 ^ 20

/-- What `encoding/json` keeps of a credential. -/
def Credential.json (c : Credential) : Credential :=
  { c with
    gateway := jsonText c.gateway
    name := jsonText c.name
    credentialID := jsonText c.credentialID
    tenantID := jsonText c.tenantID
    principalID := jsonText c.principalID
    publicKey := jsonText c.publicKey
    privateKey := jsonText c.privateKey
    keyProvider := jsonText c.keyProvider }

theorem Credential.json_json (c : Credential) : c.json.json = c.json := by
  simp [Credential.json, JsonObject.jsonText_jsonText]

/-- What the decoder finds in a file, if that is a credential at all. -/
abbrev File := Option { c : Credential // c.json = c }

def Credential.encode (c : Credential) : File := some ⟨c.json, c.json_json⟩

structure Request where
  method : GoString
  url : Url
  body : Option (List UInt8)
  deriving DecidableEq, Repr

/-- What `Authorize` adds to a request. -/
structure Proof where
  credentialID : GoString
  counter : UInt64
  /-- Seconds since 1970. -/
  timestamp : Int
  digest : GoString
  signature : GoString
  deriving DecidableEq, Repr

def formatInt (n : Int) : GoString :=
  if n < 0 then .char '-' :: formatUint n.natAbs else formatUint n.natAbs

def Proof.headers (p : Proof) : List (String × GoString) :=
  [("Authorization", text "MaltDevice " ++ p.credentialID),
    ("X-Malt-Device-Timestamp", formatInt p.timestamp),
    ("X-Malt-Device-Counter", formatUint p.counter.toNat),
    ("X-Malt-Device-Content-SHA256", p.digest),
    ("X-Malt-Device-Signature", p.signature)]

def deviceRequestMessage (fields : List GoString) : List UInt8 :=
  utf8 (text "malt-device-request-v1") ++ 0 :: ByteFields.fields 4 (fields.map utf8)

section

variable [DeviceLibrary]

open DeviceLibrary

/-- Every invalid byte reads as the replacement character. -/
def mapChars (f : Char → Char) (s : GoString) : GoString :=
  (jsonText s).map fun r =>
    match r with
    | .char c => .char (f c)
    | .bad b => .bad b

def toLower (s : GoString) : GoString := mapChars toLowerChar s

def equalFold (s t : GoString) : Bool := mapChars foldChar s = mapChars foldChar t

def Credential.validate (c : Credential) : Except AuthError Unit := do
  reject (c.version ≠ credentialVersion ∨ trimSpace c.gateway = [] ∨ trimSpace c.name = [] ∨
      trimSpace c.credentialID = [] ∨ trimSpace c.tenantID = [] ∨ trimSpace c.principalID = [] ∨
      trimSpace c.keyProvider = [] ∨ c.createdAt = 0)
    (.message "device credential is incomplete or unsupported" [])
  let publicKey ← required (.message "device credential public key is invalid" [])
    (decodeString .rawURL c.publicKey)
  reject (publicKey.length ≠ publicKeySize) (.message "device credential public key is invalid" [])
  let privateKey ← required (.message "device credential private key is invalid" [])
    (decodeString .rawURL c.privateKey)
  reject (privateKey.length ≠ privateKeySize ∨ privateKey.drop 32 ≠ publicKey)
    (.message "device credential private key is invalid" [])

def sameGateway (configured : GoString) (requestURL : Url) : Bool :=
  match parse ((trimSpace configured).rdropWhile (· = slash)) with
  | none => false
  | some base => equalFold base.scheme requestURL.scheme && equalFold base.host requestURL.host

def load : Option File → Except AuthError Credential
  | none => throw .notFound
  | some file => do
    let value ← required (.message "decode device credential: %w" []) file
    value.val.validate
    return value.val

/-- The part of `Authorize` that takes the next counter. -/
def reserve (request : Request) (file : Option File) : Except AuthError Credential := do
  let value ← load file
  reject (sameGateway value.gateway request.url = false)
    (.message "stored device credential belongs to %s" [value.gateway])
  reject (value.counter = -1) (.message "device authorization counter is exhausted" [])
  return { value with counter := value.counter + 1 }

/-- The checks of `saveUnlocked` on the credential. -/
def checkSaved (value : Credential) : Except AuthError Credential := do
  let value := if value.version = 0 then { value with version := credentialVersion } else value
  value.validate
  return value

def requestBodyDigest (request : Request) : Except AuthError (List UInt8) := do
  let body := request.body.getD []
  reject (maxSignedRequestBody < body.length)
    (.message "device-authenticated request body exceeds %d bytes"
      [formatUint maxSignedRequestBody])
  return sum256 body

/-- The part of `Authorize` that signs the request. -/
def prove (request : Request) (now : Int) (value : Credential) : Except AuthError Proof := do
  let digest ← requestBodyDigest request
  let privateKey ← required (.message "device credential private key is invalid" [])
    (decodeString .rawURL value.privateKey)
  reject (privateKey.length ≠ privateKeySize)
    (.message "device credential private key is invalid" [])
  let encodedDigest := encodeToString .rawURL digest
  let message := deviceRequestMessage
    [value.credentialID, formatUint value.counter.toNat, formatInt now, request.method,
      toLower request.url.host, request.url.requestURI, encodedDigest]
  return {
    credentialID := value.credentialID, counter := value.counter, timestamp := now,
      digest := encodedDigest
    signature := encodeToString .rawURL (sign privateKey message) }

end

/-- The system calls that fill the temporary file. -/
inductive Staging where
  | mkdirAll
  | marshal
  | createTemp
  | secure
  | write
  | sync
  | close
  deriving DecidableEq, Repr

def stagingCalls : List Staging :=
  [.mkdirAll, .marshal, .createTemp, .secure, .write, .sync, .close]

inductive Call where
  | authorize (request : Request) (now : Int)
  | save (value : Credential)
  deriving DecidableEq, Repr

/-- What follows once a credential is saved: the request to sign, if any. -/
abbrev Next := Option (Request × Int)

/-- The place of a process. From `load` on it holds the lock. -/
inductive Place where
  | idle
  | waiting (call : Call)
  | loading (request : Request) (now : Int)
  | staging (value : Credential) (next : Next) (call : Staging) (calls : List Staging)
  | replacing (value : Credential) (next : Next)
  | securing (value : Credential) (next : Next)
  | syncing (value : Credential) (next : Next)
  | proving (value : Credential) (request : Request) (now : Int)
  | unlocking (result : Except AuthError (Option Proof))

/-- Where directories can be synced, and where `SyncParent` does nothing. -/
inductive Platform where
  | unix
  | other
  deriving DecidableEq, Repr

def syncParent (platform : Platform) (disk : Disk (Option File)) : Disk (Option File) :=
  match platform with
  | .unix => disk.sync
  | .other => disk

def failure (next : Next) (e : AuthError) : Place :=
  .unlocking (.error (if next.isSome then .wrapped "reserve device authorization counter: %w" e
    else e))

section

variable [DeviceLibrary]

/-- The start of `saveUnlocked`. -/
def saving (value : Credential) (next : Next) : Place :=
  match checkSaved value with
  | .error e => failure next e
  | .ok value => .staging value next .mkdirAll stagingCalls.tail

/-- The next system call of a process that holds the lock, which may fail. -/
def advance (platform : Platform) (ok : Bool) (disk : Disk (Option File)) :
    Place → Disk (Option File) × Place
  | .idle => (disk, .idle)
  | .waiting call => (disk, .waiting call)
  | .loading request now =>
    if ok then
      match reserve request disk.visible with
      | .error e => (disk, .unlocking (.error e))
      | .ok value => (disk, saving value (some (request, now)))
    else (disk, .unlocking (.error .io))
  | .staging value next _ calls =>
    if ok then
      match calls with
      | [] => (disk, .replacing value next)
      | call :: calls => (disk, .staging value next call calls)
    else (disk, failure next .io)
  | .replacing value next =>
    if ok then (disk.rename (some value.encode), .securing value next) else (disk, failure next .io)
  | .securing value next => (disk, if ok then .syncing value next else failure next .io)
  | .syncing value next =>
    if ok then
      match next with
      | none => (syncParent platform disk, .unlocking (.ok none))
      | some (request, now) => (syncParent platform disk, .proving value request now)
    else (disk, failure next .io)
  | .proving value request now =>
    (disk, .unlocking (if ok then (prove request now value).map some else .error .io))
  | .unlocking result => (disk, .unlocking result)

/-- The place of a call that has the lock. -/
def enter : Call → Place
  | .authorize request now => .loading request now
  | .save value => saving value none

structure System where
  disk : Disk (Option File)
  lock : Option Nat
  procs : Nat → Place
  /-- The proofs of the calls that returned success, in the order in which they
  held the lock. -/
  proofs : List Proof

/-- `step` is the next system call of a process; `kill` ends a process, and
`powerFailure` all of them. -/
inductive Event where
  | start (pid : Nat) (call : Call)
  | step (pid : Nat) (ok : Bool)
  | kill (pid : Nat)
  | powerFailure (keep : Nat)
  deriving DecidableEq, Repr

def System.place (system : System) (pid : Nat) (place : Place) : System :=
  { system with procs := Function.update system.procs pid place }

def proofOf : Except AuthError (Option Proof) → List Proof
  | .ok (some proof) => [proof]
  | _ => []

def System.step (platform : Platform) (system : System) (pid : Nat) (ok : Bool) : System :=
  match system.procs pid with
  | .idle => system
  | .waiting call =>
    if ok = false then system.place pid .idle
    else if system.lock = none then { system.place pid (enter call) with lock := some pid }
    else system
  | .unlocking result =>
    { system.place pid .idle with
      lock := if ok then none else system.lock
      proofs := system.proofs ++ proofOf result }
  | place =>
    { system.place pid (advance platform ok system.disk place).2 with
      disk := (advance platform ok system.disk place).1 }

def Event.exec (platform : Platform) (event : Event) (system : System) : System :=
  match event with
  | .start pid call =>
    match system.procs pid with
    | .idle => system.place pid (.waiting call)
    | _ => system
  | .step pid ok => system.step platform pid ok
  | .kill pid =>
    { system.place pid .idle with lock := if system.lock = some pid then none else system.lock }
  | .powerFailure keep =>
    { system with disk := system.disk.powerFailure keep, lock := none, procs := fun _ => .idle }

def run (platform : Platform) (events : List Event) (system : System) : System :=
  events.foldl (fun system event => event.exec platform system) system

end

def System.start (disk : Disk (Option File)) : System :=
  { disk := disk, lock := none, procs := fun _ => .idle, proofs := [] }

end MaltClient.DeviceAuth
