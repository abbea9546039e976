import MaltClient.JournalCalls
import MaltClient.JsonObject
import MaltClient.LockedFile

/-! The mount registry: the desired mounts and the unmount tombstones of all
managers, in one file. Mountpoints are slash paths. -/

namespace MaltClient.Mount

open GoText Checked AssocMap
open LockedFile (Fault)

inductive CachePolicy where
  | unset
  | verified
  | other (value : GoString)
  deriving DecidableEq, Repr

inductive WritePolicy where
  | unset
  | readOnly
  | writeBack
  | other (value : GoString)
  deriving DecidableEq, Repr

inductive ConflictPolicy where
  | unset
  | failReadOnly
  | preserveLocal
  | other (value : GoString)
  deriving DecidableEq, Repr

inductive LayoutPolicy where
  | unset
  | rootedV1
  | flatV1
  | hybridV1
  | other (value : GoString)
  deriving DecidableEq, Repr

/-- The durable identity and local policy of one mount. -/
structure Spec where
  id : GoString
  datasetID : GoString
  branch : GoString
  mountpoint : GoString
  trustAlias : GoString
  cachePolicy : CachePolicy
  writePolicy : WritePolicy
  layoutPolicy : LayoutPolicy
  encryptionEpoch : UInt32
  conflictPolicy : ConflictPolicy
  deriving DecidableEq, Repr

structure Record where
  spec : Spec
  desired : Bool
  updatedAt : Int
  deriving DecidableEq, Repr

inductive MountError where
  | notFound
  | invalidSpec (format : String) (args : List GoString)
  | identityReuse
  | mountpointUse
  | writableViewUse
  | pendingUnmount
  | message (format : String) (args : List GoString)
  | io
  deriving DecidableEq, Repr

abbrev Registry := AList fun _ : GoString => Record

def idCharacter : Rune → Bool
  | .char c =>
    ('a' ≤ c && c ≤ 'z') || ('A' ≤ c && c ≤ 'Z') || ('0' ≤ c && c ≤ '9') || c == '-' ||
      c == '_' || c == '.'
  | .bad _ => false

def checkText (name : String) (value : GoString) : Except MountError Unit :=
  reject (value = [] ∨ validString value = false ∨ containsRune value nul = true)
    (.invalidSpec "mount %s is empty or invalid UTF-8" [text name])

def defaultConflict (spec : Spec) : ConflictPolicy :=
  if spec.writePolicy = .writeBack then .preserveLocal else .failReadOnly

/-- The policies that an empty field stands for. -/
def defaults (spec : Spec) : Spec :=
  let spec := { spec with cachePolicy := if spec.cachePolicy = CachePolicy.unset then .verified
    else spec.cachePolicy }
  let spec := { spec with writePolicy := if spec.writePolicy = WritePolicy.unset then .readOnly
    else spec.writePolicy }
  { spec with conflictPolicy := if spec.conflictPolicy = ConflictPolicy.unset
    then defaultConflict spec else spec.conflictPolicy }

def checkPolicies (spec : Spec) : Except MountError Unit := do
  reject (spec.cachePolicy ≠ .verified) (.invalidSpec "mount cache policy %q is unsupported" [])
  match spec.writePolicy with
  | .readOnly =>
    reject (spec.conflictPolicy ≠ .failReadOnly ∨ spec.layoutPolicy ≠ .unset)
      (.invalidSpec
        "read-only mount requires fail-read-only conflict policy and no write layout" [])
  | .writeBack =>
    reject (spec.conflictPolicy ≠ .preserveLocal)
      (.invalidSpec "write-back mount requires preserve-local conflict policy" [])
    reject (spec.layoutPolicy ≠ .flatV1 ∧ spec.layoutPolicy ≠ .hybridV1 ∧
      spec.layoutPolicy ≠ .rootedV1)
      (.invalidSpec "write-back mount requires flat-v1, hybrid-v1 or rooted-v1 layout policy" [])
  | _ => throw (.invalidSpec "mount write policy %q is unsupported" [])

def trimmed (spec : Spec) : Spec :=
  { spec with
    id := trimSpace spec.id
    datasetID := trimSpace spec.datasetID
    branch := trimSpace spec.branch
    mountpoint := trimSpace spec.mountpoint
    trustAlias := trimSpace spec.trustAlias }

def checkTexts (spec : Spec) : Except MountError Unit := do
  checkText "id" spec.id
  checkText "dataset" spec.datasetID
  checkText "branch" spec.branch
  checkText "mountpoint" spec.mountpoint
  checkText "trust alias" spec.trustAlias
  reject (128 < (bytes spec.id).length) (.invalidSpec "mount id exceeds 128 bytes" [])
  reject (spec.id = dot ∨ spec.id = dotDot) (.invalidSpec "mount id is a reserved path segment" [])
  reject (spec.id.all idCharacter = false)
    (.invalidSpec "mount id contains unsupported character %q" [])

def normalizeSpec (spec : Spec) : Except MountError Spec := do
  let spec := trimmed spec
  checkTexts spec
  reject (isAbs spec.mountpoint = false) (.invalidSpec "mountpoint must be an absolute path" [])
  let spec := { spec with mountpoint := clean spec.mountpoint }
  reject (dir spec.mountpoint = spec.mountpoint)
    (.invalidSpec "refusing to use a filesystem root as mountpoint" [])
  let spec := defaults spec
  checkPolicies spec
  return spec

def mountpointKey (path : GoString) : GoString := clean path

def sameWritableView (left right : Spec) : Bool :=
  left.writePolicy = .writeBack && right.writePolicy = .writeBack && left.datasetID =
    right.datasetID &&
    left.branch = right.branch

section file

/-- What `encoding/json` keeps of a record. -/
def Record.json (record : Record) : Record :=
  { record with
    spec := { record.spec with
      id := jsonText record.spec.id
      datasetID := jsonText record.spec.datasetID
      branch := jsonText record.spec.branch
      mountpoint := jsonText record.spec.mountpoint
      trustAlias := jsonText record.spec.trustAlias } }

abbrev Persisted := List (Sigma fun _ : GoString => Record)

def viewKey (spec : Spec) : GoString := spec.datasetID ++ .char nul :: spec.branch

/-- The records that have been read, with the mountpoints and the writable
views that they reserve. -/
structure Reload where
  reserved : List GoString
  writableViews : List GoString
  records : Registry

def reserveView (id : GoString) (spec : Spec) (views : List GoString) :
    Except MountError (List GoString) :=
  if spec.writePolicy = .writeBack then do
    reject (viewKey spec ∈ views)
      (.message "mount records %s and %s reserve the same writable dataset branch" [id])
    return viewKey spec :: views
  else return views

def reloadRecord (next : Reload) (e : Sigma fun _ : GoString => Record) :
    Except MountError Reload := do
  let normalized ← normalizeSpec e.2.spec
  reject (normalized ≠ e.2.spec ∨ normalized.id ≠ e.1 ∨ e.2.updatedAt = 0)
    (.message "mount record %s has invalid persisted identity or timestamp" [e.1])
  let key := mountpointKey normalized.mountpoint
  reject (key ∈ next.reserved)
    (.message "mount records %s and %s reserve the same mountpoint" [e.1])
  let views ← reserveView e.1 normalized next.writableViews
  return { reserved := key ::
    next.reserved, writableViews := views, records := next.records.insert e.1 e.2 }

def reloadLocked (disk : Option Persisted) : Except MountError Registry :=
  match disk with
  | none => return ∅
  | some file => do
    let next ← file.foldlM reloadRecord { reserved := [], writableViews := [], records := ∅ }
    return next.records

def writeLocked (state : Registry) : Persisted :=
  state.entries.map fun e => ⟨jsonText e.1, e.2.json⟩

def store : LockedFile.Store Persisted Registry MountError :=
  { read := reloadLocked, write := fun state => return writeLocked state, io := .io }

end file

section calls

def stamp (now : Int) : Except MountError Unit :=
  JsonObject.marshalTimes (.message JsonObject.yearRange []) [now]

def checkExisting (spec : Spec) (state : Registry) : Except MountError Unit :=
  match state.lookup spec.id with
  | none => return ()
  | some existing => do
    reject (existing.spec ≠ spec) .identityReuse
    reject (existing.desired = false) .pendingUnmount

def checkOther (spec : Spec) (e : Sigma fun _ : GoString => Record) : Except MountError Unit := do
  reject (e.1 ≠ spec.id ∧ mountpointKey e.2.spec.mountpoint = mountpointKey spec.mountpoint)
    .mountpointUse
  reject (e.1 ≠ spec.id ∧ sameWritableView e.2.spec spec = true) .writableViewUse

def reserve (spec : Spec) (now : Int) : LockedFile.Edit Registry MountError Record :=
  fun state => do
  checkExisting spec state
  forM state.entries (checkOther spec)
  let result : Record := { spec := spec, desired := true, updatedAt := now }
  stamp now
  return (state.insert spec.id result, result)

def tombstone (id : GoString) (now : Int) : LockedFile.Edit Registry MountError Record :=
  fun state => do
  let existing ← required .notFound (state.lookup id)
  let result : Record := { existing with desired := false, updatedAt := now }
  stamp now
  return (state.insert id result, result)

def remove (id : GoString) : LockedFile.Edit Registry MountError Unit := fun state => do
  let existing ← required .notFound (state.lookup id)
  reject (existing.desired = true) (.message "refusing to delete desired mount %s" [id])
  return (state.erase id, ())

def putDesired (fault : Fault) (spec : Spec) (now : Int) (disk : Option Persisted) :
    Option Persisted × Except MountError Record :=
  match normalizeSpec spec with
  | .error e => (disk, .error e)
  | .ok spec => store.update fault (reserve spec now) disk

def markPendingUnmount (fault : Fault) (id : GoString) (now : Int) (disk : Option Persisted) :
    Option Persisted × Except MountError Record :=
  store.update fault (tombstone (trimSpace id) now) disk

def deleteUnmounted (fault : Fault) (id : GoString) (disk : Option Persisted) :
    Option Persisted × Except MountError Unit :=
  store.update fault (remove (trimSpace id)) disk

end calls

end MaltClient.Mount
