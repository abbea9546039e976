import MaltClient.FileTree
import MaltClient.FileNames

/-! Restoring an encrypted binding into an empty directory. The objects of a
binding are taken as they are after their proofs and ciphertexts are checked. -/

namespace MaltClient.EncryptedUnixFs

open GoText Checked FileTree

def profileID : GoString := text "malt.encrypted-unixfs/v1"

def profileVersion : Int := 1

/-- Magic, version, kind, epoch and nonce, and the tag of the cipher. -/
def envelopeOverhead : UInt64 := 8 + 1 + 1 + 4 + 24 + 16

inductive EntryType where
  | directory
  | file
  | symlink
  | other (value : GoString)
  deriving DecidableEq, Repr

inductive Storage where
  | unset
  | raw
  | list
  | other (value : GoString)
  deriving DecidableEq, Repr

structure DirectoryEntry where
  name : GoString
  type : EntryType
  token : GoString
  deriving DecidableEq, Repr

structure DirectoryManifest where
  profile : GoString
  version : Int
  kind : EntryType
  mode : UInt32
  entries : List DirectoryEntry
  deriving DecidableEq, Repr

structure FileManifest where
  profile : GoString
  version : Int
  kind : EntryType
  mode : UInt32
  size : UInt64
  storage : Storage
  plaintextChunkSize : UInt64
  ciphertextChunkSize : UInt64
  ciphertextSize : UInt64
  chunkCount : UInt64
  linkTarget : GoString
  deriving DecidableEq, Repr

/-- What a reader finds at a place of a binding once it has verified and opened
it: the manifest of a directory with what its tokens lead to, or that of a file
with the body that its chunks give. -/
inductive Sealed where
  | unreadable
  | directory (manifest : DirectoryManifest) (child : GoString → Sealed)
  | file (manifest : FileManifest) (body : Option (List UInt8))

inductive RestoreError where
  | io
  | message (format : String) (args : List GoString)
  deriving DecidableEq, Repr

/-- The token of an entry, which depends on the key of the binding. -/
class BindingSecret where
  entryToken : GoString → GoString → GoString

abbrev RestoredTree := Tree FileName UInt32 (List UInt8) GoString

/-- The system that runs a restore, and which of its calls fail. -/
structure System where
  umask : UInt32
  linkMode : UInt32
  fails : GoString → Bool

section validation

def validToken (token : GoString) : Bool :=
  hasPrefix token (text "e1-") && (bytes token).length = 55 &&
    (token.drop 3).all fun r =>
      match r with
      | .char c => ('a' ≤ c && c ≤ 'z') || ('2' ≤ c && c ≤ '7')
      | .bad _ => false

def validateEntryName (name : GoString) : Except RestoreError Unit :=
  reject (validString name = false ∨ name = [] ∨ name = dot ∨ name = dotDot ∨
    hasPrefix name (text "@") = true ∨
      slash ∈ name ∨ Rune.char '\\' ∈ name ∨ Rune.char (Char.ofNat 0) ∈ name)
    (.message "invalid encrypted UnixFS entry name %q" [name])

/-- The entries have allowed names in ascending order and different tokens. -/
def validateEntries : GoString → List GoString → List DirectoryEntry → Except RestoreError Unit
  | _, _, [] => return ()
  | previous, tokens, entry :: entries => do
    validateEntryName entry.name
    reject (entry.type ≠ .directory ∧ entry.type ≠ .file ∧ entry.type ≠ .symlink)
      (.message "unsupported encrypted UnixFS entry type %q" [])
    reject (validToken entry.token = false) (.message "invalid encrypted UnixFS entry token" [])
    reject (leBytes (bytes entry.name) (bytes previous) = true)
      (.message "encrypted UnixFS directory entries must be uniquely sorted by name" [])
    reject (entry.token ∈ tokens) (.message "duplicate encrypted UnixFS entry token" [])
    validateEntries entry.name (entry.token :: tokens) entries

theorem validateEntries_eq_ok {previous : GoString} {tokens : List GoString}
    {entries : List DirectoryEntry} (h : validateEntries previous tokens entries = .ok ()) :
    (∀ entry ∈ entries, validateEntryName entry.name = .ok () ∧
      leBytes (bytes entry.name) (bytes previous) = false ∧ entry.token ∉ tokens) ∧
      (entries.map DirectoryEntry.name).Nodup ∧ (entries.map DirectoryEntry.token).Nodup := by
  induction entries generalizing previous tokens with
  | nil => simp
  | cons entry entries ih =>
    simp only [validateEntries, ok_iff] at h
    obtain ⟨_, hname, _, -, _, -, _, horder, _, htoken, hrest⟩ := h
    obtain ⟨hall, hnames, htokens⟩ := ih hrest
    have hless : leBytes (bytes entry.name) (bytes previous) = false := by simpa using horder
    have hlater : ∀ e ∈ entries, leBytes (bytes e.name) (bytes previous) = false := by
      intro e he
      by_contra hle
      have hafter :=
        (leBytes_total (bytes entry.name) (bytes previous)).resolve_left (by simp [hless])
      have hbefore := leBytes_trans (by simpa using hle) hafter
      rw [(hall e he).2.1] at hbefore
      cases hbefore
    refine ⟨?_, ?_, ?_⟩
    · intro e he
      rcases List.mem_cons.mp he with rfl | he
      · exact ⟨hname, hless, htoken⟩
      · exact ⟨(hall e he).1, hlater e he, fun hin => (hall e he).2.2 (List.mem_cons_of_mem _ hin)⟩
    · rw [List.map_cons, List.nodup_cons]
      refine ⟨fun hmem => ?_, hnames⟩
      obtain ⟨e, he, hsame⟩ := List.mem_map.mp hmem
      have hle := (hall e he).2.1
      rw [hsame] at hle
      rcases leBytes_total (bytes entry.name) (bytes entry.name) with hself | hself <;>
        simp [hle] at hself
    · rw [List.map_cons, List.nodup_cons]
      refine ⟨fun hmem => ?_, htokens⟩
      obtain ⟨e, he, hsame⟩ := List.mem_map.mp hmem
      exact (hall e he).2.2 (hsame ▸ List.mem_cons_self)

def validateDirectoryManifest (manifest : DirectoryManifest) : Except RestoreError Unit := do
  reject (manifest.profile ≠ profileID ∨ manifest.version ≠ profileVersion ∨
    manifest.kind ≠ .directory)
    (.message "encrypted UnixFS directory manifest is incomplete" [])
  validateEntries [] [] manifest.entries

def wantChunks (manifest : FileManifest) : UInt64 :=
  if 0 < manifest.size then (manifest.size + manifest.plaintextChunkSize - 1) /
    manifest.plaintextChunkSize else 1

def lastPlain (manifest : FileManifest) : UInt64 :=
  if manifest.size = 0 then 0
  else if manifest.size % manifest.plaintextChunkSize = 0 then manifest.plaintextChunkSize
  else manifest.size % manifest.plaintextChunkSize

def validateFileManifest (manifest : FileManifest) : Except RestoreError Unit := do
  reject (manifest.profile ≠ profileID ∨ manifest.version ≠ profileVersion)
    (.message "encrypted UnixFS file manifest is incomplete" [])
  match manifest.kind with
  | .symlink =>
    reject (manifest.linkTarget = [] ∨ validString manifest.linkTarget = false ∨
      manifest.storage ≠ .unset ∨ manifest.chunkCount ≠ 0 ∨ manifest.ciphertextSize ≠ 0)
      (.message "encrypted UnixFS symlink manifest is invalid" [])
  | .file =>
    reject (manifest.linkTarget ≠ [] ∨ (manifest.storage ≠ .raw ∧ manifest.storage ≠ .list) ∨
        manifest.plaintextChunkSize = 0 ∨ manifest.ciphertextChunkSize = 0 ∨
          manifest.ciphertextSize = 0 ∨
        manifest.chunkCount = 0)
      (.message "encrypted UnixFS file manifest is invalid" [])
    reject (manifest.chunkCount ≠ wantChunks manifest ∨
        manifest.ciphertextChunkSize ≠ manifest.plaintextChunkSize + envelopeOverhead)
      (.message "encrypted UnixFS file chunk geometry is invalid" [])
    let wantCipher :=
      (manifest.chunkCount - 1) * manifest.ciphertextChunkSize + lastPlain manifest +
        envelopeOverhead
    reject (manifest.ciphertextSize ≠ wantCipher ∨
        decide (manifest.storage = .raw) ≠ decide (manifest.chunkCount = 1))
      (.message "encrypted UnixFS file ciphertext geometry is invalid" [])
  | _ => throw (.message "unsupported encrypted UnixFS file kind %q" [])

def validateSymlinkTarget (relativePath target : GoString) : Except RestoreError GoString := do
  reject (target = [] ∨ isAbs target = true ∨ Rune.char '\\' ∈ target)
    (.message "encrypted UnixFS symlink target must be a portable relative path: %s" [relativePath])
  let joined := clean (pathJoin [dir relativePath, target])
  reject (joined = dotDot ∨ hasPrefix joined (dotDot ++ [slash]) = true)
    (.message "encrypted UnixFS symlink escapes its binding: %s" [relativePath])
  let portable := clean target
  reject (portable = dot ∨ hasPrefix portable [slash] = true)
    (.message "encrypted UnixFS symlink target is invalid: %s" [relativePath])
  return portable

end validation

section restore

def create (os : System) (target : GoString) (o : Object UInt32 (List UInt8) GoString)
    (tree : RestoredTree) : Except RestoreError RestoredTree := do
  reject (os.fails target = true) .io
  let p ← required .io (components target)
  required .io (tree.create p o)

/-- The root has no mode of its own here. -/
def chmod (os : System) (target : GoString) (mode : UInt32) (tree : RestoredTree) :
    Except RestoreError RestoredTree := do
  reject (os.fails target = true) .io
  match components target with
  | some p => return tree.chmod p (mode &&& 0o777)
  | none => return tree

def restoreRegularFile (os : System) (manifest : FileManifest) (body : Option (List UInt8))
    (target : GoString) (tree : RestoredTree) : Except RestoreError RestoredTree := do
  let body ← required .io body
  let tree ← create os target (.file (0o600 &&& ~~~ os.umask) body) tree
  chmod os target manifest.mode tree

/-- A file or a link is opened as what its directory says that it is. -/
def restoreFile (os : System) (type : EntryType) (target : GoString) (tree : RestoredTree) :
    Sealed → Except RestoreError RestoredTree
  | .file manifest body => do
    validateFileManifest manifest
    reject (manifest.kind ≠ type) (.message "encrypted UnixFS parent/file type mismatch" [])
    if type = .symlink then do
      let _ ← validateSymlinkTarget target manifest.linkTarget
      create os target (.link os.linkMode manifest.linkTarget) tree
    else restoreRegularFile os manifest body target tree
  | _ => throw (.message "encrypted UnixFS file manifest envelope is invalid" [])

variable [BindingSecret]

def openDirectoryAt (relativePath : GoString) (manifest : DirectoryManifest) :
    Except RestoreError Unit := do
  validateDirectoryManifest manifest
  forM manifest.entries fun entry =>
    reject (entry.token ≠ BindingSecret.entryToken relativePath entry.name)
      (.message "encrypted UnixFS entry %q token is not derived from its parent" [entry.name])

def restoreDirectory (os : System) :
    Sealed → GoString → RestoredTree → Except RestoreError RestoredTree
  | .directory manifest child, relativePath, tree => do
    openDirectoryAt relativePath manifest
    let tree ← manifest.entries.foldlM (fun tree entry =>
      let target := pathJoin [relativePath, entry.name]
      match entry.type with
      | .directory => do
        let tree ← create os target (.dir (0o700 &&& ~~~ os.umask)) tree
        restoreDirectory os (child entry.token) target tree
      | .file => restoreFile os .file target tree (child entry.token)
      | .symlink => restoreFile os .symlink target tree (child entry.token)
      | .other _ => throw (.message "unsupported encrypted UnixFS restore entry type %q" [])) tree
    chmod os relativePath manifest.mode tree
  | _, _, _ => throw (.message "encrypted UnixFS directory manifest envelope is invalid" [])

def restoreBindingRoot (os : System) (binding : Sealed) (restoreRoot : RestoredTree) :
    Except RestoreError RestoredTree := do
  reject (restoreRoot.objects.entries.length ≠ 0)
    (.message "encrypted UnixFS rooted restore destination is not empty" [])
  restoreDirectory os binding [] restoreRoot

end restore

section links

def component (segment : GoString) : Component FileName :=
  if h : Name segment then .name ⟨segment, h⟩ else if segment = dotDot then .up else .stay

/-- A target as the system reads it: an absolute one leads out of the tree. -/
def follow (target : GoString) : Option (List (Component FileName)) :=
  if isAbs target = true then none else some ((split target).map component)

end links

end MaltClient.EncryptedUnixFs
