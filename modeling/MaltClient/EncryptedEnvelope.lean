import MaltClient.ByteFields
import MaltClient.EncryptedRestore
import MaltClient.Keyring
import MaltClient.Slices

/-! The envelopes of encrypted objects: the keys derived for a place, the data
that ties a ciphertext to it, and the header around the ciphertext. -/

namespace MaltClient.EncryptedUnixFs

open GoText Checked ByteFields Slices
open BackupKeys (formatUint)

/-- HMAC-SHA256 and XChaCha20-Poly1305. What is assumed of them stands with
each result. -/
class Cipher (Key : Type) where
  hmac : Key → List UInt8 → Key
  /-- Base32 of a digest in lower case, without padding. -/
  base32 : Key → GoString
  sealed : Key → List UInt8 → List UInt8 → List UInt8 → List UInt8
  opened : Key → List UInt8 → List UInt8 → List UInt8 → Option (List UInt8)

variable {Key : Type} [Cipher Key]

section keys

def deriveKey (master : Key) (domain : GoString) (parts : List (List UInt8)) : Key :=
  Cipher.hmac master (fields 8 (utf8 profileID :: utf8 domain :: parts))

def datasetManifestKey (bucketKey : Key) (datasetID branch : List UInt8) : Key :=
  deriveKey bucketKey (text "dataset-manifest") [datasetID, branch]

def bindingKey (bucketKey : Key) (datasetID branch bindingID : List UInt8) : Key :=
  deriveKey bucketKey (text "binding") [datasetID, branch, bindingID]

def directoryManifestKey (key : Key) (relativePath : List UInt8) : Key :=
  deriveKey key (text "directory-manifest") [relativePath]

def fileManifestKey (key : Key) (relativePath : List UInt8) : Key :=
  deriveKey key (text "file-manifest") [relativePath]

def fileContentKey (key : Key) (relativePath : List UInt8) : Key :=
  deriveKey key (text "file-content") [relativePath]

def opaqueToken (key : Key) (value : List UInt8) : GoString :=
  text "e1-" ++ Cipher.base32 (Cipher.hmac key value)

def entryToken (key : Key) (parentPath name : List UInt8) : GoString :=
  opaqueToken (deriveKey key (text "entry-token") [parentPath]) name

end keys

section envelopes

inductive EnvelopeKind where
  | datasetManifest
  | directoryManifest
  | fileManifest
  | fileChunk
  deriving DecidableEq, Repr

def EnvelopeKind.code : EnvelopeKind → UInt8
  | .datasetManifest => 1
  | .directoryManifest => 2
  | .fileManifest => 3
  | .fileChunk => 4

def EnvelopeKind.ofCode (code : UInt8) : Option EnvelopeKind :=
  [.datasetManifest, .directoryManifest, .fileManifest, .fileChunk].find? fun kind =>
    kind.code = code

def envelopeVersion : UInt8 := 1

def envelopeMagic : List UInt8 := utf8 (text "MALTEFS1")

def envelopeHeader : Nat := 8 + 1 + 1 + 4 + 24

/-- The random bytes drawn for one envelope. -/
structure Nonce where
  bytes : List UInt8
  length_eq : bytes.length = 24

structure Envelope where
  kind : EnvelopeKind
  epoch : UInt32
  nonce : List UInt8
  ciphertext : List UInt8
  deriving DecidableEq

def envelopeAAD (kind : EnvelopeKind) (epoch : UInt32) (contextParts : List (List UInt8)) :
    List UInt8 :=
  utf8 profileID ++ (0 :: kind.code :: (bigEndian 4 epoch.toNat ++ fields 4 contextParts))

def header (kind : EnvelopeKind) (epoch : UInt32) (nonce : Nonce) : List UInt8 :=
  envelopeMagic ++ (envelopeVersion :: kind.code :: (bigEndian 4 epoch.toNat ++ nonce.bytes))

/-- There is no nonce when no random bytes can be read. -/
def sealEnvelope (kind : EnvelopeKind) (epoch : UInt32) (key : Key) (nonce : Option Nonce)
    (plaintext : List UInt8)
    (contextParts : List (List UInt8)) : Except RestoreError (List UInt8) := do
  reject (epoch = 0) (.message "encrypted UnixFS key epoch must be positive" [])
  let nonce ← required (.message "generate encrypted UnixFS nonce: %w" []) nonce
  return header kind epoch nonce ++
    Cipher.sealed key nonce.bytes (envelopeAAD kind epoch contextParts) plaintext

def parseEnvelope (data : List UInt8) : Except RestoreError Envelope := do
  reject (data.length < envelopeOverhead.toNat ∨ data.take 8 ≠ envelopeMagic ∨
    data.getD 8 0 ≠ envelopeVersion)
    (.message "unsupported encrypted UnixFS envelope" [])
  let kind ← required (.message "unsupported encrypted UnixFS envelope kind %d"
    [formatUint (data.getD 9 0).toNat]) (EnvelopeKind.ofCode (data.getD 9 0))
  let epoch := UInt32.ofNat (ofBigEndian (slice data 10 14))
  reject (epoch = 0) (.message "encrypted UnixFS envelope has invalid key epoch" [])
  return { kind := kind, epoch := epoch, nonce := slice data 14 envelopeHeader,
           ciphertext := data.drop envelopeHeader }

def openEnvelope (data : List UInt8) (expected : EnvelopeKind) (key : Key)
    (contextParts : List (List UInt8)) : Except RestoreError (List UInt8 × UInt32) := do
  let parsed ← parseEnvelope data
  reject (parsed.kind ≠ expected) (.message "encrypted UnixFS envelope kind %d, want %d"
    [formatUint parsed.kind.code.toNat, formatUint expected.code.toNat])
  let plaintext ← required
    (.message "decrypt encrypted UnixFS envelope: key, context, or ciphertext is invalid" [])
    (Cipher.opened key parsed.nonce (envelopeAAD expected parsed.epoch contextParts)
      parsed.ciphertext)
  return (plaintext, parsed.epoch)

end envelopes

section places

/-- What an envelope is sealed for, apart from the key epoch. -/
inductive Place where
  | dataset (datasetID branch : List UInt8)
  | directory (datasetID branch bindingID relativePath : List UInt8)
  | file (datasetID branch bindingID relativePath : List UInt8)
  | chunk (datasetID branch bindingID relativePath : List UInt8) (index : UInt64)
  deriving DecidableEq

def chunkContext (datasetID branch bindingID relativePath : List UInt8) (index : UInt64) :
    List (List UInt8) :=
  [datasetID, branch, bindingID, relativePath, utf8 (formatUint index.toNat)]

def Place.kind : Place → EnvelopeKind
  | .dataset .. => .datasetManifest
  | .directory .. => .directoryManifest
  | .file .. => .fileManifest
  | .chunk .. => .fileChunk

def Place.context : Place → List (List UInt8)
  | .dataset datasetID branch => [datasetID, branch]
  | .directory datasetID branch bindingID relativePath =>
    [datasetID, branch, bindingID, relativePath]
  | .file datasetID branch bindingID relativePath => [datasetID, branch, bindingID, relativePath]
  | .chunk datasetID branch bindingID relativePath index =>
    chunkContext datasetID branch bindingID relativePath index

def Place.key (bucketKey : Key) : Place → Key
  | .dataset datasetID branch => datasetManifestKey bucketKey datasetID branch
  | .directory datasetID branch bindingID relativePath =>
    directoryManifestKey (bindingKey bucketKey datasetID branch bindingID) relativePath
  | .file datasetID branch bindingID relativePath =>
    fileManifestKey (bindingKey bucketKey datasetID branch bindingID) relativePath
  | .chunk datasetID branch bindingID relativePath _ =>
    fileContentKey (bindingKey bucketKey datasetID branch bindingID) relativePath

def Place.invalid : Place → RestoreError
  | .dataset .. => .message "%w: dataset manifest envelope is invalid"
    [text "root is not the encrypted UnixFS profile"]
  | .directory .. => .message "encrypted UnixFS directory manifest envelope is invalid" []
  | .file .. => .message "encrypted UnixFS file manifest envelope is invalid" []
  | .chunk .. => .message "encrypted UnixFS file chunk envelope is invalid" []

def sealAt (bucketKey : Key) (epoch : UInt32) (place : Place) (nonce : Option Nonce)
    (plaintext : List UInt8) : Except RestoreError (List UInt8) :=
  sealEnvelope place.kind epoch (place.key bucketKey) nonce plaintext place.context

/-- The reader takes the epoch from the envelope. That of a chunk has to be the
epoch of its file. -/
def openAt (keys : UInt32 → Except RestoreError Key) (place : Place) (fileEpoch : Option UInt32)
    (data : List UInt8) : Except RestoreError (List UInt8 × UInt32) := do
  let parsed ← (parseEnvelope data).mapError fun _ => place.invalid
  reject (parsed.kind ≠ place.kind) place.invalid
  reject (∃ epoch ∈ fileEpoch, parsed.epoch ≠ epoch)
    (.message "encrypted UnixFS file manifest and chunk epochs do not match" [])
  let bucketKey ← keys parsed.epoch
  openEnvelope data place.kind (place.key bucketKey) place.context

end places

section text

variable {n : Nat} {s : GoString}

theorem lt_of_mem_bytes (h : n ∈ bytes s) : n < 256 := by
  obtain ⟨r, -, hn⟩ := List.mem_flatMap.mp h
  cases r with
  | char c =>
    obtain ⟨b, -, rfl⟩ := List.mem_map.mp hn
    exact b.toNat_lt
  | bad b =>
    rw [List.mem_singleton.mp hn]
    exact b.toNat_lt

theorem map_toNat_utf8 (s : GoString) : (utf8 s).map UInt8.toNat = bytes s := by
  rw [utf8, List.map_map]
  refine (List.map_congr_left fun n hn => ?_).trans (List.map_id _)
  exact (UInt8.toNat_ofNat').trans (Nat.mod_eq_of_lt (lt_of_mem_bytes hn))

theorem utf8_injective {t : GoString} (hs : validString s = true) (ht : validString t = true)
    (h : utf8 s = utf8 t) : s = t := by
  apply bytes_injective hs ht
  rw [← map_toNat_utf8, ← map_toNat_utf8, h]

theorem validString_formatUint (n : Nat) : validString (formatUint n) = true := by
  rw [formatUint]
  split_ifs
  · rfl
  · simp [validString, BackupKeys.digit, Rune.isValid]

theorem length_utf8_formatUint (hn : n < 2 ^ 64) : (utf8 (formatUint n)).length < 256 ^ 4 := by
  have hrune (d : Nat) : (String.utf8EncodeChar (Char.ofNat (48 + d))).length ≤ 4 := by
    rw [String.length_utf8EncodeChar]
    exact Char.utf8Size_le_four _
  have hdigits : (Nat.digits 10 n).length ≤ 20 := by
    rw [Nat.digits_length_le_iff (by norm_num)]
    omega
  have hlength (ds : List Nat) : (bytes (ds.map BackupKeys.digit)).length ≤ 4 * ds.length := by
    induction ds with
    | nil => simp [bytes]
    | cons d ds ih =>
      simp only [bytes, BackupKeys.digit, List.map_cons, List.flatMap_cons, List.length_append,
        List.length_map, List.length_cons] at ih ⊢
      have := hrune d
      omega
  rw [utf8, List.length_map, formatUint]
  split_ifs
  · exact Nat.lt_of_le_of_lt (hlength [0]) (by norm_num)
  · refine Nat.lt_of_le_of_lt (hlength _) ?_
    rw [List.length_reverse]
    omega

end text

section sealed

variable {kind : EnvelopeKind} {epoch : UInt32} {nonce : Nonce} {c : List UInt8}

theorem EnvelopeKind.ofCode_code (kind : EnvelopeKind) :
    EnvelopeKind.ofCode kind.code = some kind := by
  cases kind <;> rfl

theorem EnvelopeKind.code_injective {kind kind' : EnvelopeKind} (h : kind.code = kind'.code) :
    kind = kind' := by
  have hkind := kind.ofCode_code
  rw [h, kind'.ofCode_code] at hkind
  exact (Option.some.inj hkind).symm

theorem ofNat_epoch (epoch : UInt32) :
    UInt32.ofNat (ofBigEndian (bigEndian 4 epoch.toNat)) = epoch := by
  have hlt : epoch.toNat < 256 ^ 4 := lt_of_lt_of_eq epoch.toNat_lt (by norm_num)
  rw [ofBigEndian_bigEndian, Nat.mod_eq_of_lt hlt, UInt32.ofNat_toNat]

theorem envelopeMagic_eq : envelopeMagic = [77, 65, 76, 84, 69, 70, 83, 49] := rfl

theorem header_append (kind : EnvelopeKind) (epoch : UInt32) (nonce : Nonce) (c : List UInt8) :
    header kind epoch nonce ++ c =
      [77, 65, 76, 84, 69, 70, 83, 49, 1, kind.code] ++
        (bigEndian 4 epoch.toNat ++ (nonce.bytes ++ c)) := by
  simp [header, envelopeMagic_eq, envelopeVersion]

theorem length_header (kind : EnvelopeKind) (epoch : UInt32) (nonce : Nonce) :
    (header kind epoch nonce).length = envelopeHeader := by
  simp [header, envelopeMagic_eq, nonce.length_eq, envelopeHeader]

theorem slice_append_middle (p m r : List UInt8) :
    slice (p ++ (m ++ r)) p.length (p.length + m.length) = m := by
  rw [slice, List.drop_left, Nat.add_sub_cancel_left, List.take_left]

theorem epoch_of_header : slice (header kind epoch nonce ++ c) 10 14 = bigEndian 4 epoch.toNat := by
  rw [header_append]
  have hmiddle := slice_append_middle [77, 65, 76, 84, 69, 70, 83, 49, 1, kind.code]
    (bigEndian 4 epoch.toNat) (nonce.bytes ++ c)
  rwa [length_bigEndian] at hmiddle

theorem nonce_of_header : slice (header kind epoch nonce ++ c) 14 envelopeHeader = nonce.bytes := by
  rw [header_append, ← List.append_assoc]
  have hmiddle :=
    slice_append_middle ([77, 65, 76, 84, 69, 70, 83, 49, 1, kind.code] ++ bigEndian 4 epoch.toNat)
      nonce.bytes c
  rwa [nonce.length_eq, List.length_append, length_bigEndian] at hmiddle

theorem ciphertext_of_header : (header kind epoch nonce ++ c).drop envelopeHeader = c := by
  rw [← length_header kind epoch nonce, List.drop_left]

theorem parseEnvelope_header (kind : EnvelopeKind) (epoch : UInt32) (nonce : Nonce)
    (c : List UInt8) : parseEnvelope (header kind epoch nonce ++ c) = (do
      reject ((header kind epoch nonce ++ c).length < envelopeOverhead.toNat)
        (.message "unsupported encrypted UnixFS envelope" [])
      reject (epoch = 0) (.message "encrypted UnixFS envelope has invalid key epoch" [])
      return ⟨kind, epoch, nonce.bytes, c⟩) := by
  have hmagic : (header kind epoch nonce ++ c).take 8 = envelopeMagic := by
    rw [header_append, envelopeMagic_eq]
    rfl
  have hversion : (header kind epoch nonce ++ c).getD 8 0 = envelopeVersion := by
    rw [header_append]
    rfl
  have hkind : (header kind epoch nonce ++ c).getD 9 0 = kind.code := by
    rw [header_append]
    rfl
  unfold parseEnvelope
  simp only [hmagic, hversion, hkind, epoch_of_header, ofNat_epoch, nonce_of_header,
    ciphertext_of_header, EnvelopeKind.ofCode_code, ne_eq, not_true_eq_false, or_false, required]
  rfl

theorem parsed_header {parsed : Envelope} (h : parseEnvelope (header kind epoch nonce ++ c) =
    .ok parsed) : parsed = ⟨kind, epoch, nonce.bytes, c⟩ := by
  rw [parseEnvelope_header] at h
  simp only [ok_iff] at h
  obtain ⟨_, -, _, -, hparsed⟩ := h
  exact hparsed.symm

theorem parseEnvelope_ok (hepoch : epoch ≠ 0) (hc : 16 ≤ c.length) :
    parseEnvelope (header kind epoch nonce ++ c) = .ok ⟨kind, epoch, nonce.bytes, c⟩ := by
  have hlong : ¬ (header kind epoch nonce ++ c).length < envelopeOverhead.toNat := by
    have hoverhead : envelopeOverhead.toNat = envelopeHeader + 16 := by decide
    rw [List.length_append, length_header]
    omega
  rw [parseEnvelope_header]
  exact bind_eq_ok.mpr ⟨(), reject_eq_ok.mpr hlong,
    bind_eq_ok.mpr ⟨(), reject_eq_ok.mpr hepoch, rfl⟩⟩

theorem sealEnvelope_eq_ok {key : Key} {drawn : Option Nonce} {plaintext data : List UInt8}
    {parts : List (List UInt8)} (h : sealEnvelope kind epoch key drawn plaintext parts = .ok data) :
    epoch ≠ 0 ∧ ∃ nonce, drawn = some nonce ∧
      data = header kind epoch nonce ++ Cipher.sealed key nonce.bytes (envelopeAAD kind epoch parts)
        plaintext := by
  unfold sealEnvelope at h
  simp only [ok_iff] at h
  obtain ⟨_, hepoch, nonce, hnonce, hdata⟩ := h
  exact ⟨hepoch, nonce, hnonce, hdata.symm⟩

end sealed

section separation

/-- The cipher opens a ciphertext with the key, the nonce and the associated data
of its sealing only. -/
def OpensOnly (Key : Type) [Cipher Key] : Prop :=
  ∀ {key key' : Key} {nonce nonce' aad aad' plaintext plaintext' : List UInt8},
    Cipher.opened key' nonce' aad' (Cipher.sealed key nonce aad plaintext) = some plaintext' →
      key' = key ∧ nonce' = nonce ∧ aad' = aad

variable {epoch epoch' : UInt32} {place place' : Place} {plaintext data : List UInt8}

theorem envelopeAAD_injective {kind kind' : EnvelopeKind} {ps qs : List (List UInt8)}
    (hp : ∀ p ∈ ps, p.length < 256 ^ 4) (hq : ∀ q ∈ qs, q.length < 256 ^ 4)
    (h : envelopeAAD kind epoch ps = envelopeAAD kind' epoch' qs) :
    kind = kind' ∧ epoch = epoch' ∧ ps = qs := by
  have htail := List.append_cancel_left h
  rw [List.cons.injEq, List.cons.injEq] at htail
  obtain ⟨-, hcode, hrest⟩ := htail
  obtain ⟨hepoch, hfields⟩ := List.append_inj hrest (by rw [length_bigEndian, length_bigEndian])
  have hback := ofNat_epoch epoch
  rw [hepoch, ofNat_epoch] at hback
  exact ⟨EnvelopeKind.code_injective hcode, hback.symm,
    fields_injective (by norm_num) hp hq hfields⟩

def Place.identities : Place → List (List UInt8)
  | .dataset datasetID branch => [datasetID, branch]
  | .directory datasetID branch bindingID relativePath =>
    [datasetID, branch, bindingID, relativePath]
  | .file datasetID branch bindingID relativePath => [datasetID, branch, bindingID, relativePath]
  | .chunk datasetID branch bindingID relativePath _ => [datasetID, branch, bindingID, relativePath]

/-- The identities of a place are shorter than the lengths can count. -/
def Place.Short (place : Place) : Prop := ∀ identity ∈ place.identities, identity.length < 2 ^ 32

instance (place : Place) : Decidable place.Short := inferInstanceAs (Decidable (∀ _ ∈ _, _))

theorem Place.Short.context (h : place.Short) : ∀ part ∈ place.context, part.length < 256 ^ 4 := by
  have hids : ∀ identity ∈ place.identities, identity.length < 256 ^ 4 := fun identity hid =>
    lt_of_lt_of_eq (h identity hid) (by norm_num)
  cases place with
  | dataset datasetID branch => exact hids
  | directory datasetID branch bindingID relativePath => exact hids
  | file datasetID branch bindingID relativePath => exact hids
  | chunk datasetID branch bindingID relativePath index =>
    have hindex := length_utf8_formatUint index.toNat_lt
    simp only [identities, List.forall_mem_cons] at hids
    simp only [Place.context, chunkContext, List.forall_mem_cons]
    exact ⟨hids.1, hids.2.1, hids.2.2.1, hids.2.2.2.1, hindex, by simp⟩

theorem Place.eq_of_context (hkind : place.kind = place'.kind)
    (hcontext : place.context = place'.context) : place = place' := by
  cases place <;> cases place' <;> simp only [Place.kind, reduceCtorEq] at hkind
  case dataset => simpa [Place.context] using hcontext
  case directory => simpa [Place.context] using hcontext
  case file => simpa [Place.context] using hcontext
  case chunk index _ _ _ _ index' =>
    simp only [Place.context, chunkContext, List.cons.injEq, and_true] at hcontext
    obtain ⟨rfl, rfl, rfl, rfl, htext⟩ := hcontext
    have hformat := utf8_injective (validString_formatUint _) (validString_formatUint _) htext
    rw [UInt64.toNat_inj.mp (BackupKeys.formatUint_injective index.toNat_lt
      index'.toNat_lt hformat)]

theorem place_of_aad (hshort : place.Short) (hshort' : place'.Short)
    (h : envelopeAAD place.kind epoch place.context = envelopeAAD place'.kind epoch'
      place'.context) :
    place = place' ∧ epoch = epoch' := by
  obtain ⟨hkind, hepoch, hcontext⟩ := envelopeAAD_injective hshort.context hshort'.context h
  exact ⟨Place.eq_of_context hkind hcontext, hepoch⟩

theorem openEnvelope_eq_ok {expected : EnvelopeKind} {key : Key} {parts : List (List UInt8)}
    (h : openEnvelope data expected key parts = .ok (plaintext, epoch)) :
    ∃ parsed, parseEnvelope data = .ok parsed ∧ parsed.epoch = epoch ∧
      Cipher.opened key parsed.nonce (envelopeAAD expected parsed.epoch parts) parsed.ciphertext =
        some plaintext := by
  unfold openEnvelope at h
  simp only [ok_iff, Prod.mk.injEq] at h
  obtain ⟨parsed, hparsed, _, -, _, hopened, rfl, hepoch⟩ := h
  exact ⟨parsed, hparsed, hepoch, hopened⟩

theorem opened_in_place (hopens : OpensOnly Key) (hshort : place.Short) (hshort' : place'.Short)
    {bucketKey : Key} {drawn : Option Nonce}
    (hsealed : sealAt bucketKey epoch place drawn plaintext = .ok data)
    {keys : UInt32 → Except RestoreError Key}
    {fileEpoch : Option UInt32} {opened : List UInt8 × UInt32}
    (hopened : openAt keys place' fileEpoch data = .ok opened) :
    place' = place ∧ opened.2 = epoch ∧ ∀ e ∈ fileEpoch, e = epoch := by
  obtain ⟨-, nonce, -, rfl⟩ := sealEnvelope_eq_ok hsealed
  unfold openAt at hopened
  simp only [ok_iff] at hopened
  obtain ⟨parsed, hparsed, _, -, _, hfile, bucketKey', -, hopen⟩ := hopened
  obtain ⟨parsed', hparsed', hepoch, hcipher⟩ := openEnvelope_eq_ok hopen
  obtain rfl := parsed_header hparsed
  obtain rfl := parsed_header hparsed'
  -- the cipher leaves only the associated data of the sealing
  obtain ⟨-, -, haad⟩ := hopens hcipher
  obtain ⟨hplace, -⟩ := place_of_aad hshort' hshort haad
  refine ⟨hplace, hepoch.symm, fun e he => ?_⟩
  by_contra hne
  exact hfile ⟨e, he, fun heq => hne heq.symm⟩

/-- What is sealed for one place under one epoch can be opened there only, and
two places of one kind differ in their keys or in their associated data. -/
theorem sealed_in_place (hopens : OpensOnly Key) {place place' : Place} (hshort : place.Short)
    (hshort' : place'.Short) :
    (∀ (bucketKey : Key) epoch nonce plaintext data, sealAt bucketKey epoch place nonce plaintext =
      .ok data → ∀ (keys : UInt32 → Except RestoreError Key) fileEpoch opened,
        openAt keys place' fileEpoch data = .ok opened →
        place' = place ∧ opened.2 = epoch ∧ ∀ e ∈ fileEpoch, e = epoch) ∧
    (∀ (bucketKey bucketKey' : Key) epoch epoch', place.kind = place'.kind →
      (place, epoch) ≠ (place', epoch') → place.key bucketKey ≠ place'.key bucketKey' ∨
        envelopeAAD place.kind epoch place.context ≠
          envelopeAAD place'.kind epoch' place'.context) := by
  constructor
  · intro bucketKey epoch nonce plaintext data hsealed keys fileEpoch opened hopened
    exact opened_in_place hopens hshort hshort' hsealed hopened
  · intro bucketKey bucketKey' epoch epoch' _ hne
    right
    intro haad
    obtain ⟨hplace, hepoch⟩ := place_of_aad hshort hshort' haad
    exact hne (by rw [hplace, hepoch])

end separation

section framed

/-- A byte string that shows its own end. -/
def frame (l : List UInt8) : List UInt8 := l.flatMap (fun b => [1, b]) ++ [0]

theorem frame_append_injective {p q r s : List UInt8} (h : frame p ++ r = frame q ++ s) :
    p = q ∧ r = s := by
  induction p generalizing q with
  | nil =>
    cases q with
    | nil => simpa [frame] using h
    | cons b q => simp [frame] at h
  | cons a p ih =>
    cases q with
    | nil => simp [frame] at h
    | cons b q =>
      simp only [frame, List.flatMap_cons, List.cons_append, List.nil_append, List.cons.injEq,
        true_and] at h
      obtain ⟨rfl, hrest⟩ := ih h.2
      exact ⟨by rw [h.1], hrest⟩

/-- Keys and ciphertexts that spell out what they were made of. -/
@[reducible] def Cipher.framed : Cipher (List UInt8) where
  hmac key message := frame key ++ message
  base32 _ := List.replicate 52 (.char 'a')
  sealed key nonce aad plaintext := frame key ++ (frame nonce ++ (frame aad ++ plaintext))
  opened key nonce aad ciphertext :=
    let start := frame key ++ (frame nonce ++ frame aad)
    if ciphertext.take start.length = start then some (ciphertext.drop start.length) else none

theorem opensOnly_framed : @OpensOnly (List UInt8) Cipher.framed := by
  intro key key' nonce nonce' aad aad' plaintext plaintext' h
  simp only [Cipher.opened, Cipher.sealed, Option.ite_none_right_eq_some] at h
  obtain ⟨htake, -⟩ := h
  have hsplit := (List.take_append_drop (frame key' ++ (frame nonce' ++ frame aad')).length
    (frame key ++ (frame nonce ++ (frame aad ++ plaintext)))).symm
  rw [htake, List.append_assoc, List.append_assoc] at hsplit
  obtain ⟨hkey, hsplit⟩ := frame_append_injective hsplit
  obtain ⟨hnonce, hsplit⟩ := frame_append_injective hsplit
  obtain ⟨haad, -⟩ := frame_append_injective hsplit
  exact ⟨hkey.symm, hnonce.symm, haad.symm⟩

def firstChunk : Place := .chunk [1] [2] [3] [4] 0

def secondChunk : Place := .chunk [1] [2] [3] [4] 1

def zeroNonce : Nonce := ⟨List.replicate 24 0, List.length_replicate⟩

def sampleKey : List UInt8 := [7]

def sampleKeys (_ : UInt32) : Except RestoreError (List UInt8) := .ok sampleKey

def sampleEnvelope : List UInt8 :=
  letI := Cipher.framed
  header .fileChunk 1 zeroNonce ++
    Cipher.sealed (firstChunk.key sampleKey) zeroNonce.bytes
      (envelopeAAD .fileChunk 1 firstChunk.context) [8, 9]

/-- The first chunk of a file opens as such, and not as the second one. -/
theorem sealed_in_place_chunk : letI := Cipher.framed
    sealAt sampleKey 1 firstChunk (some zeroNonce) [8, 9] = .ok sampleEnvelope ∧
      openAt sampleKeys firstChunk (some 1) sampleEnvelope = .ok ([8, 9], 1) ∧
      (openAt sampleKeys secondChunk (some 1) sampleEnvelope).isOk = false := by
  let cipher := Cipher.framed
  have hshort : firstChunk.Short := by simp [Place.Short, Place.identities, firstChunk]
  have hshort' : secondChunk.Short := by simp [Place.Short, Place.identities, secondChunk]
  have hsealed : sealAt sampleKey 1 firstChunk (some zeroNonce) [8, 9] = .ok sampleEnvelope := rfl
  refine ⟨hsealed, by decide +kernel, ?_⟩
  cases hopened : openAt sampleKeys secondChunk (some 1) sampleEnvelope with
  | error e => rfl
  | ok opened =>
    have hplace := (sealed_in_place opensOnly_framed hshort hshort').1
      _ _ _ _ _ hsealed _ _ _ hopened
    exact absurd hplace.1 (by decide)

end framed

end MaltClient.EncryptedUnixFs
