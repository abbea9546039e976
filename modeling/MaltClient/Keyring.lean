import MaltClient.AssocMap
import MaltClient.Base64
import MaltClient.LockedFile

/-! The backup keyring: one master key for each epoch, kept in one file that is
replaced as a whole, and recovery bundles that carry all epochs to another
machine. -/

namespace MaltClient.BackupKeys

open GoText Checked AssocMap Base64
open LockedFile (Fault)

section decimal

def digit (d : Nat) : Rune := .char (Char.ofNat (48 + d))

def digitValue : Rune → Option Nat
  | .char c => if 48 ≤ c.toNat ∧ c.toNat ≤ 57 then some (c.toNat - 48) else none
  | .bad _ => none

/-- `strconv.FormatUint` in base ten. -/
def formatUint (n : Nat) : GoString :=
  if n = 0 then [digit 0] else (Nat.digits 10 n).reverse.map digit

/-- `strconv.ParseUint` in base ten. -/
def parseUint (bits : Nat) (s : GoString) : Option Nat := do
  guard (s ≠ [])
  let ds ← s.mapM digitValue
  guard (Nat.ofDigits 10 ds.reverse < 2 ^ bits)
  return Nat.ofDigits 10 ds.reverse

theorem digitValue_digit {d : Nat} (h : d < 10) : digitValue (digit d) = some d := by
  interval_cases d <;> rfl

theorem mapM_digitValue {ds : List Nat} (h : ∀ d ∈ ds, d < 10) :
    (ds.map digit).mapM digitValue = some ds := by
  induction ds with
  | nil => rfl
  | cons d ds ih =>
    have hd := digitValue_digit (h d (by simp))
    have htail := ih fun e he => h e (by simp [he])
    rw [List.map_cons, List.mapM_cons, hd, htail]
    rfl

variable {bits n : Nat}

theorem parseUint_formatUint (h : n < 2 ^ bits) : parseUint bits (formatUint n) = some n := by
  unfold parseUint formatUint
  by_cases hn : n = 0
  · subst hn
    have hzero : [digit 0].mapM digitValue = some [0] := rfl
    simp [hzero, h, guard]
  · have hne :
      (Nat.digits 10 n).reverse.map digit ≠ [] := by simp [Nat.digits_eq_nil_iff_eq_zero, hn]
    have hds :
      ((Nat.digits 10 n).reverse.map digit).mapM digitValue = some (Nat.digits 10 n).reverse :=
      mapM_digitValue fun d hd => Nat.digits_lt_base (by norm_num) (List.mem_reverse.mp hd)
    rw [if_neg hn, hds]
    simp only [guard, if_pos hne, Option.bind_eq_bind, Option.pure_def, Option.bind_some,
      List.reverse_reverse, Nat.ofDigits_digits, if_pos h]

theorem formatUint_injective {m : Nat} (hm : m < 2 ^ bits) (hn : n < 2 ^ bits)
    (h : formatUint m = formatUint n) : m = n := by
  have hparse := parseUint_formatUint hm
  rw [h, parseUint_formatUint hn] at hparse
  exact (Option.some.inj hparse).symm

end decimal

def version : Nat := 1

def keySize : Nat := 32

def minimumPassphrase : Nat := 12

def saltSize : Nat := 16

def nonceSizeX : Nat := 24

abbrev MasterKey := { key : List UInt8 // key.length = keySize }

structure File where
  version : Nat
  activeEpoch : UInt32
  epochs : AList fun _ : GoString => GoString

/-- The hash functions and the authenticated cipher that the keyring is built on.
What the cipher opens is what was sealed under the nonce; it opens it with the
key of its sealing. A plaintext stands for the file that it encodes. -/
class KeyCrypto where
  hmac : (master message : List UInt8) → List UInt8
  scrypt : (passphrase salt : List UInt8) → List UInt8
  Ciphertext : Type
  sealed : (key nonce : List UInt8) → (plaintext : File) → Ciphertext
  opened : (key nonce : List UInt8) → Ciphertext → Option File
  opened_sealed :
    ∀ key nonce plaintext, opened key nonce (sealed key nonce plaintext) = some plaintext
  eq_of_opened :
    ∀ {key key' nonce plaintext value}, opened key' nonce (sealed key nonce plaintext) =
      some value →
    value = plaintext

structure Keyring where
  path : GoString
  data : File

inductive KeyringError where
  | notInitialized
  | message (format : String) (args : List GoString)
  | io
  deriving DecidableEq, Repr

/-- A recovery bundle, decoded. -/
structure Bundle [KeyCrypto] where
  salt : List UInt8
  nonce : List UInt8
  ciphertext : KeyCrypto.Ciphertext

/-- What a call meets: the lock, the reads, the random source, and the write. -/
structure Env where
  locked : Bool
  readable : Bool
  random : Option MasterKey
  write : Fault

abbrev Disk := GoString → Option File

def epochName (epoch : UInt32) : GoString := formatUint epoch.toNat

def validateEpoch (e : Sigma fun _ : GoString => GoString) : Except KeyringError Unit := do
  let epoch ← required (.message "invalid backup key epoch %q" [e.1]) (parseUint 32 e.1)
  reject (epoch = 0) (.message "invalid backup key epoch %q" [e.1])
  let key ← required (.message "invalid backup key material for epoch %s" [e.1])
    (decodeString .rawStd e.2)
  reject (key.length ≠ keySize) (.message "invalid backup key material for epoch %s" [e.1])

def validateFile (value : File) : Except KeyringError Unit := do
  reject (value.version ≠ version ∨ value.activeEpoch = 0 ∨ value.epochs.entries = [])
    (.message "unsupported or invalid backup keyring" [])
  forM value.epochs.entries validateEpoch
  reject (value.epochs.lookup (epochName value.activeEpoch) = none)
    (.message "active backup key epoch is missing" [])

/-- `Open`; the file holds what the last write put there. -/
def openFile (env : Env) (disk : Disk) (path : GoString) : Except KeyringError Keyring := do
  let path := trimSpace path
  let value ← required .notInitialized (disk path)
  reject (env.readable = false) .io
  validateFile value
  return { path := path, data := value }

def Keyring.write (k : Keyring) (env : Env) (disk : Disk) : Disk × Except KeyringError Unit :=
  match env.write with
  | .none => (Function.update disk k.path (some k.data), .ok ())
  | .aborted => (disk, .error .io)
  | .committed => (Function.update disk k.path (some k.data), .error .io)

def create (env : Env) (path : GoString) (disk : Disk) : Disk × Except KeyringError Keyring :=
  let path := trimSpace path
  if path = [] then (disk, .error (.message "backup keyring path is empty" []))
  else if env.locked = false then (disk, .error (.message "lock backup keyring: %w" []))
  else if (disk path).isSome then (disk, openFile env disk path)
  else
    match env.random with
    | none => (disk, .error (.message "generate backup master key: %w" []))
    | some key =>
      let k : Keyring :=
        { path := path
          data := { version := version, activeEpoch := 1
                    epochs := (∅ : AList fun _ : GoString => GoString).insert (epochName 1)
                      (encodeToString .rawStd key.1) } }
      ((k.write env disk).1, (k.write env disk).2.map fun _ => k)

/-- The file with a new active epoch. -/
def rotated (data : File) (key : MasterKey) : File :=
  { data with
    activeEpoch := data.activeEpoch + 1
    epochs := data.epochs.insert (epochName (data.activeEpoch + 1)) (encodeToString .rawStd key.1) }

/-- `Rotate`. The handle takes over the file that it reads, and the new epoch
before it is written. -/
def rotate (env : Env) (k : Keyring) (disk : Disk) : Disk × Keyring × Except KeyringError UInt32 :=
  if trimSpace k.path = [] then (disk, k, .error (.message "backup keyring is nil" []))
  else if env.locked = false then (disk, k, .error (.message "lock backup keyring: %w" []))
  else
    match openFile env disk k.path with
    | .error e => (disk, k, .error e)
    | .ok current =>
      let k := { k with data := current.data }
      if k.data.activeEpoch.toNat = 2 ^ 32 - 1 then
        (disk, k, .error (.message "backup key epoch cannot be advanced" []))
      else
        match env.random with
        | none => (disk, k, .error (.message "generate backup master key: %w" []))
        | some key =>
          let k := { k with data := rotated k.data key }
          ((k.write env disk).1, k, (k.write env disk).2.map fun _ => k.data.activeEpoch)

def masterKey (data : File) (epoch : UInt32) : Except KeyringError (List UInt8) := do
  let encoded ← required (.message "backup key epoch %d is unavailable" [epochName epoch])
    (data.epochs.lookup (epochName epoch))
  let master ← required (.message "backup key epoch %d is invalid" [epochName epoch])
    (decodeString .rawStd encoded)
  reject (master.length ≠ keySize) (.message "backup key epoch %d is invalid" [epochName epoch])
  return master

section

variable [KeyCrypto]

def bucketKey (data : File) (epoch : UInt32) (bucketID : GoString) :
    Except KeyringError (List UInt8) := do
  let bucketID := trimSpace bucketID
  reject (bucketID = []) (.message "backup Bucket ID is empty" [])
  let master ← masterKey data epoch
  let message := bytes (text "malt-client/backup/bucket-key/v1") ++ 0 :: bytes bucketID
  return KeyCrypto.hmac master (message.map UInt8.ofNat)

def validateRecoveryPassphrase (passphrase : List UInt8) : Except KeyringError Unit :=
  reject (passphrase.length < minimumPassphrase)
    (.message "backup recovery passphrase must contain at least %d bytes"
      [formatUint minimumPassphrase])

/-- `ExportRecovery` up to the write of the bundle file. -/
def exportRecovery (env : Env) (k : Keyring) (passphrase salt nonce : List UInt8) (disk : Disk) :
    Keyring × Except KeyringError Bundle :=
  match validateRecoveryPassphrase passphrase with
  | .error e => (k, .error e)
  | .ok () =>
    if env.locked = false then (k, .error (.message "lock backup keyring: %w" []))
    else
      match openFile env disk k.path with
      | .error e => (k, .error e)
      | .ok current =>
        ({ k with data := current.data },
          .ok { salt := salt, nonce := nonce
                ciphertext :=
                  KeyCrypto.sealed (KeyCrypto.scrypt passphrase salt) nonce current.data })

def openBundle (passphrase : List UInt8) (bundle : Bundle) : Except KeyringError File := do
  validateRecoveryPassphrase passphrase
  reject (bundle.salt.length ≠ saltSize) (.message "backup recovery bundle salt is invalid" [])
  reject (bundle.nonce.length ≠ nonceSizeX) (.message "backup recovery bundle nonce is invalid" [])
  let value ← required (.message "backup recovery passphrase or bundle is invalid" [])
    (KeyCrypto.opened (KeyCrypto.scrypt passphrase bundle.salt) bundle.nonce bundle.ciphertext)
  validateFile value
  return value

def sameKey (currentEncoded recoveredEncoded : GoString) : Bool :=
  match decodeString .rawStd currentEncoded, decodeString .rawStd recoveredEncoded with
  | some currentKey, some recoveredKey =>
    currentKey.length = keySize && recoveredKey.length = keySize && currentKey == recoveredKey
  | _, _ => false

def mergeEpoch (merged : AList fun _ : GoString => GoString)
    (e : Sigma fun _ : GoString => GoString) :
    Except KeyringError (AList fun _ : GoString => GoString) :=
  match merged.lookup e.1 with
  | none => return merged.insert e.1 e.2
  | some currentEncoded => do
    reject (sameKey currentEncoded e.2 = false)
      (.message "backup key epoch %s conflicts with the existing keyring" [e.1])
    return merged

def mergeFiles (current value : File) : Except KeyringError File := do
  let epochs ← value.epochs.entries.foldlM mergeEpoch current.epochs
  let merged : File :=
    { version := current.version
      activeEpoch :=
        if current.activeEpoch < value.activeEpoch then value.activeEpoch else current.activeEpoch
      epochs := epochs }
  validateFile merged
  return merged

def importRecovery (env : Env) (bundle : Bundle) (path : GoString) (passphrase : List UInt8)
    (disk : Disk) : Disk × Except KeyringError Keyring :=
  match openBundle passphrase bundle with
  | .error e => (disk, .error e)
  | .ok value =>
    let path := trimSpace path
    if path = [] then (disk, .error (.message "backup keyring path is empty" []))
    else if env.locked = false then (disk, .error (.message "lock backup keyring: %w" []))
    else
      let merged : Except KeyringError File :=
        if (disk path).isNone then .ok value
        else do
          let current ← openFile env disk path
          mergeFiles current.data value
      match merged with
      | .error e => (disk, .error e)
      | .ok data =>
        let result : Keyring := { path := path, data := data }
        ((result.write env disk).1, (result.write env disk).2.map fun _ => result)

end

theorem epochName_injective {e e' : UInt32} (h : epochName e = epochName e') : e = e' :=
  UInt32.toNat_inj.mp (formatUint_injective e.toNat_lt e'.toNat_lt h)

section

variable {f f' value : File} {disk : Disk} {env : Env}

/-- A file in which the active epoch is the largest one and every epoch has its
key. -/
structure Kept (f : File) : Prop where
  current : f.version = version
  named : ∀ raw ∈ f.epochs, ∃ epoch, raw = epochName epoch ∧ 0 < epoch ∧ epoch ≤ f.activeEpoch
  decodes : ∀ raw encoded, f.epochs.lookup raw = some encoded →
    ∃ key, decodeString .rawStd encoded = some key ∧ key.length = keySize
  active : epochName f.activeEpoch ∈ f.epochs

/-- What a later state of a file keeps of an earlier one. -/
structure Grows (f f' : File) : Prop where
  active : f.activeEpoch ≤ f'.activeEpoch
  epochs : ∀ raw encoded, f.epochs.lookup raw = some encoded → f'.epochs.lookup raw = some encoded

theorem Grows.refl (f : File) : Grows f f := ⟨UInt32.le_refl _, fun _ _ h => h⟩

theorem Grows.trans {f'' : File} (h : Grows f f') (h' : Grows f' f'') : Grows f f'' :=
  ⟨UInt32.le_trans h.active h'.active, fun raw encoded he => h'.epochs raw encoded
    (h.epochs raw encoded he)⟩

variable {master : List UInt8} {epoch : UInt32} {current : File}

theorem masterKey_mono (h : ∀ raw encoded, f.epochs.lookup raw = some encoded →
    f'.epochs.lookup raw = some encoded)
    (hmaster : masterKey f epoch = .ok master) : masterKey f' epoch = .ok master := by
  simp only [masterKey, ok_iff] at hmaster ⊢
  obtain ⟨encoded, he, hmaster⟩ := hmaster
  exact ⟨encoded, h _ _ he, hmaster⟩

theorem bucketKey_of_masterKey [KeyCrypto] {bucketID : GoString} {key : List UInt8}
    (h : ∀ master, masterKey f epoch = .ok master → masterKey f' epoch = .ok master)
    (hkey : bucketKey f epoch bucketID = .ok key) : bucketKey f' epoch bucketID = .ok key := by
  simp only [bucketKey, bind_eq_ok] at hkey ⊢
  obtain ⟨u, hu, master, hmaster, hkey⟩ := hkey
  exact ⟨u, hu, master, h master hmaster, hkey⟩

theorem Kept.active_pos (h : Kept f) : 0 < f.activeEpoch := by
  obtain ⟨epoch, hname, hpos, hle⟩ := h.named _ h.active
  rw [epochName_injective hname]
  exact hpos

theorem Kept.validateFile (h : Kept f) : validateFile f = .ok () := by
  have hnil : f.epochs.entries ≠ [] := by
    intro hnil
    have hactive : epochName f.activeEpoch ∈ f.epochs.entries.keys := h.active
    rw [hnil] at hactive
    exact absurd hactive (by simp)
  have hpos : f.activeEpoch ≠ 0 := (UInt32.ne_of_lt h.active_pos).symm
  simp only [BackupKeys.validateFile, ok_iff, forM_eq_ok]
  refine ⟨(), by simp [h.current, hpos, hnil], (), fun e he => ?_, ?_⟩
  · obtain ⟨raw, encoded⟩ := e
    have hl := mem_entries_iff.mp he
    obtain ⟨epoch, rfl, hepoch, -⟩ := h.named raw (AList.lookup_isSome.mp (by rw [hl]; rfl))
    obtain ⟨key, hkey, hlength⟩ := h.decodes _ encoded hl
    have hzero : epoch.toNat ≠ 0 := fun hz => by
      have hpos' := UInt32.lt_iff_toNat_lt.mp hepoch
      simp [hz] at hpos'
    simp only [validateEpoch, ok_iff, not_not]
    exact ⟨epoch.toNat, parseUint_formatUint epoch.toNat_lt, (), hzero, key, hkey, hlength⟩
  · intro hnone
    have hsome := AList.lookup_isSome.mpr h.active
    rw [hnone] at hsome
    cases hsome

theorem openFile_eq_ok {path : GoString} {k : Keyring} (h : openFile env disk path = .ok k) :
    k.path = trimSpace path ∧ disk (trimSpace path) = some k.data := by
  simp only [openFile, ok_iff] at h
  obtain ⟨value, hvalue, -, -, -, -, rfl⟩ := h
  exact ⟨rfl, hvalue⟩

theorem Kept.notMem_next (h : Kept f) (hmax : f.activeEpoch.toNat ≠ 2 ^ 32 - 1) :
    epochName (f.activeEpoch + 1) ∉ f.epochs := by
  intro hmem
  obtain ⟨epoch, hname, -, hle⟩ := h.named _ hmem
  rw [← epochName_injective hname, UInt32.le_iff_toNat_le, UInt32.toNat_add] at hle
  have hlt := f.activeEpoch.toNat_lt
  have hone : (1 : UInt32).toNat = 1 := rfl
  rw [hone, Nat.mod_eq_of_lt (by omega)] at hle
  omega

theorem le_next (hmax : epoch.toNat ≠ 2 ^ 32 - 1) : epoch ≤ epoch + 1 := by
  have hlt := epoch.toNat_lt
  have hone : (1 : UInt32).toNat = 1 := rfl
  rw [UInt32.le_iff_toNat_le, UInt32.toNat_add, hone, Nat.mod_eq_of_lt (by omega)]
  omega

theorem Kept.rotated (h : Kept f) (hmax : f.activeEpoch.toNat ≠ 2 ^ 32 - 1) (key : MasterKey) :
    Kept (rotated f key) ∧ Grows f (rotated f key) := by
  have hnext := le_next hmax
  refine ⟨⟨h.current, fun raw hraw => ?_, fun raw encoded he => ?_, ?_⟩, hnext,
    fun raw encoded he => ?_⟩
  · rcases (AList.mem_insert _).mp hraw with rfl | hraw
    · exact ⟨_, rfl, UInt32.lt_of_lt_of_le h.active_pos hnext, UInt32.le_refl _⟩
    · obtain ⟨epoch, rfl, hpos, hle⟩ := h.named raw hraw
      exact ⟨epoch, rfl, hpos, UInt32.le_trans hle hnext⟩
  · simp only [BackupKeys.rotated, lookup_insert_eq] at he
    split_ifs at he
    · cases he
      exact ⟨key.1, decodeString_encodeToString .rawStd key.1, key.2⟩
    · exact h.decodes raw encoded he
  · exact (AList.mem_insert _).mpr (.inl rfl)
  · have hne : raw ≠ epochName (f.activeEpoch + 1) := by
      intro hraw
      subst hraw
      exact h.notMem_next hmax (AList.lookup_isSome.mp (by rw [he]; rfl))
    simp only [BackupKeys.rotated, lookup_insert_eq, if_neg hne]
    exact he

theorem mergeEpochs_eq_ok {entries : List (Sigma fun _ : GoString => GoString)}
    {m m' : AList fun _ : GoString => GoString} (hnodup : entries.NodupKeys)
    (h : entries.foldlM mergeEpoch m = .ok m') (raw : GoString) :
    m'.lookup raw = (m.lookup raw).or (entries.dlookup raw) ∧
      ∀ current recovered, m.lookup raw = some current → entries.dlookup raw = some recovered →
        sameKey current recovered = true := by
  induction entries generalizing m with
  | nil =>
    cases h
    simp
  | cons e entries ih =>
    obtain ⟨hnot, hnodup⟩ := List.nodupKeys_cons.mp hnodup
    rw [List.foldlM_cons, bind_eq_ok] at h
    obtain ⟨m₁, hstep, hrest⟩ := h
    obtain ⟨hlookup, hsame⟩ := ih hnodup hrest
    have hcons :
      (e :: entries).dlookup raw = if raw = e.1 then some e.2 else entries.dlookup raw := by
      obtain ⟨a, b⟩ := e
      split_ifs with hraw
      · subst hraw
        exact List.dlookup_cons_eq _ _ _
      · exact List.dlookup_cons_ne _ _ hraw
    have hself : raw = e.1 → entries.dlookup raw = none := fun hraw => by
      rw [List.dlookup_eq_none, hraw]
      exact hnot
    cases hl : m.lookup e.1 with
    | none =>
      simp only [mergeEpoch, hl, pure_eq_ok] at hstep
      subst hstep
      rw [lookup_insert_eq] at hlookup hsame
      rw [hcons]
      by_cases hraw : raw = e.1
      · rw [if_pos hraw] at hlookup ⊢
        rw [hraw, hl, ← hraw, hlookup]
        exact ⟨rfl, fun c r hc => by cases hc⟩
      · simp only [if_neg hraw] at hlookup hsame ⊢
        exact ⟨hlookup, hsame⟩
    | some current =>
      simp only [mergeEpoch, hl, ok_iff, Bool.not_eq_false] at hstep
      obtain ⟨-, hkey, rfl⟩ := hstep
      rw [hcons]
      by_cases hraw : raw = e.1
      · rw [hself hraw] at hlookup
        rw [if_pos hraw, hlookup]
        subst hraw
        rw [hl]
        refine ⟨rfl, fun c r hc hr => ?_⟩
        cases hc
        cases hr
        exact hkey
      · rw [if_neg hraw]
        exact ⟨hlookup, hsame⟩

theorem sameKey_eq_true {a b : GoString} (h : sameKey a b = true) :
    ∃ key, decodeString .rawStd a = some key ∧ decodeString .rawStd b = some key := by
  unfold sameKey at h
  split at h
  · rename_i key key' ha hb
    simp only [Bool.and_eq_true, beq_iff_eq] at h
    exact ⟨key, ha, h.2 ▸ hb⟩
  · cases h

theorem mergeFiles_eq_ok {data : File} (hcurrent : Kept current) (hvalue : Kept value)
    (h : mergeFiles current value = .ok data) :
    Kept data ∧ Grows current data ∧
      ∀ epoch master, masterKey value epoch = .ok master → masterKey data epoch = .ok master := by
  simp only [mergeFiles, ok_iff] at h
  obtain ⟨epochs, hmerge, -, -, rfl⟩ := h
  have hlookup (raw : GoString) :
    epochs.lookup raw = (current.epochs.lookup raw).or (value.epochs.lookup raw) :=
    (mergeEpochs_eq_ok value.epochs.nodupKeys hmerge raw).1
  have hsame {raw c r : GoString} (hc : current.epochs.lookup raw = some c)
    (hr : value.epochs.lookup raw = some r) :
      sameKey c r = true := (mergeEpochs_eq_ok value.epochs.nodupKeys hmerge raw).2 c r hc hr
  have hmem (raw : GoString) : raw ∈ epochs ↔ raw ∈ current.epochs ∨ raw ∈ value.epochs := by
    rw [← AList.lookup_isSome, ← AList.lookup_isSome, ← AList.lookup_isSome, hlookup,
      Option.isSome_or, Bool.or_eq_true]
  have hle :
    current.activeEpoch ≤ (if current.activeEpoch < value.activeEpoch then value.activeEpoch
      else current.activeEpoch) ∧ value.activeEpoch ≤ (if current.activeEpoch < value.activeEpoch
      then value.activeEpoch else current.activeEpoch) := by
    split_ifs with hlt
    · exact ⟨UInt32.le_of_lt hlt, UInt32.le_refl _⟩
    · exact ⟨UInt32.le_refl _, UInt32.not_lt.mp hlt⟩
  refine ⟨⟨hcurrent.current, fun raw hraw => ?_, fun raw encoded he => ?_, ?_⟩,
    ⟨hle.1, fun raw encoded he => ?_⟩, fun epoch master hmaster => ?_⟩
  · rcases (hmem raw).mp hraw with hraw | hraw
    · obtain ⟨epoch, hname, hpos, hepoch⟩ := hcurrent.named raw hraw
      exact ⟨epoch, hname, hpos, UInt32.le_trans hepoch hle.1⟩
    · obtain ⟨epoch, hname, hpos, hepoch⟩ := hvalue.named raw hraw
      exact ⟨epoch, hname, hpos, UInt32.le_trans hepoch hle.2⟩
  · rw [hlookup] at he
    rcases Option.or_eq_some_iff.mp he with he | ⟨-, he⟩
    · exact hcurrent.decodes raw encoded he
    · exact hvalue.decodes raw encoded he
  · refine (hmem _).mpr ?_
    split_ifs
    · exact .inr hvalue.active
    · exact .inl hcurrent.active
  · rw [hlookup, he]
    rfl
  · simp only [masterKey, ok_iff] at hmaster ⊢
    obtain ⟨recovered, hr, key, hkey, u, hlength, rfl⟩ := hmaster
    cases hc : current.epochs.lookup (epochName epoch) with
    | none => exact ⟨recovered, by rw [hlookup, hc, hr]; rfl, key, hkey, u, hlength, rfl⟩
    | some c =>
      obtain ⟨key', hc', hr'⟩ := sameKey_eq_true (hsame hc hr)
      obtain rfl : key = key' := Option.some.inj (hkey.symm.trans hr')
      exact ⟨c, by rw [hlookup, hc]; rfl, key, hc', u, hlength, rfl⟩

theorem mergeFiles_conflict {master' : List UInt8}
    (hcurrent : masterKey current epoch = .ok master) (hvalue : masterKey value epoch = .ok master')
    (hne : master ≠ master') (data : File) : mergeFiles current value ≠ .ok data := by
  intro h
  simp only [mergeFiles, ok_iff] at h
  obtain ⟨epochs, hmerge, -⟩ := h
  simp only [masterKey, ok_iff] at hcurrent hvalue
  obtain ⟨c, hc, key, hkey, -, -, rfl⟩ := hcurrent
  obtain ⟨r, hr, key', hkey', -, -, rfl⟩ := hvalue
  obtain ⟨-, hsame⟩ := mergeEpochs_eq_ok value.epochs.nodupKeys hmerge (epochName epoch)
  obtain ⟨common, hcommon, hcommon'⟩ := sameKey_eq_true (hsame c r hc hr)
  refine hne ?_
  rw [← Option.some.inj (hcommon.symm.trans hkey), ← Option.some.inj (hcommon'.symm.trans hkey')]

end

end MaltClient.BackupKeys
