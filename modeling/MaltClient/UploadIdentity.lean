import MaltClient.SourceFingerprint
import MaltClient.Staging

/-! The identity of an upload: what is hashed of a view and its operations, and
that it tells them apart. -/

namespace MaltClient.Staging

open GoText ByteFields Journal SourceFingerprint

section

variable [CidFormat]

def writeUploadUint64 (value : UInt64) : List UInt8 := bigEndian 8 value.toNat

def writeUploadString (value : GoString) : List UInt8 := field 8 (utf8 value)

/-- `cid.Cid.String`, which spells an undefined identifier as the empty one in base 32. -/
def rootString : Option Cid → GoString
  | some root => root.spelling
  | none => text "b"

def writeUploadIntent (sequence : UInt64) (intent : Intent) : List UInt8 :=
  writeUploadUint64 sequence ++
    (writeUploadString intent.operationID ++
      (writeUploadString intent.retryID ++
        (writeUploadString intent.datasetID ++
          (writeUploadString intent.branch ++
            (writeUploadString intent.baseRoot ++
              (writeUploadUint64 intent.baseRevision ++
                (writeUploadString intent.kind.text ++
                  (writeUploadString intent.path ++
                    (writeUploadString intent.destination ++
                      (writeUploadString intent.payloadCID ++
                        writeUploadUint64 intent.encryptionEpoch.toUInt64))))))))))

def writeUploadOperation (operation : Operation) : List UInt8 :=
  writeUploadIntent operation.sequence operation.toIntent

/-- What an upload takes from a record of the journal. -/
def identity (operation : Operation) : UInt64 × Intent := (operation.sequence, operation.toIntent)

def writeUploadView (view : View) : List UInt8 :=
  writeUploadString view.datasetID ++
    (writeUploadString view.branch ++
      (writeUploadString (rootString view.root) ++
        (writeUploadUint64 view.revision ++ writeUploadUint64 view.encryptionEpoch.toUInt64)))

/-- What `uploadTransactionID` writes to its hash. -/
def uploadTransactionInput (view : View) (operations : List Operation) : List UInt8 :=
  writeUploadView view ++ operations.flatMap writeUploadOperation

def uploadTransactionID [Backup.Sha256] (view : View) (operations : List Operation) : GoString :=
  text "fs-" ++ (Backup.Sha256.hexSum (uploadTransactionInput view operations)).take 32

/-- The kinds are strings: a known one is not spelled in another way. -/
def Named (kind : Kind) : Prop := ∀ name, kind = .other name → ∀ k, k.text = name → k = kind

structure Written (operation : Operation) : Prop where
  operationID : GoBytes operation.operationID
  retryID : GoBytes operation.retryID
  datasetID : GoBytes operation.datasetID
  branch : GoBytes operation.branch
  baseRoot : GoBytes operation.baseRoot
  kind : GoBytes operation.kind.text
  named : Named operation.kind
  path : GoBytes operation.path
  destination : GoBytes operation.destination
  payloadCID : GoBytes operation.payloadCID

structure WrittenView (view : View) : Prop where
  datasetID : GoBytes view.datasetID
  branch : GoBytes view.branch
  root : GoBytes (rootString view.root)

omit [CidFormat] in
theorem kind_of_text {kind kind' : Kind} (hnamed : Named kind) (hnamed' : Named kind')
    (h : kind.text = kind'.text) : kind = kind' := by
  cases kind with
  | other name => exact (hnamed name rfl kind' h.symm).symm
  | _ =>
    cases kind' with
    | other name => exact hnamed' name rfl _ h
    | _ => first | rfl | exact absurd h (by decide)

variable {r r' : List UInt8}

omit [CidFormat] in
theorem string_split {s t : GoString} (hs : GoBytes s) (ht : GoBytes t)
    (h : writeUploadString s ++ r = writeUploadString t ++ r') : s = t ∧ r = r' :=
  field_split hs ht h

omit [CidFormat] in
theorem uint64_split {m n : UInt64} (h : writeUploadUint64 m ++ r = writeUploadUint64 n ++ r') :
    m = n ∧ r = r' := by
  obtain ⟨hbytes, hrest⟩ := List.append_inj h (by simp [writeUploadUint64])
  have hlt (x : UInt64) : x.toNat < 256 ^ 8 := lt_of_lt_of_eq x.toNat_lt (by norm_num)
  exact ⟨UInt64.toNat_inj.mp (bigEndian_injective (hlt m) (hlt n) hbytes), hrest⟩

omit [CidFormat] in
theorem epoch_split {m n : UInt32}
    (h : writeUploadUint64 m.toUInt64 ++ r = writeUploadUint64 n.toUInt64 ++ r') :
    m = n ∧ r = r' := by
  obtain ⟨hwide, hrest⟩ := uint64_split h
  have hnat := congrArg UInt64.toNat hwide
  rw [UInt32.toNat_toUInt64, UInt32.toNat_toUInt64] at hnat
  exact ⟨UInt32.toNat_inj.mp hnat, hrest⟩

omit [CidFormat] in
theorem operation_split {o o' : Operation} (ho : Written o) (ho' : Written o')
    (h : writeUploadOperation o ++ r = writeUploadOperation o' ++ r') :
    identity o = identity o' ∧ r = r' := by
  simp only [writeUploadOperation, writeUploadIntent, List.append_assoc] at h
  obtain ⟨hsequence, h⟩ := uint64_split h
  obtain ⟨hoperation, h⟩ := string_split ho.operationID ho'.operationID h
  obtain ⟨hretry, h⟩ := string_split ho.retryID ho'.retryID h
  obtain ⟨hdataset, h⟩ := string_split ho.datasetID ho'.datasetID h
  obtain ⟨hbranch, h⟩ := string_split ho.branch ho'.branch h
  obtain ⟨hbase, h⟩ := string_split ho.baseRoot ho'.baseRoot h
  obtain ⟨hrevision, h⟩ := uint64_split h
  obtain ⟨hkind, h⟩ := string_split ho.kind ho'.kind h
  obtain ⟨hpath, h⟩ := string_split ho.path ho'.path h
  obtain ⟨hdestination, h⟩ := string_split ho.destination ho'.destination h
  obtain ⟨hpayload, h⟩ := string_split ho.payloadCID ho'.payloadCID h
  obtain ⟨hepoch, h⟩ := epoch_split h
  have hkind' := kind_of_text ho.named ho'.named hkind
  refine ⟨Prod.ext hsequence ?_, h⟩
  change o.toIntent = o'.toIntent
  obtain ⟨⟨⟩⟩ := o
  obtain ⟨⟨⟩⟩ := o'
  simp_all

theorem rootString_injective (hundef : CidFormat.canonical (text "b") = none)
    {root root' : Option Cid} (h : rootString root = rootString root') : root = root' := by
  have hdefined (c : Cid) : c.spelling ≠ text "b" := by
    intro hb
    have hcanonical := c.canonical
    rw [hb, hundef] at hcanonical
    cases hcanonical
  cases root with
  | none =>
    cases root' with
    | none => rfl
    | some c => exact absurd h.symm (hdefined c)
  | some c =>
    cases root' with
    | none => exact absurd h (hdefined c)
    | some c' => exact congrArg some (Cid.ext h)

theorem view_split (hundef : CidFormat.canonical (text "b") = none) {view view' : View}
    (hview : WrittenView view) (hview' : WrittenView view')
    (h : writeUploadView view ++ r = writeUploadView view' ++ r') : view = view' ∧ r = r' := by
  simp only [writeUploadView, List.append_assoc] at h
  obtain ⟨hdataset, h⟩ := string_split hview.datasetID hview'.datasetID h
  obtain ⟨hbranch, h⟩ := string_split hview.branch hview'.branch h
  obtain ⟨hroot, h⟩ := string_split hview.root hview'.root h
  obtain ⟨hrevision, h⟩ := uint64_split h
  obtain ⟨hepoch, h⟩ := epoch_split h
  have hroot' := rootString_injective hundef hroot
  refine ⟨?_, h⟩
  cases view
  cases view'
  simp_all

/-- An upload is identified by its view and by the sequence numbers and intents of
its operations, in order, and by nothing else of them. -/
theorem uploadTransactionInput_eq_iff (hundef : CidFormat.canonical (text "b") = none)
    (view view' : View) (operations operations' : List Operation) (hview : WrittenView view)
    (hview' : WrittenView view')
    (hwritten : ∀ o ∈ operations, Written o) (hwritten' : ∀ o ∈ operations', Written o) :
    (uploadTransactionInput view operations = uploadTransactionInput view' operations' ↔
      view = view' ∧ operations.map identity = operations'.map identity) ∧
    ∀ [Backup.Sha256], operations.map identity = operations'.map identity →
      uploadTransactionID view operations = uploadTransactionID view operations' := by
  have hidentities (l : List Operation) :
      l.flatMap writeUploadOperation = (l.map identity).flatMap fun k =>
        writeUploadIntent k.1 k.2 := by
    rw [List.flatMap_map]
    rfl
  refine ⟨⟨fun h => ?_, fun h => ?_⟩, fun h => ?_⟩
  · obtain ⟨hviews, hrest⟩ := view_split hundef hview hview' h
    refine ⟨hviews, map_eq_of_flatMap_eq ?_ operation_split hwritten hwritten' hrest⟩
    intro o hnil
    have hlength := congrArg List.length hnil
    simp [writeUploadOperation, writeUploadIntent, writeUploadUint64] at hlength
  · rw [uploadTransactionInput, uploadTransactionInput, h.1, hidentities, h.2, ← hidentities]
  · rw [uploadTransactionID, uploadTransactionID, uploadTransactionInput, uploadTransactionInput,
      hidentities, h, ← hidentities]

end

/-- A format whose identifiers have more than one rune. -/
@[reducible] def longSpellings : CidFormat where
  canonical s := if 1 < s.length ∧ trimSpace s = s ∧ validString s = true then some s else none
  canonical_idem h := by
    split_ifs at h with hs
    cases h
    exact if_pos hs
  canonical_trimmed h := by
    split_ifs at h with hs
    cases h
    exact hs.2.1
  canonical_valid h := by
    split_ifs at h with hs
    cases h
    exact hs.2.2
  canonical_ne_nil h := by
    split_ifs at h with hs
    cases h
    exact List.ne_nil_of_length_pos (Nat.zero_lt_of_lt hs.1)

def stagedOperation (kind : Kind) (path : GoString) (sequence : UInt64) (status : Status) :
    Operation :=
  { operationID := text "op", retryID := text "retry", datasetID := text "data",
    branch := text "main"
    baseRoot := text "root", baseRevision := 3, kind := kind, path := path, destination := [],
      payloadCID := []
    encryptionEpoch := 1, sequence := sequence, status := status, conflictID := [], resultRoot := []
    replacementOperationID := [], createdAt := 0, updatedAt := 0 }

def docsView : @View longSpellings :=
  letI := longSpellings
  { datasetID := text "data", branch := text "main", root := some ⟨text "root", by decide⟩
    revision := 3, encryptionEpoch := 1 }

/-- A directory and a file in it. -/
def docsOperations (second : UInt64) (status : Status) : List Operation :=
  [stagedOperation .mkdir (text "docs") 1 status, stagedOperation .write (text "docs/a")
    second status]

theorem goBytes_text {s : GoString} (hs : Bytewise s) (h : (utf8 s).length < 16) : GoBytes s :=
  ⟨hs, h.trans (by norm_num)⟩

theorem written_stagedOperation {kind : Kind} {path : GoString} (hkind : GoBytes kind.text)
    (hnamed : Named kind) (hpath : GoBytes path) (sequence : UInt64) (status : Status) :
    Written (stagedOperation kind path sequence status) := by
  have htexts :
    ∀ s ∈ [text "op", text "retry", text "data", text "main", text "root", []], GoBytes s := by
    simp only [List.forall_mem_cons, List.not_mem_nil, false_imp_iff, implies_true, and_true]
    refine ⟨?_, ?_, ?_, ?_, ?_, ?_⟩ <;> exact goBytes_text (by decide) (by decide)
  refine ⟨?_, ?_, ?_, ?_, ?_, hkind, hnamed, hpath, ?_, ?_⟩ <;>
    exact htexts _ (by simp [stagedOperation])

theorem written_docsOperations (second : UInt64) (status : Status) :
    ∀ o ∈ docsOperations second status, Written o := by
  intro o ho
  have hmkdir : Named .mkdir := fun name h => by cases h
  have hwrite : Named .write := fun name h => by cases h
  rcases List.mem_pair.mp ho with rfl | rfl
  · exact written_stagedOperation (goBytes_text (by decide) (by decide)) hmkdir
      (goBytes_text (by decide) (by decide)) _ _
  · exact written_stagedOperation (goBytes_text (by decide) (by decide)) hwrite
      (goBytes_text (by decide) (by decide)) _ _

theorem uploadTransactionInput_eq_iff_docs : letI := longSpellings
    uploadTransactionInput docsView (docsOperations 2 .localDirty) =
        uploadTransactionInput docsView (docsOperations 2 .pendingUpload) ∧
      uploadTransactionInput docsView (docsOperations 2 .localDirty) ≠
        uploadTransactionInput docsView (docsOperations 3 .localDirty) := by
  let format : CidFormat := longSpellings
  have hundef : CidFormat.canonical (text "b") = none := rfl
  have hview : WrittenView docsView := by
    refine ⟨?_, ?_, ?_⟩ <;> exact goBytes_text (by decide) (by decide)
  have hiff (n : UInt64) (status : Status) :=
    (uploadTransactionInput_eq_iff hundef docsView docsView
    (docsOperations 2 .localDirty)
    (docsOperations n status) hview hview (written_docsOperations _ _)
    (written_docsOperations _ _)).1
  refine ⟨(hiff 2 .pendingUpload).mpr ⟨rfl, rfl⟩, fun h => ?_⟩
  have hidentity := ((hiff 3 .localDirty).mp h).2
  simp [identity, docsOperations, stagedOperation] at hidentity

end MaltClient.Staging
