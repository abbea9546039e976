import MaltClient.Journal

/-! What a reload accepts. A state is readable when its records are in normal
form and their identities, sequence numbers and replacement links fit together;
a reload yields only readable states and leaves a readable one as it is. -/

namespace MaltClient.Journal

open GoText Checked AssocMap

variable {m : String} {e : Sigma fun _ : GoString => Operation}
  {inbound inbound' : AList fun _ : GoString => GoString} {s : PersistedState}
  {done : List (Sigma fun _ : GoString => Operation)} {p q : GoString}

@[simp] theorem within_eq_ok {α : Type} {x : Except JournalError α} {a : α} :
    within m x = .ok a ↔ x = .ok a := mapError_eq_ok

structure Identity (id : GoString) : Prop where
  trimmed : trimSpace id = id
  nonempty : id ≠ []
  valid : validString id = true

structure StoredPath (p : GoString) : Prop where
  trimmed : trimSpace p = p
  normal : normalizePath p = .ok p

section

variable [CidFormat]

def CanonicalCid (c : GoString) : Prop := CidFormat.canonical c = some c

theorem CanonicalCid.of_parse {s c : GoString} (h : parseCid s = .ok c) : CanonicalCid c :=
  CidFormat.canonical_idem (required_eq_ok.mp h)

def KindShape (i : Intent) : Prop :=
  match i.kind with
  | .write => i.destination = [] ∧ CanonicalCid i.payloadCID
  | .rename => i.payloadCID = [] ∧ StoredPath i.destination ∧ i.destination ≠ i.path
  | .mkdir | .unlink => i.destination = [] ∧ i.payloadCID = []
  | .other _ => False

structure Intent.Normal (i : Intent) : Prop where
  identity : ∀ id ∈ i.identities, Identity id
  noNul : ∀ id ∈ i.identities, containsRune id nul = false
  root : CanonicalCid i.baseRoot
  path : StoredPath i.path
  shape : KindShape i

end

theorem identity_trimSpace {s : GoString} (hne : trimSpace s ≠ [])
    (hv : validString (trimSpace s) = true) :
    Identity (trimSpace s) := ⟨trimSpace_trimSpace s, hne, hv⟩

theorem reloadTombstone_eq_ok {e : Sigma fun _ : GoString => Bool} {u : Unit} :
    reloadTombstone m e = .ok u ↔ e.2 = true ∧ Identity e.1 := by
  simp only [reloadTombstone, reject_eq_ok, not_or, not_not]
  constructor
  · rintro ⟨hused, hne, htrim, hvalid⟩
    exact ⟨hused, htrim, by rwa [htrim] at hne, hvalid⟩
  · rintro ⟨hused, hid⟩
    exact ⟨hused, by rw [hid.trimmed]; exact hid.nonempty, hid.trimmed, hid.valid⟩

theorem tombstones_eq_ok {used : AList fun _ : GoString => Bool} {u : PUnit} :
    forM used.entries (reloadTombstone m) = .ok u ↔
      ∀ id b, used.lookup id = some b → b = true ∧ Identity id := by
  rw [forM_eq_ok]
  constructor
  · intro h id b hl
    exact reloadTombstone_eq_ok.mp (h ⟨id, b⟩ (mem_entries_iff.mpr hl))
  · intro h e he
    exact reloadTombstone_eq_ok.mpr (h e.1 e.2 (mem_entries_iff.mp he))

structure ReplacementOk (s : PersistedState) (op : Operation) (r : Operation) : Prop where
  found : s.operations.lookup op.replacementOperationID = some r
  later : op.sequence < r.sequence
  dataset : r.datasetID = op.datasetID
  branch : r.branch = op.branch

/-- Every accepted round over a superseded record finds its replacement and
notes the record as the only one that the replacement stands for. -/
theorem reloadReplacement_eq_ok (h : reloadReplacement s.operations inbound e = .ok inbound') :
    (e.2.status ≠ .superseded ∧ inbound' = inbound) ∨
      (e.2.status = .superseded ∧ (∃ r, ReplacementOk s e.2 r) ∧
        inbound.lookup e.2.replacementOperationID = none ∧
        inbound' = inbound.insert e.2.replacementOperationID e.1) := by
  unfold reloadReplacement at h
  split_ifs at h with hs
  · exact .inl ⟨hs, (pure_eq_ok.mp h).symm⟩
  · simp only [ok_iff, not_or, not_not] at h
    obtain ⟨r, hr, -, ⟨hlt, hd, hb⟩, h⟩ := h
    split at h
    · simp at h
    · rename_i hnone
      rw [pure_eq_ok] at h
      exact .inr ⟨not_not.mp hs, ⟨r, hr, UInt64.not_le.mp hlt, hd, hb⟩, hnone, h.symm⟩

theorem reloadReplacement_of_superseded {r : Operation} (hs : e.2.status = .superseded)
    (hr : ReplacementOk s e.2 r) (hnone : inbound.lookup e.2.replacementOperationID = none) :
    reloadReplacement s.operations inbound e =
      .ok (inbound.insert e.2.replacementOperationID e.1) := by
  simp only [reloadReplacement, hs, ne_eq, not_true_eq_false, if_false, ok_iff, not_or,
    not_not, hnone]
  exact ⟨r, hr.found, (), ⟨UInt64.not_le.mpr hr.later, hr.dataset, hr.branch⟩, trivial⟩

def InboundOk (s : PersistedState) (done : List (Sigma fun _ : GoString => Operation))
    (inbound : AList fun _ : GoString => GoString) : Prop :=
  ∀ e ∈ done, e.2.status = .superseded →
    (∃ r, ReplacementOk s e.2 r) ∧ inbound.lookup e.2.replacementOperationID = some e.1

theorem InboundOk.step
    (h : InboundOk s done inbound) (hstep : reloadReplacement s.operations inbound e =
      .ok inbound') :
    InboundOk s (done ++ [e]) inbound' := by
  intro d hd hs
  rw [List.mem_append, List.mem_singleton] at hd
  rcases reloadReplacement_eq_ok hstep with ⟨hne, rfl⟩ | ⟨-, hr, hnone, rfl⟩
  · rcases hd with hd | rfl
    · exact h d hd hs
    · exact absurd hs hne
  · rcases hd with hd | rfl
    · obtain ⟨hr', hin⟩ := h d hd hs
      refine ⟨hr', ?_⟩
      rw [lookup_insert_eq, if_neg, hin]
      intro he
      rw [he, hnone] at hin
      simp at hin
    · exact ⟨hr, by rw [lookup_insert_eq, if_pos rfl]⟩

theorem normalizePath_eq (h : normalizePath p = .ok q) : q = p := by
  simp only [normalizePath, ok_iff, not_or, not_not] at h
  obtain ⟨-, -, -, ⟨-, -, -, heq⟩, hq⟩ := h
  rw [← hq, heq]

theorem storedPath_of_normalizePath (h : normalizePath (trimSpace p) = .ok q) :
    q = trimSpace p ∧ StoredPath q := by
  have hq := normalizePath_eq h
  subst hq
  exact ⟨rfl, trimSpace_trimSpace p, h⟩

variable [CidFormat]

variable {i : Intent} {op : Operation} {scan scan' : ReloadScan} {next : PersistedState}

theorem Intent.Normal.trimmed_eq (h : i.Normal) : i.trimmed = i := by
  have hid := h.identity
  simp only [Intent.identities, List.mem_cons, List.not_mem_nil, or_false, forall_eq_or_imp,
    forall_eq] at hid
  obtain ⟨hop, hre, hda, hbr⟩ := hid
  have hroot := CidFormat.canonical_trimmed h.root
  have hshape := h.shape
  have hrest : trimSpace i.destination = i.destination ∧ trimSpace i.payloadCID = i.payloadCID := by
    unfold KindShape at hshape
    split at hshape
    · exact ⟨by rw [hshape.1]; rfl, CidFormat.canonical_trimmed hshape.2⟩
    · exact ⟨hshape.2.1.trimmed, by rw [hshape.1]; rfl⟩
    · exact ⟨by rw [hshape.1]; rfl, by rw [hshape.2]; rfl⟩
    · exact ⟨by rw [hshape.1]; rfl, by rw [hshape.2]; rfl⟩
    · exact hshape.elim
  simp only [Intent.trimmed, hop.trimmed, hre.trimmed, hda.trimmed, hbr.trimmed, hroot,
    h.path.trimmed, hrest.1, hrest.2]

theorem normal_of_normalizeIntent {raw : Intent} (h : normalizeIntent raw = .ok i) : i.Normal := by
  simp only [normalizeIntent, ok_iff, within_eq_ok] at h
  obtain ⟨-, hne, -, hnul, -, hvalid, root, hroot, -, hkind, path, hpath, h⟩ := h
  obtain ⟨hpe, hstored⟩ := storedPath_of_normalizePath hpath
  have hcid := CanonicalCid.of_parse hroot
  have hids : ∀ id ∈ raw.trimmed.identities, Identity id := by
    intro id hm
    refine ⟨?_, fun e => hne ⟨id, hm, e⟩, by_contra fun e => hvalid ⟨id, hm, e⟩⟩
    simp only [Intent.identities, Intent.trimmed, List.mem_cons, List.not_mem_nil, or_false] at hm
    rcases hm with rfl | rfl | rfl | rfl <;> exact trimSpace_trimSpace _
  have hnonul : ∀ id ∈ raw.trimmed.identities, containsRune id nul = false := by
    intro id hm
    by_contra hc
    exact hnul ⟨id, hm, by simpa using hc⟩
  split at h <;> rename_i hk
  · simp only [ok_iff, within_eq_ok, not_not] at h
    obtain ⟨-, hdest, payload, hpayload, rfl⟩ := h
    exact ⟨hids, hnonul, hcid, hstored, by
      simp only [KindShape]
      rw [show raw.trimmed.kind = .write from hk]
      exact ⟨hdest, CanonicalCid.of_parse hpayload⟩⟩
  · simp only [ok_iff, within_eq_ok, not_not] at h
    obtain ⟨-, hpay, destination, hdest, -, hdiff, rfl⟩ := h
    exact ⟨hids, hnonul, hcid, hstored, by
      simp only [KindShape]
      rw [show raw.trimmed.kind = .rename from hk]
      exact ⟨hpay, (storedPath_of_normalizePath hdest).2, hdiff⟩⟩
  · simp only [ok_iff, not_or, not_not] at h
    obtain ⟨-, hnone, rfl⟩ := h
    exact ⟨hids, hnonul, hcid, hstored, by
      simp only [KindShape]
      rw [show raw.trimmed.kind = .mkdir from hk]
      exact hnone⟩
  · simp only [ok_iff, not_or, not_not] at h
    obtain ⟨-, hnone, rfl⟩ := h
    exact ⟨hids, hnonul, hcid, hstored, by
      simp only [KindShape]
      rw [show raw.trimmed.kind = .unlink from hk]
      exact hnone⟩
  · rename_i name
    have hk' : raw.trimmed.kind = .other name := hk
    rw [hk'] at hkind
    exact absurd hkind (by simp [validKind])

theorem normalizeIntent_of_normal (h : i.Normal) : normalizeIntent i = .ok i := by
  have hne : ¬ ∃ id ∈ i.identities, id = [] := fun ⟨id, hm, e⟩ => (h.identity id hm).nonempty e
  have hnul : ¬ ∃ id ∈ i.identities, containsRune id nul = true := fun ⟨id, hm, e⟩ => by
    rw [h.noNul id hm] at e
    simp at e
  have hvalid : ¬ ∃ id ∈ i.identities, ¬ validString id = true :=
    fun ⟨id, hm, e⟩ => e (h.identity id hm).valid
  have hroot : parseCid i.baseRoot = .ok i.baseRoot := required_eq_ok.mpr h.root
  have hshape := h.shape
  simp only [normalizeIntent, ok_iff, within_eq_ok, h.trimmed_eq]
  unfold KindShape at hshape
  refine ⟨(), hne, (), hnul, (), hvalid, i.baseRoot, hroot, (), ?_, i.path, h.path.normal, ?_⟩
  · cases hk : i.kind <;> simp_all [validKind]
  · split <;> rename_i hk <;> simp only [hk] at hshape <;>
      simp only [ok_iff, within_eq_ok, not_or, not_not]
    · exact ⟨(), hshape.1, i.payloadCID, required_eq_ok.mpr hshape.2, rfl⟩
    · exact ⟨(), hshape.1, i.destination, hshape.2.1.normal, (), hshape.2.2, rfl⟩
    · exact ⟨(), hshape, trivial⟩
    · exact ⟨(), hshape, trivial⟩

/-- Both times of a record are set, and it was not updated before it was
created. -/
structure Timed (op : Operation) : Prop where
  created : op.createdAt ≠ 0
  updated : op.updatedAt ≠ 0
  ordered : op.createdAt ≤ op.updatedAt

def Lifecycle (op : Operation) : Prop :=
  match op.status with
  | .localDirty | .offlineOnly | .pendingUpload =>
    op.conflictID = [] ∧ op.replacementOperationID = [] ∧ op.resultRoot = []
  | .conflicted => Identity op.conflictID ∧ op.replacementOperationID = [] ∧ op.resultRoot = []
  | .completed => op.conflictID = [] ∧ op.replacementOperationID = [] ∧ CanonicalCid op.resultRoot
  | .superseded => Identity op.conflictID ∧ Identity op.replacementOperationID ∧ op.resultRoot = []
  | .other _ => False

structure Operation.Normal (op : Operation) : Prop where
  intent : op.toIntent.Normal
  sequence : op.sequence ≠ 0
  timed : Timed op
  lifecycle : Lifecycle op

theorem normal_of_normalizeOperation {raw : Operation} (h : normalizeOperation raw = .ok op) :
    op.Normal := by
  simp only [normalizeOperation, ok_iff, not_or, not_not, not_and] at h
  obtain ⟨intent, hintent, -, ⟨hseq, hstatus, hcreated, hupdated, hordered⟩, -,
    ⟨hcv, hrv⟩, -, hconf, -, hnoconf, h⟩ := h
  have hin := normal_of_normalizeIntent hintent
  have htimed : Timed raw := ⟨hcreated, hupdated, by omega⟩
  cases hs : raw.status <;>
    simp only [hs, reduceCtorEq, if_true, if_false, ok_iff, within_eq_ok, not_or, not_not, ne_eq,
      not_false_eq_true, forall_const] at h hconf hnoconf
  case other => simp [hs, validStatus] at hstatus
  case completed =>
    obtain ⟨-, hr, root, hroot, rfl⟩ := h
    refine ⟨hin, hseq, ⟨hcreated, hupdated, htimed.ordered⟩, ?_⟩
    simp only [Lifecycle]
    exact ⟨hnoconf, hr, CanonicalCid.of_parse hroot⟩
  case superseded =>
    obtain ⟨-, ⟨hr, hc⟩, -, hroot, rfl⟩ := h
    refine ⟨hin, hseq, ⟨hcreated, hupdated, htimed.ordered⟩, ?_⟩
    simp only [Lifecycle]
    exact ⟨identity_trimSpace hc hcv, identity_trimSpace hr hrv, hroot⟩
  case conflicted =>
    obtain ⟨-, hr, -, hroot, rfl⟩ := h
    refine ⟨hin, hseq, ⟨hcreated, hupdated, htimed.ordered⟩, ?_⟩
    simp only [Lifecycle]
    exact ⟨identity_trimSpace hconf hcv, hr, hroot⟩
  all_goals
    obtain ⟨-, hr, -, hroot, rfl⟩ := h
    refine ⟨hin, hseq, ⟨hcreated, hupdated, htimed.ordered⟩, ?_⟩
    simp only [Lifecycle]
    exact ⟨hnoconf, hr, hroot⟩

theorem normalizeOperation_of_normal (h : op.Normal) : normalizeOperation op = .ok op := by
  have hl := h.lifecycle
  have hordered := h.timed.ordered
  have htrim : trimSpace op.conflictID = op.conflictID ∧ trimSpace op.resultRoot = op.resultRoot ∧
      trimSpace op.replacementOperationID = op.replacementOperationID ∧
      validString op.conflictID = true ∧ validString op.replacementOperationID = true := by
    have hnil : trimSpace [] = [] ∧ validString [] = true := ⟨rfl, rfl⟩
    unfold Lifecycle at hl
    split at hl
    case h_4 => simp [hl, hl.1.trimmed, hl.1.valid, hnil]
    case h_5 => simp [hl, CidFormat.canonical_trimmed hl.2.2, hnil]
    case h_6 => simp [hl, hl.1.trimmed, hl.1.valid, hl.2.1.trimmed, hl.2.1.valid, hnil]
    case h_7 => exact hl.elim
    all_goals simp [hl, hnil]
  obtain ⟨hct, hrt, hpt, hcv, hpv⟩ := htrim
  have hvalid : validStatus op.status = true := by
    unfold Lifecycle at hl
    cases hs : op.status <;> simp_all [validStatus]
  have hmeta : ¬ (op.sequence = 0 ∨ ¬ validStatus op.status = true ∨ op.createdAt = 0 ∨
      op.updatedAt = 0 ∨ op.updatedAt < op.createdAt) := by
    simp [h.sequence, hvalid, h.timed.created, h.timed.updated, hordered]
  simp only [normalizeOperation, ok_iff, hct, hrt, hpt]
  refine ⟨op.toIntent, normalizeIntent_of_normal h.intent, (), hmeta, (), by simp [hcv, hpv], ?_⟩
  unfold Lifecycle at hl
  cases hs : op.status <;> simp only [hs] at hl <;>
    simp only [reduceCtorEq, if_true, if_false, ok_iff, within_eq_ok, not_or, not_not,
      not_and, ne_eq, not_false_eq_true, forall_const, not_true_eq_false, IsEmpty.forall_iff]
  case completed => exact ⟨(), trivial, (), hl.1, (), hl.2.1, op.resultRoot,
    required_eq_ok.mpr hl.2.2, by simp [← hs]⟩
  case superseded =>
    exact ⟨(), trivial, (), trivial, (), ⟨hl.2.1.nonempty, hl.1.nonempty⟩, (), hl.2.2,
      by simp [← hs]⟩
  case conflicted =>
    exact ⟨(), hl.1.nonempty, (), trivial, (), hl.2.1, (), hl.2.2, by simp [← hs]⟩
  all_goals exact ⟨(), trivial, (), hl.1, (), hl.2.1, (), hl.2.2, by simp [← hs]⟩

structure RecordOk (s : PersistedState) (id : GoString) (op : Operation) : Prop where
  normal : op.Normal
  key : op.operationID = id
  sequence : op.sequence < s.nextSequence
  usedOperation : s.usedOperationIDs.lookup id = some true
  usedRetry : s.usedRetryIDs.lookup op.retryID = some true

structure Readable (s : PersistedState) : Prop where
  version : s.version = journalVersion
  next : s.nextSequence ≠ 0
  record : ∀ id op, s.operations.lookup id = some op → RecordOk s id op
  sequence_inj : ∀ id₁ op₁ id₂ op₂, s.operations.lookup id₁ = some op₁ →
    s.operations.lookup id₂ = some op₂ → op₁.sequence = op₂.sequence → id₁ = id₂
  retry_inj : ∀ id₁ op₁ id₂ op₂, s.operations.lookup id₁ = some op₁ →
    s.operations.lookup id₂ = some op₂ → op₁.retryID = op₂.retryID → id₁ = id₂
  usedOperation : ∀ id used, s.usedOperationIDs.lookup id = some used → used = true ∧ Identity id
  usedRetry : ∀ id used, s.usedRetryIDs.lookup id = some used → used = true ∧ Identity id
  replacement : ∀ id op, s.operations.lookup id = some op → op.status = .superseded →
    ∃ r, ReplacementOk s op r
  inbound :
    ∀ id₁ op₁ id₂ op₂, s.operations.lookup id₁ = some op₁ → s.operations.lookup id₂ = some op₂ →
    op₁.status = .superseded → op₂.status = .superseded →
    op₁.replacementOperationID = op₂.replacementOperationID → id₁ = id₂

theorem readable_emptyState : Readable emptyState := by
  constructor <;> simp [emptyState, journalVersion]

theorem reloadRecord_eq_ok (h : reloadRecord next scan e = .ok scan') :
    ∃ op, normalizeOperation e.2 = .ok op ∧ RecordOk next e.1 op ∧ op.sequence ∉ scan.seenSequence ∧
      op.retryID ∉ scan.seenRetry ∧
      scan' = ⟨scan.operations.replace e.1 op, op.sequence :: scan.seenSequence, op.retryID ::
        scan.seenRetry⟩ := by
  simp only [reloadRecord, ok_iff, not_or, not_not] at h
  obtain ⟨op, hop, -, ⟨hkey, -, hlt⟩, -, hseq, -, hretry, -, ⟨hused, husedr⟩, rfl⟩ := h
  exact ⟨op, hop, ⟨normal_of_normalizeOperation hop, hkey, UInt64.not_le.mp hlt, hkey ▸ hused,
    husedr⟩, hseq, hretry, rfl⟩

theorem reloadRecord_of_ok (h : RecordOk next e.1 e.2)
    (hseq : e.2.sequence ∉ scan.seenSequence) (hretry : e.2.retryID ∉ scan.seenRetry) :
    reloadRecord next scan e = .ok ⟨scan.operations.replace e.1 e.2,
      e.2.sequence :: scan.seenSequence, e.2.retryID :: scan.seenRetry⟩ := by
  have hused : next.usedOperationIDs.lookup e.2.operationID = some true := by
    rw [h.key]
    exact h.usedOperation
  simp only [reloadRecord, ok_iff, not_or, not_not]
  exact ⟨e.2, normalizeOperation_of_normal h.normal, (),
    ⟨h.key, h.normal.sequence, UInt64.not_le.mpr h.sequence⟩,
    (), hseq, (), hretry, (), ⟨hused, h.usedRetry⟩, rfl⟩

/-- What the record loop has established after some of the records: those done
are in normal form with distinct sequence numbers and retry identities, the
others are as in the file. -/
structure ScanOk (next : PersistedState) (done : List (Sigma fun _ : GoString => Operation))
    (scan : ReloadScan) : Prop where
  rest : ∀ k, k ∉ done.keys → scan.operations.lookup k = next.operations.lookup k
  record : ∀ k ∈ done.keys, ∃ op, scan.operations.lookup k = some op ∧ RecordOk next k op ∧
    op.sequence ∈ scan.seenSequence ∧ op.retryID ∈ scan.seenRetry
  sequence_inj :
    ∀ k₁ ∈ done.keys, ∀ k₂ ∈ done.keys, ∀ op₁ op₂, scan.operations.lookup k₁ = some op₁ →
    scan.operations.lookup k₂ = some op₂ → op₁.sequence = op₂.sequence → k₁ = k₂
  retry_inj : ∀ k₁ ∈ done.keys, ∀ k₂ ∈ done.keys, ∀ op₁ op₂, scan.operations.lookup k₁ = some op₁ →
    scan.operations.lookup k₂ = some op₂ → op₁.retryID = op₂.retryID → k₁ = k₂

theorem ScanOk.step {todo : List (Sigma fun _ : GoString => Operation)}
    (hl : next.operations.entries = done ++ e :: todo) (h : ScanOk next done scan)
    (hstep : reloadRecord next scan e = .ok scan') : ScanOk next (done ++ [e]) scan' := by
  obtain ⟨op, -, hop, hseq, hretry, rfl⟩ := reloadRecord_eq_ok hstep
  have hfresh := notMem_keys_of_entries_eq hl
  have hpresent : next.operations.lookup e.1 = some e.2 := mem_entries_iff.mp (by simp [hl])
  have hkeys : (done ++ [e]).keys = done.keys ++ [e.1] := by simp [List.keys]
  have hself : (scan.operations.replace e.1 op).lookup e.1 = some op := by
    rw [lookup_replace_eq, if_pos rfl, h.rest e.1 hfresh, hpresent]
    rfl
  have hother (k : GoString) (hk : k ≠ e.1) :
      (scan.operations.replace e.1 op).lookup k = scan.operations.lookup k := by
    rw [lookup_replace_eq, if_neg hk]
  have hdone (k : GoString) (hk : k ∈ done.keys) : k ≠ e.1 := fun he => hfresh (he ▸ hk)
  have hold (k : GoString) (hk : k ∈ done.keys) (op' : Operation)
      (hl' : (scan.operations.replace e.1 op).lookup k = some op') :
      op'.sequence ≠ op.sequence ∧ op'.retryID ≠ op.retryID := by
    obtain ⟨op'', hl'', -, hs, hr⟩ := h.record k hk
    rw [hother k (hdone k hk), hl''] at hl'
    cases hl'
    exact ⟨fun he => hseq (he ▸ hs), fun he => hretry (he ▸ hr)⟩
  refine ⟨fun k hk => ?_, fun k hk => ?_, fun k₁ h₁ k₂ h₂ op₁ op₂ hl₁ hl₂ he => ?_,
    fun k₁ h₁ k₂ h₂ op₁ op₂ hl₁ hl₂ he => ?_⟩
  · rw [hkeys, List.mem_append, not_or, List.mem_singleton] at hk
    rw [hother k hk.2, h.rest k hk.1]
  · rw [hkeys, List.mem_append, List.mem_singleton] at hk
    rcases hk with hk | rfl
    · obtain ⟨op', hl', hok, hs, hr⟩ := h.record k hk
      exact ⟨op', by rw [hother k (hdone k hk), hl'], hok, by simp [hs], by simp [hr]⟩
    · exact ⟨op, hself, hop, by simp, by simp⟩
  · rw [hkeys, List.mem_append, List.mem_singleton] at h₁ h₂
    rcases h₁ with h₁ | rfl <;> rcases h₂ with h₂ | rfl
    · rw [hother k₁ (hdone k₁ h₁)] at hl₁
      rw [hother k₂ (hdone k₂ h₂)] at hl₂
      exact h.sequence_inj k₁ h₁ k₂ h₂ op₁ op₂ hl₁ hl₂ he
    · rw [hself] at hl₂
      exact absurd he (Option.some.inj hl₂ ▸ (hold k₁ h₁ op₁ hl₁).1)
    · rw [hself] at hl₁
      exact absurd he.symm (Option.some.inj hl₁ ▸ (hold k₂ h₂ op₂ hl₂).1)
    · rfl
  · rw [hkeys, List.mem_append, List.mem_singleton] at h₁ h₂
    rcases h₁ with h₁ | rfl <;> rcases h₂ with h₂ | rfl
    · rw [hother k₁ (hdone k₁ h₁)] at hl₁
      rw [hother k₂ (hdone k₂ h₂)] at hl₂
      exact h.retry_inj k₁ h₁ k₂ h₂ op₁ op₂ hl₁ hl₂ he
    · rw [hself] at hl₂
      exact absurd he (Option.some.inj hl₂ ▸ (hold k₁ h₁ op₁ hl₁).2)
    · rw [hself] at hl₁
      exact absurd he.symm (Option.some.inj hl₁ ▸ (hold k₂ h₂ op₂ hl₂).2)
    · rfl

theorem readable_of_reload {disk : Option PersistedState} (h : reloadLocked disk = .ok s) :
    Readable s := by
  cases disk with
  | none =>
    cases h
    exact readable_emptyState
  | some next =>
    simp only [reloadLocked, ok_iff, not_or, not_not] at h
    obtain ⟨-, ⟨hversion, hnext⟩, scan, hscan, _, huo, _, hur, inbound, hin, rfl⟩ := h
    have hok : ScanOk next next.operations.entries scan := by
      refine foldlM_invariant (ScanOk next) hscan ?_ fun done e todo s s' hl hs hstep =>
        hs.step hl hstep
      exact ⟨fun _ _ => rfl, by simp, by simp, by simp⟩
    have hkey (k : GoString) (op : Operation) (hk : scan.operations.lookup k = some op) :
        k ∈ next.operations.entries.keys := by
      by_contra hc
      rw [hok.rest k hc, AList.lookup_eq_none.mpr hc] at hk
      simp at hk
    have hrecord (k : GoString) (op : Operation) (hk : scan.operations.lookup k = some op) :
        RecordOk next k op := by
      obtain ⟨op', hl', hr, -⟩ := hok.record k (hkey k op hk)
      rw [hl'] at hk
      exact Option.some.inj hk ▸ hr
    have hinbound :
      InboundOk { next with operations := scan.operations } scan.operations.entries inbound := by
      refine foldlM_invariant (InboundOk _) hin (by simp [InboundOk]) ?_
      exact fun done e todo i i' _ hi hstep => hi.step hstep
    refine ⟨hversion, hnext, fun k op hk => ?_, ?_, ?_, tombstones_eq_ok.mp huo,
      tombstones_eq_ok.mp hur, ?_, ?_⟩
    · obtain ⟨hn, hk', hs, ho, hr⟩ := hrecord k op hk
      exact ⟨hn, hk', hs, ho, hr⟩
    · exact fun k₁ op₁ k₂ op₂ h₁ h₂ he =>
        hok.sequence_inj k₁ (hkey k₁ op₁ h₁) k₂ (hkey k₂ op₂ h₂) op₁ op₂ h₁ h₂ he
    · exact fun k₁ op₁ k₂ op₂ h₁ h₂ he =>
        hok.retry_inj k₁ (hkey k₁ op₁ h₁) k₂ (hkey k₂ op₂ h₂) op₁ op₂ h₁ h₂ he
    · exact fun k op hk hs => (hinbound ⟨k, op⟩ (mem_entries_iff.mpr hk) hs).1
    · intro k₁ op₁ k₂ op₂ h₁ h₂ hs₁ hs₂ he
      have hi₁ := (hinbound ⟨k₁, op₁⟩ (mem_entries_iff.mpr h₁) hs₁).2
      have hi₂ := (hinbound ⟨k₂, op₂⟩ (mem_entries_iff.mpr h₂) hs₂).2
      simp only at hi₁ hi₂
      rw [he] at hi₁
      exact Option.some.inj (hi₁.symm.trans hi₂)

theorem scan_of_readable (h : Readable s) :
    ∃ scan, s.operations.entries.foldlM (reloadRecord s) ⟨s.operations, [], []⟩ = .ok scan ∧
      scan.operations = s.operations := by
  -- The seen lists hold exactly what the records already visited carry.
  obtain ⟨scan, hscan, hops, -⟩ := foldlM_progress
    (fun done (scan : ReloadScan) => scan.operations = s.operations ∧
      (∀ n ∈ scan.seenSequence, ∃ d ∈ done, d.2.sequence = n) ∧
      ∀ r ∈ scan.seenRetry, ∃ d ∈ done, d.2.retryID = r)
    (l := s.operations.entries) (s := ⟨s.operations, [], []⟩)
    (f := reloadRecord s) ⟨rfl, by simp, by simp⟩
    (fun done e todo scan hl hm => by
      obtain ⟨hops, hseq, hretry⟩ := hm
      have hpresent : s.operations.lookup e.1 = some e.2 := mem_entries_iff.mp (by simp [hl])
      have hdone (d : Sigma fun _ : GoString => Operation) (hd : d ∈ done) :
          s.operations.lookup d.1 = some d.2 := mem_entries_iff.mp (by simp [hl, hd])
      have hne (d : Sigma fun _ : GoString => Operation) (hd : d ∈ done) : d.1 ≠ e.1 :=
        fun he => notMem_keys_of_entries_eq hl (he ▸ List.mem_map_of_mem hd)
      refine ⟨_, reloadRecord_of_ok (h.record e.1 e.2 hpresent) ?_ ?_, ?_, ?_, ?_⟩
      · intro hm
        obtain ⟨d, hd, he⟩ := hseq _ hm
        exact hne d hd (h.sequence_inj _ _ _ _ (hdone d hd) hpresent he)
      · intro hm
        obtain ⟨d, hd, he⟩ := hretry _ hm
        exact hne d hd (h.retry_inj _ _ _ _ (hdone d hd) hpresent he)
      · simp only [hops]
        exact replace_eq_self hpresent
      · intro n hn
        rcases List.mem_cons.mp hn with rfl | hn
        · exact ⟨e, by simp, rfl⟩
        · obtain ⟨d, hd, he⟩ := hseq n hn
          exact ⟨d, by simp [hd], he⟩
      · intro r hr
        rcases List.mem_cons.mp hr with rfl | hr
        · exact ⟨e, by simp, rfl⟩
        · obtain ⟨d, hd, he⟩ := hretry r hr
          exact ⟨d, by simp [hd], he⟩)
  exact ⟨scan, hscan, hops⟩

theorem inbound_of_readable (h : Readable s) :
    ∃ inbound, s.operations.entries.foldlM (reloadReplacement s.operations) ∅ = .ok inbound := by
  obtain ⟨inbound, hin, -⟩ := foldlM_progress
    (fun done (inbound : AList fun _ : GoString => GoString) => ∀ k id, inbound.lookup k = some id →
      ∃ d ∈ done, d.1 = id ∧ d.2.status = .superseded ∧ d.2.replacementOperationID = k)
    (l := s.operations.entries) (s := ∅) (f := reloadReplacement s.operations) (by simp)
    (fun done e todo inbound hl hm => by
      have hpresent : s.operations.lookup e.1 = some e.2 := mem_entries_iff.mp (by simp [hl])
      by_cases hs : e.2.status = .superseded
      · obtain ⟨r, hr⟩ := h.replacement e.1 e.2 hpresent hs
        have hnone : inbound.lookup e.2.replacementOperationID = none := by
          by_contra hc
          obtain ⟨id, hid⟩ := Option.ne_none_iff_exists'.mp hc
          obtain ⟨d, hd, -, hds, hdr⟩ := hm _ id hid
          have hdp : s.operations.lookup d.1 = some d.2 := mem_entries_iff.mp (by simp [hl, hd])
          have hsame := h.inbound _ _ _ _ hdp hpresent hds hs hdr
          exact notMem_keys_of_entries_eq hl (hsame ▸ List.mem_map_of_mem hd)
        refine ⟨_, reloadReplacement_of_superseded hs hr hnone, fun k id hk => ?_⟩
        rw [lookup_insert_eq] at hk
        split_ifs at hk with he
        · exact ⟨e, by simp, Option.some.inj hk, hs, he.symm⟩
        · obtain ⟨d, hd, hrest⟩ := hm k id hk
          exact ⟨d, by simp [hd], hrest⟩
      · refine ⟨inbound, by simp [reloadReplacement, hs], fun k id hk => ?_⟩
        obtain ⟨d, hd, hrest⟩ := hm k id hk
        exact ⟨d, by simp [hd], hrest⟩)
  exact ⟨inbound, hin⟩

theorem reload_of_readable (h : Readable s) : reloadLocked (some s) = .ok s := by
  obtain ⟨scan, hscan, hops⟩ := scan_of_readable h
  obtain ⟨inbound, hin⟩ := inbound_of_readable h
  simp only [reloadLocked, ok_iff, not_or, not_not]
  refine ⟨(), ⟨h.version, h.next⟩, scan, hscan, ⟨⟩, tombstones_eq_ok.mpr h.usedOperation, ⟨⟩,
    tombstones_eq_ok.mpr h.usedRetry, inbound, ?_, ?_⟩
  · rw [hops]
    exact hin
  · rw [hops]

end MaltClient.Journal
