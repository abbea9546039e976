import MaltClient.JournalGrowth

/-! Runs of journal calls. The file written by a successful call is read back
unchanged exactly when the call's clock readings fit the records it touches. -/

namespace MaltClient.Journal

open GoText Checked AssocMap
open LockedFile (Fault)

variable {s s' : PersistedState} {c : GoString}

theorem reply_eq_ok {α : Type} {wrap : α → Reply} {edit : Edit α} {r : Reply} :
    Edit.reply wrap edit s = .ok (s', r) ↔ ∃ a, edit s = .ok (s', a) ∧ wrap a = r := by
  simp only [Edit.reply, ok_iff, Prod.exists, Prod.mk.injEq]
  constructor
  · rintro ⟨s₁, a, h, rfl, rfl⟩
    exact ⟨a, h, rfl⟩
  · rintro ⟨a, h, rfl⟩
    exact ⟨s', a, h, rfl, rfl⟩

theorem prepared_reply {α : Type} {wrap : α → Reply} {x : Except JournalError (Edit α)}
    {edit : Edit Reply} {r : Reply} (hp : x.map (Edit.reply wrap) = .ok edit)
    (h : edit s = .ok (s', r)) : ∃ e a, x = .ok e ∧ e s = .ok (s', a) := by
  obtain ⟨e, he, rfl⟩ := map_eq_ok.mp hp
  obtain ⟨a, ha, -⟩ := reply_eq_ok.mp h
  exact ⟨e, a, he, ha⟩

/-- The record under an identity, if a call moves it to a new status, was not
created after the clock reading of the call. -/
def Refreshes (s : PersistedState) (next : Status) (now : Int) (id : GoString) : Prop :=
  ∀ op, s.operations.lookup id = some op → op.status ≠ next → Refreshable now op

def Extensible (s : PersistedState) (now : Int) : Prop := now ≠ 0 ∧ s.nextSequence + 1 ≠ 0

def Call.Timely (s : PersistedState) : Call → Prop
  | .append intent _ now =>
    s.operations.lookup (trimSpace intent.operationID) = none → Extensible s now
  | .freezeForUpload id now => Refreshes s .pendingUpload now (trimSpace id)
  | .freezeBatchForUpload ids now => ∀ id ∈ ids, Refreshes s .pendingUpload now (trimSpace id)
  | .markOffline id now => Refreshes s .offlineOnly now (trimSpace id)
  | .markConflicted id _ now => Refreshes s .conflicted now (trimSpace id)
  | .markBatchConflicted ids _ now => ∀ id ∈ ids, Refreshes s .conflicted now (trimSpace id)
  | .resolveConflict id _ _ appendedAt supersededAt =>
    ∀ op, s.operations.lookup (trimSpace id) = some op →
      op.status ≠ .superseded → Extensible s appendedAt ∧ Refreshable supersededAt op
  | .complete id _ now => Refreshes s .completed now (trimSpace id)
  | .completeBatch ids _ now => ∀ id ∈ ids, Refreshes s .completed now (trimSpace id)
  | .pruneCompleted => True

theorem identity_of_normalizeConflictID {s : GoString} (h : normalizeConflictID s = .ok c) :
    Identity c := by
  simp only [normalizeConflictID, ok_iff, not_or, not_not] at h
  obtain ⟨-, ⟨hne, hv⟩, rfl⟩ := h
  exact identity_trimSpace hne hv

theorem initial_of_ok {initial : Status} {m : String} {u : Unit}
    (h : initialStatus initial m = .ok u) : initial = .localDirty ∨ initial = .offlineOnly := by
  rw [initialStatus, reject_eq_ok] at h
  tauto

theorem valid_of_storedPath {p : GoString} (h : StoredPath p) : validString p = true := by
  have hn := h.normal
  simp only [normalizePath, ok_iff, not_or, not_not] at hn
  obtain ⟨-, ⟨-, hv, -⟩, -⟩ := hn
  exact hv

variable [CidFormat]

variable {raw i : Intent} {now : Int} {next : Status} {reply : Reply} {call : Call}
  {disk : Option PersistedState} {fault : Fault}

theorem normalizeIntent_eq (h : normalizeIntent raw = .ok i) :
    i = { raw.trimmed with baseRoot := i.baseRoot, payloadCID := i.payloadCID } ∧
      parseCid (trimSpace raw.baseRoot) = .ok i.baseRoot ∧
      (raw.kind = .write → parseCid (trimSpace raw.payloadCID) = .ok i.payloadCID) := by
  simp only [normalizeIntent, bind_eq_ok, within_eq_ok] at h
  obtain ⟨-, -, -, -, -, -, root, hroot, -, -, path, hpath, h⟩ := h
  obtain rfl := normalizePath_eq hpath
  split at h <;> rename_i hk <;> simp only [ok_iff, within_eq_ok] at h
  · obtain ⟨-, -, payload, hpayload, rfl⟩ := h
    exact ⟨rfl, hroot, fun _ => hpayload⟩
  · obtain ⟨-, -, destination, hdest, -, -, rfl⟩ := h
    obtain rfl := normalizePath_eq hdest
    exact ⟨rfl, hroot, fun hw => by simp [Intent.trimmed, hw] at hk⟩
  · obtain ⟨-, -, rfl⟩ := h
    exact ⟨rfl, hroot, fun hw => by simp [Intent.trimmed, hw] at hk⟩
  · obtain ⟨-, -, rfl⟩ := h
    exact ⟨rfl, hroot, fun hw => by simp [Intent.trimmed, hw] at hk⟩
  · obtain rfl := h
    exact ⟨rfl, hroot, fun hw => by simp [Intent.trimmed, hw] at hk⟩

theorem operationID_of_normalizeIntent (h : normalizeIntent raw = .ok i) :
    i.operationID = trimSpace raw.operationID := by
  rw [(normalizeIntent_eq h).1]
  rfl

theorem settles_freeze : Settles .pendingUpload admitFreeze id where
  frame _ := ⟨rfl, rfl, rfl⟩
  lifecycle op now hl ha hne := by
    unfold Lifecycle at hl
    cases hs :
      op.status <;> simp only [hs, admitFreeze, ne_eq, not_true_eq_false, throw_ne_ok] at hl ha hne
    all_goals exact ⟨by simp, hl⟩
  status := by simp

theorem settles_conflict (hc : Identity c) :
    Settles .conflicted (admitConflict c) (fun op => { op with conflictID := c }) where
  frame _ := ⟨rfl, rfl, rfl⟩
  lifecycle op now hl ha hne := by
    simp only [admitConflict, hne, if_false, reject_eq_ok, not_not] at ha
    simp only [Lifecycle, ha] at hl
    exact ⟨by simp [ha], hc, hl.2⟩
  status := by simp

theorem settles_complete {root : GoString} (hr : CanonicalCid root) :
    Settles .completed (admitComplete root) (fun op => { op with resultRoot := root }) where
  frame _ := ⟨rfl, rfl, rfl⟩
  lifecycle op now hl ha hne := by
    simp only [admitComplete, hne, if_false, reject_eq_ok, not_not] at ha
    simp only [Lifecycle, ha] at hl
    exact ⟨by simp [ha], hl.1, hl.2.1, hr⟩
  status := by simp

theorem transition_readable_iff {id r : GoString} {edit : Edit Operation}
    {result : Operation} (hs : Readable s) (ht : Target next c r)
    (hp : transition id next c r now = .ok edit) (h : edit s = .ok (s', result)) :
    Sound s' ∧ (Punctual s' ↔ Refreshes s next now (trimSpace id)) := by
  simp only [transition, ok_iff] at hp
  obtain ⟨-, -, rfl⟩ := hp
  exact transitionLocked_readable_iff hs ht h

theorem batch_readable_iff {values ids : List GoString}
    {allow : Operation → Except JournalError Unit} {settle : Operation → Operation}
    {result : List Operation} (hs : Readable s) (hset : Settles next allow settle)
    (hids : normalizeOperationIDs values = .ok ids)
    (h : batchLocked next allow settle ids now s = .ok (s', result)) :
    Sound s' ∧ (Punctual s' ↔ ∀ id ∈ values, Refreshes s next now (trimSpace id)) := by
  obtain ⟨hnd, rfl⟩ := nodup_of_normalizeOperationIDs hids
  simpa [Refreshes] using batchLocked_readable_iff hs hset hnd h

/-- Every call keeps all that a reload demands apart from the clock and the
counter, and keeps those exactly when it is timely. -/
theorem prepare_readable_iff {edit : Edit Reply}
    (hs : Readable s) (hp : call.prepare = .ok edit) (h : edit s = .ok (s', reply)) :
    Sound s' ∧ (Punctual s' ↔ call.Timely s) := by
  cases call with
  | pruneCompleted =>
    cases hp
    obtain ⟨n, hn, -⟩ := reply_eq_ok.mp h
    obtain ⟨hsound, hpunctual⟩ := pruneLocked_readable hs hn
    exact ⟨hsound, iff_of_true hpunctual trivial⟩
  | append intent initial now =>
    obtain ⟨e, a, he, ha⟩ := prepared_reply hp h
    simp only [append, ok_iff] at he
    obtain ⟨i, hi, _, hinit, rfl⟩ := he
    have hiff :=
      appendLocked_readable_iff hs (normal_of_normalizeIntent hi) (initial_of_ok hinit) ha
    rwa [operationID_of_normalizeIntent hi] at hiff
  | resolveConflict id replacement initial appendedAt supersededAt =>
    obtain ⟨e, a, he, ha⟩ := prepared_reply hp h
    simp only [resolveConflict, ok_iff] at he
    obtain ⟨-, -, i, hi, _, hinit, -, -, rfl⟩ := he
    exact resolveLocked_readable_iff hs (normal_of_normalizeIntent hi) (initial_of_ok hinit) ha
  | freezeForUpload id now | markOffline id now =>
    obtain ⟨e, a, he, ha⟩ := prepared_reply hp h
    exact transition_readable_iff hs ⟨rfl, rfl⟩ he ha
  | markConflicted id conflict now =>
    obtain ⟨e, a, he, ha⟩ := prepared_reply hp h
    simp only [markConflicted, bind_eq_ok] at he
    obtain ⟨c, hc, he⟩ := he
    exact transition_readable_iff hs ⟨identity_of_normalizeConflictID hc, rfl⟩ he ha
  | complete id root now =>
    obtain ⟨e, a, he, ha⟩ := prepared_reply hp h
    simp only [complete, bind_eq_ok, within_eq_ok] at he
    obtain ⟨r, hr, he⟩ := he
    exact transition_readable_iff hs ⟨rfl, CanonicalCid.of_parse hr⟩ he ha
  | freezeBatchForUpload ids now =>
    obtain ⟨e, a, he, ha⟩ := prepared_reply hp h
    simp only [freezeBatchForUpload, ok_iff] at he
    obtain ⟨l, hl, rfl⟩ := he
    exact batch_readable_iff hs settles_freeze hl ha
  | markBatchConflicted ids conflict now =>
    obtain ⟨e, a, he, ha⟩ := prepared_reply hp h
    simp only [markBatchConflicted, ok_iff] at he
    obtain ⟨l, hl, c, hc, rfl⟩ := he
    exact batch_readable_iff hs (settles_conflict (identity_of_normalizeConflictID hc)) hl ha
  | completeBatch ids root now =>
    obtain ⟨e, a, he, ha⟩ := prepared_reply hp h
    simp only [completeBatch, ok_iff, within_eq_ok] at he
    obtain ⟨l, hl, r, hr, rfl⟩ := he
    exact batch_readable_iff hs (settles_complete (CanonicalCid.of_parse hr)) hl ha

theorem jsonOperation_eq_self {id : GoString} {op : Operation} (h : WellFormed s id op) :
    jsonOperation op = op := by
  have hids := h.intent.identity
  simp only [Intent.identities, List.mem_cons, List.not_mem_nil, or_false, forall_eq_or_imp,
    forall_eq] at hids
  obtain ⟨hop, hre, hda, hbr⟩ := hids
  have hshape : validString op.destination = true ∧ validString op.payloadCID = true := by
    have hs := h.intent.shape
    unfold KindShape at hs
    split at hs
    · exact ⟨by rw [hs.1]; rfl, CidFormat.canonical_valid hs.2⟩
    · exact ⟨valid_of_storedPath hs.2.1, by rw [hs.1]; rfl⟩
    · exact ⟨by rw [hs.1]; rfl, by rw [hs.2]; rfl⟩
    · exact ⟨by rw [hs.1]; rfl, by rw [hs.2]; rfl⟩
    · exact hs.elim
  have hlife : validString op.conflictID = true ∧ validString op.replacementOperationID = true ∧
      validString op.resultRoot = true := by
    have hl := h.lifecycle
    unfold Lifecycle at hl
    split at hl
    case h_4 => exact ⟨hl.1.valid, by rw [hl.2.1]; rfl, by rw [hl.2.2]; rfl⟩
    case h_5 => exact ⟨by rw [hl.1]; rfl, by rw [hl.2.1]; rfl, CidFormat.canonical_valid hl.2.2⟩
    case h_6 => exact ⟨hl.1.valid, hl.2.1.valid, by rw [hl.2.2]; rfl⟩
    case h_7 => exact hl.elim
    all_goals exact ⟨by rw [hl.1]; rfl, by rw [hl.2.1]; rfl, by rw [hl.2.2]; rfl⟩
  simp only [jsonOperation, jsonText_eq_self hop.valid, jsonText_eq_self hre.valid,
    jsonText_eq_self hda.valid,
    jsonText_eq_self hbr.valid, jsonText_eq_self (CidFormat.canonical_valid h.intent.root),
    jsonText_eq_self (valid_of_storedPath h.intent.path), jsonText_eq_self hshape.1,
      jsonText_eq_self hshape.2,
    jsonText_eq_self hlife.1, jsonText_eq_self hlife.2.1, jsonText_eq_self hlife.2.2]

theorem writeLocked_of_sound {w : PersistedState} (hs : Sound s) (h : writeLocked s = .ok w) :
    w = s := by
  simp only [writeLocked, ok_iff] at h
  obtain ⟨_, -, rfl⟩ := h
  have hmap : mapValues jsonOperation s.operations = s.operations :=
    mapValues_eq_self fun id op hl => jsonOperation_eq_self (hs.record id op hl)
  rw [hmap, ← hs.version]

/-- A call leaves the file alone and fails, or reloads it, edits the state and
writes it back, after which it may still fail. -/
theorem exec_cases (call : Call) (fault : Fault) (disk : Option PersistedState) :
    ((call.exec fault disk).1 = disk ∧ ∃ e, (call.exec fault disk).2 = .error e) ∨
      ∃ edit s s' w reply, call.prepare = .ok edit ∧ reloadLocked disk = .ok s ∧
        edit s = .ok (s', reply) ∧ writeLocked s' = .ok w ∧ (call.exec fault disk).1 = some w ∧
        ((call.exec fault disk).2 = .ok reply ∨ ∃ e, (call.exec fault disk).2 = .error e) := by
  unfold Call.exec
  cases hp : call.prepare with
  | error e => exact .inl ⟨rfl, e, rfl⟩
  | ok edit =>
    rcases store.update_cases fault edit disk with hfail | ⟨s, s', w, reply, hread, hedit, hwritten⟩
    · exact .inl hfail
    · exact .inr ⟨edit, s, s', w, reply, rfl, hread, hedit, hwritten⟩

theorem exec_eq_ok (h : (call.exec fault disk).2 = .ok reply) :
    ∃ edit s s' w, call.prepare = .ok edit ∧
      reloadLocked disk = .ok s ∧ edit s = .ok (s', reply) ∧ writeLocked s' = .ok w ∧
      (call.exec fault disk).1 = some w := by
  rcases exec_cases call fault disk with ⟨-, e, he⟩ | ⟨edit, s, s', w, r, hp, hr, hedit, hw,
    hdisk, hreply⟩
  · simp [h] at he
  · obtain rfl : reply = r := by
      rcases hreply with hreply | ⟨e, he⟩
      · exact Except.ok.inj (h.symm.trans hreply)
      · simp [h] at he
    exact ⟨edit, s, s', w, hp, hr, hedit, hw, hdisk⟩

def ReadsBack (disk : Option PersistedState) : Prop :=
  ∃ w, disk = some w ∧ reloadLocked (some w) = .ok w

theorem exec_readsBack_iff (h : (call.exec fault disk).2 = .ok reply)
    (hs : reloadLocked disk = .ok s) : ReadsBack (call.exec fault disk).1 ↔ call.Timely s := by
  obtain ⟨edit, s₀, s', w, hp, hs₀, he, hw, hdisk⟩ := exec_eq_ok h
  obtain rfl : s₀ = s := Except.ok.inj (hs₀.symm.trans hs)
  obtain ⟨hsound, hpunctual⟩ := prepare_readable_iff (readable_of_reload hs) hp he
  obtain rfl := writeLocked_of_sound hsound hw
  rw [hdisk, ← hpunctual]
  constructor
  · rintro ⟨w', hw', hr⟩
    cases hw'
    exact (readable_of_reload hr).punctual
  · exact fun hpun => ⟨w, rfl, reload_of_readable (readable_iff.mpr ⟨hsound, hpun⟩)⟩

/-- A run from the empty journal: a property of every successful call of it, at
the file the call found. -/
def EverySuccess (calls : List (Call × Fault)) (P : Option PersistedState → Call × Fault → Prop) :
    Prop :=
  ∀ before c after, calls = before ++ c :: after →
    (∃ reply, (c.1.exec c.2 (runCalls before none)).2 = .ok reply) → P (runCalls before none) c

/-- In every run from the empty journal, each successful call leaves a file
that the next reload accepts unchanged exactly when each of them is timely:
it gives no record an update time before its creation time or at the zero
time, and does not run the sequence counter over its end. -/
theorem journal_readsBack_iff (calls : List (Call × Fault)) :
    EverySuccess calls (fun disk c => ReadsBack (c.1.exec c.2 disk).1) ↔
      EverySuccess calls (fun disk c => ∀ s, reloadLocked disk = .ok s → c.1.Timely s) := by
  constructor
  · rintro h before c after hc ⟨reply, hreply⟩ s hs
    exact (exec_readsBack_iff hreply hs).mp (h before c after hc ⟨reply, hreply⟩)
  · rintro h before c after hc ⟨reply, hreply⟩
    obtain ⟨-, s, -, -, -, hs, -⟩ := exec_eq_ok hreply
    exact (exec_readsBack_iff hreply hs).mpr (h before c after hc ⟨reply, hreply⟩ s hs)

/-- A directory made at one clock reading and frozen for upload after the
clock was set back by an hour. -/
def clockSetBack : List (Call × Fault) :=
  let intent : Intent :=
    { operationID := text "op", retryID := text "retry", datasetID := text "data",
      branch := text "main",
      baseRoot := text "root", baseRevision := 0, kind := .mkdir, path := text "docs",
        destination := [],
      payloadCID := [], encryptionEpoch := 1 }
  [(.append intent .localDirty 63918244800000000000, .none),
    (.freezeForUpload (text "op") 63918241200000000000, .none)]

omit [CidFormat] in
/-- The second call succeeds, but its file is refused by every later reload. -/
theorem clockSetBack_not_readsBack : ¬ @EverySuccess CidFormat.verbatim clockSetBack
    (fun disk c => @ReadsBack CidFormat.verbatim (@Call.exec CidFormat.verbatim c.1 c.2
      disk).1) := by
  let format : CidFormat := CidFormat.verbatim
  intro h
  have hok :
    ((clockSetBack.get ⟨1, by decide⟩).1.exec .none (runCalls (clockSetBack.take 1) none)).2.isOk =
      true := by
    decide +kernel
  obtain ⟨reply, hreply⟩ := exists_of_isOk hok
  obtain ⟨w, hw, hr⟩ := h (clockSetBack.take 1) (clockSetBack.get ⟨1, by decide⟩)
    [] rfl ⟨reply, hreply⟩
  have hrefused : (reloadLocked (runCalls clockSetBack none)).isOk = false := by decide +kernel
  have hdisk : runCalls clockSetBack none = some w := hw
  rw [hdisk, hr] at hrefused
  exact Bool.noConfusion hrefused

end MaltClient.Journal
