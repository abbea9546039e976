import MaltClient.BackupHistory

/-! When the file that a method of the history writes can be read back. -/

namespace MaltClient.BackupHistory

open GoText Checked LockedFile NodeApi AssocMap
open BucketSync (Head Stash Workspace conflictJSON conflictTexts)
open JsonObject (Valid)

section json

theorem headJSON_headJSON (h : ObservedHead) : headJSON (headJSON h) = headJSON h := by
  have hkind : refKindJSON (refKindJSON h.kind) = refKindJSON h.kind := by
    cases h.kind <;> simp [refKindJSON, JsonObject.jsonText_jsonText]
  have hstate : refStateJSON (refStateJSON h.state) = refStateJSON h.state := by
    cases h.state <;> simp [refStateJSON, JsonObject.jsonText_jsonText]
  simp [headJSON, JsonObject.jsonText_jsonText, hkind, hstate]

theorem commitJSON_commitJSON (c : Commit) : commitJSON (commitJSON c) = commitJSON c := by
  simp [commitJSON, JsonObject.jsonText_jsonText]

theorem applyResultJSON_applyResultJSON (r : ApplyResult) :
    applyResultJSON (applyResultJSON r) = applyResultJSON r := by
  have hstatus : statusJSON (statusJSON r.status) = statusJSON r.status := by
    cases r.status <;> simp [statusJSON, JsonObject.jsonText_jsonText]
  have hconflict (c : Conflict) : conflictJSON (conflictJSON c) = conflictJSON c := by
    simp [conflictJSON, JsonObject.jsonText_jsonText]
  have hbranch : (r.branch.map headJSON).map headJSON = r.branch.map headJSON := by
    cases r.branch <;> simp [headJSON_headJSON]
  simp [applyResultJSON, headJSON_headJSON, commitJSON_commitJSON, JsonObject.jsonText_jsonText,
    hstatus, hconflict, hbranch]

theorem PushOutcome.json_json (o : PushOutcome) : o.json.json = o.json := by
  simp [PushOutcome.json, applyResultJSON_applyResultJSON, Workspace.json_json]

theorem Result.json_of_json {r s : Result} (h : r.json = some s) : s.json = some s := by
  simp only [Result.json, Option.bind_eq_bind, Option.bind_eq_some_iff, Option.pure_def,
    Option.some.injEq] at h
  obtain ⟨m, hm, rfl⟩ := h
  have hnormal := JsonObject.normal_of_decode JsonObject.jsonText_jsonText hm
  simp [Result.json, JsonObject.decode_encode_of_normal hnormal, JsonObject.jsonText_jsonText,
    Head.json_json, PushOutcome.json_json]

theorem PlanState.json_of_json {s t : PlanState} (h : s.json = some t) : t.json = some t := by
  simp only [PlanState.json, Option.bind_eq_bind, Option.bind_eq_some_iff, Option.pure_def,
    Option.some.injEq] at h
  obtain ⟨lastResult, hresult, rfl⟩ := h
  have hfixed : lastResult.mapM Result.json = some lastResult := by
    cases hs : s.lastResult with
    | none =>
      rw [hs] at hresult
      cases hresult
      rfl
    | some r =>
      rw [hs] at hresult
      obtain ⟨r', hr, rfl⟩ := Option.map_eq_some_iff.mp hresult
      simp [Result.json_of_json hr]
  simp [PlanState.json, hfixed, JsonObject.jsonText_jsonText]

theorem PendingBackup.json_of_json {p q : PendingBackup} (h : p.json = some q) :
    q.json = some q := by
  simp only [PendingBackup.json, Option.bind_eq_bind, Option.bind_eq_some_iff, Option.pure_def,
    Option.some.injEq] at h
  obtain ⟨r, hr, rfl⟩ := h
  simp [PendingBackup.json, Result.json_of_json hr, JsonObject.jsonText_jsonText]

theorem ConflictCheckout.json_json (c : ConflictCheckout) : c.json.json = c.json := by
  have hbinding (b : BindingConflict) : b.json.json = b.json := by
    simp [BindingConflict.json, JsonObject.jsonText_jsonText]
  simp [ConflictCheckout.json, hbinding, JsonObject.jsonText_jsonText]

variable {value w : History}

theorem json_eq_some : value.json = some w ↔
    JsonObject.reread PlanState.json value.plans = some w.plans ∧
      value.pending.mapM PendingBackup.json = some w.pending ∧
        value.conflict.map ConflictCheckout.json = w.conflict := by
  simp only [History.json, Option.bind_eq_bind, Option.bind_eq_some_iff, Option.pure_def,
    Option.some.injEq]
  constructor
  · rintro ⟨plans, hplans, pending, hpending, rfl⟩
    exact ⟨hplans, hpending, rfl⟩
  · rintro ⟨hplans, hpending, hconflict⟩
    exact ⟨_, hplans, _, hpending, by rw [hconflict]⟩

theorem pending_of_json {p q : Option PendingBackup} (h : p.mapM PendingBackup.json = some q) :
    q.mapM PendingBackup.json = some q := by
  cases p with
  | none =>
    cases h
    rfl
  | some p =>
    obtain ⟨p', hp, rfl⟩ := Option.map_eq_some_iff.mp h
    simp [PendingBackup.json_of_json hp]

theorem History.json_of_json (h : value.json = some w) : w.json = some w := by
  rw [json_eq_some] at h ⊢
  obtain ⟨hplans, hpending, hconflict⟩ := h
  refine ⟨JsonObject.reread_reread (fun _ _ => PlanState.json_of_json) hplans,
    pending_of_json hpending, ?_⟩
  rw [← hconflict, Option.map_map]
  congr 1
  funext c
  exact c.json_json

end json

section texts

def refKindTexts : RefKind → List GoString
  | .other name => [name]
  | _ => []

def refStateTexts : RefState → List GoString
  | .other name => [name]
  | _ => []

def statusTexts : ApplyStatus → List GoString
  | .other name => [name]
  | _ => []

def headTexts (h : ObservedHead) : List GoString :=
  [h.datasetID, h.name] ++ refKindTexts h.kind ++ refStateTexts h.state ++
    [h.commitID, h.root, h.createdBy]

def commitTexts (c : Commit) : List GoString :=
  [c.id, c.datasetID, c.root] ++ c.parents ++ [c.baseRoot, c.author, c.credential,
    c.changeSetCID, c.message]

def applyResultTexts (r : ApplyResult) : List GoString :=
  statusTexts r.status ++ headTexts r.head ++ commitTexts r.candidate ++ commitTexts r.commit ++
    r.branch.toList.flatMap headTexts ++ [r.mergeBase] ++ r.conflicts.flatMap conflictTexts

def Result.texts (r : Result) : List GoString :=
  [r.planID, r.planName, r.branch, r.source, r.profile, r.sourceFingerprint] ++
    r.bindingFingerprints.entries.flatMap (fun e => [e.1, e.2]) ++ [r.manifestFingerprint] ++
      r.changedBindings ++
    r.base.texts ++ [r.candidateRoot] ++ applyResultTexts r.push.result ++ r.push.workspace.texts

/-- The texts of a journal: the keys and values of its fingerprints, and what
the Node answered, among them. -/
def PendingBackup.texts (p : PendingBackup) : List GoString :=
  [p.bucketID, p.planID, p.message, p.stashID, p.pushID, p.candidateBase] ++ p.result.texts

def BindingConflict.texts (b : BindingConflict) : List GoString :=
  [b.bindingID, b.bindingName] ++ b.paths

def ConflictCheckout.texts (c : ConflictCheckout) : List GoString :=
  [c.planID, c.stashID, c.branch, c.baseRoot, c.localRoot, c.remoteRoot, c.path] ++
    c.bindings.flatMap BindingConflict.texts

theorem headJSON_eq_self (h : ObservedHead) : headJSON h = h ↔ Valid (headTexts h) := by
  obtain ⟨datasetID, name, kind, state, commitID, root, revision, createdBy, createdAt,
    updatedAt⟩ := h
  have hkind : refKindJSON kind = kind ↔ Valid (refKindTexts kind) := by
    cases kind <;> simp [refKindJSON, refKindTexts]
  have hstate : refStateJSON state = state ↔ Valid (refStateTexts state) := by
    cases state <;> simp [refStateJSON, refStateTexts]
  simp [headJSON, headTexts, hkind, hstate]

theorem commitJSON_eq_self (c : Commit) : commitJSON c = c ↔ Valid (commitTexts c) := by
  have hparents := @JsonObject.valid_iff_map c.parents
  cases c
  simp_all [commitJSON, commitTexts]

theorem applyResultJSON_eq_self (r : ApplyResult) :
    applyResultJSON r = r ↔ Valid (applyResultTexts r) := by
  obtain ⟨status, head, candidate, commit, branch, mergeBase, conflicts⟩ := r
  have hstatus : statusJSON status = status ↔ Valid (statusTexts status) := by
    cases status <;> simp [statusJSON, statusTexts]
  have hbranch : branch.map headJSON = branch ↔ Valid (branch.toList.flatMap headTexts) := by
    cases branch <;> simp [headJSON_eq_self]
  simp [applyResultJSON, applyResultTexts, hstatus, hbranch, headJSON_eq_self, commitJSON_eq_self,
    JsonObject.valid_flatMap BucketSync.conflictJSON_eq_self]

theorem Result.json_eq_self (r : Result) : r.json = some r ↔ Valid r.texts := by
  have hchanged := @JsonObject.valid_iff_map r.changedBindings
  have hfingerprints : JsonObject.decode (JsonObject.encode jsonText r.bindingFingerprints) =
      some r.bindingFingerprints ↔
        Valid (r.bindingFingerprints.entries.flatMap fun e => [e.1, e.2]) := by
    rw [JsonObject.decode_encode_eq_self, JsonObject.normal_iff]
    simp only [Valid, List.mem_flatMap, JsonObject.jsonText_eq_self_iff]
    constructor
    · rintro h s ⟨e, he, hs⟩
      rcases List.mem_pair.mp hs with rfl | rfl
      · exact (h e he).1
      · exact (h e he).2
    · exact fun h e he => ⟨h _ ⟨e, he, by simp⟩, h _ ⟨e, he, by simp⟩⟩
  obtain ⟨planID, planName, branch, source, profile, keyEpoch, encryptedBytes, sourceFingerprint,
    fingerprints,
    manifestFingerprint, changedBindings, skipped, base, candidateRoot, ⟨result, workspace⟩,
      completedAt, retried,
    reconciled⟩ := r
  simp only [Result.json, Option.bind_eq_bind, Option.bind_eq_some_iff, Option.pure_def,
    Option.some.injEq, Result.mk.injEq, PushOutcome.json, PushOutcome.mk.injEq, base.json_eq_self,
      workspace.json_eq_self,
    applyResultJSON_eq_self, ← hchanged, Result.texts, JsonObject.valid_append,
      JsonObject.valid_cons,
    JsonObject.valid_nil, ← hfingerprints]
  constructor
  · rintro ⟨m, hm, hplan, hname, hbranch, hsource, hprofile, -, -, hprint, rfl, hmanifest,
      hbindings, -, hbase, hroot, hpush, -⟩
    tauto
  · intro h
    refine ⟨fingerprints, ?_⟩
    tauto

theorem ConflictCheckout.json_eq_self (c : ConflictCheckout) : c.json = c ↔ Valid c.texts := by
  have hbinding (b : BindingConflict) : b.json = b ↔ Valid b.texts := by
    cases b
    simp [BindingConflict.json, BindingConflict.texts, JsonObject.valid_iff_map]
  cases c
  simp [ConflictCheckout.json, ConflictCheckout.texts, JsonObject.valid_flatMap hbinding]

end texts

section load

structure Coherent (value : History) : Prop where
  identity : ∀ pending, value.pending = some pending → (pending.stashID = [] ↔ pending.pushID = [])
  checkout : ∀ conflict, value.conflict = some conflict → ∃ pending, value.pending = some pending ∧
    conflict.stashID ≠ [] ∧ conflict.stashID = pending.stashID ∧ conflict.localRoot =
      pending.result.candidateRoot ∧
    conflict.path ≠ [] ∧ conflict.bindings ≠ []

variable {value : History}

theorem checks_eq_ok :
    checkPending value = .ok () ∧ checkConflict value = .ok () ↔ Coherent value := by
  have hidentity : checkPending value = .ok () ↔
      ∀ pending, value.pending = some pending → (pending.stashID = [] ↔ pending.pushID = []) := by
    cases hp : value.pending <;> simp [checkPending, hp, pure_eq_ok]
  have hcheckout : checkConflict value = .ok () ↔
      ∀ conflict, value.conflict = some conflict → ∃ pending, value.pending = some pending ∧
        conflict.stashID ≠ [] ∧ conflict.stashID = pending.stashID ∧
        conflict.localRoot = pending.result.candidateRoot ∧ conflict.path ≠ [] ∧
          conflict.bindings ≠ [] := by
    cases hc : value.conflict with
    | none => simp [checkConflict, hc, pure_eq_ok]
    | some conflict =>
      simp [checkConflict, hc, not_or]
  rw [hidentity, hcheckout]
  exact ⟨fun h => ⟨h.1, h.2⟩, fun h => ⟨h.identity, h.checkout⟩⟩

theorem load_eq_ok {w : History} :
    load (some (some value)) = .ok w ↔ w = value ∧ Coherent value := by
  rw [← checks_eq_ok]
  simp only [load, ok_iff, Option.some.injEq, exists_eq_left']
  constructor
  · rintro ⟨_, hp, _, hc, rfl⟩
    exact ⟨rfl, hp, hc⟩
  · rintro ⟨rfl, hp, hc⟩
    exact ⟨_, hp, _, hc, rfl⟩

theorem coherent_of_load {disk : Option File} (h : load disk = .ok value) : Coherent value := by
  cases disk with
  | none =>
    cases h
    exact ⟨by simp, by simp⟩
  | some file =>
    cases file with
    | none => simp [load, bind_eq_ok] at h
    | some v =>
      obtain ⟨rfl, hcoherent⟩ := load_eq_ok.mp h
      exact hcoherent

def ReadsBack (disk : Option File) (value : History) : Prop :=
  ∃ w, load disk = .ok w ∧ w.pending = value.pending ∧ w.conflict = value.conflict

theorem readsBack_iff : ReadsBack (some value.json) value ↔
    (JsonObject.reread PlanState.json value.plans).isSome = true ∧
      value.pending.mapM PendingBackup.json = some value.pending ∧
      value.conflict.map ConflictCheckout.json = value.conflict ∧ Coherent value := by
  constructor
  · rintro ⟨w, hload, hp, hc⟩
    cases hj : value.json with
    | none => simp [hj, load, bind_eq_ok] at hload
    | some v =>
      rw [hj] at hload
      obtain ⟨rfl, hw⟩ := load_eq_ok.mp hload
      obtain ⟨hplans, hpending, hconflict⟩ := json_eq_some.mp hj
      have hvalue : Coherent value := ⟨hp ▸ hw.identity, by rw [← hc, ← hp]; exact hw.checkout⟩
      exact ⟨by rw [hplans]; rfl, hp ▸ hpending, hc ▸ hconflict, hvalue⟩
  · rintro ⟨hplans, hpending, hconflict, hvalue⟩
    obtain ⟨plans, hplans⟩ := Option.isSome_iff_exists.mp hplans
    have hj : value.json = some { value with plans := plans } :=
      json_eq_some.mpr ⟨hplans, hpending, hconflict⟩
    refine ⟨{ value with plans := plans }, ?_, rfl, rfl⟩
    rw [hj]
    exact load_eq_ok.mpr ⟨rfl, hvalue.identity, hvalue.checkout⟩

end load

section calls

/-- The state of a plan can be written: its name does not become that of
another plan. -/
def Distinct (value : History) (name : GoString) : Prop :=
  validString name = true ∨ jsonText name ∉ value.plans

/-- No two keys of the fingerprints are written as one. -/
def Result.KeysApart (r : Result) : Prop := (r.bindingFingerprints.keys.map jsonText).Nodup

def Safe (value : History) : Call → Prop
  | .setPending pending => (pending.stashID = [] ↔ pending.pushID = []) ∧ Valid pending.texts
  | .clearPending _ => value.conflict = none
  | .completePending _ planID result =>
    value.conflict = none ∧ Distinct value (trimSpace planID) ∧ result.KeysApart
  | .markPendingStaged _ stash => validString stash.id = true ∧ validString stash.pushID = true
  | .markPendingConflict _ result => Valid result.texts
  | .setConflictCheckout conflict => Valid conflict.texts
  | .clearConflictCheckout _ => True
  | .recordResult name result => Distinct value (trimSpace name) ∧ result.KeysApart
  | .recordPlanAttempt name _ => Distinct value (trimSpace name)
  | .recordPlanFailure name _ _ => Distinct value (trimSpace name)

structure Loaded (value : History) : Prop where
  plans : JsonObject.reread PlanState.json value.plans = some value.plans
  pending : value.pending.mapM PendingBackup.json = some value.pending
  conflict : value.conflict.map ConflictCheckout.json = value.conflict
  coherent : Coherent value

theorem readsBack_of_update {value : History} {name : GoString} {change : PlanState → PlanState}
    (hplans : JsonObject.reread PlanState.json value.plans = some value.plans)
    (hpending : value.pending.mapM PendingBackup.json = some value.pending)
    (hconflict : value.conflict.map ConflictCheckout.json = value.conflict) :
    ReadsBack (some (update name change value).json) (update name change value) ↔
      Distinct value name ∧
        (change { (value.plans.lookup name).getD .zero with name := name }).json.isSome = true ∧
          Coherent value := by
  have hsame : (update name change value).pending = value.pending ∧
    (update name change value).conflict = value.conflict :=
    ⟨rfl, rfl⟩
  rw [readsBack_iff, hsame.1, hsame.2]
  have hinsert := JsonObject.reread_insert_isSome hplans name
    (change { (value.plans.lookup name).getD .zero with name := name })
  rw [JsonObject.jsonText_eq_self_iff] at hinsert
  constructor
  · rintro ⟨hp, -, -, hc⟩
    obtain ⟨hdistinct, hstate⟩ := hinsert.mp hp
    exact ⟨hdistinct, hstate, hc.identity, hc.checkout⟩
  · rintro ⟨hdistinct, hstate, hc⟩
    exact ⟨hinsert.mpr ⟨hdistinct, hstate⟩, hpending, hconflict, hc.identity, hc.checkout⟩

theorem PlanState.json_isSome {s : PlanState} :
    s.json.isSome = true ↔ ∀ r, s.lastResult = some r → r.json.isSome = true := by
  cases hr : s.lastResult with
  | none => simp [PlanState.json, hr]
  | some r => cases hj : r.json <;> simp [PlanState.json, hr, hj]

theorem Result.json_isSome {r : Result} : r.json.isSome = true ↔ r.KeysApart := by
  have hkeys : (JsonObject.encode jsonText r.bindingFingerprints).NodupKeys ↔ r.KeysApart := by
    rw [List.NodupKeys, List.keys, JsonObject.encode, List.map_map, Result.KeysApart,
      AList.keys, List.keys, List.map_map]
    rfl
  rw [← hkeys, Result.json, JsonObject.decode]
  split_ifs with h <;> simp [h]

theorem Loaded.lastResult_isSome {value : History} (h : Loaded value) (name : GoString) {r : Result}
    (hr : ((value.plans.lookup name).getD .zero).lastResult = some r) : r.json.isSome = true := by
  cases hl : value.plans.lookup name with
  | none => simp [hl, PlanState.zero] at hr
  | some state =>
    rw [hl, Option.getD_some] at hr
    have hmember := JsonObject.reread_eq_self.mp h.plans ⟨name, state⟩ (mem_entries_iff.mpr hl)
    have hstate : state.json.isSome = true := by
      rw [(JsonObject.member_eq_self.mp hmember).2]
      rfl
    exact PlanState.json_isSome.mp hstate r hr

variable {pending p : PendingBackup} {candidate : GoString}

theorem pendingOf_eq_ok {unavailable : String} {value : History}
    (h : pendingOf candidate unavailable value = .ok pending) :
    value.pending = some pending ∧ pending.result.candidateRoot = candidate := by
  simp only [pendingOf, ok_iff, not_not] at h
  obtain ⟨p, hp, -, hroot, rfl⟩ := h
  exact ⟨hp, hroot⟩

theorem Coherent.conflict_none {value : History} (h : Coherent value) (hp : value.pending = none) :
    value.conflict = none := by
  by_contra hc
  obtain ⟨conflict, hc⟩ := Option.ne_none_iff_exists'.mp hc
  obtain ⟨pending, hpending, -⟩ := h.checkout conflict hc
  rw [hp] at hpending
  cases hpending

theorem PendingBackup.json_eq_self : p.json = some p ↔ Valid p.texts := by
  have hresult := p.result.json_eq_self
  obtain ⟨bucketID, planID, message, stashID, pushID, candidateBase, candidateRecorded, result,
    createdAt⟩ := p
  simp only [PendingBackup.json, Option.bind_eq_bind, Option.bind_eq_some_iff, Option.pure_def,
    Option.some.injEq,
    PendingBackup.mk.injEq, PendingBackup.texts, JsonObject.valid_append, JsonObject.valid_cons,
      JsonObject.valid_nil,
    ← hresult]
  constructor
  · rintro ⟨r, hr, hbucket, hplan, hmessage, hstash, hpush, hbase, -, rfl, -⟩
    tauto
  · intro h
    refine ⟨result, ?_⟩
    tauto

theorem mapM_some_eq_self : (some p).mapM PendingBackup.json = some (some p) ↔ p.json = some p := by
  cases hj : p.json <;> simp [hj]

theorem Loaded.readsBack_pending {value : History} (h : Loaded value) :
    ReadsBack (some ({ value with pending := some pending } : History).json)
      { value with pending := some pending } ↔
      pending.json = some pending ∧ Coherent { value with pending := some pending } := by
  rw [readsBack_iff, h.plans, h.conflict, mapM_some_eq_self]
  simp

variable {value written : History}

variable {result : Result}

theorem setPending_readsBack (hloaded : Loaded value)
    (h : (setPending pending).edit value = .ok written) :
    ReadsBack (some written.json) written ↔ Safe value (.setPending pending) := by
  cases hp : value.pending with
  | some existing => simp [setPending, hp] at h
  | none =>
    simp only [setPending, hp, pure_eq_ok] at h
    obtain rfl := h
    have hnone := hloaded.coherent.conflict_none hp
    rw [hloaded.readsBack_pending, PendingBackup.json_eq_self, Safe, and_comm]
    refine and_congr_left fun _ => ⟨fun hc => hc.identity pending rfl,
      fun hi => ⟨fun p hp => ?_, fun c hc => ?_⟩⟩
    · exact Option.some.inj hp ▸ hi
    · rw [hnone] at hc
      cases hc

theorem clearPending_readsBack (hloaded : Loaded value)
    (h : (clearPending candidate).edit value = .ok written) :
    ReadsBack (some written.json) written ↔ Safe value (.clearPending candidate) := by
  cases hp : value.pending with
  | none =>
    simp only [clearPending, hp, pure_eq_ok] at h
    obtain rfl := h
    refine iff_of_true ?_ (hloaded.coherent.conflict_none hp)
    exact readsBack_iff.mpr ⟨by rw [hloaded.plans]; rfl, hloaded.pending, hloaded.conflict,
      hloaded.coherent⟩
  | some pending =>
    simp only [clearPending, hp, ok_iff] at h
    obtain ⟨-, -, rfl⟩ := h
    rw [readsBack_iff, hloaded.plans]
    constructor
    · rintro ⟨-, -, -, hc⟩
      exact hc.conflict_none rfl
    · intro hnone
      have hnone' : value.conflict = none := hnone
      exact ⟨rfl, rfl, hloaded.conflict, by simp, by simp [hnone']⟩

theorem completePending_readsBack {planID : GoString} (hloaded : Loaded value)
    (h : (completePending candidate planID result).edit value = .ok written) :
    ReadsBack (some written.json) written ↔
      Safe value (.completePending candidate planID result) := by
  simp only [completePending, ok_iff] at h
  obtain ⟨pending, -, -, -, rfl⟩ := h
  rw [@readsBack_of_update { value with pending := none } _ _
    hloaded.plans rfl hloaded.conflict, PlanState.json_isSome]
  simp only [Safe, Option.some.injEq, forall_eq', Result.json_isSome]
  constructor
  · rintro ⟨hd, hr, hc⟩
    exact ⟨hc.conflict_none rfl, hd, hr⟩
  · rintro ⟨hnone, hd, hr⟩
    exact ⟨hd, hr, by simp, by simp [hnone]⟩

theorem markPendingStaged_readsBack {stash : Stash} (hloaded : Loaded value)
    (hchecked : (markPendingStaged candidate stash).checked = .ok ())
    (h : (markPendingStaged candidate stash).edit value = .ok written) :
    ReadsBack (some written.json) written ↔ Safe value (.markPendingStaged candidate stash) := by
  simp only [markPendingStaged, reject_eq_ok, not_or] at hchecked
  obtain ⟨-, hid, hpush, -⟩ := hchecked
  simp only [markPendingStaged, ok_iff] at h
  obtain ⟨pending, hp, -, -, -, hidentity, rfl⟩ := h
  obtain ⟨hp, -⟩ := pendingOf_eq_ok hp
  have hjson : pending.json = some pending := mapM_some_eq_self.mp (hp ▸ hloaded.pending)
  rw [PendingBackup.json_eq_self] at hjson
  have hcoherent : Coherent {
    value with pending := some { pending with stashID := stash.id, pushID := stash.pushID } } := by
    refine ⟨fun p hp => ?_, fun c hc => ?_⟩
    · cases hp
      exact iff_of_false hid hpush
    · obtain ⟨p, hp', hne, hstash, hrest⟩ := hloaded.coherent.checkout c hc
      obtain rfl := Option.some.inj (hp.symm.trans hp')
      -- the frozen identity has not changed
      have hfrozen : pending.stashID = stash.id := by
        by_contra hdiffers
        exact hidentity ⟨fun hnil => hne (hstash.trans hnil), .inl hdiffers⟩
      exact ⟨_, rfl, hne, hstash.trans hfrozen, hrest⟩
  rw [hloaded.readsBack_pending, PendingBackup.json_eq_self,
    Safe, ← JsonObject.jsonText_eq_self_iff, ← JsonObject.jsonText_eq_self_iff]
  simp only [PendingBackup.texts, JsonObject.valid_append, JsonObject.valid_cons] at hjson ⊢
  tauto

theorem markPendingConflict_readsBack (hloaded : Loaded value)
    (hchecked : (markPendingConflict candidate result).checked = .ok ())
    (h : (markPendingConflict candidate result).edit value = .ok written) :
    ReadsBack (some written.json) written ↔ Safe value (.markPendingConflict candidate result) := by
  simp only [markPendingConflict, reject_eq_ok, not_or, not_not] at hchecked
  obtain ⟨-, hroot, -, -⟩ := hchecked
  simp only [markPendingConflict, ok_iff] at h
  obtain ⟨pending, hp, rfl⟩ := h
  obtain ⟨hp, hcandidate⟩ := pendingOf_eq_ok hp
  have hjson : pending.json = some pending := mapM_some_eq_self.mp (hp ▸ hloaded.pending)
  rw [PendingBackup.json_eq_self] at hjson
  have hcoherent : Coherent { value with pending := some { pending with result := result } } := by
    refine ⟨fun p hp' => ?_, fun c hc => ?_⟩
    · cases hp'
      exact hloaded.coherent.identity pending hp
    · obtain ⟨p, hp', hne, hstash, hlocal, hrest⟩ := hloaded.coherent.checkout c hc
      obtain rfl := Option.some.inj (hp.symm.trans hp')
      exact ⟨_, rfl, hne, hstash, hlocal.trans (hcandidate.trans hroot.symm), hrest⟩
  rw [hloaded.readsBack_pending, PendingBackup.json_eq_self, Safe]
  simp only [PendingBackup.texts, JsonObject.valid_append, JsonObject.valid_cons] at hjson ⊢
  tauto

theorem setConflictCheckout_readsBack {conflict : ConflictCheckout} (hloaded : Loaded value)
    (hchecked : (setConflictCheckout conflict).checked = .ok ())
    (h : (setConflictCheckout conflict).edit value = .ok written) :
    ReadsBack (some written.json) written ↔ Safe value (.setConflictCheckout conflict) := by
  have hne {s : GoString} (hs : trimSpace s ≠ []) : s ≠ [] := by
    rintro rfl
    exact hs rfl
  simp only [setConflictCheckout, reject_eq_ok, not_or] at hchecked
  obtain ⟨-, hstash, -, -, hpath, -, hbindings⟩ := hchecked
  simp only [setConflictCheckout, ok_iff, not_or, not_not] at h
  obtain ⟨pending, hp, -, ⟨hid, hroot⟩, rfl⟩ := h
  have hcoherent : Coherent { value with conflict := some conflict } := by
    refine ⟨hloaded.coherent.identity, fun c hc => ?_⟩
    cases hc
    exact ⟨pending, hp, hne hstash, hid.symm, hroot.symm, hne hpath, hbindings⟩
  rw [readsBack_iff, hloaded.plans]
  simp [hloaded.pending, hcoherent, Safe, conflict.json_eq_self]

theorem clearConflictCheckout_readsBack {stashID : GoString} (hloaded : Loaded value)
    (h : (clearConflictCheckout stashID).edit value = .ok written) :
    ReadsBack (some written.json) written := by
  simp only [clearConflictCheckout, ok_iff] at h
  obtain ⟨-, -, rfl⟩ := h
  refine readsBack_iff.mpr ⟨by rw [hloaded.plans]; rfl, hloaded.pending, rfl,
    hloaded.coherent.identity, ?_⟩
  intro c hc
  cases hc

theorem edit_readsBack_iff (call : Call) (hloaded : Loaded value)
    (hchecked : call.method.checked = .ok ()) (h : call.method.edit value = .ok written) :
    ReadsBack (some written.json) written ↔ Safe value call := by
  cases call with
  | setPending pending => exact setPending_readsBack hloaded h
  | clearPending candidate => exact clearPending_readsBack hloaded h
  | completePending candidate planID result => exact completePending_readsBack hloaded h
  | markPendingStaged candidate stash => exact markPendingStaged_readsBack hloaded hchecked h
  | markPendingConflict candidate result => exact markPendingConflict_readsBack hloaded hchecked h
  | setConflictCheckout conflict => exact setConflictCheckout_readsBack hloaded hchecked h
  | clearConflictCheckout stashID =>
    exact iff_of_true (clearConflictCheckout_readsBack hloaded h) trivial
  | recordResult name result =>
    cases h
    rw [readsBack_of_update hloaded.plans hloaded.pending hloaded.conflict, PlanState.json_isSome]
    simp [Safe, hloaded.coherent, Result.json_isSome]
  | recordPlanAttempt name time =>
    cases h
    rw [readsBack_of_update hloaded.plans hloaded.pending hloaded.conflict, PlanState.json_isSome]
    simp only [Safe, hloaded.coherent, and_true]
    exact and_iff_left fun r hr => hloaded.lastResult_isSome _ hr
  | recordPlanFailure name time runErr =>
    cases h
    rw [readsBack_of_update hloaded.plans hloaded.pending hloaded.conflict, PlanState.json_isSome]
    simp only [Safe, hloaded.coherent, and_true]
    exact and_iff_left fun r hr => hloaded.lastResult_isSome _ hr

end calls

section runs

def Written (disk : Option File) : Prop :=
  ∀ value, disk = some (some value) → value.json = some value

variable {disk : Option File}

theorem write_eq_ok {value : History} {file : File} (h : store.write value = .ok file) :
    file = value.json := by
  have hwrite : write value = .ok file := h
  simp only [write, ok_iff] at hwrite
  obtain ⟨-, -, rfl⟩ := hwrite
  rfl

theorem written_mutate (h : Written disk) (method : Mutation) (fault : Fault) :
    Written (mutate method fault disk).1 := by
  unfold mutate
  cases hc : method.checked with
  | error e => exact h
  | ok u =>
    rcases store.update_cases fault (fun value => do
      let value ← method.edit value
      return (value, ())) disk with ⟨hsame, -⟩ | ⟨s, s', content, a, -, -, hwrite, hdisk, -⟩
    · intro value hv
      exact h value (hsame ▸ hv)
    · intro value hv
      have hcontent := hdisk.symm.trans hv
      rw [write_eq_ok hwrite] at hcontent
      exact History.json_of_json (Option.some.inj hcontent)

theorem written_run (calls : List (Call × Fault)) : Written (run calls) := by
  induction calls using List.reverseRecOn with
  | nil => intro value h; cases h
  | append_singleton calls c ih =>
    rw [run, List.foldl_append]
    exact written_mutate ih c.1.method c.2

theorem loaded_of_run {calls : List (Call × Fault)} {value : History}
    (h : load (run calls) = .ok value) : Loaded value := by
  have hcoherent := coherent_of_load h
  have hjson : value.json = some value := by
    cases hr : run calls with
    | none =>
      rw [hr] at h
      cases h
      rfl
    | some file =>
      rw [hr] at h
      cases file with
      | none => simp [load, bind_eq_ok] at h
      | some v =>
        obtain ⟨rfl, -⟩ := load_eq_ok.mp h
        exact written_run calls _ hr
  obtain ⟨hplans, hpending, hconflict⟩ := json_eq_some.mp hjson
  exact ⟨hplans, hpending, hconflict, hcoherent⟩

theorem mutate_eq_ok {method : Mutation} {fault : Fault}
    (h : (mutate method fault disk).2 = .ok ()) : ∃ value written, load disk = .ok value ∧
      method.checked = .ok () ∧ method.edit value = .ok written ∧ (mutate method fault disk).1 =
        some written.json := by
  unfold mutate at h ⊢
  cases hc : method.checked with
  | error e => simp [hc] at h
  | ok u =>
    rw [hc] at h
    obtain ⟨s, s', content, hread, hedit, hwrite, hdisk⟩ := Store.update_eq_ok h
    simp only [ok_iff, Prod.mk.injEq, and_true] at hedit
    obtain ⟨w, hw, rfl⟩ := hedit
    exact ⟨s, w, hread, rfl, hw, write_eq_ok hwrite ▸ hdisk⟩

/-- After any calls, the file that a successful call writes is read back with
its journal and its checkout exactly if the call is safe for what it loaded. -/
theorem history_readsBack_iff (calls : List (Call × Fault)) (call : Call) (fault : Fault)
    (h : (mutate call.method fault (run calls)).2 = .ok ()) :
    ∃ value written, load (run calls) = .ok value ∧ call.method.edit value = .ok written ∧
      (ReadsBack (mutate call.method fault (run calls)).1 written ↔ Safe value call) := by
  obtain ⟨value, written, hload, hchecked, hedit, hdisk⟩ := mutate_eq_ok h
  refine ⟨value, written, hload, hedit, ?_⟩
  rw [hdisk]
  exact edit_readsBack_iff call (loaded_of_run hload) hchecked hedit

def emptyHead : ObservedHead :=
  { datasetID := [], name := [], kind := .main, state := .opened, commitID := [], root := [],
    revision := 0
    createdBy := [], createdAt := 0, updatedAt := 0 }

def emptyCommit : Commit :=
  { id := [], datasetID := [], root := [], parents := [], baseRoot := [], author := [],
    credential := []
    changeSetCID := [], message := [], createdAt := 0 }

def emptyOutcome : PushOutcome where
  result :=
    { status := .branched, head := emptyHead, candidate := emptyCommit, commit := emptyCommit,
      branch := none
      mergeBase := [], conflicts := [] }
  workspace := .zero

def resultOf (candidate : GoString) : Result :=
  { planID := text "plan", planName := [], branch := [], source := text "/src",
    profile := profileID, keyEpoch := 1
    encryptedBytes := 0, sourceFingerprint := [], bindingFingerprints := ∅,
      manifestFingerprint := []
    changedBindings := [], skipped := false, base := .empty, candidateRoot := candidate,
      push := emptyOutcome
    completedAt := 1, retriedPending := false, reconciledPending := false }

def pendingFor (candidate : GoString) : PendingBackup :=
  { bucketID := text "bucket", planID := text "plan", message := [], stashID := text "stash",
    pushID := text "push"
    candidateBase := [], candidateRecorded := true, result := resultOf candidate, createdAt := 1 }

def checkoutFor (candidate : GoString) : ConflictCheckout :=
  { planID := text "plan", stashID := text "stash", branch := [], baseRoot := [],
    localRoot := candidate
    remoteRoot := text "remote", path := text "/conflict"
    bindings := [{ bindingID := text "binding", bindingName := [], paths := [text "f"] }],
      createdAt := 1 }

def checkedOut : List (Call × Fault) :=
  [(.setPending (pendingFor (text "root")), .none),
    (.setConflictCheckout (checkoutFor (text "root")), .none)]

theorem history_readsBack_checkout :
    ∃ value written, load (run checkedOut) = .ok value ∧
      (clearConflictCheckout (text "stash")).edit value = .ok written ∧
      ReadsBack (mutate (clearConflictCheckout (text "stash")) .none (run checkedOut)).1
        written := by
  obtain ⟨value, written, hload, hedit, hiff⟩ :=
    history_readsBack_iff checkedOut (.clearConflictCheckout (text "stash")) .none
      (by decide +kernel)
  exact ⟨value, written, hload, hedit, hiff.mpr trivial⟩

/-- The journal is cleared while its conflict is checked out: the call succeeds
and nothing can load the file again. -/
theorem clearPending_unreadable :
    (mutate (clearPending (text "root")) .none (run checkedOut)).2 = .ok () ∧
      load (mutate (clearPending (text "root")) .none (run checkedOut)).1 =
        .error (.message "backup conflict checkout does not match pending backup" []) := by
  decide +kernel

end runs

end MaltClient.BackupHistory
