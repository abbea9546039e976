import MaltClient.TrustRuns

/-! What the trust store reads back after a successful call: the record that
the call returned, when the file can hold its texts. -/

namespace MaltClient.Trust

open GoText Checked LockedFile

variable [CidFormat]

/-- The next reload finds the record that the call returned under its alias,
and every other alias as it was. -/
def ReadsBack (call : Call) (fault : Fault) (disk : Option File) : Prop :=
  (∃ roots, reloadLocked (call.exec fault disk).1 = .ok roots) ∧
    getState call.aliasName (call.exec fault disk).1 = (call.exec fault disk).2 ∧
    ∀ aliasName, normalizeAlias aliasName ≠ call.key →
      getState aliasName (call.exec fault disk).1 = getState aliasName disk

def Call.Lossless (roots : Roots) : Call → Prop
  | .trust aliasName _ profile gateway source _ =>
    validString aliasName = true ∧ validString profile = true ∧ validString gateway = true ∧
      validString source = true
  | .addCandidate aliasName root _ source _ =>
    (∃ r, canonicalCID root = .ok r ∧
      acceptedRoot (rootState (normalizeAlias aliasName) roots).accepted = some r) ∨
      (validString aliasName = true ∧ validString source = true)
  | .observeHead aliasName o now =>
    (validString aliasName = true ∧ validString o.source = true ∧ validString o.datasetID = true ∧
      validString o.branch = true ∧ validString o.commitID = true) ∧ now ≠ 0
  | .acceptCandidate _ _ source _ => validString source = true
  | .acceptObserved _ _ profile gateway source _ =>
    validString profile = true ∧ validString gateway = true ∧ validString source = true

section fixed

omit [CidFormat] in
theorem validString_normalizeAlias {aliasName : GoString} :
    validString (normalizeAlias aliasName) = true ↔ validString aliasName = true := by
  rw [normalizeAlias, JsonObject.validString_trimSpace]

omit [CidFormat] in
theorem accepted_acceptRoot (v : RootState) (root source : GoString) (acceptedAt : Int) :
    ∃ previous, (acceptRoot v root source acceptedAt).accepted =
      some { root := root, previousRoot := previous, source := source, acceptedAt :=
        acceptedAt } := by
  unfold acceptRoot
  cases v.accepted with
  | none => exact ⟨[], rfl⟩
  | some a => exact ⟨_, rfl⟩

omit [CidFormat] in
theorem acceptRoot_origin (v : RootState) (root source : GoString) (acceptedAt : Int) :
    (acceptRoot v root source acceptedAt).profile = v.profile ∧
      (acceptRoot v root source acceptedAt).gateway = v.gateway := by
  unfold acceptRoot
  cases v.accepted <;> exact ⟨rfl, rfl⟩

theorem AcceptedRootState.Normal.json_eq_self_iff {a : AcceptedRootState} (h : a.Normal) :
    a.json = a ↔ validString a.source = true := by
  obtain ⟨hroot, hprevious⟩ := h.json_roots
  obtain ⟨root, previousRoot, source, acceptedAt⟩ := a
  simp only [AcceptedRootState.json] at hroot hprevious
  simp [AcceptedRootState.json, hroot, hprevious, JsonObject.jsonText_eq_self_iff]

theorem CandidateRoot.Normal.json_eq_self_iff {accepted : Option AcceptedRootState}
    {c : CandidateRoot} (h : c.Normal accepted) : c.json = c ↔ validString c.source = true := by
  obtain ⟨hroot, hbase⟩ := h.json_roots
  obtain ⟨root, baseRoot, source, observedAt⟩ := c
  simp only [CandidateRoot.json] at hroot hbase
  simp [CandidateRoot.json, hroot, hbase, JsonObject.jsonText_eq_self_iff]

variable {o raw : ObservedHead} {roots : Roots}

theorem ObservedHead.Normal.json_eq_self_iff (h : o.Normal) :
    o.json = o ↔ validString o.source = true ∧ validString o.datasetID = true ∧
      validString o.branch = true ∧ validString o.commitID = true := by
  have hroot : jsonText o.root = o.root := by
    rcases h.tuple with ⟨-, hroot, -⟩ | ⟨-, hroot, -⟩
    · rw [hroot]
      rfl
    · exact jsonText_of_canonicalCID hroot
  obtain ⟨source, datasetID, branch, commitID, root, revision, observedAt⟩ := o
  simp only [ObservedHead.json, ObservedHead.mk.injEq, and_true, JsonObject.jsonText_eq_self_iff]
    at hroot ⊢
  simp only [hroot, and_true]

theorem fixed_rootState (hr : Readable roots) {key : GoString} (hkey : jsonText key = key) :
    (rootState key roots).Fixed := by
  cases h : roots.lookup key with
  | none =>
    rw [rootState, h, Option.getD_none]
    exact ⟨hkey, rfl, rfl, by simp [RootState.zero], by simp [RootState.zero],
      by simp [RootState.zero]⟩
  | some v =>
    rw [rootState_eq_of_lookup hr h]
    exact RootState.json_eq_self_iff.mp (hr.lossless key v h).2

theorem timed_rootState (hr : Readable roots) (key : GoString) : (rootState key roots).Timed := by
  cases h : roots.lookup key with
  | none =>
    intro o ho
    simp [rootState, h, RootState.zero] at ho
  | some v =>
    rw [rootState_eq_of_lookup hr h]
    exact (hr.normal key v h).2

theorem fixed_acceptRoot_iff {w : RootState} {root profile gateway source : GoString} {now :
    Int} (hw : w.Sound)
    (hfixed : w.Fixed) (hroot : canonicalCID root = .ok root) :
    RootState.Fixed (acceptRoot { w with profile := profile, gateway := gateway } root source now) ↔
      validString profile = true ∧ validString gateway = true ∧ validString source = true := by
  set u : RootState := { w with profile := profile, gateway := gateway } with hu
  have hsound :
    (acceptRoot u root source now).Sound :=
      (hw.withSource profile gateway).acceptRoot hroot source now
  obtain ⟨hprofile, hgateway⟩ := acceptRoot_origin u root source now
  obtain ⟨hname, hheads⟩ := acceptRoot_rest u root source now
  obtain ⟨previous, haccepted⟩ := accepted_acceptRoot u root source now
  have hsource := (hsound.accepted _ haccepted).json_eq_self_iff
  rw [← hsource, ← JsonObject.jsonText_eq_self_iff, ← JsonObject.jsonText_eq_self_iff]
  constructor
  · intro h
    have hp := h.profile
    have hg := h.gateway
    rw [hprofile] at hp
    rw [hgateway] at hg
    exact ⟨hp, hg, h.accepted _ haccepted⟩
  · intro h
    obtain ⟨hp, hg, ha⟩ := h
    refine ⟨?_, ?_, ?_, ?_, ?_, ?_⟩
    · rw [hname]
      exact hfixed.aliasName
    · rw [hprofile]
      exact hp
    · rw [hgateway]
      exact hg
    · intro a hmem
      obtain rfl := Option.some.inj (haccepted.symm.trans hmem)
      exact ha
    · exact fun c hc => hfixed.candidates c (candidates_acceptRoot hc).1
    · rw [hheads]
      exact hfixed.observedHeads

omit [CidFormat] in
theorem timed_acceptRoot {v : RootState} (h : v.Timed) (root profile gateway source : GoString)
    (now : Int) : RootState.Timed (acceptRoot { v with profile := profile, gateway := gateway } root
      source now) := by
  intro o ho
  rw [(acceptRoot_rest _ root source now).2] at ho
  exact h o ho

theorem normalizeObservation_names (h : normalizeObservation raw = .ok o) :
    o.source = trimSpace raw.source ∧ o.datasetID = trimSpace raw.datasetID ∧
      o.branch = trimSpace raw.branch ∧ o.commitID = trimSpace raw.commitID := by
  simp only [normalizeObservation, ok_iff, exists_const] at h
  obtain ⟨-, h⟩ := h
  split_ifs at h
  · simp only [ok_iff, exists_const] at h
    obtain ⟨-, rfl⟩ := h
    exact ⟨rfl, rfl, rfl, rfl⟩
  · simp only [ok_iff, exists_const] at h
    obtain ⟨-, root, -, rfl⟩ := h
    exact ⟨rfl, rfl, rfl, rfl⟩

theorem json_observation_iff (h : normalizeObservation raw = .ok o) (now : Int) :
    ObservedHead.json { o with observedAt := now } = { o with observedAt := now } ↔
      validString raw.source = true ∧ validString raw.datasetID = true ∧
        validString raw.branch = true ∧ validString raw.commitID = true := by
  obtain ⟨hsource, hdataset, hbranch, hcommit⟩ := normalizeObservation_names h
  rw [((normal_of_normalizeObservation h).1.at now).json_eq_self_iff]
  simp only [hsource, hdataset, hbranch, hcommit, JsonObject.validString_trimSpace]

end fixed

section lossless

variable {roots : Roots}

theorem Writes.lossless_iff {call : Call} {v : RootState} (h : Writes roots call v)
    (hr : Readable roots) : (v.Fixed ∧ v.Timed) ↔ call.Lossless roots := by
  have hkey : v.Fixed → jsonText call.key = call.key := fun hf => h.aliasName hr ▸ hf.aliasName
  have hsound := h.sound hr
  have hname : jsonText call.key = call.key ↔ validString call.aliasName = true := by
    rw [Call.key, JsonObject.jsonText_eq_self_iff, validString_normalizeAlias]
  cases h with
  | @trust aliasName root profile gateway source now r _ hcanon =>
    rw [and_iff_left (timed_acceptRoot (timed_rootState hr _) r profile gateway source now)]
    constructor
    · intro hf
      have hold := fixed_rootState hr (hkey hf)
      exact ⟨hname.mp (hkey hf),
        (fixed_acceptRoot_iff (sound_rootState hr _) hold (canonicalCID_idem hcanon)).mp hf⟩
    · intro hl
      have hold := fixed_rootState hr (hname.mpr hl.1)
      exact (fixed_acceptRoot_iff (sound_rootState hr _) hold (canonicalCID_idem hcanon)).mpr hl.2
  | @addCandidate aliasName root baseRoot source now r b _ hcanon _ _ hne =>
    have hmem :=
      List.mem_append_right
      (removeCandidate (rootState (normalizeAlias aliasName) roots).candidates r)
      (List.mem_singleton_self (CandidateRoot.mk r b source now))
    have hsource := (hsound.candidates _ hmem).json_eq_self_iff
    constructor
    · intro h
      obtain ⟨hf, -⟩ := h
      exact .inr ⟨hname.mp (hkey hf), hsource.mp (hf.candidates _ hmem)⟩
    · intro h
      rcases h with ⟨r', hr', hacc⟩ | ⟨halias, hs⟩
      · rw [hcanon] at hr'
        exact absurd (Except.ok.inj hr' ▸ hacc) hne
      · have hold := fixed_rootState hr (hname.mpr halias)
        refine ⟨⟨hold.aliasName, hold.profile, hold.gateway, hold.accepted, fun c hc => ?_,
          hold.observedHeads⟩, timed_rootState hr _⟩
        rcases List.mem_append.mp hc with hc | hc
        · exact hold.candidates c (List.mem_of_mem_filter hc)
        · obtain rfl := List.mem_singleton.mp hc
          exact hsource.mpr hs
  | @observeHead aliasName observation now o heads _ hnorm hup =>
    have hnodup := (sound_rootState hr (normalizeAlias aliasName)).streams.nodup
    have hmem : { o with observedAt := now } ∈ heads :=
      (upsertObservation_eq_ok hnodup hup).1.mem_iff.mpr List.mem_cons_self
    have htexts := json_observation_iff hnorm now
    constructor
    · intro h
      obtain ⟨hf, ht⟩ := h
      exact ⟨⟨hname.mp (hkey hf), htexts.mp (hf.observedHeads _ hmem)⟩, ht _ hmem⟩
    · intro h
      obtain ⟨⟨halias, hs⟩, hnow⟩ := h
      have hold := fixed_rootState hr (hname.mpr halias)
      refine ⟨⟨hold.aliasName, hold.profile, hold.gateway, hold.accepted, hold.candidates,
        fun p hp => ?_⟩, fun p hp => ?_⟩
      · rcases mem_of_upsertObservation hnodup hup hp with rfl | hp
        · exact htexts.mpr hs
        · exact hold.observedHeads p hp
      · rcases mem_of_upsertObservation hnodup hup hp with rfl | hp
        · exact hnow
        · exact timed_rootState hr _ p hp
  | @acceptCandidate aliasName root source now r w c hcanon hfound hlisted hchosen hpromo =>
    have hfixed := RootState.json_eq_self_iff.mp (hr.lossless _ w hfound).2
    obtain ⟨hnormal, htimed⟩ := hr.normal _ w hfound
    have hiff : RootState.Fixed (acceptRoot w r source now) ↔ validString w.profile = true ∧
        validString w.gateway = true ∧ validString source = true :=
      fixed_acceptRoot_iff hnormal.toSound hfixed (canonicalCID_idem hcanon)
    rw [and_iff_left (timed_acceptRoot htimed r w.profile w.gateway source now), hiff,
      and_iff_right (JsonObject.jsonText_eq_self_iff.mp hfixed.profile),
      and_iff_right (JsonObject.jsonText_eq_self_iff.mp hfixed.gateway)]
    exact Iff.rfl
  | @acceptObserved aliasName root profile gateway source now r w o hcanon hfound hlisted hchosen =>
    have hfixed := RootState.json_eq_self_iff.mp (hr.lossless _ w hfound).2
    obtain ⟨hnormal, htimed⟩ := hr.normal _ w hfound
    rw [and_iff_left (timed_acceptRoot htimed r profile gateway source now)]
    exact fixed_acceptRoot_iff hnormal.toSound hfixed (canonicalCID_idem hcanon)

end lossless

section readback

variable {roots : Roots} {disk : Option File} {v : RootState} {call : Call} {fault : Fault}

theorem getState_eq (h : reloadLocked disk = .ok roots) (aliasName : GoString) :
    getState aliasName disk = required .notFound (roots.lookup (normalizeAlias aliasName)) := by
  rw [getState, h]
  rfl

theorem reload_insert_of_fixed {key : GoString} (hr : Readable roots)
    (hv : v.Normal key) (hfixed : v.Fixed) (htimed : v.Timed) :
    reloadLocked (some (JsonObject.encode RootState.json (roots.insert key v))) =
      .ok (roots.insert key v) := by
  have hrecord : ∀ k w, (roots.insert key v).lookup k = some w → (jsonText k = k ∧ w.json = w) ∧
    w.Normal k ∧ w.Timed := by
    intro k w hw
    rw [AssocMap.lookup_insert_eq] at hw
    split_ifs at hw with hk
    · cases hw
      subst hk
      exact ⟨⟨hv.aliasName ▸ hfixed.aliasName, RootState.json_eq_self_iff.mpr hfixed⟩, hv, htimed⟩
    · exact ⟨hr.lossless k w hw, hr.normal k w hw⟩
  have hdecode := JsonObject.decode_encode_of_normal fun k w hw => (hrecord k w hw).1
  have hfold :=
    AssocMap.foldlM_replace_of_fixed fun k w hw => (hrecord k w hw).2.1.fixed (hrecord k w hw).2.2
  simp only [reloadLocked, hdecode, ok_iff, Option.some.injEq]
  exact ⟨_, rfl, hfold⟩

theorem Settled.lookup (h : Settled roots call) (hr : Readable roots) :
    roots.lookup call.key = some (rootState call.key roots) ∧ call.Lossless roots := by
  obtain ⟨aliasName, root, baseRoot, source, now, r, rfl, hcanon, hacc⟩ := h
  refine ⟨?_, .inl ⟨r, hcanon, hacc⟩⟩
  cases hl : roots.lookup (Call.addCandidate aliasName root baseRoot source now).key with
  | none => simp [rootState, hl, RootState.zero, acceptedRoot] at hacc
  | some v => rw [rootState_eq_of_lookup hr hl]

theorem exec_readsBack_iff
    (hdisk : Stored disk) (hread : reloadLocked disk = .ok roots)
    (h : (call.exec fault disk).2 = .ok v) : ReadsBack call fault disk ↔ call.Lossless roots := by
  have hr := readable_of_reload hdisk hread
  rcases exec_cases call fault disk with ⟨-, e, he⟩ | ⟨roots', hread', hsettled, hexec⟩ |
    ⟨roots', w, hread', hwrites, hfile, hreply⟩
  · simp [h] at he
  · obtain rfl := Except.ok.inj (hread'.symm.trans hread)
    obtain ⟨hfound, hlossless⟩ := hsettled.lookup hr
    refine iff_of_true ?_ hlossless
    rw [ReadsBack, hexec]
    refine ⟨⟨roots', hread⟩, ?_, fun _ _ => rfl⟩
    rw [getState_eq hread, ← Call.key, hfound]
    rfl
  · obtain rfl := Except.ok.inj (hread'.symm.trans hread)
    obtain rfl : w = v := by
      rcases hreply with hw | ⟨e, he⟩
      · exact Except.ok.inj (hw.symm.trans h)
      · simp [h] at he
    rw [← hwrites.lossless_iff hr, ReadsBack, hfile, h]
    constructor
    · intro hback
      obtain ⟨⟨after, hafter⟩, hself, -⟩ := hback
      rw [getState_eq hafter, ← Call.key, required_eq_ok] at hself
      obtain ⟨-, w', hw', hlookup⟩ := reload_insert hr hafter
      rw [hlookup] at hself
      split_ifs at hself with hk
      · cases hself
        have hjson := json_of_normalizeRootState (hwrites.sound hr) hw'
        exact ⟨RootState.json_eq_self_iff.mp hjson, (normal_of_normalizeRootState hw').2⟩
      · exact absurd (hr.lossless _ _ hself).1.symm hk
    · intro hfixed
      have hafter := reload_insert_of_fixed hr (hwrites.normal hr) hfixed.1 hfixed.2
      refine ⟨⟨_, hafter⟩, ?_, fun aliasName hne => ?_⟩
      · rw [getState_eq hafter, ← Call.key, AssocMap.lookup_insert_eq, if_pos rfl]
        rfl
      · rw [getState_eq hafter, getState_eq hread, AssocMap.lookup_insert_eq, if_neg hne]

/-- A run from the empty store: a property of every successful call of it, at
the file the call found. -/
def EverySuccess (calls : List (Call × Fault)) (P : Option File → Call × Fault → Prop) : Prop :=
  ∀ before c after, calls = before ++ c :: after →
    (∃ v, (c.1.exec c.2 (runCalls before none)).2 = .ok v) → P (runCalls before none) c

theorem exists_reload_of_exec_ok (h : (call.exec fault disk).2 = .ok v) :
    ∃ roots, reloadLocked disk = .ok roots := by
  rcases exec_cases call fault disk with ⟨-, e, he⟩ | ⟨roots, hread, -⟩ | ⟨roots, -, hread, -⟩
  · simp [h] at he
  · exact ⟨roots, hread⟩
  · exact ⟨roots, hread⟩

/-- In every run from the empty store, each successful call reads back exactly
when each of them is lossless. -/
theorem store_readsBack_iff (calls : List (Call × Fault)) :
    EverySuccess calls (fun disk c => ReadsBack c.1 c.2 disk) ↔
      EverySuccess calls (fun disk c => ∀ roots, reloadLocked disk = .ok roots →
        c.1.Lossless roots) := by
  have hstored (before : List (Call × Fault)) : Stored (runCalls before none) :=
    stored_runCalls before (.inl rfl)
  constructor
  · intro h before c after hc hok roots hread
    obtain ⟨v, hv⟩ := hok
    exact (exec_readsBack_iff (hstored before) hread hv).mp (h before c after hc ⟨v, hv⟩)
  · intro h before c after hc hok
    obtain ⟨v, hv⟩ := hok
    obtain ⟨roots, hread⟩ := exists_reload_of_exec_ok hv
    exact (exec_readsBack_iff (hstored before) hread hv).mpr
      (h before c after hc ⟨v, hv⟩ roots hread)

def brokenAliases : List (Call × Fault) :=
  [(.trust [.bad 0xff] (text "first") [] [] [] 63918244800000000000, .none),
    (.trust [.bad 0xfe] (text "second") [] [] [] 63918244800000000000, .none)]

omit [CidFormat] in
/-- The first alias is stored under another name, and so is the second, which
makes the whole store unreadable. -/
theorem brokenAliases_not_readsBack : letI := CidFormat.verbatim
    ¬ EverySuccess brokenAliases (fun disk c => ReadsBack c.1 c.2 disk) ∧
      (reloadLocked (runCalls brokenAliases none)).isOk = false := by
  let format : CidFormat := CidFormat.verbatim
  refine ⟨fun h => ?_, by decide +kernel⟩
  let call : Call := .trust [.bad 0xff] (text "first") [] [] [] 63918244800000000000
  have hok : (call.exec .none none).2.isOk = true := by decide +kernel
  have hback : ReadsBack call .none none := h [] (call, .none) _ rfl (exists_of_isOk hok)
  have hdiffers :
    getState [.bad 0xff] (call.exec .none none).1 ≠ (call.exec .none none).2 := by decide +kernel
  exact hdiffers hback.2.1

end readback

end MaltClient.Trust
