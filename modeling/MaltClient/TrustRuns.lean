import MaltClient.TrustCalls

/-! Runs of the trust store from the empty store: accepted roots move only by
an explicit promotion, and observed heads never go back. -/

namespace MaltClient.Trust

open GoText Checked LockedFile

variable [CidFormat]

section steps

variable {roots : Roots} {call : Call} {v : RootState}

theorem Writes.mem_candidates (h : Writes roots call v) (hr : Readable roots) {c : CandidateRoot}
    (hc : c ∈ v.candidates) : c ∈ (rootState call.key roots).candidates ∨
      ∃ aliasName root baseRoot source now, call =
        .addCandidate aliasName root baseRoot source now ∧
        canonicalCID root = .ok c.root ∧ candidateBase baseRoot = .ok c.baseRoot := by
  cases h with
  | trust => exact .inl (candidates_acceptRoot hc).1
  | addCandidate _ hcanon hbase =>
    rcases List.mem_append.mp hc with hc | hc
    · exact .inl (List.mem_of_mem_filter hc)
    · obtain rfl := List.mem_singleton.mp hc
      exact .inr ⟨_, _, _, _, _, rfl, hcanon, hbase⟩
  | observeHead => exact .inl hc
  | acceptCandidate _ hfound =>
    have hold := rootState_eq_of_lookup hr hfound
    exact .inl (hold.symm ▸ (candidates_acceptRoot hc).1)
  | acceptObserved _ hfound =>
    have hold := rootState_eq_of_lookup hr hfound
    exact .inl (hold.symm ▸ (candidates_acceptRoot hc).1)

theorem Writes.observedHeads (h : Writes roots call v) (hr : Readable roots) :
    v.observedHeads = (rootState call.key roots).observedHeads ∨
      ∃ aliasName observation now o, call = .observeHead aliasName observation now ∧
        normalizeObservation observation = .ok o ∧
        upsertObservation (rootState call.key roots).observedHeads { o with observedAt := now } =
          .ok v.observedHeads := by
  cases h with
  | trust => exact .inl (acceptRoot_rest _ _ _ _).2
  | addCandidate => exact .inl rfl
  | observeHead _ hnorm hup => exact .inr ⟨_, _, _, _, rfl, hnorm, hup⟩
  | acceptCandidate _ hfound =>
    have hold := congrArg RootState.observedHeads (rootState_eq_of_lookup hr hfound)
    exact .inl ((acceptRoot_rest _ _ _ _).2.trans hold.symm)
  | acceptObserved _ hfound =>
    have hold := congrArg RootState.observedHeads (rootState_eq_of_lookup hr hfound)
    exact .inl ((acceptRoot_rest _ _ _ _).2.trans hold.symm)

theorem Writes.covers (h : Writes roots call v) (hr : Readable roots) {o : ObservedHead}
    (ho : o ∈ (rootState call.key roots).observedHeads) : Covers v.observedHeads o := by
  rcases h.observedHeads hr with hsame | ⟨_, _, now, n, -, -, hup⟩
  · exact .of_mem (hsame ▸ ho)
  · exact (covers_upsertObservation (sound_rootState hr _).streams.nodup hup).2 o ho

def accepted (roots : Roots) (key : GoString) : Option GoString :=
  (roots.lookup key).bind fun v => acceptedRoot v.accepted

omit [CidFormat] in
theorem accepted_eq_rootState (roots : Roots) (key : GoString) :
    accepted roots key = acceptedRoot (rootState key roots).accepted := by
  unfold accepted rootState
  cases roots.lookup key <;> rfl

structure Step (call : Call) (roots roots' : Roots) (v v' : RootState) : Prop where
  readable : Readable roots
  writes : Writes roots call v
  unmixed : roots.lookup (jsonText call.key) = roots.lookup call.key
  reloaded : normalizeRootState (jsonText call.key) v.json = .ok v'
  lookup : ∀ k, roots'.lookup k = if k = jsonText call.key then some v' else roots.lookup k

variable {disk : Option File} {fault : Fault}

theorem exec_reload {call : Call} {roots' : Roots} (hdisk : Stored disk)
    (h : reloadLocked (call.exec fault disk).1 = .ok roots') :
    reloadLocked disk = .ok roots' ∨ ∃ roots v v', reloadLocked disk = .ok roots ∧
      Step call roots roots' v v' := by
  rcases exec_cases call fault disk with ⟨hsame, -⟩ | ⟨_, _, _, hsame⟩ | ⟨roots, v, hread,
    hwrites, hnew, -⟩
  · exact .inl (hsame ▸ h)
  · rw [hsame] at h
    exact .inl h
  · have hreadable := readable_of_reload hdisk hread
    rw [hnew] at h
    obtain ⟨hunmixed, v', hv', hlookup⟩ := reload_insert hreadable h
    exact .inr ⟨roots, v, v', hread, hreadable, hwrites, hunmixed, hv', hlookup⟩

theorem stored_exec {call : Call} (hdisk : Stored disk) :
    Stored (call.exec fault disk).1 := by
  rcases exec_cases call fault disk with ⟨hsame, -⟩ | ⟨_, _, _, hsame⟩ | ⟨roots, v, hread,
    hwrites, hnew, -⟩
  · rw [hsame]
    exact hdisk
  · rw [hsame]
    exact hdisk
  · have hreadable := readable_of_reload hdisk hread
    refine .inr ⟨_, hnew, fun key w hl => ?_⟩
    rw [AssocMap.lookup_insert_eq] at hl
    split_ifs at hl
    · exact Option.some.inj hl ▸ hwrites.sound hreadable
    · exact (hreadable.normal key w hl).1.toSound

namespace Step

variable {call : Call} {roots roots' : Roots} {v v' : RootState}

theorem record (h : Step call roots roots' v v') :
    v' = { v.json with aliasName := jsonText call.key, observedHeads := v'.observedHeads } ∧
      (∀ o ∈ v'.observedHeads, ∃ p ∈ v.observedHeads, o = p.json) ∧
      ∀ p ∈ v.observedHeads, Covers v'.observedHeads p.json :=
  normalizeRootState_json (h.writes.sound h.readable) h.reloaded

theorem acceptedRoot_eq (h : Step call roots roots' v v') :
    acceptedRoot v'.accepted = acceptedRoot v.accepted := by
  rw [h.record.1]
  exact acceptedRoot_json (h.writes.sound h.readable).accepted

variable {w : RootState}

theorem old_of_lookup (h : Step call roots roots' v v')
    (hw : roots.lookup (jsonText call.key) = some w) : rootState call.key roots = w :=
  rootState_eq_of_lookup h.readable (h.unmixed ▸ hw)

theorem covers (h : Step call roots roots' v v') {k : GoString} (hw : roots.lookup k = some w) :
    ∃ w', roots'.lookup k = some w' ∧ ∀ o ∈ w.observedHeads, Covers w'.observedHeads o := by
  by_cases hk : k = jsonText call.key
  · refine ⟨v', by rw [h.lookup, if_pos hk], fun o ho => ?_⟩
    have hfixed := (RootState.json_eq_self_iff.mp (h.readable.lossless k w hw).2).observedHeads o ho
    obtain rfl := h.old_of_lookup (hk ▸ hw)
    obtain ⟨p, hp, hkey, hsup⟩ := h.writes.covers h.readable ho
    obtain ⟨q, hq, hqkey, hqsup⟩ := h.record.2.2 p hp
    refine ⟨q, hq, ?_, ?_⟩
    · rw [hqkey, observationKey_json, hkey, ← observationKey_json, hfixed]
    · have hjson := hsup.json
      rw [hfixed] at hjson
      exact hqsup.trans hjson
  · exact ⟨w, by rw [h.lookup, if_neg hk, hw], fun o ho => .of_mem ho⟩

end Step

end steps

section runs

theorem runCalls_snoc (before : List (Call × Fault)) (c : Call × Fault) (disk : Option File) :
    runCalls (before ++ [c]) disk = (c.1.exec c.2 (runCalls before disk)).1 := by
  simp [runCalls, List.foldl_append]

variable {disk : Option File} {v v' : RootState} {call : Call} {roots roots' : Roots}
  {calls : List (Call × Fault)} {k : GoString}

theorem stored_runCalls (calls : List (Call × Fault)) (h : Stored disk) :
    Stored (runCalls calls disk) := by
  induction calls generalizing disk with
  | nil => exact h
  | cons c calls ih => exact ih (stored_exec h)

def Recorded (calls : List (Call × Fault)) (key root baseRoot : GoString) : Prop :=
  ∃ c ∈ calls, ∃ aliasName rawRoot rawBase source now, c.1 =
    .addCandidate aliasName rawRoot rawBase source now ∧
    jsonText c.1.key = key ∧ canonicalCID rawRoot = .ok root ∧ candidateBase rawBase = .ok baseRoot

def Observed (calls : List (Call × Fault)) (key : GoString) (o : ObservedHead) : Prop :=
  ∃ c ∈ calls, ∃ aliasName raw now n, c.1 = .observeHead aliasName raw now ∧
    jsonText c.1.key = key ∧
    normalizeObservation raw = .ok n ∧ o = ObservedHead.json { n with observedAt := now }

structure Sourced (calls : List (Call × Fault)) (roots : Roots) : Prop where
  candidates :
    ∀ key v, roots.lookup key = some v → ∀ c ∈ v.candidates, Recorded calls key c.root c.baseRoot
  observed : ∀ key v, roots.lookup key = some v → ∀ o ∈ v.observedHeads, Observed calls key o

/-- A call by which a root comes to be accepted: it trusts the root, or
promotes a recorded candidate that is based on the accepted root, or an observed
head. -/
inductive Promotes (calls : List (Call × Fault)) (roots : Roots) (key : GoString) :
    Call → GoString → Prop
  | trust {aliasName root profile gateway source : GoString} {now : Int} {r : GoString}
    (named : jsonText (normalizeAlias aliasName) = key) (canonical : canonicalCID root = .ok r) :
    Promotes calls roots key (.trust aliasName root profile gateway source now) r
  | candidate {aliasName root source : GoString} {now : Int} {r : GoString} {v : RootState}
    {c : CandidateRoot}
    (named : normalizeAlias aliasName = key) (canonical : canonicalCID root = .ok r)
    (found : roots.lookup key = some v) (listed : c ∈ v.candidates) (chosen : c.root = r)
    (recorded : Recorded calls key c.root c.baseRoot)
    (current : acceptedRoot v.accepted = some c.baseRoot ∨ (v.accepted = none ∧ c.baseRoot = [])) :
    Promotes calls roots key (.acceptCandidate aliasName root source now) r
  | observed {aliasName root profile gateway source : GoString} {now : Int} {r : GoString}
    {v : RootState} {o : ObservedHead} (named : normalizeAlias aliasName = key)
    (canonical : canonicalCID root = .ok r)
    (found : roots.lookup key = some v) (listed : o ∈ v.observedHeads) (chosen : o.root = r)
    (observed : Observed calls key o) :
    Promotes calls roots key (.acceptObserved aliasName root profile gateway source now) r

theorem Writes.promotes (h : Writes roots call v) (hr : Readable roots) (hs : Sourced calls roots)
    (hne : acceptedRoot v.accepted ≠ acceptedRoot (rootState call.key roots).accepted) :
    ∃ r, acceptedRoot v.accepted = some r ∧ Promotes calls roots (jsonText call.key) call r := by
  cases h with
  | trust _ hcanon => exact ⟨_, acceptedRoot_acceptRoot _ _ _ _, .trust rfl hcanon⟩
  | addCandidate => exact absurd rfl hne
  | observeHead => exact absurd rfl hne
  | @acceptCandidate aliasName _ _ _ _ w c hcanon hfound hlisted hchosen hpromo =>
    have hkey : jsonText (normalizeAlias aliasName) = normalizeAlias aliasName :=
      (hr.lossless _ w hfound).1
    have hbase := requirePromotable_eq_ok hpromo
    have hcurrent :
      acceptedRoot w.accepted = some c.baseRoot ∨ (w.accepted = none ∧ c.baseRoot = []) := by
      cases hacc : w.accepted with
      | none => exact .inr ⟨rfl, by simpa [hacc, acceptedRoot] using hbase⟩
      | some a => exact .inl (by simpa [hacc, acceptedRoot] using hbase.symm)
    rw [Call.key, Call.aliasName, hkey]
    exact ⟨_, acceptedRoot_acceptRoot _ _ _ _, .candidate rfl hcanon hfound hlisted hchosen
      (hs.candidates _ w hfound c hlisted) hcurrent⟩
  | @acceptObserved aliasName _ _ _ _ _ _ w o hcanon hfound hlisted hchosen =>
    have hkey : jsonText (normalizeAlias aliasName) = normalizeAlias aliasName :=
      (hr.lossless _ w hfound).1
    rw [Call.key, Call.aliasName, hkey]
    exact ⟨_, acceptedRoot_acceptRoot _ _ _ _, .observed rfl hcanon hfound hlisted hchosen
      (hs.observed _ w hfound o hlisted)⟩

theorem Step.promotes (h : Step call roots roots' v v') (hs : Sourced calls roots)
    (hne : accepted roots' k ≠ accepted roots k) :
    ∃ r, accepted roots' k = some r ∧ Promotes calls roots k call r := by
  by_cases hk : k = jsonText call.key
  · have hnew : accepted roots' k = acceptedRoot v.accepted := by
      rw [accepted, h.lookup, if_pos hk, Option.bind_some, h.acceptedRoot_eq]
    have hold : accepted roots k = acceptedRoot (rootState call.key roots).accepted := by
      rw [← accepted_eq_rootState, accepted, hk, h.unmixed, accepted]
    rw [hnew, hold] at hne
    obtain ⟨r, hr, hpromotes⟩ := h.writes.promotes h.readable hs hne
    exact ⟨r, hnew.trans hr, hk ▸ hpromotes⟩
  · have hsame :
      accepted roots' k = accepted roots k := by rw [accepted, h.lookup, if_neg hk, accepted]
    exact absurd hsame hne

theorem Sourced.append (h : Sourced calls roots) (more : List (Call × Fault)) :
    Sourced (calls ++ more) roots := by
  constructor
  · intro key v hv c hc
    obtain ⟨d, hd, hrest⟩ := h.candidates key v hv c hc
    exact ⟨d, List.mem_append_left _ hd, hrest⟩
  · intro key v hv o ho
    obtain ⟨d, hd, hrest⟩ := h.observed key v hv o ho
    exact ⟨d, List.mem_append_left _ hd, hrest⟩

theorem exists_lookup_of_mem_rootState (hr : Readable roots) {key : GoString}
    (h : (rootState key roots).candidates ≠ [] ∨ (rootState key roots).observedHeads ≠ []) :
    roots.lookup key = some (rootState key roots) := by
  cases hl : roots.lookup key with
  | none => simp [rootState, hl, RootState.zero] at h
  | some v => rw [rootState_eq_of_lookup hr hl]

theorem Step.sourced {c : Call × Fault} {before : List (Call × Fault)}
    (h : Step c.1 roots roots' v v') (hold : Sourced before roots) :
    Sourced (before ++ [c]) roots' := by
  have hkept := hold.append [c]
  have hself : c ∈ before ++ [c] := List.mem_append_right _ List.mem_cons_self
  have hsound := h.writes.sound h.readable
  constructor
  · intro key w hw d hd
    rw [h.lookup] at hw
    split_ifs at hw with hk
    · cases hw
      rw [h.record.1] at hd
      obtain ⟨e, he, rfl⟩ := List.mem_map.mp hd
      obtain ⟨hroot, hbase⟩ := (hsound.candidates e he).json_roots
      rw [hroot, hbase, hk]
      rcases h.writes.mem_candidates h.readable he with he | ⟨_, _, _, _, _, hcall, hcanon, hb⟩
      · have hl := exists_lookup_of_mem_rootState h.readable (.inl (List.ne_nil_of_mem he))
        exact hkept.candidates _ _ (h.unmixed.trans hl) e he
      · exact ⟨c, hself, _, _, _, _, _, hcall, rfl, hcanon, hb⟩
    · exact hkept.candidates key w hw d hd
  · intro key w hw o ho
    rw [h.lookup] at hw
    split_ifs at hw with hk
    · cases hw
      obtain ⟨p, hp, rfl⟩ := h.record.2.1 o ho
      have hfrom : p ∈ (rootState c.1.key roots).observedHeads ∨ ∃ aliasName raw now n,
          c.1 = .observeHead aliasName raw now ∧ normalizeObservation raw = .ok n ∧
            p = { n with observedAt := now } := by
        rcases h.writes.observedHeads h.readable with hsame | ⟨_, _, _, _, hcall, hnorm, hup⟩
        · exact .inl (hsame ▸ hp)
        · rcases mem_of_upsertObservation (sound_rootState h.readable _).streams.nodup hup
            hp with rfl | hp
          · exact .inr ⟨_, _, _, _, hcall, hnorm, rfl⟩
          · exact .inl hp
      rw [hk]
      rcases hfrom with hp | ⟨_, _, _, _, hcall, hnorm, rfl⟩
      · have hl := exists_lookup_of_mem_rootState h.readable (.inr (List.ne_nil_of_mem hp))
        have hfixed :=
          (RootState.json_eq_self_iff.mp (h.readable.lossless _ _ hl).2).observedHeads p hp
        rw [hfixed]
        exact hkept.observed _ _ (h.unmixed.trans hl) p hp
      · exact ⟨c, hself, _, _, _, _, hcall, rfl, hnorm, rfl⟩
    · exact hkept.observed key w hw o ho

theorem sourced_runCalls (calls : List (Call × Fault))
    (h : reloadLocked (runCalls calls none) = .ok roots) : Sourced calls roots := by
  induction calls using List.reverseRecOn generalizing roots with
  | nil =>
    cases h
    exact ⟨by simp, by simp⟩
  | append_singleton before c ih =>
    have hdisk : Stored (runCalls before none) := stored_runCalls before (.inl rfl)
    rw [runCalls_snoc] at h
    rcases exec_reload hdisk h with hsame | ⟨_, _, _, hread, hstep⟩
    · exact (ih hsame).append [c]
    · exact hstep.sourced (ih hread)

theorem covers_runCalls (calls : List (Call × Fault)) (hdisk : Stored disk)
    (h : reloadLocked disk = .ok roots) (h' : reloadLocked (runCalls calls disk) = .ok roots')
    {w : RootState} (hw : roots.lookup k = some w) :
    ∃ w', roots'.lookup k = some w' ∧ ∀ o ∈ w.observedHeads, Covers w'.observedHeads o := by
  induction calls using List.reverseRecOn generalizing roots' with
  | nil =>
    have hsame : roots = roots' := Except.ok.inj (h.symm.trans h')
    exact ⟨w, hsame ▸ hw, fun o ho => .of_mem ho⟩
  | append_singleton before c ih =>
    rw [runCalls_snoc] at h'
    rcases exec_reload (stored_runCalls before hdisk) h' with hsame | ⟨_, _, _, hread, hstep⟩
    · exact ih hsame
    · obtain ⟨w₁, hw₁, hcov₁⟩ := ih hread
      obtain ⟨w₂, hw₂, hcov₂⟩ := hstep.covers hw₁
      exact ⟨w₂, hw₂, fun o ho => (hcov₁ o ho).trans hcov₂⟩

def RootState.Listed (v : RootState) : Prop :=
  ∀ c ∈ v.candidates, acceptedRoot v.accepted ≠ some c.root ∧ (c.baseRoot = [] ↔ v.accepted = none)

def Advances (earlier later : List ObservedHead) : Prop :=
  (∀ o ∈ earlier, ∃ o' ∈ later, observationKey o' = observationKey o) ∧
    ∀ o ∈ earlier, ∀ o' ∈ later, o'.source = o.source → o'.datasetID = o.datasetID →
      o'.branch = o.branch →
      o.revision ≤ o'.revision ∧ (o'.revision = o.revision → o'.commitID = o.commitID ∧
        o'.root = o.root)

omit [CidFormat] in
theorem Supersedes.advances {o o' : ObservedHead} (h : Supersedes o' o) :
    o.revision ≤ o'.revision ∧ (o'.revision = o.revision → o'.commitID = o.commitID ∧
      o'.root = o.root) := by
  rcases h with hlt | ⟨hr, hsame⟩
  · exact ⟨UInt64.le_of_lt hlt, fun he => absurd (he ▸ hlt) (UInt64.lt_irrefl _)⟩
  · exact ⟨hr ▸ UInt64.le_refl _, fun _ => hsame⟩

omit [CidFormat] in
theorem advances_of_covers {earlier later : List ObservedHead} (h : ∀ o ∈ earlier, Covers later o)
    (hnodup : (later.map observationKey).Nodup) : Advances earlier later := by
  refine ⟨fun o ho => ?_, fun o ho o' ho' hsource hdataset hbranch => ?_⟩
  · obtain ⟨o', ho', hkey, -⟩ := h o ho
    exact ⟨o', ho', hkey⟩
  · obtain ⟨p, hp, hkey, hsup⟩ := h o ho
    have hsame : observationKey o' = observationKey o := by
      rw [observationKey, observationKey, hsource, hdataset, hbranch]
    obtain rfl : p = o' := List.inj_on_of_nodup_map hnodup hp ho' (hkey.trans hsame.symm)
    exact hsup.advances

/-- In every run from the empty store, an accepted root changes only in a
promotion, candidates wait for the accepted root, and heads never go back. -/
theorem promotions_explicit (before : List (Call × Fault)) {roots : Roots}
    (h : reloadLocked (runCalls before none) = .ok roots) :
    (∀ call fault roots', reloadLocked (call.exec fault (runCalls before none)).1 =
      .ok roots' → ∀ key, accepted roots' key ≠ accepted roots key →
        ∃ r, accepted roots' key = some r ∧ Promotes before roots key call r) ∧
    (∀ key v, roots.lookup key = some v → v.Listed) ∧
    ∀ after roots', reloadLocked (runCalls (before ++ after) none) = .ok roots' → ∀ key v,
      roots.lookup key = some v → ∃ v', roots'.lookup key = some v' ∧
        Advances v.observedHeads v'.observedHeads := by
  have hdisk : Stored (runCalls before none) := stored_runCalls before (.inl rfl)
  have hreadable := readable_of_reload hdisk h
  refine ⟨fun call fault roots' h' key hne => ?_, fun key v hv c hc => ?_,
    fun after roots' h' key v hv => ?_⟩
  · rcases exec_reload hdisk h' with hsame | ⟨_, _, _, hread, hstep⟩
    · exact absurd (congrArg (accepted · key) (Except.ok.inj (hsame.symm.trans h))) hne
    · obtain rfl := Except.ok.inj (hread.symm.trans h)
      exact hstep.promotes (sourced_runCalls before hread) hne
  · have hcandidate := (hreadable.normal key v hv).1.candidates c hc
    exact ⟨hcandidate.unaccepted, hcandidate.bootstrap⟩
  · have hafter : reloadLocked (runCalls after (runCalls before none)) = .ok roots' := by
      simpa [runCalls, List.foldl_append] using h'
    obtain ⟨v', hv', hcovers⟩ := covers_runCalls after hdisk h hafter hv
    have hreadable' := readable_of_reload (stored_runCalls after hdisk) hafter
    exact ⟨v', hv', advances_of_covers hcovers (hreadable'.normal key v' hv').1.streams.nodup⟩

end runs

section sample

/-- A trusted root, a head observed of a remote branch, and a candidate that is
based on the trusted root. -/
def sampleCalls : List (Call × Fault) :=
  let head : ObservedHead :=
    { source := text "gateway", datasetID := text "dataset", branch := text "main",
      commitID := text "commit"
      root := text "remote", revision := 3, observedAt := 0 }
  [(.trust (text " docs") (text "first") [] [] (text "user") 63918244800000000000, .none),
    (.observeHead (text "docs") head 63918244800000000000, .none),
    (.addCandidate (text "docs") (text "second") (text "first") (text "edit") 63918244800000000000,
      .none)]

def samplePromotion : Call :=
  .acceptCandidate (text "docs") (text "second") (text "user") 63918244800000000000

omit [CidFormat] in
theorem promotions_explicit_sample : letI := CidFormat.verbatim
    ∃ roots roots', reloadLocked (runCalls sampleCalls none) = .ok roots ∧
      reloadLocked (samplePromotion.exec .committed (runCalls sampleCalls none)).1 = .ok roots' ∧
      accepted roots (text "docs") = some (text "first") ∧ accepted roots' (text "docs") =
        some (text "second") ∧
      Promotes sampleCalls roots (text "docs") samplePromotion (text "second") := by
  let format : CidFormat := CidFormat.verbatim
  have hbefore :
    ((reloadLocked (runCalls sampleCalls none)).map (accepted · (text "docs"))).toOption =
      some (some (text "first")) := by decide +kernel
  have hafter : ((reloadLocked (samplePromotion.exec .committed (runCalls sampleCalls none)).1).map
      (accepted · (text "docs"))).toOption = some (some (text "second")) := by decide +kernel
  cases h : reloadLocked (runCalls sampleCalls none) with
  | error e => simp [h, Except.map, Except.toOption] at hbefore
  | ok roots =>
    cases h' : reloadLocked (samplePromotion.exec .committed (runCalls sampleCalls none)).1 with
    | error e => simp [h', Except.map, Except.toOption] at hafter
    | ok roots' =>
      simp only [h, h', Except.map, Except.toOption, Option.some.injEq] at hbefore hafter
      have hmoved : accepted roots' (text "docs") ≠ accepted roots (text "docs") := by
        rw [hbefore, hafter]
        decide
      obtain ⟨r, hr, hpromotes⟩ := (promotions_explicit sampleCalls h).1 samplePromotion .committed
        roots' h' _ hmoved
      obtain rfl : r = text "second" := Option.some.inj (hr.symm.trans hafter)
      exact ⟨roots, roots', rfl, rfl, hbefore, hafter, hpromotes⟩

end sample

end MaltClient.Trust
