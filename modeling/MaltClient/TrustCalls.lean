import MaltClient.TrustNormal

/-! What the calls of the trust store write, and what the next reload makes of
it. -/

namespace MaltClient.Trust

open GoText Checked LockedFile

variable [CidFormat]

section reload

structure Readable (roots : Roots) : Prop where
  normal : ∀ key v, roots.lookup key = some v → v.Normal key ∧ v.Timed
  lossless : JsonObject.Normal RootState.json roots

def Stored (disk : Option File) : Prop :=
  disk = none ∨ ∃ roots : Roots, disk = some (JsonObject.encode RootState.json roots) ∧
    ∀ key v, roots.lookup key = some v → v.Sound

variable {roots : Roots} {v : RootState} {key : GoString}

theorem reloadLocked_eq_ok {file : File} (h : reloadLocked (some file) = .ok roots) :
    ∃ decoded : Roots, JsonObject.decode file = some decoded ∧ ∀ key,
      (decoded.lookup key = none → roots.lookup key = none) ∧
        ∀ v, decoded.lookup key = some v → ∃ v', normalizeRootState key v = .ok v' ∧
          roots.lookup key = some v' := by
  simp only [reloadLocked, ok_iff] at h
  obtain ⟨decoded, hdecode, hfold⟩ := h
  exact ⟨decoded, hdecode, AssocMap.foldlM_replace_eq_ok hfold⟩

theorem json_of_normalizeRootState {v' : RootState} (hv : v.Sound)
    (h : normalizeRootState (jsonText key) v.json = .ok v') : v'.json = v' := by
  obtain ⟨hv', hfrom, -⟩ := normalizeRootState_json hv h
  have hheads : v'.observedHeads.map ObservedHead.json = v'.observedHeads := by
    refine (List.map_congr_left fun o ho => ?_).trans (List.map_id _)
    obtain ⟨p, -, rfl⟩ := hfrom o ho
    exact p.json_json
  have hjson := v.json_json
  rw [hv']
  simp only [RootState.json, RootState.mk.injEq] at hjson ⊢
  obtain ⟨-, hprofile, hgateway, haccepted, hcandidates, -⟩ := hjson
  exact ⟨JsonObject.jsonText_jsonText key, hprofile, hgateway, haccepted, hcandidates, hheads⟩

theorem readable_of_reload {disk : Option File} (hdisk : Stored disk)
    (h : reloadLocked disk = .ok roots) : Readable roots := by
  rcases hdisk with rfl | ⟨written, rfl, hsound⟩
  · cases h
    exact ⟨by simp, fun key v hl => by simp at hl⟩
  obtain ⟨decoded, hdecode, hall⟩ := reloadLocked_eq_ok h
  have hrecord : ∀ key v, roots.lookup key = some v →
      ∃ (key₀ : GoString) (v₀ : RootState), v₀.Sound ∧ jsonText key₀ = key ∧
        normalizeRootState key v₀.json = .ok v := by
    intro key v hl
    cases hd : decoded.lookup key with
    | none => simp [(hall key).1 hd] at hl
    | some w =>
      obtain ⟨v', hv', hl'⟩ := (hall key).2 w hd
      obtain ⟨key₀, v₀, hl₀, hkey₀, rfl⟩ := JsonObject.exists_of_decode hdecode hd
      rw [hl] at hl'
      exact ⟨key₀, v₀, hsound key₀ v₀ hl₀, hkey₀, Option.some.inj hl' ▸ hv'⟩
  refine ⟨fun key v hl => ?_, fun key v hl => ?_⟩
  · obtain ⟨key₀, v₀, -, -, hv⟩ := hrecord key v hl
    exact normal_of_normalizeRootState hv
  · obtain ⟨key₀, v₀, hs, rfl, hv⟩ := hrecord key v hl
    exact ⟨JsonObject.jsonText_jsonText key₀, json_of_normalizeRootState hs hv⟩

theorem reload_insert {roots' : Roots} (hr : Readable roots)
    (h : reloadLocked (some (JsonObject.encode RootState.json (roots.insert key v))) = .ok roots') :
    roots.lookup (jsonText key) = roots.lookup key ∧
      ∃ v', normalizeRootState (jsonText key) v.json = .ok v' ∧
      ∀ k, roots'.lookup k = if k = jsonText key then some v' else roots.lookup k := by
  obtain ⟨decoded, hdecode, hall⟩ := reloadLocked_eq_ok h
  obtain ⟨hsame, hlookup⟩ := JsonObject.lookup_insert_of_decode hr.lossless hdecode
  have hself : decoded.lookup (jsonText key) = some v.json := by rw [hlookup, if_pos rfl]
  obtain ⟨v', hv', hl'⟩ := (hall (jsonText key)).2 v.json hself
  refine ⟨hsame, v', hv', fun k => ?_⟩
  split_ifs with hk
  · rw [hk, hl']
  · have hold : decoded.lookup k = roots.lookup k := by rw [hlookup, if_neg hk]
    cases hl : roots.lookup k with
    | none => exact (hall k).1 (hold.trans hl)
    | some w =>
      obtain ⟨w', hw', hlw⟩ := (hall k).2 w (hold.trans hl)
      obtain ⟨hnormal, htimed⟩ := hr.normal k w hl
      rw [hnormal.fixed htimed] at hw'
      rw [hlw, Except.ok.inj hw']

end reload

section calls

def Call.aliasName : Call → GoString
  | .trust aliasName .. => aliasName
  | .addCandidate aliasName .. => aliasName
  | .observeHead aliasName .. => aliasName
  | .acceptCandidate aliasName .. => aliasName
  | .acceptObserved aliasName .. => aliasName

def Call.key (call : Call) : GoString := normalizeAlias call.aliasName

inductive Writes (roots : Roots) : Call → RootState → Prop
  | trust {aliasName root profile gateway source : GoString} {now : Int} {r : GoString}
    (named : normalizeAlias aliasName ≠ []) (canonical : canonicalCID root = .ok r) :
    Writes roots (.trust aliasName root profile gateway source now)
      (acceptRoot { rootState (normalizeAlias aliasName) roots with profile := profile, gateway :=
        gateway } r source now)
  | addCandidate {aliasName root baseRoot source : GoString} {now : Int} {r b : GoString}
    (named : normalizeAlias aliasName ≠ []) (canonical : canonicalCID root = .ok r)
    (based : candidateBase baseRoot = .ok b)
    (current : requireCurrentBase (rootState (normalizeAlias aliasName) roots).accepted b = .ok ())
    (unaccepted : acceptedRoot (rootState (normalizeAlias aliasName) roots).accepted ≠ some r) :
    Writes roots (.addCandidate aliasName root baseRoot source now)
      { rootState (normalizeAlias aliasName) roots with
        candidates := removeCandidate (rootState (normalizeAlias aliasName) roots).candidates r ++
          [{ root := r, baseRoot := b, source := source, observedAt := now }] }
  | observeHead {aliasName : GoString} {observation : ObservedHead} {now : Int} {o : ObservedHead}
    {heads : List ObservedHead} (named : normalizeAlias aliasName ≠ [])
    (normalized : normalizeObservation observation = .ok o)
    (upserted : upsertObservation (rootState (normalizeAlias aliasName) roots).observedHeads
      { o with observedAt := now } = .ok heads) :
    Writes roots (.observeHead aliasName observation now)
      { rootState (normalizeAlias aliasName) roots with observedHeads := heads }
  | acceptCandidate {aliasName root source : GoString} {now : Int} {r : GoString} {v : RootState}
    {c : CandidateRoot} (canonical : canonicalCID root = .ok r)
    (found : roots.lookup (normalizeAlias aliasName) = some v)
    (listed : c ∈ v.candidates) (chosen : c.root = r)
    (promotable : requirePromotable v.accepted c = .ok ()) :
    Writes roots (.acceptCandidate aliasName root source now) (acceptRoot v r source now)
  | acceptObserved {aliasName root profile gateway source : GoString} {now : Int} {r : GoString}
    {v : RootState} {o : ObservedHead} (canonical : canonicalCID root = .ok r)
    (found : roots.lookup (normalizeAlias aliasName) = some v) (listed : o ∈ v.observedHeads)
    (chosen : o.root = r) : Writes roots (.acceptObserved aliasName root profile gateway source now)
      (acceptRoot { v with profile := profile, gateway := gateway } r source now)

def Settled (roots : Roots) (call : Call) : Prop :=
  ∃ aliasName root baseRoot source now r, call = .addCandidate aliasName root baseRoot source now ∧
    canonicalCID root = .ok r ∧ acceptedRoot (rootState call.key roots).accepted = some r

theorem prepare_cases {call : Call} {revision : Revision} {roots : Roots}
    {next : Option Roots} {v : RootState}
    (hp : call.prepare = .ok revision) (hr : revision roots = .ok (next, v)) :
    (next = none ∧ v = rootState call.key roots ∧ Settled roots call) ∨
      (next = some (roots.insert call.key v) ∧ Writes roots call v) := by
  cases call with
  | trust aliasName root profile gateway source now =>
    simp only [Call.prepare, trust, ok_iff, exists_const] at hp
    obtain ⟨hnamed, r, hcanon, rfl⟩ := hp
    cases hr
    exact .inr ⟨rfl, .trust hnamed hcanon⟩
  | addCandidate aliasName root baseRoot source now =>
    simp only [Call.prepare, addCandidate, ok_iff, exists_const] at hp
    obtain ⟨hnamed, r, hcanon, b, hbase, rfl⟩ := hp
    simp only [addCandidateLocked, bind_eq_ok] at hr
    obtain ⟨u, hcurrent, hr⟩ := hr
    split_ifs at hr with hacc
    · cases hr
      exact .inl ⟨rfl, rfl, aliasName, root, baseRoot, source, now, r, rfl, hcanon, hacc⟩
    · cases hr
      exact .inr ⟨rfl, .addCandidate hnamed hcanon hbase hcurrent hacc⟩
  | observeHead aliasName observation now =>
    simp only [Call.prepare, observeHead, ok_iff, exists_const] at hp
    obtain ⟨hnamed, o, hnorm, rfl⟩ := hp
    simp only [ok_iff] at hr
    obtain ⟨heads, hheads, hr⟩ := hr
    cases hr
    exact .inr ⟨rfl, .observeHead hnamed hnorm hheads⟩
  | acceptCandidate aliasName root source now =>
    simp only [Call.prepare, acceptCandidate, ok_iff] at hp
    obtain ⟨r, hcanon, rfl⟩ := hp
    simp only [acceptCandidateLocked, ok_iff] at hr
    obtain ⟨w, hfound, c, hfind, u, hpromo, hr⟩ := hr
    cases hr
    have hchosen : c.root = r := by simpa using List.find?_some hfind
    exact .inr ⟨rfl, .acceptCandidate hcanon hfound (List.mem_of_find?_eq_some hfind)
      hchosen hpromo⟩
  | acceptObserved aliasName root profile gateway source now =>
    simp only [Call.prepare, acceptObserved, ok_iff] at hp
    obtain ⟨r, hcanon, rfl⟩ := hp
    simp only [acceptObservedLocked, ok_iff, exists_const, Bool.not_eq_false, List.any_eq_true,
      decide_eq_true_eq] at hr
    obtain ⟨w, hfound, ⟨o, ho, hchosen⟩, hr⟩ := hr
    cases hr
    exact .inr ⟨rfl, .acceptObserved hcanon hfound ho hchosen⟩

theorem exec_cases (call : Call) (fault : Fault) (disk : Option File) :
    ((call.exec fault disk).1 = disk ∧ ∃ e, (call.exec fault disk).2 = .error e) ∨
      (∃ roots, reloadLocked disk = .ok roots ∧ Settled roots call ∧
        call.exec fault disk = (disk, .ok (rootState call.key roots))) ∨
      ∃ roots v, reloadLocked disk = .ok roots ∧ Writes roots call v ∧
        (call.exec fault disk).1 =
          some (JsonObject.encode RootState.json (roots.insert call.key v)) ∧
        ((call.exec fault disk).2 = .ok v ∨ ∃ e, (call.exec fault disk).2 = .error e) := by
  unfold Call.exec
  cases hp : call.prepare with
  | error e => exact .inl ⟨rfl, e, rfl⟩
  | ok revision =>
    dsimp only
    rcases store.revise_cases fault revision disk with hfail | ⟨roots, v, hread, hrev, hexec⟩ |
      ⟨roots, next, file, v, hread, hrev, hwrite, hdisk, hreply⟩
    · exact .inl hfail
    · rcases prepare_cases hp hrev with ⟨-, rfl, hsettled⟩ | ⟨hnext, -⟩
      · exact .inr (.inl ⟨roots, hread, hsettled, hexec⟩)
      · simp at hnext
    · rcases prepare_cases hp hrev with ⟨hnext, -⟩ | ⟨hnext, hwrites⟩
      · simp at hnext
      · cases hnext
        have hfile : writeLocked (roots.insert call.key v) = .ok file := hwrite
        simp only [writeLocked, ok_iff] at hfile
        obtain ⟨-, -, rfl⟩ := hfile
        exact .inr (.inr ⟨roots, v, hread, hwrites, hdisk, hreply⟩)

end calls

section acceptRoot

omit [CidFormat] in
theorem acceptedRoot_acceptRoot (v : RootState) (root source : GoString) (acceptedAt : Int) :
    acceptedRoot (acceptRoot v root source acceptedAt).accepted = some root := by
  unfold acceptRoot
  cases v.accepted <;> rfl

omit [CidFormat] in
theorem accepted_acceptRoot_ne_none (v : RootState) (root source : GoString) (acceptedAt : Int) :
    (acceptRoot v root source acceptedAt).accepted ≠ none := by
  intro h
  have hroot := acceptedRoot_acceptRoot v root source acceptedAt
  simp [acceptedRoot, h] at hroot

variable {root : GoString} {v : RootState}

omit [CidFormat] in
theorem candidates_acceptRoot {source : GoString} {acceptedAt : Int} {c : CandidateRoot}
    (h : c ∈ (acceptRoot v root source acceptedAt).candidates) :
    c ∈ v.candidates ∧ c.root ≠ root := by
  unfold acceptRoot at h
  cases hacc : v.accepted with
  | none => simp [hacc] at h
  | some a =>
    rw [hacc] at h
    have hc := List.mem_filter.mp h
    exact ⟨hc.1, of_decide_eq_true hc.2⟩

omit [CidFormat] in
theorem acceptRoot_rest (v : RootState) (root source : GoString) (acceptedAt : Int) :
    (acceptRoot v root source acceptedAt).aliasName = v.aliasName ∧
      (acceptRoot v root source acceptedAt).observedHeads = v.observedHeads := by
  unfold acceptRoot
  cases v.accepted <;> exact ⟨rfl, rfl⟩

theorem RootState.Sound.acceptRoot (h : v.Sound)
    (hroot : canonicalCID root = .ok root) (source : GoString) (acceptedAt : Int) :
    (acceptRoot v root source acceptedAt).Sound := by
  unfold Trust.acceptRoot
  cases hacc : v.accepted with
  | none =>
    refine ⟨fun a ha => ?_, by simp, by simp, h.observed, h.streams⟩
    obtain rfl := Option.mem_some.mp ha
    exact ⟨hroot, canonicalOptionalCID_nil, (canonicalCID_ne_nil hroot).symm⟩
  | some b =>
    have hb := h.accepted b hacc
    refine ⟨fun a ha => ?_, fun c hc => ?_, h.distinct.sublist (List.filter_sublist.map _),
      h.observed, h.streams⟩
    · obtain rfl := Option.mem_some.mp ha
      by_cases he : b.root = root
      · simp only [he, ne_eq, not_true_eq_false, if_false]
        exact ⟨hroot, hb.previousRoot, he ▸ hb.moved⟩
      · simp only [ne_eq, he, not_false_eq_true, if_true]
        exact ⟨hroot, canonicalOptionalCID_of_canonical hb.root, he⟩
    · obtain ⟨hmem, hne⟩ := List.mem_filter.mp hc
      have hc' := h.candidates c hmem
      have hbased : c.baseRoot ≠ [] := fun he => by simpa [hacc] using hc'.bootstrap.mp he
      refine ⟨hc'.root, hc'.baseRoot, by simpa using hbased, fun he => ?_⟩
      exact of_decide_eq_true hne (Option.some.inj he).symm

end acceptRoot

section writes

variable {roots : Roots}

variable {v : RootState} {b : GoString} {u : Unit} {accepted : Option AcceptedRootState}
  {c : CandidateRoot} {o : ObservedHead} {call : Call}

theorem rootState_eq_of_lookup (hr : Readable roots) {key : GoString}
    (h : roots.lookup key = some v) : rootState key roots = v := by
  have hname := (hr.normal key v h).1.aliasName
  rw [rootState, h, Option.getD_some, ← hname]

theorem sound_rootState (hr : Readable roots) (key : GoString) : (rootState key roots).Sound := by
  cases h : roots.lookup key with
  | none =>
    rw [rootState, h]
    exact ⟨by simp [RootState.zero], by simp [RootState.zero], by simp [RootState.zero],
      by simp [RootState.zero], by simp [RootState.zero], by simp [RootState.zero]⟩
  | some v =>
    rw [rootState_eq_of_lookup hr h]
    exact (hr.normal key v h).1.toSound

theorem candidateBase_eq_ok {baseRoot : GoString} (h : candidateBase baseRoot = .ok b) :
    canonicalOptionalCID b = .ok b := by
  unfold candidateBase at h
  split_ifs at h
  · cases h
    exact canonicalOptionalCID_nil
  · exact canonicalOptionalCID_of_canonical (canonicalCID_idem (mapError_eq_ok.mp h))

omit [CidFormat] in
theorem requireCurrentBase_eq_ok (h : requireCurrentBase accepted b = .ok u) :
    b = (acceptedRoot accepted).getD [] := by
  cases accepted with
  | none => simpa [requireCurrentBase, acceptedRoot] using h
  | some a => simpa [requireCurrentBase, acceptedRoot] using h

omit [CidFormat] in
theorem requirePromotable_eq_ok
    (h : requirePromotable accepted c = .ok u) : c.baseRoot = (acceptedRoot accepted).getD [] := by
  cases accepted with
  | none => simpa [requirePromotable, acceptedRoot] using h
  | some a =>
    simp only [requirePromotable, reject_eq_ok, not_or, not_not] at h
    exact h.2

theorem RootState.Sound.addCandidate (h : v.Sound)
    (hroot : canonicalCID c.root = .ok c.root)
    (hbase : canonicalOptionalCID c.baseRoot = .ok c.baseRoot)
    (hcurrent : c.baseRoot = (acceptedRoot v.accepted).getD [])
    (hne : acceptedRoot v.accepted ≠ some c.root) :
    RootState.Sound { v with candidates := removeCandidate v.candidates c.root ++ [c] } := by
  refine ⟨h.accepted, fun d hd => ?_, nodup_removeCandidate_append h.distinct c,
    h.observed, h.streams⟩
  rcases List.mem_append.mp hd with hd | hd
  · exact h.candidates d (List.mem_of_mem_filter hd)
  · obtain rfl := List.mem_singleton.mp hd
    refine ⟨hroot, hbase, ?_, hne⟩
    rw [hcurrent]
    cases hacc : v.accepted with
    | none => simp [acceptedRoot]
    | some a => simpa [acceptedRoot] using canonicalCID_ne_nil (h.accepted a hacc).root

theorem RootState.Sound.upsertObservation (h : v.Sound) {heads : List ObservedHead}
    (ho : o.Normal) (hu : upsertObservation v.observedHeads o = .ok heads) :
    RootState.Sound { v with observedHeads := heads } := by
  obtain ⟨-, hstreams, -⟩ := upsertObservation_eq_ok h.streams.nodup hu
  refine ⟨h.accepted, h.candidates, h.distinct, fun p hp => ?_, hstreams⟩
  rcases mem_of_upsertObservation h.streams.nodup hu hp with rfl | hp
  · exact ho
  · exact h.observed p hp

theorem ObservedHead.Normal.at (h : o.Normal) (now : Int) :
    ObservedHead.Normal { o with observedAt := now } :=
  ⟨h.source, h.datasetID, h.branch, h.commitID, h.tuple⟩

theorem RootState.Sound.withSource (h : v.Sound) (profile gateway : GoString) :
    RootState.Sound { v with profile := profile, gateway := gateway } :=
  ⟨h.accepted, h.candidates, h.distinct, h.observed, h.streams⟩

theorem Writes.sound (h : Writes roots call v) (hr : Readable roots) : v.Sound := by
  cases h with
  | trust hnamed hcanon =>
    exact ((sound_rootState hr _).withSource _ _).acceptRoot (canonicalCID_idem hcanon) _ _
  | addCandidate hnamed hcanon hbase hcurrent hne =>
    exact (sound_rootState hr _).addCandidate (c := ⟨_, _, _, _⟩) (canonicalCID_idem hcanon)
      (candidateBase_eq_ok hbase) (requireCurrentBase_eq_ok hcurrent) hne
  | observeHead hnamed hnorm hup =>
    exact (sound_rootState hr _).upsertObservation
      ((normal_of_normalizeObservation hnorm).1.at _) hup
  | acceptCandidate hcanon hfound hlisted hchosen hpromo =>
    exact (hr.normal _ _ hfound).1.toSound.acceptRoot (canonicalCID_idem hcanon) _ _
  | acceptObserved hcanon hfound hlisted hchosen =>
    exact ((hr.normal _ _ hfound).1.toSound.withSource _ _).acceptRoot
      (canonicalCID_idem hcanon) _ _

theorem Writes.named (h : Writes roots call v) (hr : Readable roots) : call.key ≠ [] := by
  cases h with
  | trust hnamed => exact hnamed
  | addCandidate hnamed => exact hnamed
  | observeHead hnamed => exact hnamed
  | acceptCandidate _ hfound => exact (hr.normal _ _ hfound).1.named
  | acceptObserved _ hfound => exact (hr.normal _ _ hfound).1.named

theorem Writes.aliasName (h : Writes roots call v) (hr : Readable roots) :
    v.aliasName = call.key := by
  cases h with
  | trust => exact (acceptRoot_rest _ _ _ _).1
  | addCandidate => rfl
  | observeHead => rfl
  | acceptCandidate _ hfound =>
    exact (acceptRoot_rest _ _ _ _).1.trans (hr.normal _ _ hfound).1.aliasName
  | acceptObserved _ hfound =>
    exact (acceptRoot_rest _ _ _ _).1.trans (hr.normal _ _ hfound).1.aliasName

theorem Writes.inhabited (h : Writes roots call v) (hr : Readable roots) :
    ¬ (v.accepted = none ∧ v.candidates = [] ∧ v.observedHeads = []) := by
  intro hempty
  cases h with
  | trust => exact accepted_acceptRoot_ne_none _ _ _ _ hempty.1
  | addCandidate => simp at hempty
  | observeHead _ _ hup =>
    obtain ⟨hperm, -, -⟩ := upsertObservation_eq_ok (sound_rootState hr _).streams.nodup hup
    have hnil := hempty.2.2
    dsimp only at hnil
    rw [hnil] at hperm
    simpa using hperm.length_eq
  | acceptCandidate => exact accepted_acceptRoot_ne_none _ _ _ _ hempty.1
  | acceptObserved => exact accepted_acceptRoot_ne_none _ _ _ _ hempty.1

theorem Writes.normal (h : Writes roots call v) (hr : Readable roots) :
    v.Normal call.key :=
  { toSound := h.sound hr
    trimmed := trimSpace_trimSpace _
    named := h.named hr
    aliasName := h.aliasName hr
    inhabited := h.inhabited hr }

end writes

end MaltClient.Trust
