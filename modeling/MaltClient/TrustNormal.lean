import MaltClient.Trust

/-! Normal records of the trust store: what a reload makes of a record, and
leaves alone. -/

namespace MaltClient.Trust

open GoText Checked

section observations

/-- The observations of a record, one for each stream, in the order of their
keys. -/
structure Streams (values : List ObservedHead) : Prop where
  nodup : (values.map observationKey).Nodup
  sorted :
    values.Pairwise fun a b => leBytes (bytes (observationKey a)) (bytes (observationKey b)) = true

def Supersedes (incoming existing : ObservedHead) : Prop :=
  existing.revision < incoming.revision ∨
    (existing.revision = incoming.revision ∧ incoming.commitID = existing.commitID ∧
      incoming.root = existing.root)

def others (incoming : ObservedHead) (values : List ObservedHead) : List ObservedHead :=
  values.filter fun o => observationKey o ≠ observationKey incoming

variable {values out : List ObservedHead} {incoming o a b : ObservedHead}

theorem others_eq_self (h : observationKey incoming ∉ values.map observationKey) :
    others incoming values = values := by
  refine List.filter_eq_self.mpr fun o ho => ?_
  exact decide_eq_true fun he => h (he ▸ List.mem_map_of_mem ho)

theorem replaceObservation_perm {existing : ObservedHead}
    (hnodup : (values.map observationKey).Nodup) (hmem : existing ∈ values)
    (hkey : observationKey existing = observationKey incoming) :
    (replaceObservation incoming values).Perm (incoming :: others incoming values) := by
  induction values with
  | nil => simp at hmem
  | cons o values ih =>
    obtain ⟨hnot, hnodup⟩ := List.nodup_cons.mp hnodup
    unfold replaceObservation
    split_ifs with he
    · have hrest : others incoming values = values := others_eq_self (by rwa [← he])
      have hsame : others incoming (o :: values) = values := by
        rw [others, List.filter_cons_of_neg (by simp [he])]
        exact hrest
      rw [hsame]
    · have hin : existing ∈ values := (List.mem_cons.mp hmem).resolve_left fun h => he (h ▸ hkey)
      have hcons : others incoming (o :: values) = o :: others incoming values :=
        List.filter_cons_of_pos (by simp [he])
      rw [hcons]
      exact ((ih hnodup hin).cons o).trans (.swap incoming o _)

theorem streams_sort (h : (values.map observationKey).Nodup) :
    Streams (sortObservations values) :=
  ⟨((sortOn_perm observationKey values).map _).nodup_iff.mpr h,
    sortOn_pairwise observationKey values⟩

theorem nodup_cons_others
    (h : (values.map observationKey).Nodup) :
    ((incoming :: others incoming values).map observationKey).Nodup := by
  refine List.nodup_cons.mpr ⟨fun hmem => ?_, h.sublist (List.filter_sublist.map _)⟩
  obtain ⟨o, ho, he⟩ := List.mem_map.mp hmem
  have hne := (List.mem_filter.mp ho).2
  simp [he] at hne

theorem upsertObservation_eq_ok
    (hnodup : (values.map observationKey).Nodup) (h : upsertObservation values incoming = .ok out) :
    out.Perm (incoming :: others incoming values) ∧ Streams out ∧
      ∀ o ∈ values, observationKey o = observationKey incoming → Supersedes incoming o := by
  obtain ⟨l, rfl, hperm, hsup⟩ :
    ∃ l, out = sortObservations l ∧ l.Perm (incoming :: others incoming values) ∧
      ∀ o ∈ values, observationKey o = observationKey incoming → Supersedes incoming o := by
    unfold upsertObservation at h
    split at h
    · rename_i existing hfind
      have hkey :
        observationKey existing = observationKey incoming := by simpa using List.find?_some hfind
      have hmem := List.mem_of_find?_eq_some hfind
      simp only [ok_iff, exists_const] at h
      obtain ⟨hstale, hconflict, rfl⟩ := h
      refine ⟨_, rfl, replaceObservation_perm hnodup hmem hkey, fun o ho he => ?_⟩
      obtain rfl : o = existing := List.inj_on_of_nodup_map hnodup ho hmem (he.trans hkey.symm)
      by_cases heq : incoming.revision = o.revision
      · have hsame : incoming.commitID = o.commitID ∧ incoming.root = o.root := by
          simpa [heq, not_or, not_and_or] using hconflict
        exact .inr ⟨heq.symm, hsame⟩
      · exact .inl (UInt64.lt_of_le_of_ne (UInt64.not_lt.mp hstale) (Ne.symm heq))
    · rename_i hfind
      have hnone : ∀ o ∈ values, observationKey o ≠ observationKey incoming := by simpa using hfind
      have hfresh : observationKey incoming ∉ values.map observationKey := by
        intro hmem
        obtain ⟨o, ho, he⟩ := List.mem_map.mp hmem
        exact hnone o ho he
      refine ⟨_, (pure_eq_ok.mp h).symm, ?_, fun o ho he => absurd he (hnone o ho)⟩
      rw [others_eq_self hfresh]
      exact List.perm_append_singleton incoming values
  have hsorted := sortOn_perm observationKey l
  refine ⟨hsorted.trans hperm, streams_sort ?_, hsup⟩
  exact (hperm.map _).nodup_iff.mpr (nodup_cons_others hnodup)

theorem upsertObservation_append {kept : List ObservedHead} (h : Streams (kept ++ [o])) :
    upsertObservation kept o = .ok (kept ++ [o]) := by
  have hfresh : ∀ e ∈ kept, observationKey e ≠ observationKey o := by
    intro e he heq
    have hnodup := h.nodup
    rw [List.map_append, List.nodup_append] at hnodup
    exact hnodup.2.2 _ (List.mem_map_of_mem he) _ (by simp) heq
  have hfind :
    (kept.find? fun e => observationKey e = observationKey o) = none := by simpa using hfresh
  rw [upsertObservation, hfind]
  exact pure_eq_ok.mpr (List.Pairwise.insertionSort_eq h.sorted)

theorem Supersedes.refl (o : ObservedHead) : Supersedes o o := .inr ⟨rfl, rfl, rfl⟩

theorem Supersedes.trans {c : ObservedHead} (h : Supersedes a b) (h' : Supersedes b c) :
    Supersedes a c := by
  rcases h with h | ⟨hr, hc, ho⟩
  · rcases h' with h' | ⟨hr', -, -⟩
    · exact .inl (UInt64.lt_trans h' h)
    · exact .inl (hr' ▸ h)
  · rcases h' with h' | ⟨hr', hc', ho'⟩
    · exact .inl (hr ▸ h')
    · exact .inr ⟨hr'.trans hr, hc.trans hc', ho.trans ho'⟩

def Covers (values : List ObservedHead) (o : ObservedHead) : Prop :=
  ∃ o' ∈ values, observationKey o' = observationKey o ∧ Supersedes o' o

theorem Covers.of_mem (h : o ∈ values) : Covers values o :=
  ⟨o, h, rfl, .refl o⟩

theorem Covers.trans {values' : List ObservedHead} (h : Covers values o)
    (hall : ∀ p ∈ values, Covers values' p) : Covers values' o := by
  obtain ⟨p, hp, hkey, hsup⟩ := h
  obtain ⟨q, hq, hkey', hsup'⟩ := hall p hp
  exact ⟨q, hq, hkey'.trans hkey, hsup'.trans hsup⟩

theorem covers_upsertObservation
    (hnodup : (values.map observationKey).Nodup) (h : upsertObservation values incoming = .ok out) :
    Covers out incoming ∧ ∀ o ∈ values, Covers out o := by
  obtain ⟨hperm, -, hsup⟩ := upsertObservation_eq_ok hnodup h
  have hin : incoming ∈ out := hperm.mem_iff.mpr List.mem_cons_self
  refine ⟨.of_mem hin, fun o ho => ?_⟩
  by_cases he : observationKey o = observationKey incoming
  · exact ⟨incoming, hin, he.symm, hsup o ho he⟩
  · have hkept : o ∈ others incoming values := List.mem_filter.mpr ⟨ho, by simp [he]⟩
    exact .of_mem (hperm.mem_iff.mpr (List.mem_cons_of_mem _ hkept))

theorem mem_of_upsertObservation
    (hnodup : (values.map observationKey).Nodup) (h : upsertObservation values incoming = .ok out)
    (ho : o ∈ out) : o = incoming ∨ o ∈ values := by
  obtain ⟨hperm, -, -⟩ := upsertObservation_eq_ok hnodup h
  exact (List.mem_cons.mp (hperm.subset ho)).imp_right List.mem_of_mem_filter

theorem observationKey_json (o : ObservedHead) :
    observationKey o.json = jsonText (observationKey o) := by
  simp [observationKey, ObservedHead.json, jsonText, Rune.isValid]

theorem Supersedes.json (h : Supersedes a b) : Supersedes a.json b.json := by
  rcases h with h | ⟨hr, hc, ho⟩
  · exact .inl h
  · exact .inr ⟨hr, congrArg jsonText hc, congrArg jsonText ho⟩

end observations

section json

theorem ObservedHead.json_json (o : ObservedHead) : o.json.json = o.json := by
  simp [ObservedHead.json, JsonObject.jsonText_jsonText]

theorem RootState.json_json (v : RootState) : v.json.json = v.json := by
  have hcandidate : CandidateRoot.json ∘ CandidateRoot.json = CandidateRoot.json := by
    funext c
    simp [CandidateRoot.json, JsonObject.jsonText_jsonText]
  have haccepted : AcceptedRootState.json ∘ AcceptedRootState.json = AcceptedRootState.json := by
    funext a
    simp [AcceptedRootState.json, JsonObject.jsonText_jsonText]
  have hhead : ObservedHead.json ∘ ObservedHead.json = ObservedHead.json :=
    funext ObservedHead.json_json
  simp [RootState.json, JsonObject.jsonText_jsonText, hcandidate, haccepted, hhead]

structure RootState.Fixed (v : RootState) : Prop where
  aliasName : jsonText v.aliasName = v.aliasName
  profile : jsonText v.profile = v.profile
  gateway : jsonText v.gateway = v.gateway
  accepted : ∀ a ∈ v.accepted, a.json = a
  candidates : ∀ c ∈ v.candidates, c.json = c
  observedHeads : ∀ o ∈ v.observedHeads, o.json = o

theorem RootState.json_eq_self_iff {v : RootState} : v.json = v ↔ v.Fixed := by
  have hlist : ∀ {α : Type} (f : α → α) (l : List α), l.map f = l ↔ ∀ a ∈ l, f a = a := by
    intro α f l
    conv_lhs => rhs; rw [← List.map_id l]
    exact List.map_inj_left
  have haccepted :
    v.accepted.map AcceptedRootState.json = v.accepted ↔ ∀ a ∈ v.accepted, a.json = a := by
    cases v.accepted <;> simp
  obtain ⟨aliasName, profile, gateway, accepted, candidates, observedHeads⟩ := v
  simp only [RootState.json, RootState.mk.injEq, hlist, haccepted]
  constructor
  · intro h
    obtain ⟨h₁, h₂, h₃, h₄, h₅, h₆⟩ := h
    exact ⟨h₁, h₂, h₃, h₄, h₅, h₆⟩
  · intro h
    exact ⟨h.aliasName, h.profile, h.gateway, h.accepted, h.candidates, h.observedHeads⟩

end json

section removal

variable {kept : List CandidateRoot}

theorem removeCandidate_eq_self {root : GoString}
    (h : root ∉ kept.map CandidateRoot.root) : removeCandidate kept root = kept := by
  refine List.filter_eq_self.mpr fun c hc => ?_
  exact decide_eq_true fun he => h (he ▸ List.mem_map_of_mem hc)

theorem nodup_removeCandidate_append (h : (kept.map CandidateRoot.root).Nodup)
    (c : CandidateRoot) : ((removeCandidate kept c.root ++ [c]).map CandidateRoot.root).Nodup := by
  rw [List.map_append, List.nodup_append]
  refine ⟨h.sublist (List.filter_sublist.map _), by simp, ?_⟩
  intro r hr r' hr' he
  obtain ⟨d, hd, rfl⟩ := List.mem_map.mp hr
  have hne := (List.mem_filter.mp hd).2
  simp_all

end removal

variable [CidFormat]

section canonical

variable {s t : GoString}

theorem canonicalCID_eq_ok : canonicalCID s = .ok t ↔ CidFormat.canonical s = some t :=
  required_eq_ok

theorem canonicalCID_idem (h : canonicalCID s = .ok t) : canonicalCID t = .ok t :=
  canonicalCID_eq_ok.mpr (CidFormat.canonical_idem (canonicalCID_eq_ok.mp h))

theorem canonicalCID_ne_nil (h : canonicalCID s = .ok t) : t ≠ [] :=
  CidFormat.canonical_ne_nil (canonicalCID_eq_ok.mp h)

theorem jsonText_of_canonicalCID (h : canonicalCID s = .ok t) : jsonText t = t :=
  jsonText_eq_self (CidFormat.canonical_valid (canonicalCID_eq_ok.mp h))

theorem canonicalOptionalCID_nil : canonicalOptionalCID [] = .ok [] := rfl

theorem canonicalOptionalCID_of_canonical (h : canonicalCID s = .ok s) :
    canonicalOptionalCID s = .ok s := by
  rw [canonicalOptionalCID, if_neg (canonicalCID_ne_nil h), h]

theorem canonicalOptionalCID_idem (h : canonicalOptionalCID s = .ok t) :
    canonicalOptionalCID t = .ok t := by
  unfold canonicalOptionalCID at h
  split_ifs at h with hs
  · cases h
    rfl
  · exact canonicalOptionalCID_of_canonical (canonicalCID_idem h)

theorem jsonText_of_canonicalOptionalCID (h : canonicalOptionalCID s = .ok t) : jsonText t = t := by
  unfold canonicalOptionalCID at h
  split_ifs at h with hs
  · cases h
    rfl
  · exact jsonText_of_canonicalCID h

end canonical

section accepted

structure AcceptedRootState.Normal (a : AcceptedRootState) : Prop where
  root : canonicalCID a.root = .ok a.root
  previousRoot : canonicalOptionalCID a.previousRoot = .ok a.previousRoot
  moved : a.previousRoot ≠ a.root

variable {a : AcceptedRootState}

theorem normal_of_normalizeAccepted {key : GoString} {a' : AcceptedRootState}
    (h : normalizeAccepted key a = .ok a') : a'.Normal := by
  simp only [normalizeAccepted, ok_iff] at h
  obtain ⟨root, hroot, previous, hprevious, rfl⟩ := h
  have hne := canonicalCID_ne_nil hroot
  refine ⟨canonicalCID_idem hroot, ?_, ?_⟩
  · dsimp only
    split_ifs
    · exact canonicalOptionalCID_nil
    · exact canonicalOptionalCID_idem hprevious
  · dsimp only
    split_ifs with he
    · exact hne.symm
    · exact he

theorem AcceptedRootState.Normal.fixed (h : a.Normal) (key : GoString) :
    normalizeAccepted key a = .ok a := by
  simp only [normalizeAccepted, ok_iff]
  refine ⟨a.root, h.root, a.previousRoot, h.previousRoot, ?_⟩
  rw [if_neg h.moved]

theorem AcceptedRootState.Normal.json_roots (h : a.Normal) :
    a.json.root = a.root ∧ a.json.previousRoot = a.previousRoot :=
  ⟨jsonText_of_canonicalCID h.root, jsonText_of_canonicalOptionalCID h.previousRoot⟩

theorem AcceptedRootState.Normal.json (h : a.Normal) : a.json.Normal := by
  obtain ⟨hroot, hprevious⟩ := h.json_roots
  refine ⟨?_, ?_, ?_⟩
  · rw [hroot, h.root]
  · rw [hprevious, h.previousRoot]
  · rw [hroot, hprevious]
    exact h.moved

end accepted

section candidates

structure CandidateRoot.Normal (accepted : Option AcceptedRootState) (c : CandidateRoot) :
    Prop where
  root : canonicalCID c.root = .ok c.root
  baseRoot : canonicalOptionalCID c.baseRoot = .ok c.baseRoot
  bootstrap : c.baseRoot = [] ↔ accepted = none
  unaccepted : acceptedRoot accepted ≠ some c.root

variable {c : CandidateRoot} {index : Nat} {accepted : Option AcceptedRootState} {key : GoString}
  {l : List CandidateRoot}

theorem normal_of_normalizeCandidate {c' : CandidateRoot}
    (h : normalizeCandidate key accepted index c = .ok c')
    (hne : acceptedRoot accepted ≠ some c'.root) : c'.Normal accepted := by
  simp only [normalizeCandidate, ok_iff, exists_const] at h
  obtain ⟨root, hroot, baseRoot, hbase, hboot, hbased, rfl⟩ := h
  refine ⟨canonicalCID_idem hroot, canonicalOptionalCID_idem hbase, ?_, hne⟩
  constructor
  · intro he
    by_contra hacc
    exact hbased ⟨hacc, he⟩
  · intro hacc
    by_contra he
    exact hboot ⟨hacc, he⟩

theorem CandidateRoot.Normal.fixed (h : c.Normal accepted)
    (key : GoString) (index : Nat) : normalizeCandidate key accepted index c = .ok c := by
  simp only [normalizeCandidate, ok_iff, exists_const]
  refine ⟨c.root, h.root, c.baseRoot, h.baseRoot, ?_, ?_, rfl⟩
  · intro hb
    exact hb.2 (h.bootstrap.mpr hb.1)
  · intro hb
    exact hb.1 (h.bootstrap.mp hb.2)

theorem normal_of_normalizeCandidates
    {kept out : List CandidateRoot} (h : normalizeCandidates key accepted index kept l = .ok out)
    (hkept : ∀ c ∈ kept, c.Normal accepted) (hnodup : (kept.map CandidateRoot.root).Nodup) :
    (∀ c ∈ out, c.Normal accepted) ∧ (out.map CandidateRoot.root).Nodup := by
  induction l generalizing index kept with
  | nil =>
    cases h
    exact ⟨hkept, hnodup⟩
  | cons c l ih =>
    rw [normalizeCandidates, bind_eq_ok] at h
    obtain ⟨c', hc', h⟩ := h
    split_ifs at h with hacc
    · exact ih h hkept hnodup
    · refine ih h ?_ (nodup_removeCandidate_append hnodup c')
      intro d hd
      rcases List.mem_append.mp hd with hd | hd
      · exact hkept d (List.mem_of_mem_filter hd)
      · obtain rfl := List.mem_singleton.mp hd
        exact normal_of_normalizeCandidate hc' hacc

theorem normalizeCandidates_of_normal (key : GoString) (index : Nat)
    (kept : List CandidateRoot) (h : ∀ c ∈ l, c.Normal accepted)
    (hnodup : ((kept ++ l).map CandidateRoot.root).Nodup) :
    normalizeCandidates key accepted index kept l = .ok (kept ++ l) := by
  induction l generalizing index kept with
  | nil => simp [normalizeCandidates, pure_eq_ok]
  | cons c l ih =>
    have hc := h c List.mem_cons_self
    have hfresh : c.root ∉ kept.map CandidateRoot.root := by
      intro hmem
      rw [List.map_append, List.nodup_append] at hnodup
      exact hnodup.2.2 _ hmem _ (by simp) rfl
    have happ : kept ++ c :: l = (kept ++ [c]) ++ l := by simp
    rw [normalizeCandidates, bind_eq_ok]
    refine ⟨c, hc.fixed key index, ?_⟩
    rw [if_neg hc.unaccepted, removeCandidate_eq_self hfresh, happ]
    exact ih _ _ (fun d hd => h d (List.mem_cons_of_mem _ hd)) (happ ▸ hnodup)

theorem acceptedRoot_json (h : ∀ a ∈ accepted, a.Normal) :
    acceptedRoot (accepted.map AcceptedRootState.json) = acceptedRoot accepted := by
  cases accepted with
  | none => rfl
  | some a => exact congrArg some (h a rfl).json_roots.1

theorem CandidateRoot.Normal.json_roots (h : c.Normal accepted) :
    c.json.root = c.root ∧ c.json.baseRoot = c.baseRoot :=
  ⟨jsonText_of_canonicalCID h.root, jsonText_of_canonicalOptionalCID h.baseRoot⟩

theorem CandidateRoot.Normal.json (h : c.Normal accepted) (hacc : ∀ a ∈ accepted, a.Normal) :
    c.json.Normal (accepted.map AcceptedRootState.json) := by
  obtain ⟨hroot, hbase⟩ := h.json_roots
  refine ⟨?_, ?_, ?_, ?_⟩
  · rw [hroot, h.root]
  · rw [hbase, h.baseRoot]
  · rw [hbase, h.bootstrap, Option.map_eq_none_iff]
  · rw [acceptedRoot_json hacc, hroot]
    exact h.unaccepted

end candidates

section heads

structure ObservedHead.Normal (o : ObservedHead) : Prop where
  source : o.source ≠ [] ∧ trimSpace o.source = o.source
  datasetID : o.datasetID ≠ [] ∧ trimSpace o.datasetID = o.datasetID
  branch : o.branch ≠ [] ∧ trimSpace o.branch = o.branch
  commitID : trimSpace o.commitID = o.commitID
  tuple : (o.commitID = [] ∧ o.root = [] ∧ o.revision = 0) ∨
    (o.commitID ≠ [] ∧ canonicalCID o.root = .ok o.root ∧ o.revision ≠ 0)

variable {o : ObservedHead} {l : List ObservedHead}

theorem normal_of_normalizeObservation {raw : ObservedHead} (h : normalizeObservation raw = .ok o) :
    o.Normal ∧ o.observedAt = raw.observedAt := by
  simp only [normalizeObservation, ok_iff, exists_const, not_or] at h
  obtain ⟨⟨hsource, hdataset, hbranch⟩, h⟩ := h
  split_ifs at h with hcommit
  · simp only [ok_iff, exists_const, not_or, not_not] at h
    obtain ⟨⟨hroot, hrevision⟩, rfl⟩ := h
    exact ⟨⟨⟨hsource, trimSpace_trimSpace _⟩, ⟨hdataset, trimSpace_trimSpace _⟩,
      ⟨hbranch, trimSpace_trimSpace _⟩,
      trimSpace_trimSpace _, .inl ⟨hcommit, hroot, hrevision⟩⟩, rfl⟩
  · simp only [ok_iff, exists_const, not_or] at h
    obtain ⟨⟨-, hrevision⟩, root, hroot, rfl⟩ := h
    exact ⟨⟨⟨hsource, trimSpace_trimSpace _⟩, ⟨hdataset, trimSpace_trimSpace _⟩,
      ⟨hbranch, trimSpace_trimSpace _⟩,
      trimSpace_trimSpace _, .inr ⟨hcommit, canonicalCID_idem hroot, hrevision⟩⟩, rfl⟩

theorem trimSpace_of_canonicalCID {s t : GoString} (h : canonicalCID s = .ok t) : trimSpace t = t :=
  CidFormat.canonical_trimmed (canonicalCID_eq_ok.mp h)

theorem ObservedHead.Normal.trimmed (h : o.Normal) : trimmedObservation o = o := by
  have hroot : trimSpace o.root = o.root := by
    rcases h.tuple with ⟨-, hroot, -⟩ | ⟨-, hroot, -⟩
    · rw [hroot]
      rfl
    · exact trimSpace_of_canonicalCID hroot
  rw [trimmedObservation, h.source.2, h.datasetID.2, h.branch.2, h.commitID, hroot]

theorem ObservedHead.Normal.fixed (h : o.Normal) : normalizeObservation o = .ok o := by
  simp only [normalizeObservation, h.trimmed, ok_iff, exists_const, not_or]
  refine ⟨⟨h.source.1, h.datasetID.1, h.branch.1⟩, ?_⟩
  rcases h.tuple with ⟨hcommit, hroot, hrevision⟩ | ⟨hcommit, hroot, hrevision⟩
  · rw [if_pos hcommit]
    simp only [ok_iff, exists_const, not_or, not_not]
    exact ⟨⟨hroot, hrevision⟩, trivial⟩
  · have hne := canonicalCID_ne_nil hroot
    rw [if_neg hcommit]
    simp only [ok_iff, exists_const, not_or]
    exact ⟨⟨hne, hrevision⟩, o.root, hroot, rfl⟩

theorem ObservedHead.Normal.json (h : o.Normal) : o.json.Normal := by
  have hname : ∀ {s : GoString}, s ≠ [] ∧ trimSpace s = s → jsonText s ≠ [] ∧
    trimSpace (jsonText s) = jsonText s :=
    fun hs => ⟨fun he => hs.1 (JsonObject.jsonText_eq_nil.mp he),
      JsonObject.trimSpace_jsonText hs.2⟩
  refine ⟨hname h.source, hname h.datasetID, hname h.branch,
    JsonObject.trimSpace_jsonText h.commitID, ?_⟩
  rcases h.tuple with ⟨hcommit, hroot, hrevision⟩ | ⟨hcommit, hroot, hrevision⟩
  · exact .inl ⟨JsonObject.jsonText_eq_nil.mpr hcommit, JsonObject.jsonText_eq_nil.mpr hroot,
      hrevision⟩
  · refine .inr ⟨fun he => hcommit (JsonObject.jsonText_eq_nil.mp he), ?_, hrevision⟩
    have hjson : o.json.root = o.root := jsonText_of_canonicalCID hroot
    rw [hjson, hroot]

theorem normalizeObservations_eq_ok {key : GoString} {index : Nat} {kept out : List ObservedHead}
    (h : normalizeObservations key index kept l = .ok out) (hkept : Streams kept) :
    Streams out ∧ (∀ o ∈ out, o ∈ kept ∨ ∃ r ∈ l, r.observedAt ≠ 0 ∧
      normalizeObservation r = .ok o) ∧
      (∀ o ∈ kept, Covers out o) ∧ ∀ r ∈ l, ∃ o, normalizeObservation r = .ok o ∧ Covers out o := by
  induction l generalizing index kept with
  | nil =>
    cases h
    exact ⟨hkept, fun o ho => .inl ho, fun o ho => .of_mem ho, by simp⟩
  | cons r l ih =>
    simp only [normalizeObservations, ok_iff, exists_const] at h
    obtain ⟨htime, n, hn, next, hnext, h⟩ := h
    obtain ⟨-, hstreams, -⟩ := upsertObservation_eq_ok hkept.nodup hnext
    obtain ⟨hself, hcovers⟩ := covers_upsertObservation hkept.nodup hnext
    obtain ⟨hout, hfrom, hnextCovers, hrest⟩ := ih h hstreams
    refine ⟨hout, fun o ho => ?_, fun o ho => (hcovers o ho).trans hnextCovers, fun q hq => ?_⟩
    · rcases hfrom o ho with hmem | ⟨q, hq, hqt, hqn⟩
      · rcases mem_of_upsertObservation hkept.nodup hnext hmem with rfl | hmem
        · exact .inr ⟨r, List.mem_cons_self, htime, hn⟩
        · exact .inl hmem
      · exact .inr ⟨q, List.mem_cons_of_mem _ hq, hqt, hqn⟩
    · rcases List.mem_cons.mp hq with rfl | hq
      · exact ⟨n, hn, hself.trans hnextCovers⟩
      · exact hrest q hq

theorem normalizeObservations_of_normal (key : GoString) (index : Nat) (kept : List ObservedHead)
    (h : ∀ o ∈ l, o.Normal) (htime : ∀ o ∈ l, o.observedAt ≠ 0) (hs : Streams (kept ++ l)) :
    normalizeObservations key index kept l = .ok (kept ++ l) := by
  induction l generalizing index kept with
  | nil => simp [normalizeObservations, pure_eq_ok]
  | cons o l ih =>
    have happ : kept ++ o :: l = (kept ++ [o]) ++ l := by simp
    have hs' : Streams (kept ++ [o] ++ l) := happ ▸ hs
    have hfirst : Streams (kept ++ [o]) :=
      ⟨hs'.nodup.sublist ((List.sublist_append_left _ _).map _),
        (List.pairwise_append.mp hs'.sorted).1⟩
    simp only [normalizeObservations, ok_iff, exists_const]
    refine ⟨htime o List.mem_cons_self, o, (h o List.mem_cons_self).fixed, _,
      upsertObservation_append hfirst, ?_⟩
    rw [happ]
    exact ih _ _ (fun p hp => h p (List.mem_cons_of_mem _ hp))
      (fun p hp => htime p (List.mem_cons_of_mem _ hp)) hs'

end heads

section records

structure RootState.Sound (v : RootState) : Prop where
  accepted : ∀ a ∈ v.accepted, a.Normal
  candidates : ∀ c ∈ v.candidates, c.Normal v.accepted
  distinct : (v.candidates.map CandidateRoot.root).Nodup
  observed : ∀ o ∈ v.observedHeads, o.Normal
  streams : Streams v.observedHeads

structure RootState.Normal (key : GoString) (v : RootState) : Prop extends RootState.Sound v where
  trimmed : normalizeAlias key = key
  named : key ≠ []
  aliasName : v.aliasName = key
  inhabited : ¬ (v.accepted = none ∧ v.candidates = [] ∧ v.observedHeads = [])

def RootState.Timed (v : RootState) : Prop := ∀ o ∈ v.observedHeads, o.observedAt ≠ 0

variable {v v' : RootState} {key : GoString} {accepted : Option AcceptedRootState}

theorem normalizeRootState_eq_ok (h : normalizeRootState key v = .ok v') :
    (normalizeAlias key = key ∧ key ≠ []) ∧ ∃ accepted candidates observedHeads,
      v.accepted.mapM (normalizeAccepted key) = .ok accepted ∧
      normalizeCandidates key accepted 0 [] v.candidates = .ok candidates ∧
      normalizeObservations key 0 [] v.observedHeads = .ok observedHeads ∧
      ¬ (accepted = none ∧ candidates = [] ∧ observedHeads = []) ∧
      v' = { v with
        aliasName := key, accepted := accepted, candidates := candidates,
          observedHeads := observedHeads } := by
  simp only [normalizeRootState, ok_iff, exists_const, not_or, not_not] at h
  obtain ⟨⟨hne, htrim⟩, -, accepted, hacc, candidates, hcand, heads, hheads, hinh, rfl⟩ := h
  exact ⟨⟨htrim, fun he => hne (htrim.trans he)⟩, accepted, candidates, heads, hacc, hcand,
    hheads, hinh, rfl⟩

theorem mapM_normalizeAccepted_of_normal
    (h : ∀ a ∈ accepted, a.Normal) : accepted.mapM (normalizeAccepted key) = .ok accepted := by
  cases accepted with
  | none => rfl
  | some a =>
    have ha := (h a rfl).fixed key
    simp [Option.mapM, ha]

theorem normal_of_mapM_normalizeAccepted {accepted' : Option AcceptedRootState}
    (h : accepted.mapM (normalizeAccepted key) = .ok accepted') : ∀ a ∈ accepted', a.Normal := by
  cases accepted with
  | none =>
    cases h
    simp
  | some a =>
    rw [Option.mapM_some] at h
    obtain ⟨a', ha', rfl⟩ := map_eq_ok.mp h
    intro b hb
    obtain rfl := Option.mem_some.mp hb
    exact normal_of_normalizeAccepted ha'

theorem normal_of_normalizeRootState (h : normalizeRootState key v = .ok v') :
    v'.Normal key ∧ v'.Timed := by
  obtain ⟨hkey, accepted, candidates, heads, hacc, hcand, hheads, hinh,
    rfl⟩ := normalizeRootState_eq_ok h
  obtain ⟨hnormal, hdistinct⟩ := normal_of_normalizeCandidates hcand (by simp) (by simp)
  obtain ⟨hstreams, hfrom, -, -⟩ := normalizeObservations_eq_ok hheads ⟨by simp, by simp⟩
  have hhead : ∀ o ∈ heads, o.Normal ∧ o.observedAt ≠ 0 := by
    intro o ho
    obtain hmem | ⟨r, -, htime, hr⟩ := hfrom o ho
    · simp at hmem
    · obtain ⟨hn, ht⟩ := normal_of_normalizeObservation hr
      exact ⟨hn, ht ▸ htime⟩
  have hsound : RootState.Sound { v with
      aliasName := key, accepted := accepted, candidates := candidates, observedHeads := heads } :=
    { accepted := normal_of_mapM_normalizeAccepted hacc
      candidates := hnormal
      distinct := hdistinct
      observed := fun o ho => (hhead o ho).1
      streams := hstreams }
  exact ⟨{ toSound := hsound, trimmed := hkey.1, named := hkey.2, aliasName := rfl,
           inhabited := hinh },
    fun o ho => (hhead o ho).2⟩

theorem RootState.Normal.fixed (h : v.Normal key) (htime : v.Timed) :
    normalizeRootState key v = .ok v := by
  have hcand := normalizeCandidates_of_normal key 0 [] h.candidates h.distinct
  have hheads := normalizeObservations_of_normal key 0 [] h.observed htime h.streams
  have hname : (if v.aliasName = [] then key else v.aliasName) = key := by
    rw [h.aliasName, ite_self]
  simp only [normalizeRootState, ok_iff, exists_const, not_or, not_not]
  refine ⟨⟨?_, h.trimmed⟩, ?_, v.accepted, mapM_normalizeAccepted_of_normal h.accepted,
    v.candidates, hcand, v.observedHeads, hheads, h.inhabited, ?_⟩
  · rw [h.trimmed]
    exact h.named
  · rw [hname, h.trimmed]
  · rw [← h.aliasName]

/-- What a reload makes of a sound record that was written: streams whose
names became the same are merged, and nothing else happens. -/
theorem normalizeRootState_json (hv : v.Sound)
    (h : normalizeRootState (jsonText key) v.json = .ok v') :
    v' = { v.json with aliasName := jsonText key, observedHeads := v'.observedHeads } ∧
      (∀ o ∈ v'.observedHeads, ∃ p ∈ v.observedHeads, o = p.json) ∧
      ∀ p ∈ v.observedHeads, Covers v'.observedHeads p.json := by
  obtain ⟨-, accepted, candidates, heads, hacc, hcand, hheads, -, rfl⟩ := normalizeRootState_eq_ok h
  have haccepted : ∀ a ∈ v.json.accepted, a.Normal := by
    intro a ha
    obtain ⟨b, hb, rfl⟩ := Option.mem_map.mp ha
    exact (hv.accepted b hb).json
  rw [mapM_normalizeAccepted_of_normal haccepted] at hacc
  cases hacc
  have hcandidates : ∀ c ∈ v.json.candidates, c.Normal v.json.accepted := by
    intro c hc
    obtain ⟨d, hd, rfl⟩ := List.mem_map.mp hc
    exact (hv.candidates d hd).json hv.accepted
  have hroots : v.json.candidates.map CandidateRoot.root = v.candidates.map CandidateRoot.root := by
    rw [RootState.json, List.map_map]
    exact List.map_congr_left fun c hc => (hv.candidates c hc).json_roots.1
  have hfixed := normalizeCandidates_of_normal (jsonText key) 0 [] hcandidates
    (by rw [List.nil_append, hroots]; exact hv.distinct)
  rw [hfixed] at hcand
  cases hcand
  obtain ⟨-, hfrom, -, hcovers⟩ := normalizeObservations_eq_ok hheads ⟨by simp, by simp⟩
  have hjson : ∀ p ∈ v.observedHeads, normalizeObservation p.json = .ok p.json :=
    fun p hp => (hv.observed p hp).json.fixed
  refine ⟨rfl, fun o ho => ?_, fun p hp => ?_⟩
  · obtain hmem | ⟨r, hr, -, hro⟩ := hfrom o ho
    · simp at hmem
    · obtain ⟨p, hp, rfl⟩ := List.mem_map.mp hr
      rw [hjson p hp] at hro
      exact ⟨p, hp, (Except.ok.inj hro).symm⟩
  · obtain ⟨o, ho, hcov⟩ := hcovers p.json (List.mem_map_of_mem hp)
    rw [hjson p hp] at ho
    exact Except.ok.inj ho ▸ hcov

end records

end MaltClient.Trust
