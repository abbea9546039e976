import MaltClient.MountRegistry

/-! Which registries can be read back. A mountpoint is trimmed before it is
cleaned, and cleaning may leave a space at its end. -/

namespace MaltClient.Mount

open GoText Checked AssocMap
open LockedFile (Fault)

section normalization

variable {raw spec : Spec}

variable {u : Unit} {s : GoString}

theorem checkText_eq_ok {name : String} {value : GoString} :
    checkText name value = .ok u ↔ value ≠ [] ∧ validString value = true ∧
      containsRune value nul = false := by
  simp [checkText, not_or]

theorem defaults_of_checked (h : checkPolicies spec = .ok u) : defaults spec = spec := by
  simp only [checkPolicies, ok_iff, not_not] at h
  obtain ⟨-, hcache, h⟩ := h
  have hpolicies : spec.writePolicy ≠ .unset ∧ spec.conflictPolicy ≠ .unset := by
    cases hw : spec.writePolicy with
    | unset => simp [hw] at h
    | readOnly =>
      simp only [hw, reject_eq_ok, not_or, not_not] at h
      simp [h.1]
    | writeBack =>
      simp only [hw, ok_iff, not_not] at h
      obtain ⟨-, hconflict, -⟩ := h
      simp [hconflict]
    | other value => simp [hw] at h
  simp only [defaults, hcache, if_neg hpolicies.1, if_neg hpolicies.2, reduceCtorEq, if_false]
  rw [← hcache]

structure Normal (spec : Spec) : Prop where
  id : trimSpace spec.id = spec.id
  datasetID : trimSpace spec.datasetID = spec.datasetID
  branch : trimSpace spec.branch = spec.branch
  trustAlias : trimSpace spec.trustAlias = spec.trustAlias
  texts : checkTexts spec = .ok ()
  rooted : spec.mountpoint.head? = some slash
  cleaned : clean spec.mountpoint = spec.mountpoint
  below : dir spec.mountpoint ≠ spec.mountpoint
  policies : checkPolicies spec = .ok ()

theorem clean_clean_rooted (h : s.head? = some slash) : clean (clean s) = clean s := by
  obtain ⟨ps, hps, hclean⟩ := exists_names_of_clean_rooted h
  rw [hclean, clean_slash_join hps]

theorem normalizeSpec_normal (h : normalizeSpec raw = .ok spec) : Normal spec := by
  simp only [normalizeSpec, ok_iff, Bool.not_eq_false] at h
  obtain ⟨_, htexts, _, habs, _, hbelow, _, hpolicies, rfl⟩ := h
  have hhead := isAbs_iff.mp habs
  have hclean := clean_clean_rooted hhead
  simp only [checkTexts, bind_eq_ok, checkText_eq_ok] at htexts
  obtain ⟨_, hid, _, hdataset, _, hbranch, _, hmountpoint, _, halias, hrest⟩ := htexts
  have hhead' : (clean (trimmed raw).mountpoint).head? = some slash := by
    obtain ⟨ps, -, hps⟩ := exists_names_of_clean_rooted hhead
    rw [hps]
    rfl
  have hkeeps :
    clean (trimmed raw).mountpoint ≠ [] ∧ validString (clean (trimmed raw).mountpoint) = true ∧
      containsRune (clean (trimmed raw).mountpoint) nul = false := by
    refine ⟨fun hnil => by simp [hnil] at hhead', ?_, ?_⟩
    · refine List.all_eq_true.mpr fun r hr => List.all_eq_true.mp hmountpoint.2.1 r
        (mem_clean_rooted hhead hr)
    · have hnot :
        Rune.char nul ∉ (trimmed raw).mountpoint := by simpa [containsRune] using hmountpoint.2.2
      have hnot' : Rune.char nul ∉ clean (trimmed raw).mountpoint :=
        fun hr => hnot (mem_clean_rooted hhead hr)
      simpa [containsRune] using hnot'
  refine ⟨trimSpace_trimSpace _, trimSpace_trimSpace _, trimSpace_trimSpace _,
    trimSpace_trimSpace _, ?_, hhead', hclean, hbelow, hpolicies⟩
  simp only [checkTexts, bind_eq_ok, checkText_eq_ok]
  exact ⟨(), hid, (), hdataset, (), hbranch, (), hkeeps, (), halias, hrest⟩

theorem trimmed_eq_self (h : Normal spec) (hm : trimSpace spec.mountpoint = spec.mountpoint) :
    trimmed spec = spec := by
  rw [trimmed, h.id, h.datasetID, h.branch, hm, h.trustAlias]

theorem length_trimSpace_lt (h : trimSpace s ≠ s) : (trimSpace s).length < s.length := by
  have hsub : (trimSpace s).Sublist s :=
    (List.rdropWhile_prefix isSpace _).sublist.trans (List.dropWhile_suffix isSpace).sublist
  exact lt_of_le_of_ne hsub.length_le fun he => h (hsub.eq_of_length he)

theorem normalizeSpec_fixed_iff (h : Normal spec) :
    normalizeSpec spec = .ok spec ↔ trimSpace spec.mountpoint = spec.mountpoint := by
  constructor
  · intro hfixed
    simp only [normalizeSpec, ok_iff, Bool.not_eq_false] at hfixed
    obtain ⟨_, -, _, habs, _, -, _, -, heq⟩ := hfixed
    have hmount : clean (trimSpace spec.mountpoint) = spec.mountpoint :=
      congrArg Spec.mountpoint heq
    by_contra hne
    have hshort := length_trimSpace_lt hne
    have hlength := length_clean_le (isAbs_iff.mp habs)
    have hsame : (trimmed spec).mountpoint = trimSpace spec.mountpoint := rfl
    rw [hsame, hmount] at hlength
    omega
  · intro hm
    have htrim := trimmed_eq_self h hm
    simp only [normalizeSpec, htrim, h.cleaned, ok_iff, Bool.not_eq_false]
    have hdefaults := defaults_of_checked h.policies
    exact ⟨(), h.texts, (), isAbs_iff.mpr h.rooted, (), h.below, (),
      by rw [hdefaults]; exact h.policies, hdefaults⟩

end normalization

section reload

def Good (e : Sigma fun _ : GoString => Record) : Prop :=
  normalizeSpec e.2.spec = .ok e.2.spec ∧ e.2.spec.id = e.1 ∧ e.2.updatedAt ≠ 0

def viewKeys (file : Persisted) : List GoString :=
  (file.filter fun e => e.2.spec.writePolicy = .writeBack).map fun e => viewKey e.2.spec

def mountpointKeys (file : Persisted) : List GoString :=
  file.map fun e => mountpointKey e.2.spec.mountpoint

variable {next next' : Reload} {file : Persisted}

def withView (spec : Spec) (views : List GoString) : List GoString :=
  if spec.writePolicy = .writeBack then viewKey spec :: views else views

theorem reserveView_eq_ok {id : GoString} {spec : Spec} {views views' : List GoString} :
    reserveView id spec views = .ok views' ↔
      (spec.writePolicy = .writeBack → viewKey spec ∉ views) ∧ views' = withView spec views := by
  unfold reserveView withView
  split_ifs with hwrite
  · simp only [ok_iff, hwrite, true_implies, exists_const]
    exact and_congr_right fun _ => eq_comm
  · simp only [pure_eq_ok, hwrite, false_implies, true_and]
    exact eq_comm

theorem reloadRecord_eq_ok {e : Sigma fun _ : GoString => Record} :
    reloadRecord next e = .ok next' ↔ Good e ∧ mountpointKey e.2.spec.mountpoint ∉ next.reserved ∧
      (e.2.spec.writePolicy = .writeBack → viewKey e.2.spec ∉ next.writableViews) ∧
      next' = ⟨mountpointKey e.2.spec.mountpoint :: next.reserved,
        withView e.2.spec next.writableViews, next.records.insert e.1 e.2⟩ := by
  simp only [reloadRecord, Good, ok_iff, not_or, not_not, reserveView_eq_ok]
  constructor
  · intro h
    obtain ⟨normalized, hnormal, _, ⟨hsame, hid, htime⟩, _, hreserved, _, ⟨hview, rfl⟩, h⟩ := h
    subst hsame
    exact ⟨⟨hnormal, hid, htime⟩, hreserved, hview, h.symm⟩
  · intro h
    obtain ⟨⟨hnormal, hid, htime⟩, hreserved, hview, rfl⟩ := h
    exact ⟨e.2.spec, hnormal, (), ⟨rfl, hid, htime⟩, (), hreserved, _, ⟨hview, rfl⟩, rfl⟩

theorem good_of_foldlM (h : file.foldlM reloadRecord next = .ok next') : ∀ e ∈ file, Good e := by
  induction file generalizing next with
  | nil => simp
  | cons e file ih =>
    rw [List.foldlM_cons, bind_eq_ok] at h
    obtain ⟨next₁, hstep, hrest⟩ := h
    have hgood := (reloadRecord_eq_ok.mp hstep).1
    intro e' he'
    rcases List.mem_cons.mp he' with rfl | he'
    · exact hgood
    · exact ih hrest e' he'

theorem foldlM_reloadRecord (hgood : ∀ e ∈ file, Good e)
    (hmount : (mountpointKeys file ++ next.reserved).Nodup)
    (hviews : (viewKeys file ++ next.writableViews).Nodup) :
    ∃ next', file.foldlM reloadRecord next = .ok next' ∧
      next'.records = insertAll next.records (file.map fun e => (e.1, e.2)) := by
  induction file generalizing next with
  | nil => exact ⟨next, rfl, rfl⟩
  | cons e file ih =>
    have hfresh : mountpointKey e.2.spec.mountpoint ∉ next.reserved := by
      have hcons := List.nodup_cons.mp hmount
      exact fun hm => hcons.1 (List.mem_append_right _ hm)
    have hview : e.2.spec.writePolicy = .writeBack → viewKey e.2.spec ∉ next.writableViews := by
      intro hwrite hm
      rw [viewKeys, List.filter_cons_of_pos (by simpa using hwrite), List.map_cons,
        List.cons_append] at hviews
      exact (List.nodup_cons.mp hviews).1 (List.mem_append_right _ hm)
    have hstep := reloadRecord_eq_ok.mpr ⟨hgood e (by simp), hfresh, hview, rfl⟩
    have hmount' :
      (mountpointKeys file ++ mountpointKey e.2.spec.mountpoint :: next.reserved).Nodup :=
      List.nodup_middle.mpr hmount
    have hviews' : (viewKeys file ++ withView e.2.spec next.writableViews).Nodup := by
      unfold withView
      split_ifs with hwrite
      · rw [viewKeys, List.filter_cons_of_pos (by simpa using hwrite), List.map_cons,
          List.cons_append] at hviews
        exact List.nodup_middle.mpr hviews
      · rw [viewKeys, List.filter_cons_of_neg (by simpa using hwrite)] at hviews
        exact hviews
    obtain ⟨next', hrun, hrecords⟩ := @ih ⟨_, _, next.records.insert e.1 e.2⟩
      (fun e' he' => hgood e' (by simp [he'])) hmount' hviews'
    refine ⟨next', ?_, hrecords⟩
    rw [List.foldlM_cons, hstep]
    exact hrun

theorem lookup_insertAll_entries (state : Registry) (id : GoString) :
    (insertAll (∅ : Registry) (state.entries.map fun e => (e.1, e.2))).lookup id =
      state.lookup id := by
  have hkeys : (state.entries.map fun e => (e.1, e.2)).map Prod.fst = state.keys := by
    simp [AList.keys, List.keys]
  cases hl : state.lookup id with
  | none =>
    rw [lookup_insertAll_of_notMem, AList.lookup_empty]
    rw [hkeys]
    exact AList.lookup_eq_none.mp hl
  | some record =>
    refine lookup_insertAll_of_mem (hkeys ▸ state.nodupKeys) ?_
    exact List.mem_map.mpr ⟨⟨id, record⟩, mem_entries_iff.mpr hl, rfl⟩

end reload

section exclusive

structure Exclusive (state : Registry) : Prop where
  named : ∀ id record, state.lookup id = some record → record.spec.id = id
  normal : ∀ id record, state.lookup id = some record → Normal record.spec
  mountpoints :
    ∀ id id' record record', state.lookup id = some record → state.lookup id' = some record' →
    mountpointKey record.spec.mountpoint = mountpointKey record'.spec.mountpoint → id = id'
  views : ∀ id id' record record', state.lookup id = some record → state.lookup id' = some record' →
    sameWritableView record.spec record'.spec = true → id = id'

variable {state state' : Registry}

theorem Exclusive.congr (h : Exclusive state) (hl : ∀ id, state'.lookup id = state.lookup id) :
    Exclusive state' := by
  refine ⟨fun id record hr => ?_, fun id record hr => ?_, fun id id' record record' hr hr' => ?_,
    fun id id' record record' hr hr' => ?_⟩
  · exact h.named id record (hl id ▸ hr)
  · exact h.normal id record (hl id ▸ hr)
  · exact h.mountpoints id id' record record' (hl id ▸ hr) (hl id' ▸ hr')
  · exact h.views id id' record record' (hl id ▸ hr) (hl id' ▸ hr')

variable {spec : Spec}

theorem Normal.valid (h : Normal spec) :
    validString spec.id = true ∧ validString spec.datasetID = true ∧
      validString spec.branch = true ∧
      validString spec.mountpoint = true ∧ validString spec.trustAlias = true := by
  have htexts := h.texts
  simp only [checkTexts, bind_eq_ok, checkText_eq_ok] at htexts
  obtain ⟨_, hid, _, hdataset, _, hbranch, _, hmountpoint, _, halias, -⟩ := htexts
  exact ⟨hid.2.1, hdataset.2.1, hbranch.2.1, hmountpoint.2.1, halias.2.1⟩

theorem Normal.nul_notMem (h : Normal spec) : Rune.char nul ∉ spec.datasetID := by
  have htexts := h.texts
  simp only [checkTexts, bind_eq_ok, checkText_eq_ok] at htexts
  obtain ⟨_, -, _, hdataset, -⟩ := htexts
  simpa [containsRune] using hdataset.2.2

theorem writeLocked_eq (h : Exclusive state) : writeLocked state = state.entries := by
  refine (List.map_congr_left fun e he => ?_).trans (List.map_id state.entries)
  have hl := mem_entries_iff.mp he
  obtain ⟨hid, hdataset, hbranch, hmountpoint, halias⟩ := (h.normal e.1 e.2 hl).valid
  have hname := h.named e.1 e.2 hl
  have hkey : jsonText e.1 = e.1 := jsonText_eq_self (hname ▸ hid)
  have hrecord : e.2.json = e.2 := by
    rw [Record.json, jsonText_eq_self hid, jsonText_eq_self hdataset, jsonText_eq_self hbranch,
      jsonText_eq_self hmountpoint, jsonText_eq_self halias]
  rw [hkey, hrecord]
  rfl

theorem viewKey_injective {spec' : Spec} (h : Normal spec) (h' : Normal spec')
    (hkey : viewKey spec = viewKey spec') :
    spec.datasetID = spec'.datasetID ∧ spec.branch = spec'.branch := by
  have htake {s t : GoString} (hs : Rune.char nul ∉ s) :
      (s ++ .char nul :: t).takeWhile (fun r => r ≠ .char nul) = s := by
    rw [List.takeWhile_append_of_pos fun r hr => by
      simpa using fun he : r = Rune.char nul => hs (he ▸ hr)]
    simp
  have hdataset : spec.datasetID = spec'.datasetID := by
    have heq := congrArg (List.takeWhile fun r => r ≠ Rune.char nul) hkey
    rwa [viewKey, viewKey, htake h.nul_notMem, htake h'.nul_notMem] at heq
  have hrest :
    spec'.datasetID ++ .char nul :: spec.branch = spec'.datasetID ++ .char nul :: spec'.branch := by
    rw [← hdataset]
    exact hkey.trans (by rw [viewKey, hdataset])
  exact ⟨hdataset, (List.cons.inj (List.append_cancel_left hrest)).2⟩

theorem nodup_entries (state : Registry) : state.entries.Nodup :=
  List.Nodup.of_map Sigma.fst state.nodupKeys

theorem Exclusive.nodup_mountpointKeys (h : Exclusive state) :
    (mountpointKeys state.entries).Nodup := by
  refine (List.nodup_map_iff_inj_on (nodup_entries state)).mpr fun e he e' he' hkey => ?_
  have hl := mem_entries_iff.mp he
  have hl' := mem_entries_iff.mp he'
  have hid := h.mountpoints e.1 e'.1 e.2 e'.2 hl hl' hkey
  exact Sigma.ext hid (heq_of_eq (Option.some.inj (hl.symm.trans (hid ▸ hl'))))

theorem Exclusive.nodup_viewKeys (h : Exclusive state) : (viewKeys state.entries).Nodup := by
  refine (List.nodup_map_iff_inj_on ((nodup_entries state).filter _)).mpr fun e he e' he' hkey => ?_
  obtain ⟨he, hwrite⟩ := List.mem_filter.mp he
  obtain ⟨he', hwrite'⟩ := List.mem_filter.mp he'
  have hl := mem_entries_iff.mp he
  have hl' := mem_entries_iff.mp he'
  obtain ⟨hdataset, hbranch⟩ := viewKey_injective (h.normal _ _ hl) (h.normal _ _ hl') hkey
  have hsame : sameWritableView e.2.spec e'.2.spec = true := by
    simp only [decide_eq_true_eq] at hwrite hwrite'
    simp [sameWritableView, hwrite, hwrite', hdataset, hbranch]
  have hid := h.views e.1 e'.1 e.2 e'.2 hl hl' hsame
  exact Sigma.ext hid (heq_of_eq (Option.some.inj (hl.symm.trans (hid ▸ hl'))))

def Accepted (file : Persisted) : Prop :=
  ∃ state, reloadLocked (some file) = .ok state ∧ ∀ id, state.lookup id = file.dlookup id

theorem accepted_iff (h : Exclusive state) :
    Accepted (writeLocked state) ↔ ∀ id record, state.lookup id = some record →
      trimSpace record.spec.mountpoint = record.spec.mountpoint ∧ record.updatedAt ≠ 0 := by
  have hgood (e : Sigma fun _ : GoString => Record) (he : e ∈ state.entries) :
      Good e ↔ trimSpace e.2.spec.mountpoint = e.2.spec.mountpoint ∧ e.2.updatedAt ≠ 0 := by
    have hl := mem_entries_iff.mp he
    rw [Good, normalizeSpec_fixed_iff (h.normal _ _ hl)]
    exact and_congr_right fun _ => ⟨fun hg => hg.2, fun ht => ⟨h.named _ _ hl, ht⟩⟩
  rw [writeLocked_eq h]
  constructor
  · intro haccepted id record hl
    obtain ⟨next, hreload, -⟩ := haccepted
    simp only [reloadLocked, bind_eq_ok] at hreload
    obtain ⟨_, hfold, -⟩ := hreload
    have he : (⟨id, record⟩ : Sigma fun _ : GoString => Record) ∈ state.entries :=
      mem_entries_iff.mpr hl
    exact (hgood _ he).mp (good_of_foldlM hfold _ he)
  · intro hall
    have hrecords : ∀ e ∈ state.entries, Good e :=
      fun e he => (hgood e he).mpr (hall _ _ (mem_entries_iff.mp he))
    obtain ⟨next, hfold, hnext⟩ := @foldlM_reloadRecord ⟨[], [], ∅⟩ state.entries hrecords
      (by simpa using h.nodup_mountpointKeys) (by simpa using h.nodup_viewKeys)
    refine ⟨next.records, ?_, fun id => ?_⟩
    · simp only [reloadLocked, ok_iff]
      exact ⟨next, hfold, rfl⟩
    · rw [hnext]
      exact lookup_insertAll_entries state id

end exclusive

section runs

inductive Call where
  | put (spec : Spec) (now : Int)
  | mark (id : GoString) (now : Int)
  | delete (id : GoString)

def Call.exec (call : Call) (fault : Fault) (disk : Option Persisted) : Option Persisted :=
  match call with
  | .put spec now => (putDesired fault spec now disk).1
  | .mark id now => (markPendingUnmount fault id now disk).1
  | .delete id => (deleteUnmounted fault id disk).1

def Call.next (call : Call) (state : Registry) : Except MountError Registry :=
  match call with
  | .put spec now => do
    let spec ← normalizeSpec spec
    (reserve spec now state).map Prod.fst
  | .mark id now => (tombstone (trimSpace id) now state).map Prod.fst
  | .delete id => (remove (trimSpace id) state).map Prod.fst

/-- The file after calls of all processes, one after another, each of which may
fail on the disk. -/
def run (calls : List (Call × Fault)) : Option Persisted :=
  calls.foldl (fun disk c => c.1.exec c.2 disk) none

def Persists (call : Call) (fault : Fault) (disk : Option Persisted) (state' : Registry) : Prop :=
  fault ≠ .aborted ∧ ∃ state, reloadLocked disk = .ok state ∧ call.next state = .ok state'

variable {call : Call} {fault : Fault} {disk : Option Persisted} {state state' : Registry}

theorem update_of_edit {α : Type} {edit : LockedFile.Edit Registry MountError α}
    (hfault : fault ≠ .aborted)
    (hread : reloadLocked disk = .ok state) (hedit : (edit state).map Prod.fst = .ok state') :
    (store.update fault edit disk).1 = some (writeLocked state') := by
  obtain ⟨⟨s, a⟩, hok, rfl⟩ := map_eq_ok.mp hedit
  rw [store.update_of_ok hfault hread hok rfl]

theorem update_of_not_edit {α : Type} {edit : LockedFile.Edit Registry MountError α}
    (h : ∀ state', ¬ (fault ≠ .aborted ∧ ∃ state, reloadLocked disk = .ok state ∧
      (edit state).map Prod.fst = .ok state')) :
    (store.update fault edit disk).1 = disk := by
  by_cases hfault : fault = .aborted
  · rw [hfault, store.update_aborted]
  · rcases store.update_cases fault edit disk with ⟨hsame, -⟩ | ⟨s, s', -, a, hread, hedit, -⟩
    · exact hsame
    · exact absurd ⟨hfault, s, hread, map_eq_ok.mpr ⟨_, hedit, rfl⟩⟩ (h s')

theorem exec_of_persists (h : Persists call fault disk state') :
    call.exec fault disk = some (writeLocked state') := by
  obtain ⟨hfault, state, hread, hnext⟩ := h
  cases call with
  | put spec now =>
    simp only [Call.next, bind_eq_ok] at hnext
    obtain ⟨normal, hnormal, hnext⟩ := hnext
    simp only [Call.exec, putDesired, hnormal]
    exact update_of_edit hfault hread hnext
  | mark id now => exact update_of_edit hfault hread hnext
  | delete id => exact update_of_edit hfault hread hnext

theorem exec_of_not_persists (h : ∀ state', ¬ Persists call fault disk state') :
    call.exec fault disk = disk := by
  cases call with
  | put spec now =>
    cases hnormal : normalizeSpec spec with
    | error e => simp [Call.exec, putDesired, hnormal]
    | ok normal =>
      simp only [Call.exec, putDesired, hnormal]
      refine update_of_not_edit fun state' hedit => h state' ?_
      obtain ⟨hfault, state, hread, hnext⟩ := hedit
      exact ⟨hfault, state, hread, bind_eq_ok.mpr ⟨normal, hnormal, hnext⟩⟩
  | mark id now => exact update_of_not_edit h
  | delete id => exact update_of_not_edit h

theorem exclusive_empty : Exclusive ∅ := by
  constructor <;> simp

theorem Exclusive.erase (h : Exclusive state) (id : GoString) : Exclusive (state.erase id) := by
  have hkept (k : GoString) (record : Record) (hr : (state.erase id).lookup k = some record) :
      state.lookup k = some record := by
    rw [lookup_erase_eq] at hr
    split_ifs at hr
    exact hr
  refine ⟨fun k record hr => ?_, fun k record hr => ?_, fun k k' record record' hr hr' => ?_,
    fun k k' record record' hr hr' => ?_⟩
  · exact h.named k record (hkept k record hr)
  · exact h.normal k record (hkept k record hr)
  · exact h.mountpoints k k' record record' (hkept k record hr) (hkept k' record' hr')
  · exact h.views k k' record record' (hkept k record hr) (hkept k' record' hr')

theorem sameWritableView_comm (left right : Spec) :
    sameWritableView left right = sameWritableView right left := by
  rw [Bool.eq_iff_iff]
  simp only [sameWritableView, Bool.and_eq_true, decide_eq_true_eq]
  constructor
  · intro h
    exact ⟨⟨⟨h.1.1.2, h.1.1.1⟩, h.1.2.symm⟩, h.2.symm⟩
  · intro h
    exact ⟨⟨⟨h.1.1.2, h.1.1.1⟩, h.1.2.symm⟩, h.2.symm⟩

theorem Exclusive.insert (h : Exclusive state) (record : Record) (hnormal : Normal record.spec)
    (hother : ∀ id other, state.lookup id = some other → id ≠ record.spec.id →
      mountpointKey other.spec.mountpoint ≠ mountpointKey record.spec.mountpoint ∧
        sameWritableView other.spec record.spec = false) :
    Exclusive (state.insert record.spec.id record) := by
  have hcases (k : GoString) (r : Record)
    (hr : (state.insert record.spec.id record).lookup k = some r) :
      (k = record.spec.id ∧ r = record) ∨ (k ≠ record.spec.id ∧ state.lookup k = some r) := by
    rw [lookup_insert_eq] at hr
    split_ifs at hr with hk
    · exact .inl ⟨hk, (Option.some.inj hr).symm⟩
    · exact .inr ⟨hk, hr⟩
  refine ⟨fun k r hr => ?_, fun k r hr => ?_, fun k k' r r' hr hr' hkey => ?_,
    fun k k' r r' hr hr' hview => ?_⟩
  · rcases hcases k r hr with ⟨rfl, rfl⟩ | ⟨-, hl⟩
    · rfl
    · exact h.named k r hl
  · rcases hcases k r hr with ⟨rfl, rfl⟩ | ⟨-, hl⟩
    · exact hnormal
    · exact h.normal k r hl
  · rcases hcases k r hr with ⟨hk, rfl⟩ | ⟨hk, hl⟩ <;>
      rcases hcases k' r' hr' with ⟨hk', rfl⟩ | ⟨hk', hl'⟩
    · exact hk.trans hk'.symm
    · exact absurd hkey.symm (hother k' r' hl' hk').1
    · exact absurd hkey (hother k r hl hk).1
    · exact h.mountpoints k k' r r' hl hl' hkey
  · rcases hcases k r hr with ⟨hk, rfl⟩ | ⟨hk, hl⟩ <;>
      rcases hcases k' r' hr' with ⟨hk', rfl⟩ | ⟨hk', hl'⟩
    · exact hk.trans hk'.symm
    · rw [sameWritableView_comm, (hother k' r' hl' hk').2] at hview
      cases hview
    · rw [(hother k r hl hk).2] at hview
      cases hview
    · exact h.views k k' r r' hl hl' hview

theorem next_cases (h : call.next state = .ok state') (hs : Exclusive state) :
    (∃ id, call = .delete id ∧ state' = state.erase (trimSpace id)) ∨
      ∃ record, state' = state.insert record.spec.id record ∧ Exclusive state' ∧
        ((∃ spec, call = .put spec record.updatedAt ∧ normalizeSpec spec = .ok record.spec) ∨
          ∃ id existing, call = .mark id record.updatedAt ∧ state.lookup (trimSpace id) =
            some existing ∧ record.spec = existing.spec) := by
  cases call with
  | put spec now =>
    right
    simp only [Call.next, ok_iff, map_eq_ok, reserve, forM_eq_ok] at h
    obtain ⟨normal, hnormal, ⟨_, record⟩, ⟨_, -, _, hothers, _, -, heq⟩, rfl⟩ := h
    cases heq
    refine ⟨⟨normal, true, now⟩, rfl,
      hs.insert ⟨normal, true, now⟩ (normalizeSpec_normal hnormal) ?_, .inl ⟨spec, rfl, hnormal⟩⟩
    intro id other hl hid
    have hother := hothers ⟨id, other⟩ (mem_entries_iff.mpr hl)
    simp only [checkOther, ok_iff, not_and, Bool.not_eq_true, exists_const] at hother
    exact ⟨hother.1 hid, hother.2 hid⟩
  | mark id now =>
    right
    simp only [Call.next, ok_iff, map_eq_ok, tombstone] at h
    obtain ⟨⟨_, record⟩, ⟨existing, hl, _, -, heq⟩, rfl⟩ := h
    cases heq
    have hname := hs.named _ _ hl
    have hnormal := hs.normal _ _ hl
    refine ⟨⟨existing.spec, false, now⟩, by rw [← hname], ?_, .inr ⟨id, existing, rfl, hl, rfl⟩⟩
    rw [← hname]
    refine hs.insert ⟨existing.spec, false, now⟩ hnormal fun id' other hl' hid => ?_
    refine ⟨fun hkey => hid ?_, Bool.eq_false_iff.mpr fun hview => hid ?_⟩
    · exact (hs.mountpoints id' (trimSpace id) other existing hl' hl hkey).trans hname.symm
    · exact (hs.views id' (trimSpace id) other existing hl' hl hview).trans hname.symm
  | delete id =>
    left
    simp only [Call.next, ok_iff, map_eq_ok, remove] at h
    obtain ⟨⟨_, _⟩, ⟨existing, hl, _, -, heq⟩, rfl⟩ := h
    cases heq
    exact ⟨id, rfl, rfl⟩

theorem exclusive_next (h : call.next state = .ok state') (hs : Exclusive state) :
    Exclusive state' := by
  rcases next_cases h hs with ⟨id, -, rfl⟩ | ⟨record, -, hs', -⟩
  · exact hs.erase _
  · exact hs'

/-- A call after which the registry can be read: the mountpoint that it stores
has no space at an end, and the clock does not read the zero time. -/
def Storable : Call → Prop
  | .put raw now =>
    (∀ spec, normalizeSpec raw = .ok spec → trimSpace spec.mountpoint = spec.mountpoint) ∧ now ≠ 0
  | .mark _ now => now ≠ 0
  | .delete _ => True

def Legible (state : Registry) : Prop :=
  ∀ id record, state.lookup id = some record →
    trimSpace record.spec.mountpoint = record.spec.mountpoint ∧ record.updatedAt ≠ 0

theorem legible_insert_iff (h : Legible state) (id : GoString) (record : Record) :
    Legible (state.insert id record) ↔
      trimSpace record.spec.mountpoint = record.spec.mountpoint ∧ record.updatedAt ≠ 0 := by
  constructor
  · intro hl
    exact hl id record (by rw [lookup_insert_eq, if_pos rfl])
  · intro hrecord k r hr
    rw [lookup_insert_eq] at hr
    split_ifs at hr
    · exact Option.some.inj hr ▸ hrecord
    · exact h k r hr

theorem legible_next_iff (h : call.next state = .ok state') (hs : Exclusive state)
    (hlegible : Legible state) : Legible state' ↔ Storable call := by
  rcases next_cases h hs with ⟨id, rfl, rfl⟩ | ⟨record, rfl, -,
    ⟨spec, rfl, hnormal⟩ | ⟨id, existing, rfl, hl, hspec⟩⟩
  · refine iff_of_true (fun k r hr => ?_) trivial
    rw [lookup_erase_eq] at hr
    split_ifs at hr
    exact hlegible k r hr
  · rw [legible_insert_iff hlegible]
    refine and_congr_left fun _ => ⟨fun htrim spec' hspec' => ?_, fun hall => hall _ hnormal⟩
    rw [hnormal] at hspec'
    exact Except.ok.inj hspec' ▸ htrim
  · rw [legible_insert_iff hlegible, hspec]
    exact and_iff_right (hlegible _ _ hl).1

def Sane (disk : Option Persisted) : Prop :=
  ∀ file, disk = some file → ∃ state, Exclusive state ∧ file = writeLocked state

theorem reload_of_sane (hdisk : Sane disk) (h : reloadLocked disk = .ok state) :
    Exclusive state ∧ Legible state := by
  cases disk with
  | none =>
    cases h
    exact ⟨exclusive_empty, fun id record hl => by simp at hl⟩
  | some file =>
    obtain ⟨stored, hs, rfl⟩ := hdisk file rfl
    have hlegible : Legible stored := by
      intro id record hl
      simp only [reloadLocked, bind_eq_ok] at h
      obtain ⟨_, hfold, -⟩ := h
      have he : (⟨id, record⟩ : Sigma fun _ : GoString => Record) ∈ writeLocked stored := by
        rw [writeLocked_eq hs]
        exact mem_entries_iff.mpr hl
      have hgood := good_of_foldlM hfold _ he
      exact ⟨(normalizeSpec_fixed_iff (hs.normal id record hl)).mp hgood.1, hgood.2.2⟩
    obtain ⟨read, hread, hsame⟩ := (accepted_iff hs).mpr hlegible
    obtain rfl := Except.ok.inj (hread.symm.trans h)
    have hlookup (id : GoString) : read.lookup id = stored.lookup id := by
      rw [hsame, writeLocked_eq hs]
      rfl
    refine ⟨hs.congr hlookup, fun id record hl => hlegible id record ?_⟩
    rw [← hlookup]
    exact hl

theorem sane_exec (h : Sane disk) : Sane (call.exec fault disk) := by
  by_cases hpersists : ∃ state', Persists call fault disk state'
  · obtain ⟨state', hpersists⟩ := hpersists
    rw [exec_of_persists hpersists]
    obtain ⟨-, state, hread, hnext⟩ := hpersists
    have hs' := exclusive_next hnext (reload_of_sane h hread).1
    intro file hfile
    exact ⟨state', hs', (Option.some.inj hfile).symm⟩
  · rw [exec_of_not_persists fun state' hp => hpersists ⟨state', hp⟩]
    exact h

theorem run_append_one (calls : List (Call × Fault)) (call : Call) (fault : Fault) :
    run (calls ++ [(call, fault)]) = call.exec fault (run calls) := by
  rw [run, List.foldl_append]
  rfl

theorem sane_run (calls : List (Call × Fault)) : Sane (run calls) := by
  induction calls using List.reverseRecOn with
  | nil =>
    intro file hfile
    cases hfile
  | append_singleton calls c ih =>
    rw [run_append_one]
    exact sane_exec ih

theorem accepted_of_persists (hdisk : Sane disk) (h : Persists call fault disk state') :
    Accepted (writeLocked state') ↔ Storable call := by
  obtain ⟨-, state, hread, hnext⟩ := h
  obtain ⟨hs, hlegible⟩ := reload_of_sane hdisk hread
  rw [accepted_iff (exclusive_next hnext hs)]
  exact legible_next_iff hnext hs hlegible

theorem accepted_run {calls : List (Call × Fault)}
    (h : ∀ before call fault after state', calls = before ++ (call, fault) :: after →
      Persists call fault (run before) state' → Storable call) :
    ∀ file, run calls = some file → Accepted file := by
  induction calls using List.reverseRecOn with
  | nil =>
    intro file hfile
    cases hfile
  | append_singleton calls c ih =>
    obtain ⟨call, fault⟩ := c
    intro file hfile
    rw [run_append_one] at hfile
    by_cases hpersists : ∃ state', Persists call fault (run calls) state'
    · obtain ⟨state', hpersists⟩ := hpersists
      rw [exec_of_persists hpersists] at hfile
      have hstorable := h calls call fault [] state' rfl hpersists
      rw [← Option.some.inj hfile]
      exact (accepted_of_persists (sane_run calls) hpersists).mpr hstorable
    · rw [exec_of_not_persists fun state' hp => hpersists ⟨state', hp⟩] at hfile
      refine ih (fun before call' fault' after state' hcalls => ?_) file hfile
      have hcalls' :
        calls ++ [(call, fault)] = before ++ (call', fault') :: (after ++ [(call, fault)]) := by
        rw [hcalls]
        simp
      exact h before call' fault' _ state' hcalls'

/-- The file that calls leave is exclusive. It can be read back, and with it all
the files before it, exactly if the calls that wrote them are storable; and
a normalized specification is a fixed point exactly if its mountpoint has no
space at an end. -/
theorem registry_accepted_iff (calls : List (Call × Fault)) :
    ((∀ before, before <+: calls → ∀ file, run before = some file → Accepted file) ↔
      ∀ before call fault after state', calls = before ++ (call, fault) :: after →
        Persists call fault (run before) state' → Storable call) ∧
    (∀ file, run calls = some file →
      (mountpointKeys file).Nodup ∧
        ∀ e ∈ file, ∀ e' ∈ file, sameWritableView e.2.spec e'.2.spec = true → e = e') ∧
    ∀ raw spec, normalizeSpec raw = .ok spec →
      (normalizeSpec spec = .ok spec ↔ trimSpace spec.mountpoint = spec.mountpoint) := by
  refine ⟨⟨fun hall before call fault after state' hcalls hpersists => ?_,
    fun h before hbefore => ?_⟩, fun file hfile => ?_, fun raw spec hspec => normalizeSpec_fixed_iff
      (normalizeSpec_normal hspec)⟩
  · have hprefix : before ++ [(call, fault)] <+: calls := ⟨after, by simp [hcalls]⟩
    have haccepted :=
      hall _ hprefix (writeLocked state') (by rw [run_append_one, exec_of_persists hpersists])
    exact (accepted_of_persists (sane_run before) hpersists).mp haccepted
  · obtain ⟨rest, rfl⟩ := hbefore
    refine accepted_run fun before' call fault after state' hcalls => ?_
    exact h before' call fault (after ++ rest) state' (by simp [hcalls])
  · obtain ⟨state, hs, rfl⟩ := sane_run calls file hfile
    rw [writeLocked_eq hs]
    refine ⟨hs.nodup_mountpointKeys, fun e he e' he' hview => ?_⟩
    have hl := mem_entries_iff.mp he
    have hl' := mem_entries_iff.mp he'
    have hid := hs.views e.1 e'.1 e.2 e'.2 hl hl' hview
    exact Sigma.ext hid (heq_of_eq (Option.some.inj (hl.symm.trans (hid ▸ hl'))))

def spaced : Spec :=
  { id := text "m", datasetID := text "d", branch := text "b", mountpoint := text "/m /",
    trustAlias := text "t"
    cachePolicy := .unset, writePolicy := .unset, layoutPolicy := .unset, encryptionEpoch := 0
    conflictPolicy := .unset }

/-- The mountpoint is accepted and stored, and no registry is read after it. -/
theorem reload_rejects_spaced :
    ∃ spec, (putDesired .none spaced 1 none).2 = .ok ⟨spec, true, 1⟩ ∧
      normalizeSpec spec ≠ .ok spec ∧
      ∃ e, reloadLocked (run [(.put spaced 1, .none)]) = .error e := by
  refine ⟨{ spaced with
      mountpoint := text "/m "
      cachePolicy := .verified
      writePolicy := .readOnly
      conflictPolicy := .failReadOnly }, ?_, ?_,
    .message "mount record %s has invalid persisted identity or timestamp" [text "m"], ?_⟩
  · decide +kernel
  · decide +kernel
  · decide +kernel

end runs

end MaltClient.Mount
