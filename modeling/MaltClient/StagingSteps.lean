import MaltClient.JournalRuns
import MaltClient.StagingListing

/-! What one staging call does to the files of the service: to the bodies in
the cache, to the list of operations of a view, and when its checks pass. -/

namespace MaltClient.Staging

open GoText Checked AssocMap
open Journal (Operation PersistedState Intent)
open Planner (Means OperationPath)
open StagedPath (PathName)
open PathFs (Fs Op)

variable {op : Operation}

theorem sortOperations_cons_max {l : List Operation} (h : ∀ o ∈ l, o.sequence < op.sequence) :
    sortOperations (op :: l) = sortOperations l ++ [op] := by
  have hmax : ∀ o ∈ sortOperations l, o.sequence < op.sequence :=
    fun o ho => h o ((List.mem_insertionSort _).mp ho)
  change List.orderedInsert _ op (sortOperations l) = _
  generalize sortOperations l = m at hmax
  induction m with
  | nil => rfl
  | cons o m ih =>
    have hnot : ¬ op.sequence ≤ o.sequence := UInt64.not_le.mpr (hmax o (by simp))
    rw [List.orderedInsert_cons, if_neg hnot, ih fun x hx => hmax x (by simp [hx])]
    rfl

instance : Std.Total fun a b : Operation => a.sequence ≤ b.sequence :=
  ⟨fun a b => UInt64.le_total a.sequence b.sequence⟩

instance : IsTrans Operation fun a b => a.sequence ≤ b.sequence := ⟨fun _ _ _ => UInt64.le_trans⟩

theorem sortOperations_filter (p : Operation → Bool) (l : List Operation) :
    sortOperations ((sortOperations l).filter p) = (sortOperations l).filter p :=
  ((List.pairwise_insertionSort _ l).filter p).insertionSort_eq

theorem canonicalPath_eq_ok {raw canonical : GoString}
    (h : canonicalPath raw false = .ok canonical) : ∃ p, OperationPath p ∧ canonical = join p := by
  simp only [canonicalPath, Bool.false_eq_true, and_false, if_false, ok_iff] at h
  obtain ⟨p, hp, -, hne, rfl⟩ := h
  have hparse : StagedPath.parseCanonicalStagedPath raw = .ok p := by
    cases hx : StagedPath.parseCanonicalStagedPath raw with
    | error e => simp [hx] at hp
    | ok q => simpa [hx, Except.mapError] using hp
  exact ⟨p, ⟨hne, (StagedPath.staged_of_parse hparse).2⟩, rfl⟩

theorem trimSpace_path {p : List GoString} (h : OperationPath p) : trimSpace (join p) = join p :=
  trimSpace_join fun n hn => ⟨(h.plain n hn).1, (h.staged n hn).trimmed⟩

theorem trimSpace_identity {name : String} {value : GoString} {u : Unit}
    (h : validateIdentity name value = .ok u) : trimSpace value = value := by
  simp only [validateIdentity, reject_eq_ok, not_or, not_not] at h
  exact h.2.1

variable [CidFormat]

variable {view v : View} {root : Cid} {env : Env} {o : Operation}

theorem operations_eq_ok {disk : Option PersistedState} {L : List Operation} :
    operations disk view = .ok L ↔ ∃ root s, validateView view = .ok root ∧
      Journal.reloadLocked disk = .ok s ∧
      L = (sortOperations (s.operations.entries.map Sigma.snd)).filter (belongsTo view root) := by
  simp only [operations, listOperations, ok_iff]
  constructor
  · rintro ⟨root, hroot, _, ⟨s, hs, rfl⟩, rfl⟩
    exact ⟨root, s, hroot, hs, sortOperations_filter _ _⟩
  · rintro ⟨root, s, hroot, hs, rfl⟩
    exact ⟨root, hroot, _, ⟨s, hs, rfl⟩, sortOperations_filter _ _⟩

theorem sorted_add {s : PersistedState} (hs : Journal.Readable s)
    (hnew : s.operations.lookup op.operationID = none) (hseq : op.sequence = s.nextSequence) :
    (sortOperations ((s.add op).operations.entries.map Sigma.snd)).filter (belongsTo view root) =
      (sortOperations (s.operations.entries.map Sigma.snd)).filter (belongsTo view root) ++
        if belongsTo view root op then [op] else [] := by
  have hkey : op.operationID ∉ s.operations := AList.lookup_eq_none.mp hnew
  have hentries : (s.add op).operations.entries = ⟨op.operationID, op⟩ :: s.operations.entries :=
    AList.entries_insert_of_notMem hkey
  have hlt : ∀ o ∈ s.operations.entries.map Sigma.snd, o.sequence < op.sequence := by
    intro o ho
    obtain ⟨e, he, rfl⟩ := List.mem_map.mp ho
    rw [hseq]
    exact (hs.record e.1 e.2 (mem_entries_iff.mp he)).sequence
  rw [hentries, List.map_cons, sortOperations_cons_max hlt, List.filter_append]
  cases hb : belongsTo view root op <;> simp [hb]

theorem operations_appendJournal {intent : Intent} {offline : Bool} {disk : Disk}
    {L' : List Operation} (hi : intent.Normal)
    (hL : operations (appendJournal env intent offline disk).1.journal view = .ok L') :
    ∃ L, operations disk.journal view = .ok L ∧ (L' = L ∨ ∃ op root, op.toIntent = intent ∧
      L' = L ++ [op] ∧ validateView view = .ok root ∧ belongsTo view root op = true) := by
  unfold appendJournal at hL
  cases ha : Journal.append intent (initialStatus offline) env.now with
  | error e => exact ⟨L', by simpa [ha] using hL, .inl rfl⟩
  | ok edit =>
    simp only [ha] at hL
    simp only [Journal.append, Journal.normalizeIntent_of_normal hi, ok_iff, Except.ok.injEq] at ha
    obtain ⟨_, rfl, _, hinit, rfl⟩ := ha
    have hinitial := Journal.initial_of_ok hinit
    rcases Journal.store.update_cases env.journalFault (Journal.appendLocked env.now intent
      (initialStatus offline))
      disk.journal with ⟨hsame, -⟩ | ⟨s, s', w, op, hr, he, hw, hdisk, -⟩
    · exact ⟨L', by simpa [hsame] using hL, .inl rfl⟩
    rw [hdisk] at hL
    have hs := Journal.readable_of_reload hr
    obtain ⟨hsound, -⟩ := Journal.appendLocked_readable_iff hs hi hinitial he
    obtain rfl := Journal.writeLocked_of_sound hsound hw
    obtain ⟨root, t, hroot, ht, rfl⟩ := operations_eq_ok.mp hL
    obtain rfl := Journal.reload_eq_of_sound hsound ht
    refine ⟨_, operations_eq_ok.mpr ⟨root, s, hroot, hr, rfl⟩, ?_⟩
    rcases Journal.appendLocked_cases he with ⟨-, -, hsame⟩ | ⟨habs, -, -, hop, hadd⟩
    · exact .inl (by rw [hsame])
    · have hnew : s.operations.lookup op.operationID = none := by
        rw [hop]
        exact habs
      have hseq : op.sequence = s.nextSequence := by
        rw [hop]
        rfl
      rw [hadd, sorted_add hs hnew hseq]
      cases hb : belongsTo view root op with
      | false => exact .inl (by simp)
      | true => exact .inr ⟨op, root, by rw [hop]; rfl, by simp, hroot, hb⟩

theorem cache_appendJournal (env : Env) (intent : Intent) (offline : Bool) (disk : Disk) :
    (appendJournal env intent offline disk).1.cache = disk.cache := by
  unfold appendJournal
  split <;> rfl

structure IntentOf (view : View) (root : Cid) (i : Intent) : Prop where
  normal : i.Normal
  datasetID : i.datasetID = view.datasetID
  branch : i.branch = view.branch
  baseRoot : i.baseRoot = root.spelling
  baseRevision : i.baseRevision = view.revision
  encryptionEpoch : i.encryptionEpoch = view.encryptionEpoch

theorem validateView_eq_ok (h : validateView view = .ok root) :
    trimSpace view.datasetID = view.datasetID ∧ trimSpace view.branch = view.branch ∧ view.root =
      some root := by
  simp only [validateView, ok_iff] at h
  obtain ⟨_, hd, _, hb, hr⟩ := h
  exact ⟨trimSpace_identity hd, trimSpace_identity hb, hr⟩

theorem newIntent_eq_ok {kind : Journal.Kind}
    {path destination payload : GoString} {i : Intent} (hv : validateView view = .ok root)
    (h : newIntent env view root kind path destination payload = .ok i) :
    IntentOf view root i ∧ i.kind = kind ∧ i.path = trimSpace path ∧ i.destination =
      trimSpace destination ∧
      (kind = .write → Journal.parseCid (trimSpace payload) = .ok i.payloadCID) := by
  unfold newIntent at h
  cases hn : Journal.normalizeIntent
    { operationID := env.operationID, retryID := env.retryID, datasetID := view.datasetID,
      branch := view.branch,
      baseRoot := root.spelling, baseRevision := view.revision, kind := kind, path := path,
      destination := destination, payloadCID := payload,
        encryptionEpoch := view.encryptionEpoch } with
  | error e => simp [hn, Except.mapError] at h
  | ok j =>
    obtain rfl : j = i := by simpa [hn, Except.mapError] using h
    obtain ⟨hd, hb, -⟩ := validateView_eq_ok hv
    obtain ⟨heq, hroot, hpay⟩ := Journal.normalizeIntent_eq hn
    have hbase : j.baseRoot = root.spelling := by
      have hc := CidFormat.canonical_trimmed root.canonical
      rw [Journal.parseCid, required_eq_ok, hc, root.canonical] at hroot
      exact (Option.some.inj hroot).symm
    refine ⟨⟨Journal.normal_of_normalizeIntent hn, ?_, ?_, hbase, ?_, ?_⟩, ?_, ?_, ?_, hpay⟩
    · rw [heq]
      exact hd
    · rw [heq]
      exact hb
    all_goals
      rw [heq]
      rfl

theorem view_eq_of_belongsTo {v' : View} {root' : Cid} (hv : validateView v = .ok root)
    (hv' : validateView v' = .ok root') (hi : IntentOf v' root' o.toIntent)
    (hb : belongsTo v root o = true) : v = v' := by
  simp only [belongsTo, Bool.and_eq_true, decide_eq_true_eq] at hb
  obtain ⟨⟨⟨⟨⟨-, hd⟩, hbr⟩, hroot⟩, hrev⟩, hep⟩ := hb
  obtain ⟨-, -, hr⟩ := validateView_eq_ok hv
  obtain ⟨-, -, hr'⟩ := validateView_eq_ok hv'
  have hspell : root.spelling = root'.spelling := hroot.symm.trans hi.baseRoot
  have hroots : root = root' := by
    cases root
    cases root'
    cases hspell
    rfl
  have hsame : v.root = v'.root := by rw [hr, hr', hroots]
  cases v
  cases v'
  simp only [View.mk.injEq]
  exact ⟨hd.symm.trans hi.datasetID, hbr.symm.trans hi.branch, hsame,
    hrev.symm.trans hi.baseRevision, hep.symm.trans hi.encryptionEpoch⟩

theorem bindingFromOperation_of_intent {payload : Cid} (hv : validateView v = .ok root)
    (hi : IntentOf v root o.toIntent) (hp : o.payloadCID = payload.spelling) :
    bindingFromOperation o = bindingFor v payload := by
  obtain ⟨-, -, hr⟩ := validateView_eq_ok hv
  simp [bindingFromOperation, bindingFor, hi.datasetID, hi.branch, hi.baseRoot, hi.baseRevision,
    hi.encryptionEpoch, hp, hr, Cid.parse_spelling]

variable [PayloadHash] {κ : Type} {ofPayload : Cid → κ}

def Journals (ofPayload : Cid → κ) (i : Intent) (op : Op GoString κ) : Prop :=
  ∀ o : Operation, o.toIntent = i → Means ofPayload o op

section

variable {service : Service} {cache : Cache.Store} {view : View} {F : Fs GoString κ}
  {L : List Operation} {ops : List (Op GoString κ)}

theorem Overlay.wellFormed (h : Overlay service cache view F ofPayload L ops) :
    PathFs.WellFormed (replayed F ops) := h.serves.wellFormed.after h.valid

variable {p : List GoString} {u : Unit}

theorem Overlay.statAt_ok (h : Overlay service cache view F ofPayload L ops) {info : Info}
    (hp : ∀ n ∈ p, PathName n) (hs : statAt service cache view L L.length (join p) = .ok info) :
    ∃ e, replayed F ops p = some e ∧ info.kind = kindOf e := by
  simp only [statAt, ok_iff] at hs
  obtain ⟨node, hnode, rfl⟩ := hs
  cases he : replayed F ops p with
  | none =>
    obtain ⟨err, herr⟩ := h.resolveAt_none hp he
    simp [herr] at hnode
  | some e =>
    obtain ⟨node', hnode', hshows⟩ := h.resolveAt_some hp he
    obtain rfl := Except.ok.inj (hnode.symm.trans hnode')
    exact ⟨e, rfl, hshows.kind⟩

theorem Overlay.statAt_error (h : Overlay service cache view F ofPayload L ops) {err : FsError}
    (hp : ∀ n ∈ p, PathName n) (hs : statAt service cache view L L.length (join p) = .error err) :
    replayed F ops p = none := by
  cases he : replayed F ops p with
  | none => rfl
  | some e =>
    obtain ⟨node, hnode, -⟩ := h.resolveAt_some hp he
    simp [statAt, hnode, bind, Except.bind, pure, Except.pure] at hs

theorem Overlay.hasParent (h : Overlay service cache view F ofPayload L ops)
    (hp : OperationPath p) (hs : requireParentDirectory service cache view L (join p) = .ok u) :
    PathFs.HasParent (replayed F ops) p := by
  obtain ⟨q, n, rfl⟩ := (List.eq_nil_or_concat' p).resolve_left hp.ne_nil
  have hnames := hp.pathName
  simp only [requireParentDirectory, parent_join fun m hm => (hnames m hm).name, ok_iff,
    not_not] at hs
  obtain ⟨info, hinfo, hdir⟩ := hs
  obtain ⟨e, he, hkind⟩ := h.statAt_ok (fun m hm => hnames m (List.mem_append_left _ hm)) hinfo
  rw [hdir, eq_comm, kindOf_eq_dir] at hkind
  exact ⟨q, n, rfl, by rw [he, hkind]⟩

theorem Overlay.childless (h : Overlay service cache view F ofPayload L ops)
    (hp : ∀ n ∈ p, PathName n) (hdir : replayed F ops p = some .dir)
    (hs : readDirAt service cache view L (join p) = .ok []) :
    PathFs.Childless (replayed F ops) p := by
  obtain ⟨entries, hentries, hlist⟩ := h.readDirAt_eq hp hdir
  obtain rfl := Except.ok.inj (hs.symm.trans hentries)
  intro n
  cases he : replayed F ops (p ++ [n]) with
  | none => rfl
  | some e => simpa using (hlist.exact n (kindOf e)).mpr ⟨e, he, rfl⟩

theorem Overlay.target (h : Overlay service cache view F ofPayload L ops) (hp : OperationPath p)
    {check : Info → Except FsError Unit}
    (hs : admitTarget (statAt service cache view L L.length (join p)) check = .ok u) :
    replayed F ops p = none ∨ ∃ e info, replayed F ops p = some e ∧ info.kind = kindOf e ∧
      check info = .ok u := by
  cases hstat : statAt service cache view L L.length (join p) with
  | error e => exact .inl (h.statAt_error hp.pathName hstat)
  | ok info =>
    obtain ⟨e, he, hkind⟩ := h.statAt_ok hp.pathName hstat
    exact .inr ⟨e, info, he, hkind, by simpa [hstat, admitTarget] using hs⟩

end

end MaltClient.Staging
