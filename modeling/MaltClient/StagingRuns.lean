import MaltClient.StagingSteps

/-! Whole runs of the staging service. Every call keeps the journaled operations
of a view a list of operations that were enabled one after the other on the
base, so lookups and listings agree with their replay. -/

namespace MaltClient.Staging

open GoText Checked AssocMap
open Journal (Operation Intent)
open PathFs (Fs Op)

variable [CidFormat] [PayloadHash] {κ : Type} {ofPayload : Cid → κ} {service : Service}
  {view : View} {F : Fs GoString κ}

/-- The operations of a view, as far as the journal can be read, form an overlay. -/
def OverlayOk (service : Service) (view : View) (F : Fs GoString κ) (ofPayload : Cid → κ)
    (disk : Disk) : Prop :=
  ∀ L, operations disk.journal view = .ok L →
    ∃ ops, Overlay service disk.cache view F ofPayload L ops

theorem Overlay.keeps {cache cache' : Cache.Store} {L : List Operation} {ops : List (Op GoString κ)}
    (h : Overlay service cache view F ofPayload L ops) (hk : Cache.Keeps cache cache') :
    Overlay service cache' view F ofPayload L ops where
  serves := h.serves
  means := h.means
  valid := h.valid
  bodies o ho hw := (h.bodies o ho hw).imp fun e he => hk _ _ e he

theorem OverlayOk.append {disk : Disk} {env : Env} {offline : Bool} {v : View}
    {root : Cid} {i : Intent}
    (hok : OverlayOk service view F ofPayload disk) (hv : validateView v = .ok root)
    (hi : IntentOf v root i) (hen : v = view → ∀ L, operations disk.journal view = .ok L → ∃ ops op,
      Overlay service disk.cache view F ofPayload L ops ∧ Journals ofPayload i op ∧
        PathFs.Enabled (replayed F ops) op)
    (hbody : i.kind = .write → ∀ o : Operation, o.toIntent = i → ∃ e,
      Cache.verifyLocal disk.cache (bindingFromOperation o) service.stagedFileLimit = .ok e) :
    OverlayOk service view F ofPayload (appendJournal env i offline disk).1 := by
  intro L' hL'
  rw [cache_appendJournal]
  obtain ⟨L, hL, rfl | ⟨o, root', ho, rfl, hroot', hb⟩⟩ := operations_appendJournal hi.normal hL'
  · exact hok L' hL
  · obtain rfl : view = v := view_eq_of_belongsTo hroot' hv (ho ▸ hi) hb
    obtain ⟨ops, op, hover, hj, he⟩ := hen rfl L hL
    refine ⟨ops ++ [op], hover.serves, List.rel_append hover.means (.cons (hj o ho) .nil), ?_, ?_⟩
    · rw [List.reverse_append]
      exact ⟨hover.valid, he⟩
    · intro o' ho' hw
      rcases List.mem_append.mp ho' with hmem | hmem
      · exact hover.bodies o' hmem hw
      · obtain rfl := List.mem_singleton.mp hmem
        exact hbody (by rw [← ho]; exact hw) o' ho

/-- What the checks of a call ensure: the intent is one of the view, and on every
overlay it stands for an enabled operation. -/
def Admissible (service : Service) (disk : Disk) (v : View) (F : Fs GoString κ)
    (ofPayload : Cid → κ) (i : Intent) : Prop :=
  ∃ root L, validateView v = .ok root ∧ IntentOf v root i ∧ operations disk.journal v = .ok L ∧
    ∀ ops, Overlay service disk.cache v F ofPayload L ops →
      ∃ op, Journals ofPayload i op ∧ PathFs.Enabled (replayed F ops) op

section

variable {env : Env} {disk : Disk} {v : View} {i : Intent}

variable {raw canonical : GoString} {u : Unit} {body : List UInt8} {store : Cache.Store}
  {offline : Bool} {binding : Cache.Binding}

theorem admissible_mkdir (h : admitMkdir service env v disk raw = .ok i) :
    i.kind = .mkdir ∧ Admissible service disk v F ofPayload i := by
  simp only [admitMkdir, bind_eq_ok] at h
  obtain ⟨canonical, hcanon, root, hroot, L, hL, _, hparent, _, htarget, hintent⟩ := h
  obtain ⟨p, hp, rfl⟩ := canonicalPath_eq_ok hcanon
  obtain ⟨hi, hk, hpath, -, -⟩ := newIntent_eq_ok hroot hintent
  rw [trimSpace_path hp] at hpath
  refine ⟨hk, root, L, hroot, hi, hL, fun ops hover =>
    ⟨.mkdir p, ?_, hover.hasParent hp hparent, ?_⟩⟩
  · rintro o rfl
    exact .mkdir hk hpath hp
  · refine (hover.target hp htarget).resolve_right ?_
    rintro ⟨_, _, _, _, hc⟩
    exact throw_ne_ok hc

theorem requireEmpty_eq_ok {L : List Operation}
    (h : requireEmpty service v disk L canonical = .ok u) :
    readDirAt service disk.cache v L canonical = .ok [] := by
  simp only [requireEmpty, ok_iff, not_not] at h
  obtain ⟨entries, hread, rfl⟩ := h
  exact hread

theorem admissible_remove {directory : Bool}
    (h : admitRemove service env v disk raw directory = .ok i) :
    i.kind = .unlink ∧ Admissible service disk v F ofPayload i := by
  simp only [admitRemove, ok_iff, not_not] at h
  obtain ⟨canonical, hcanon, root, hroot, L, hL, info, hstat, _, hkind, h⟩ := h
  obtain ⟨p, hp, rfl⟩ := canonicalPath_eq_ok hcanon
  have hdone : (directory = true → readDirAt service disk.cache v L (join p) = .ok []) ∧
      newIntent env v root .unlink (join p) [] [] = .ok i := by
    cases directory with
    | false => exact ⟨by simp, by simpa using h⟩
    | true =>
      simp only [if_true, bind_eq_ok] at h
      obtain ⟨_, hempty, hintent⟩ := h
      exact ⟨fun _ => requireEmpty_eq_ok hempty, hintent⟩
  obtain ⟨hempty, hintent⟩ := hdone
  obtain ⟨hi, hk, hpath, -, -⟩ := newIntent_eq_ok hroot hintent
  rw [trimSpace_path hp] at hpath
  refine ⟨hk, root, L, hroot, hi, hL, fun ops hover => ?_⟩
  obtain ⟨e, he, hinfo⟩ := hover.statAt_ok hp.pathName hstat
  refine ⟨.unlink p, by rintro o rfl; exact .unlink hk hpath hp, hp.ne_nil, by simp [he], ?_⟩
  cases e with
  | dir => exact hover.childless hp.pathName he (hempty (by simp [hkind, hinfo, kindOf]))
  | file c => exact fun n => hover.wellFormed.none_below (by simp) (by simp [he])

theorem admissible_rename {rawSource rawDestination : GoString}
    (h : admitRename service env v disk rawSource rawDestination = .ok i) :
    i.kind = .rename ∧ Admissible service disk v F ofPayload i := by
  simp only [admitRename, ok_iff, not_or] at h
  obtain ⟨source, hsource, destination, hdest, _, ⟨-, hout⟩, root, hroot, L, hL, info, hstat, _,
    hparent, _, htarget, hintent⟩ := h
  obtain ⟨s, hs, rfl⟩ := canonicalPath_eq_ok hsource
  obtain ⟨d, hd, rfl⟩ := canonicalPath_eq_ok hdest
  obtain ⟨hi, hk, hpath, hdpath, -⟩ := newIntent_eq_ok hroot hintent
  rw [trimSpace_path hs] at hpath
  rw [trimSpace_path hd] at hdpath
  rw [isWithin_join hd.plain hs.plain hs.ne_nil] at hout
  refine ⟨hk, root, L, hroot, hi, hL, fun ops hover => ?_⟩
  obtain ⟨e, he, hinfo⟩ := hover.statAt_ok hs.pathName hstat
  refine ⟨.rename s d, by rintro o rfl; exact .rename hk hpath hdpath hs hd, hout, by simp [he],
    hover.hasParent hd hparent, fun hne => ?_⟩
  obtain ⟨e', info', he', hinfo', hcheck⟩ := (hover.target hd htarget).resolve_left hne
  simp only [admitReplaced, ok_iff, not_not] at hcheck
  obtain ⟨_, hkinds, hempty⟩ := hcheck
  rw [hinfo, hinfo'] at hkinds
  rw [hinfo'] at hempty
  cases e' with
  | dir =>
    rw [if_pos (kindOf_eq_dir.mpr rfl)] at hempty
    have hsdir : e = .dir := kindOf_eq_dir.mp hkinds
    exact ⟨by simp [he, he', hsdir], hover.childless hd.pathName he' (requireEmpty_eq_ok hempty)⟩
  | file c =>
    have hsfile : e ≠ .dir := fun hdir => by simp [hdir, kindOf] at hkinds
    exact ⟨by simp [he, he', hsfile], fun n => hover.wellFormed.none_below (by simp)
      (by simp [he'])⟩

theorem admissible_write {root payload : Cid}
    (h : admitWrite service v disk raw body = .ok (canonical, root, payload))
    (hintent : newIntent env v root .write canonical [] payload.spelling = .ok i) :
    Admissible service disk v F ofPayload i ∧ i.kind = .write ∧ i.payloadCID = payload.spelling ∧
      body.length ≤ service.stagedFileLimit ∧ payload = rawCid body := by
  simp only [admitWrite, ok_iff, Prod.mk.injEq, requireStagedSize, not_lt] at h
  obtain ⟨canonical, hcanon, _, hsize, root, hroot, L, hL, _, hparent, _, htarget, rfl,
    rfl, rfl⟩ := h
  obtain ⟨p, hp, rfl⟩ := canonicalPath_eq_ok hcanon
  obtain ⟨hi, hk, hpath, -, hpay⟩ := newIntent_eq_ok hroot hintent
  rw [trimSpace_path hp] at hpath
  have hspell : i.payloadCID = (rawCid body).spelling := by
    have hparse := hpay rfl
    have hc := (rawCid body).canonical
    rw [Journal.parseCid, required_eq_ok, CidFormat.canonical_trimmed hc, hc] at hparse
    exact (Option.some.inj hparse).symm
  refine ⟨⟨root, L, hroot, hi, hL, fun ops hover => ⟨.write p (ofPayload (rawCid body)), ?_,
    hover.hasParent hp hparent, ?_⟩⟩, hk, hspell, hsize, rfl⟩
  · rintro o rfl
    exact .write hk hpath hp (by rw [hspell, Cid.parse_spelling]) (PayloadHash.isRaw_rawCid body)
  · rcases hover.target hp htarget with hnone | ⟨e, info, he, hinfo, hcheck⟩
    · simp [hnone]
    · rw [reject_eq_ok, hinfo, kindOf_eq_dir] at hcheck
      simpa [he] using hcheck

def NoLocalBody (store : Cache.Store) (binding : Cache.Binding) : Prop :=
  ∀ key e, Cache.normalizeBinding binding = .ok key → store.lookup key = some e →
    Cache.isLocalBodyState e.state = false

/-- The ways in which a service makes sure of a body: it compares the body that
is there, or puts it where there was none. -/
theorem ensureLocalBody_cases (service : Service) (env : Env) (binding : Cache.Binding)
    (body : List UInt8) (offline : Bool) (store : Cache.Store) :
    (∃ e, ensureLocalBody service env binding body offline store = (store, .error e)) ∨
      ensureLocalBody service env binding body offline store =
        (store, compareBody service binding body store) ∨
      NoLocalBody store binding ∧
        (ensureLocalBody service env binding body offline store =
          putBody env binding body offline store ∨
          ensureLocalBody service env binding body offline store =
            replaceBody env binding body offline store) := by
  unfold ensureLocalBody
  cases hin : Cache.inspect store binding with
  | error e =>
    cases e with
    | miss =>
      refine .inr (.inr ⟨fun key e hkey hl => ?_, .inl rfl⟩)
      simp [Cache.inspect, hkey, hl, required, bind, Except.bind] at hin
    | _ => exact .inl ⟨_, rfl⟩
  | ok entry =>
    have hnone (hne : Cache.isLocalBodyState entry.state = false) : NoLocalBody store binding := by
      intro key e hkey hl
      obtain rfl :
        e = entry := by simpa [Cache.inspect, hkey, hl, required, bind, Except.bind] using hin
      exact hne
    cases hs : entry.state with
    | unmaterializedRemote => exact .inr (.inr ⟨hnone (by rw [hs]; rfl), .inr (by simp [hs])⟩)
    | verifiedClean => exact .inr (.inr ⟨hnone (by rw [hs]; rfl), .inr (by simp [hs])⟩)
    | stale => exact .inr (.inr ⟨hnone (by rw [hs]; rfl), .inl (by simp [hs])⟩)
    | _ => exact .inr (.inl (by simp [hs]))

theorem keeps_putBody (h : NoLocalBody store binding) :
    Cache.Keeps store (putBody env binding body offline store).1 :=
  Cache.keeps_putLocal h

theorem keeps_replaceBody
    (h : NoLocalBody store binding) :
    Cache.Keeps store (replaceBody env binding body offline store).1 := by
  have hkeeps : Cache.Keeps store (Cache.transition env.staleFault binding .stale store).1 :=
    Cache.keeps_transition h
  unfold replaceBody
  split
  · rename_i s e ht
    rw [ht] at hkeeps
    exact hkeeps
  · rename_i s e ht
    have hstale : NoLocalBody s binding := fun key e' hkey hl => by
      obtain ⟨e'', hl', hstate⟩ := Cache.lookup_transition (by rw [ht]) hkey
      rw [ht] at hl'
      obtain rfl := Option.some.inj (hl.symm.trans hl')
      rw [hstate]
      rfl
    rw [ht] at hkeeps
    exact hkeeps.trans (keeps_putBody hstale)

theorem keeps_ensureLocalBody :
    Cache.Keeps store (ensureLocalBody service env binding body offline store).1 := by
  rcases ensureLocalBody_cases service env binding body offline store with ⟨e, h⟩ | h | ⟨hnone,
    h | h⟩ <;> rw [h]
  · exact Cache.Keeps.refl store
  · exact Cache.Keeps.refl store
  · exact keeps_putBody hnone
  · exact keeps_replaceBody hnone

theorem verifyLocal_putBody (hsize : body.length ≤ service.stagedFileLimit)
    (h : (putBody env binding body offline store).2 = .ok u) :
    ∃ e, Cache.verifyLocal (putBody env binding body offline store).1 binding
      service.stagedFileLimit = .ok e := by
  obtain ⟨e, he, -⟩ := map_eq_ok.mp h
  exact ⟨e, Cache.verifyLocal_putLocal he hsize (hsize.trans service.stagedFileLimit_le)⟩

theorem verifyLocal_ensureLocalBody (hsize : body.length ≤ service.stagedFileLimit)
    (h : (ensureLocalBody service env binding body offline store).2 = .ok u) :
    ∃ e, Cache.verifyLocal (ensureLocalBody service env binding body offline store).1 binding
      service.stagedFileLimit = .ok e := by
  rcases ensureLocalBody_cases service env binding body offline store with ⟨e,
    hc⟩ | hc | ⟨-, hc | hc⟩ <;>
    rw [hc] at h ⊢
  · simp at h
  · simp only [compareBody, bind_eq_ok] at h
    obtain ⟨existing, hread, -⟩ := h
    obtain ⟨p, hp, -⟩ := map_eq_ok.mp hread
    exact ⟨p.1, map_eq_ok.mpr ⟨p, hp, rfl⟩⟩
  · exact verifyLocal_putBody hsize h
  · unfold replaceBody at h ⊢
    split at h
    · simp at h
    · exact verifyLocal_putBody hsize h

theorem OverlayOk.appendIntent {x : Except FsError Intent}
    (hok : OverlayOk service view F ofPayload disk)
    (hx : ∀ i, x = .ok i → i.kind ≠ .write ∧ Admissible service disk v F ofPayload i) :
    OverlayOk service view F ofPayload (appendIntent env offline x disk).1 := by
  unfold Staging.appendIntent
  cases x with
  | error e => exact hok
  | ok i =>
    obtain ⟨hk, root, L, hroot, hi, hL, hen⟩ := hx i rfl
    refine hok.append hroot hi ?_ fun hw => absurd hw hk
    rintro rfl L' hL'
    obtain rfl := Except.ok.inj (hL.symm.trans hL')
    obtain ⟨ops, hover⟩ := hok L hL
    obtain ⟨op, hj, he⟩ := hen ops hover
    exact ⟨ops, op, hover, hj, he⟩

theorem OverlayOk.stageWrite (hok : OverlayOk service view F ofPayload disk) :
    OverlayOk service view F ofPayload (stageWrite service env v disk raw body offline).1 := by
  unfold Staging.stageWrite
  cases ha : admitWrite service v disk raw body with
  | error e => exact hok
  | ok p =>
    obtain ⟨canonical, root, payload⟩ := p
    have hkeeps : Cache.Keeps disk.cache
        (ensureLocalBody service env (bindingFor v payload) body offline disk.cache).1 :=
          keeps_ensureLocalBody
    have hok' : OverlayOk service view F ofPayload
        { disk with cache := (ensureLocalBody service env (bindingFor v payload) body offline
          disk.cache).1 } :=
      fun L hL => (hok L hL).imp fun ops hover => hover.keeps hkeeps
    simp only
    split
    · rename_i cache e he
      rw [he] at hok'
      exact hok'
    · rename_i cache u he
      cases hn : newIntent env v root .write canonical [] payload.spelling with
      | error e =>
        rw [he] at hok'
        exact hok'
      | ok i =>
        have hadmit : Admissible service disk v F ofPayload i ∧ _ := admissible_write ha hn
        obtain ⟨⟨root', L, hroot, hi, hL, hen⟩, -, hpay, hsize, -⟩ := hadmit
        have hverify : ∃ e, Cache.verifyLocal
            (ensureLocalBody service env (bindingFor v payload) body offline disk.cache).1
              (bindingFor v payload)
            service.stagedFileLimit = .ok e := verifyLocal_ensureLocalBody hsize (by rw [he])
        rw [he] at hok' hverify hkeeps
        refine hok'.append hroot hi ?_ ?_
        · rintro rfl L' hL'
          obtain rfl := Except.ok.inj (hL.symm.trans hL')
          obtain ⟨ops, hover⟩ := hok L hL
          obtain ⟨op, hj, hop⟩ := hen ops hover
          exact ⟨ops, op, hover.keeps hkeeps, hj, hop⟩
        · rintro - o rfl
          rw [bindingFromOperation_of_intent hroot hi hpay]
          exact hverify

theorem OverlayOk.exec {call : Call} (hok : OverlayOk service view F ofPayload disk) :
    OverlayOk service view F ofPayload (call.exec service disk).1 := by
  unfold Call.exec
  cases call.action with
  | write path body => exact hok.stageWrite
  | mkdir path =>
    exact hok.appendIntent fun i hi => (admissible_mkdir hi).imp (fun hk => by rw [hk]; decide) id
  | unlink path =>
    exact hok.appendIntent fun i hi => (admissible_remove hi).imp (fun hk => by rw [hk]; decide) id
  | removeDir path =>
    exact hok.appendIntent fun i hi => (admissible_remove hi).imp (fun hk => by rw [hk]; decide) id
  | rename source destination =>
    exact hok.appendIntent fun i hi => (admissible_rename hi).imp (fun hk => by rw [hk]; decide) id

theorem OverlayOk.run {calls : List Call} (hok : OverlayOk service view F ofPayload disk) :
    OverlayOk service view F ofPayload (runCalls service calls disk) := by
  induction calls generalizing disk with
  | nil => exact hok
  | cons call calls ih => exact ih hok.exec

end

end MaltClient.Staging
