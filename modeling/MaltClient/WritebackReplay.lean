import MaltClient.PlannerPayloads
import MaltClient.Staging

/-! Write-back of a frozen batch: which staged bodies go along with a plan. -/

namespace MaltClient.Writeback

open GoText Checked AssocMap NamedTree Planner DirectoryManifest Unixfs
open Journal (Operation)
open Staging (Service bindingFromOperation)

section

variable [CidFormat] [PayloadHash]

structure UploadPayload where
  cid : Option Cid
  body : List UInt8
  deriving DecidableEq

structure UploadBatch where
  operations : List Operation
  payloads : List UploadPayload

inductive UploadError where
  | read (operationID : GoString) (cause : Cache.CacheError)

def readPayload (service : Service) (cache : Cache.Store) (operation : Operation) :
    Except UploadError (Option Cid × UploadPayload) := do
  let binding := bindingFromOperation operation
  let body ← (Cache.readLocalBounded cache binding service.stagedFileLimit).mapError
    (.read operation.operationID)
  return (binding.cid, { cid := binding.cid, body := body })

def uploadPayloads (service : Service) (cache : Cache.Store) (operations : List Operation) :
    Except UploadError (List UploadPayload) := do
  let read ← (operations.filter fun operation => operation.kind = .write).mapM
    (readPayload service cache)
  let byCID := insertAll ∅ read
  return sortOn (fun payload => (payload.cid.map Cid.spelling).getD [])
    (byCID.entries.map Sigma.snd)

def availablePayloads (payloads : List UploadPayload) : AList fun _ : Option Cid => UploadPayload :=
  insertAll ∅ (payloads.map fun payload => (payload.cid, payload))

def stagedPayload (operation : Operation) : Except PlanError (Option Cid) := do
  let invalid : PlanError := .message "staged write requires a raw payload CID" []
  let payload ← required invalid (Cid.parse operation.payloadCID)
  reject (PayloadHash.isRaw payload = false) invalid
  return some payload

def stagedPayloads (operations : List Operation) : Except PlanError (List (Option Cid)) :=
  (operations.filter fun operation => operation.kind = .write).mapM stagedPayload

def selectPayload (available : AList fun _ : Option Cid => UploadPayload)
    (staged : List (Option Cid))
    (selected : AList fun _ : Option Cid => UploadPayload) (key : Option Cid) :
    Except PlanError (AList fun _ : Option Cid => UploadPayload) :=
  if key ∈ staged then do
    let payload ← required (.message "typed plan requires unavailable payload %s"
      [(key.map Cid.spelling).getD []]) (available.lookup key)
    return selected.insert key payload
  else return selected

variable [ManifestHash] [Engine] [JsonDecoder]

/-- Plan a batch and choose the bodies to persist with the plan; `none` when the
authenticated Root does not change. -/
def replayAuthentication (p : Capabilities) (writers : WriterCache) (base : Cid)
    (batch : UploadBatch) :
    Except PlanError (WriterCache × Plan × Option (List UploadPayload)) := do
  let (writers, plan) ← prepare p writers base batch.operations
  let root ← required (.message "typed planner returned no Root" []) plan.root
  reject (plan.base ≠ base) (.message "typed plan substituted base Root" [])
  if root = base then return (writers, plan, none)
  else do
    let staged ← stagedPayloads batch.operations
    let selected ← plan.required.foldlM (selectPayload (availablePayloads batch.payloads) staged) ∅
    return (writers, plan, some (selected.entries.map Sigma.snd))

end

section

variable [CidFormat] [PayloadHash] {operations : List Operation}

variable {payloads : List UploadPayload} {staged : List (Option Cid)}

theorem uploadPayloads_eq_ok {service : Service} {cache : Cache.Store}
    (h : uploadPayloads service cache operations = .ok payloads) :
    (∀ w ∈ operations, w.kind = .write → ∃ body ∈ payloads, body.cid = Cid.parse w.payloadCID) ∧
      ∀ body ∈ payloads, ∃ w ∈ operations, w.kind = .write ∧ body.cid = Cid.parse w.payloadCID ∧
        Cache.readLocalBounded cache (bindingFromOperation w) service.stagedFileLimit =
          .ok body.body := by
  simp only [uploadPayloads, ok_iff] at h
  obtain ⟨read, hread, rfl⟩ := h
  have hperm := sortOn_perm (fun payload : UploadPayload => (payload.cid.map Cid.spelling).getD [])
    ((insertAll ∅ read).entries.map Sigma.snd)
  have hof {k : Option Cid} {body : UploadPayload} (hl : (insertAll ∅ read).lookup k = some body) :
      ∃ w ∈ operations, w.kind = .write ∧ k = Cid.parse w.payloadCID ∧
        body.cid = Cid.parse w.payloadCID ∧
        Cache.readLocalBounded cache (bindingFromOperation w) service.stagedFileLimit =
          .ok body.body := by
    have hmem : (k, body) ∈ read := (mem_of_lookup_insertAll hl).resolve_right (by simp)
    obtain ⟨w, hw, hwread⟩ := exists_of_mem_mapM hread hmem
    simp only [readPayload, ok_iff, Prod.mk.injEq] at hwread
    obtain ⟨data, hdata, rfl, rfl⟩ := hwread
    obtain ⟨hw, hkind⟩ := List.mem_filter.mp hw
    exact ⟨w, hw, by simpa using hkind, rfl, rfl, hdata⟩
  constructor
  · intro w hw hkind
    obtain ⟨e, he, hwread⟩ := exists_of_mem_left (mapM_eq_ok.mp hread)
      (List.mem_filter.mpr ⟨hw, by simpa using hkind⟩)
    simp only [readPayload, ok_iff] at hwread
    obtain ⟨data, -, rfl⟩ := hwread
    have hkey : Cid.parse w.payloadCID ∈ insertAll ∅ read :=
      mem_insertAll.mpr (.inr (List.mem_map.mpr ⟨_, he, rfl⟩))
    obtain ⟨body, hl⟩ := Option.isSome_iff_exists.mp (AList.lookup_isSome.mpr hkey)
    obtain ⟨w', -, -, hk, hcid, -⟩ := hof hl
    exact ⟨body, hperm.symm.subset (List.mem_map.mpr ⟨_, mem_entries_iff.mpr hl, rfl⟩),
      hcid.trans hk.symm⟩
  · intro body hbody
    obtain ⟨⟨k, _⟩, he, rfl⟩ := List.mem_map.mp (hperm.subset hbody)
    obtain ⟨w, hw, hkind, -, hrest⟩ := hof (mem_entries_iff.mp he)
    exact ⟨w, hw, hkind, hrest⟩

omit [PayloadHash] in
theorem selectPayloads_eq_ok {available : AList fun _ : Option Cid => UploadPayload}
    (wanted : List (Option Cid)) (havailable : ∀ k ∈ staged, ∃ body, available.lookup k = some body)
    (selected : AList fun _ : Option Cid => UploadPayload) :
    ∃ selected', wanted.foldlM (selectPayload available staged) selected = .ok selected' ∧
      ∀ k, selected'.lookup k = if k ∈ wanted ∧ k ∈ staged then available.lookup k
        else selected.lookup k := by
  induction wanted generalizing selected with
  | nil => exact ⟨selected, rfl, fun k => by simp⟩
  | cons key wanted ih =>
    by_cases hstaged : key ∈ staged
    · obtain ⟨body, hbody⟩ := havailable key hstaged
      obtain ⟨selected', hrun, hlookup⟩ := ih (selected.insert key body)
      have hstep :
        selectPayload available staged selected key = .ok (selected.insert key body) := by
        simp only [selectPayload, if_pos hstaged, ok_iff]
        exact ⟨body, hbody, rfl⟩
      refine ⟨selected', by rw [List.foldlM_cons, hstep]; exact hrun, fun k => ?_⟩
      rw [hlookup, lookup_insert_eq]
      by_cases hk : k = key
      · subst hk
        simp [hstaged, hbody]
      · simp [hk]
    · obtain ⟨selected', hrun, hlookup⟩ := ih selected
      have hstep : selectPayload available staged selected key = .ok selected := by
        rw [selectPayload, if_neg hstaged]
        rfl
      refine ⟨selected', by rw [List.foldlM_cons, hstep]; exact hrun, fun k => ?_⟩
      rw [hlookup]
      by_cases hk : k = key
      · subst hk
        simp [hstaged]
      · simp [hk]

omit [PayloadHash] in
theorem selectPayloads_bodies (wanted : List (Option Cid))
    (havailable : ∀ k ∈ staged, ∃ body ∈ payloads, body.cid = k) :
    ∃ selected, wanted.foldlM (selectPayload (availablePayloads payloads) staged) ∅ = .ok selected ∧
      (∀ k ∈ wanted, k ∈ staged → ∃ body ∈ selected.entries.map Sigma.snd, body.cid = k) ∧
      ∀ body ∈ selected.entries.map Sigma.snd, body ∈ payloads ∧ body.cid ∈ wanted := by
  have hcid {k : Option Cid} {body : UploadPayload}
    (h : (availablePayloads payloads).lookup k = some body) : body ∈ payloads ∧ body.cid = k := by
    have hmem := (mem_of_lookup_insertAll h).resolve_right (by simp)
    obtain ⟨b, hb, he⟩ := List.mem_map.mp hmem
    cases he
    exact ⟨hb, rfl⟩
  have htotal : ∀ k ∈ staged, ∃ body, (availablePayloads payloads).lookup k = some body := by
    intro k hk
    obtain ⟨body, hbody, hkey⟩ := havailable k hk
    have hmem : k ∈ availablePayloads payloads :=
      mem_insertAll.mpr (.inr (List.mem_map.mpr ⟨_, List.mem_map.mpr ⟨body, hbody, rfl⟩, hkey⟩))
    exact Option.isSome_iff_exists.mp (AList.lookup_isSome.mpr hmem)
  obtain ⟨selected, hselect, hlookup⟩ := selectPayloads_eq_ok wanted htotal ∅
  refine ⟨selected, hselect, fun k hwanted hk => ?_, fun body hbody => ?_⟩
  · obtain ⟨body, hl⟩ := htotal k hk
    have hsel : selected.lookup k = some body := by rw [hlookup, if_pos ⟨hwanted, hk⟩, hl]
    exact ⟨body, List.mem_map.mpr ⟨_, mem_entries_iff.mpr hsel, rfl⟩, (hcid hl).2⟩
  · obtain ⟨⟨k, _⟩, he, rfl⟩ := List.mem_map.mp hbody
    have hsel := mem_entries_iff.mp he
    rw [hlookup] at hsel
    split_ifs at hsel with hk
    · obtain ⟨hpayload, rfl⟩ := hcid hsel
      exact ⟨hpayload, hk.1⟩
    · cases hsel

end

section

variable [CidFormat] [PayloadHash]

variable {operations : List Operation}

theorem stagedPayloads_eq_ok (h : ∀ w ∈ operations, w.kind = .write →
    ∃ payload, Cid.parse w.payloadCID = some payload ∧ PayloadHash.isRaw payload = true) :
    stagedPayloads operations =
      .ok ((operations.filter fun w => w.kind = .write).map fun w => Cid.parse w.payloadCID) := by
  rw [stagedPayloads, mapM_eq_ok, List.forall₂_map_right_iff, List.forall₂_same]
  intro w hw
  obtain ⟨hw, hkind⟩ := List.mem_filter.mp hw
  obtain ⟨payload, hparse, hraw⟩ := h w hw (by simpa using hkind)
  simp [stagedPayload, hparse, hraw, bind, Except.bind, required, reject, pure, Except.pure]

omit [PayloadHash] in
theorem mem_staged {k : Option Cid} :
    k ∈ ((operations.filter fun w => w.kind = .write).map fun w => Cid.parse w.payloadCID) ↔
      ∃ w ∈ operations, w.kind = .write ∧ Cid.parse w.payloadCID = k := by
  simp [List.mem_map, List.mem_filter, and_assoc]

theorem exists_raw_of_replay {δ : Type} {fresh : δ}
    {t t' : Tree GoString δ (Option Cid)} (h : replay fresh operations t = some t') :
    ∀ w ∈ operations, w.kind = .write → ∃ payload, Cid.parse w.payloadCID = some payload ∧
      PayloadHash.isRaw payload = true := by
  induction operations generalizing t with
  | nil => simp
  | cons operation operations ih =>
    rw [replay, List.foldlM_cons, Option.bind_eq_bind, Option.bind_eq_some_iff] at h
    obtain ⟨t₁, hstep, hrest⟩ := h
    intro w hw hkind
    rcases List.mem_cons.mp hw with rfl | hw
    · simp only [replayOperation, hkind, Option.bind_eq_bind, Option.bind_eq_some_iff, guard]
        at hstep
      obtain ⟨_, -, payload, hparse, _, hraw, -⟩ := hstep
      refine ⟨payload, hparse, ?_⟩
      by_contra hnot
      simp [hnot, failure] at hraw
    · exact ih hrest w hw hkind

end

/-- For every layout, base and batch whose plan changes the Root, the bodies
that are persisted with the plan are chosen without failure. They include the
body of every write whose file is still there, wherever it has been moved, and
are all bodies of writes that a file of the final tree refers to. A file of the final tree without
a body among them is a file of the base. -/
theorem replayAuthentication_bodies [CidFormat] [PayloadHash] [ManifestHash] [Engine] [JsonDecoder]
    (p : Capabilities) (writers writers' : WriterCache) (descriptor : Engine.Descriptor)
    (cs : List (GoString × DirTree)) (base : Cid) (service : Service) (cache : Cache.Store)
    (batch : UploadBatch) (plan : Plan) (hproject : Projectable p.layout (.dir descriptor cs))
    (hbase : rebuildRoot p.layout (.dir descriptor cs) = some base) (hcache : CacheSound writers)
    (hpayloads : uploadPayloads service cache batch.operations = .ok batch.payloads)
    (hplan : prepare p writers base batch.operations = .ok (writers', plan))
    (hchanged : plan.root ≠ some base) :
    ∃ final bodies, replay descriptor batch.operations (.dir descriptor cs) = some final ∧
      replayAuthentication p writers base batch = .ok (writers', plan, some bodies) ∧
      (∀ before w after payload q, batch.operations = before ++ w :: after → w.kind = .write →
        Cid.parse w.payloadCID = some payload → followAll after (pathOf w.path) = some q →
        get? q final = some (.file (some payload)) ∧ ∃ body ∈ bodies, body.cid = some payload) ∧
      (∀ body ∈ bodies, (∃ q, get? q final = some (.file body.cid)) ∧
        ∃ w ∈ batch.operations, w.kind = .write ∧ body.cid = Cid.parse w.payloadCID ∧
          Cache.readLocalBounded cache (bindingFromOperation w) service.stagedFileLimit =
            .ok body.body) ∧
      ∀ q c, get? q final = some (.file c) → (∃ body ∈ bodies, body.cid = c) ∨
        ∃ q₀, get? q₀ (.dir descriptor cs : DirTree) = some (.file c) ∧
          followAll batch.operations q₀ = some q := by
  obtain ⟨s, tree, final, haccept, hreplay, haccepted, hplanned⟩ := prepare_eq_ok hproject
    hbase hcache hplan
  obtain ⟨hof, hread⟩ := uploadPayloads_eq_ok hpayloads
  have hraw := exists_raw_of_replay hreplay
  have hstaged := stagedPayloads_eq_ok hraw
  have havailable :
    ∀ k ∈ ((batch.operations.filter fun w => w.kind = .write).map fun w => Cid.parse w.payloadCID),
      ∃ body ∈ batch.payloads, body.cid = k := by
    intro k hk
    obtain ⟨w, hw, hkind, rfl⟩ := mem_staged.mp hk
    exact hof w hw hkind
  obtain ⟨selected, hselect, hchosen, hwanted⟩ := selectPayloads_bodies plan.required havailable
  have hroot : ∃ root, plan.root = some root := by
    obtain ⟨d, cs', htree, -⟩ := haccepted.marked
    obtain ⟨descriptor', cs'', hfinal⟩ := (htree ▸ haccepted.represents).eq_dir
    exact ⟨_, by rw [hplanned.root, hfinal]; rfl⟩
  obtain ⟨root, hroot⟩ := hroot
  have hne : root ≠ base := fun he => hchanged (he ▸ hroot)
  have hrun : replayAuthentication p writers base batch =
      .ok (writers', plan, some (selected.entries.map Sigma.snd)) := by
    simp only [replayAuthentication, ok_iff, not_not]
    refine ⟨_, hplan, root, hroot, (), hplanned.sameBase, ?_⟩
    rw [if_neg hne]
    simp only [ok_iff]
    exact ⟨_, hstaged, selected, hselect, rfl⟩
  have hwrite :
    ∀ before w after payload q, batch.operations = before ++ w :: after → w.kind = .write →
      Cid.parse w.payloadCID = some payload → followAll after (pathOf w.path) = some q →
      get? q final = some (.file (some payload)) ∧
        ∃ body ∈ selected.entries.map Sigma.snd, body.cid = some payload := by
    intro before w after payload q hsplit hkind hpayload hfollow
    rw [hsplit] at haccept
    obtain ⟨htracks, hraw'⟩ := replayOperations_tracks (Option.some.inj hbase) haccepted.originNamed
      hcache haccept
      hkind hpayload hfollow
    obtain ⟨node, _, hnode, hrep⟩ := haccepted.represents.get? htracks.get?
    have hfile : node = .file (some payload) := by cases hrep; rfl
    have hneeded : some payload ∈ plan.required := by
      rw [hplanned.required]
      exact htracks.mem_payloads hraw'
    have hmem : w ∈ batch.operations := by simp [hsplit]
    exact ⟨hfile ▸ hnode, hchosen _ hneeded (mem_staged.mpr ⟨w, hmem, hkind, hpayload⟩)⟩
  refine ⟨final, _, hreplay, hrun, hwrite, fun body hbody => ?_, fun q c hq => ?_⟩
  · obtain ⟨hpayload, hneeded⟩ := hwanted body hbody
    rw [hplanned.required] at hneeded
    exact ⟨exists_of_mem_payloads haccepted.represents hneeded, hread body hpayload⟩
  · rcases replay_file hreplay hq with ⟨q₀, hq₀, hfollow⟩ | ⟨before, w, after, payload, hsplit,
      hkind, hpayload, rfl, hfollow⟩
    · exact .inr ⟨q₀, hq₀, hfollow⟩
    · exact .inl (hwrite before w after payload q hsplit hkind hpayload hfollow).2

section sample

/-- Write `docs/b`, then rename `docs`. -/
def sampleBatch : List Operation :=
  [{ renameDocs with
      operationID := text "write", kind := .write, path := text "docs/b", destination := [],
      payloadCID := spellBody [7] },
    { renameDocs with sequence := 2 }]

section

attribute [local instance] CidFormat.verbatim ManifestHash.verbatim Engine.verbatim
  PayloadHash.verbatim sampleDecoder

def sampleCache : @Cache.Store CidFormat.verbatim :=
  insertAll ∅ ((sampleBatch.take 1).map fun w =>
    (bindingFromOperation w, { state := .pendingUpload, body := some [7] }))

def offlineService : Service :=
  { base := { stat := fun _ _ => .error .notFound, readDir := fun _ _ => .error .notFound }
    maxFile := 0, maxFile_le := Nat.zero_le _ }

theorem replayAuthentication_bodies_renamed :
    ∃ payloads writers plan bodies, uploadPayloads offlineService sampleCache sampleBatch =
      .ok payloads ∧ replayAuthentication samplePlanner ⟨[], 0⟩ sampleBase ⟨sampleBatch, payloads⟩ =
        .ok (writers, plan, some bodies) ∧
      ∃ body ∈ bodies, body.cid = some (rawCid [7]) := by
  have hupload : (uploadPayloads offlineService sampleCache sampleBatch).isOk = true := by
    decide +kernel
  obtain ⟨payloads, hpayloads⟩ := exists_of_isOk hupload
  have hrun : (prepare samplePlanner ⟨[], 0⟩ sampleBase sampleBatch).toOption.any (fun r =>
      decide (r.2.root ≠ some sampleBase)) = true := by
    decide +kernel
  have hfollow : followAll [{ renameDocs with sequence := 2 }] (pathOf (text "docs/b")) =
    some [text "notes", text "b"] := by decide +kernel
  cases h : prepare samplePlanner ⟨[], 0⟩ sampleBase sampleBatch with
  | error e => simp [h, Except.toOption] at hrun
  | ok r =>
    rw [h] at hrun
    have hchanged : r.2.root ≠ some sampleBase := by simpa [Except.toOption] using hrun
    obtain ⟨final, bodies, -, hbodies, hwritten, -⟩ := replayAuthentication_bodies samplePlanner
      ⟨[], 0⟩ r.1 ()
      sampleChildren sampleBase offlineService sampleCache ⟨sampleBatch, payloads⟩ r.2
        projectable_sample rfl
      (by simp [CacheSound]) hpayloads h hchanged
    have hparse : Cid.parse (spellBody [7]) = some (rawCid [7]) := Cid.parse_spelling (rawCid [7])
    obtain ⟨-, hbody⟩ := hwritten [] _ _ (rawCid [7]) _ rfl rfl hparse hfollow
    exact ⟨payloads, r.1, r.2, bodies, hpayloads, hbodies, hbody⟩

end

end sample

end MaltClient.Writeback
