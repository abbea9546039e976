import MaltClient.StagingRuns

/-! The staging overlay against the planner. Whatever calls were made, the
planner accepts the journaled operations of a view, and the overlay shows
exactly the tree that the planner builds from them. -/

namespace MaltClient.Staging

open GoText Checked
open Journal (Operation)
open Planner (Means TreeNode Loader Loaded applyOperations applyOperation)
open StagedPath (PathName parsePath parsePath_join)
open NamedTree (get? child?)
open PathFs (Fs Op)

section

variable [CidFormat] {κ : Type}

def treeBase (B : TreeNode κ) : Base where
  stat _ path := do
    let p ← (parsePath path).mapError .path
    match get? p B with
    | none => throw .notFound
    | some node =>
      return { path := path, name := baseName path, kind := kindOf node.entry, payload := none,
               size := 0 }
  readDir _ path := do
    let p ← (parsePath path).mapError .path
    match get? p B with
    | none => throw .notFound
    | some (.file _) => throw .notDirectory
    | some (.dir _ cs) => return cs.map fun c => { name := c.1, kind := kindOf c.2.entry }

theorem serves_treeBase {B : TreeNode κ} (hdir : B.isDir = true)
    (hnames : ∀ p, NamedTree.view B p ≠ none → ∀ n ∈ p, PathName n) (view : View) :
    Serves (treeBase B) view (NamedTree.view B) := by
  have hstat {p : List GoString} (hp : ∀ n ∈ p, PathName n) : (treeBase B).stat view (join p) =
      match get? p B with
      | none => .error .notFound
      | some node => .ok { path := join p, name := baseName (join p), kind := kindOf node.entry,
                           payload := none, size := 0 } := by
    simp only [treeBase, parsePath_join hp, Except.mapError, bind, Except.bind]
    cases get? p B <;> rfl
  have hnone {p : List GoString} (hp : ∀ n ∈ p, PathName n) (he : NamedTree.view B p = none) :
      (treeBase B).stat view (join p) = .error .notFound := by
    have hg : get? p B = none := by simpa [NamedTree.view] using he
    simp [hstat hp, hg]
  refine ⟨?_, hnames, fun p e he => ?_, fun p hp he => ⟨_, hnone hp he⟩,
    fun p n hp _ he => hnone hp he, fun p hp => ?_⟩
  · cases B with
    | file c => simp [NamedTree.Tree.isDir] at hdir
    | dir d cs => exact NamedTree.wellFormed_view d cs
  · obtain ⟨node, hnode, rfl⟩ := Option.map_eq_some_iff.mp he
    exact ⟨_, by rw [hstat (hnames p (by simp [he])), hnode], rfl⟩
  · obtain ⟨d, cs, hget⟩ := NamedTree.view_eq_dir_iff.mp hp
    have hparse := parsePath_join (hnames p (by simp [hp]))
    refine ⟨cs.map fun c => { name := c.1, kind := kindOf c.2.entry },
      by simp [treeBase, hparse, hget, Except.mapError, bind, Except.bind, pure,
        Except.pure], fun n => ?_⟩
    rw [NamedTree.view_append hget, NamedTree.view_cons_dir, List.map_map]
    refine Iff.trans NamedTree.mem_map_fst_iff ?_
    cases child? n cs <;> simp [NamedTree.view]

end

section

variable [CidFormat] [PayloadHash] {κ σ : Type} {ofPayload : Cid → κ}

variable {view : View} {service : Service}

theorem Overlay.replays {cache : Cache.Store} {B : TreeNode κ} {L : List Operation}
    {ops : List (Op GoString κ)}
    (h : Overlay service cache view (NamedTree.view B) ofPayload L ops) (hB : Loaded B)
    (load : Loader σ κ) (s : σ) :
    ∃ T, applyOperations load ofPayload L s B = .ok (s, T) ∧ NamedTree.view T =
      replayed (NamedTree.view B) ops := by
  have hw := h.serves.wellFormed
  have hm := List.forall₂_reverse_iff.mpr h.means
  have hv := h.valid
  suffices H :
    ∀ Lr opsr, List.Forall₂ (Means ofPayload) Lr opsr → PathFs.Valid (NamedTree.view B) opsr →
      ∃ T, applyOperations load ofPayload Lr.reverse s B = .ok (s, T) ∧ Loaded T ∧
        NamedTree.view T = PathFs.after (NamedTree.view B) opsr by
    obtain ⟨T, hT, -, hview⟩ := H L.reverse ops.reverse hm hv
    exact ⟨T, by simpa using hT, hview⟩
  intro Lr opsr hm
  induction hm with
  | nil => exact fun _ => ⟨B, rfl, hB, rfl⟩
  | @cons o op Lr opsr ho _ ih =>
    rintro ⟨hvalid, hen⟩
    obtain ⟨T, hT, hloaded, hview⟩ := ih hvalid
    rw [← hview] at hen
    have hstep : ∃ T', applyOperation load ofPayload o s T = .ok (s, T') ∧ _ :=
      Planner.applyOperation_enabled ho hloaded (hview ▸ hw.after hvalid) hen
    obtain ⟨T', hT', hloaded', hview'⟩ := hstep
    refine ⟨T', ?_, hloaded', by rw [hview', hview]; rfl⟩
    rw [applyOperations] at hT ⊢
    rw [List.reverse_cons, List.foldlM_append, bind_eq_ok]
    exact ⟨(s, T), hT, by simp [hT', bind, Except.bind, pure, Except.pure]⟩

theorem overlayOk_empty {F : Fs GoString κ} (cache : Cache.Store)
    (h : Serves service.base view F) : OverlayOk service view F ofPayload ⟨none, cache⟩ := by
  intro L hL
  obtain ⟨root, s, -, hs, rfl⟩ := operations_eq_ok.mp hL
  cases hs
  exact ⟨[], h, .nil, trivial, nofun⟩

/-- For every run of staging calls from an empty journal, the planner accepts
the operations of a view on the tree that its base serves, and a lookup through
the overlay finds a path exactly when the tree it produces has a node there,
with the same kind and the same source of its content. -/
theorem lookup_iff_replay (service : Service) (view : View) (B : TreeNode κ) (ofPayload : Cid → κ)
    (load : Loader σ κ) (s : σ) (calls : List Call) (cache : Cache.Store) (L : List Operation)
    (hB : Loaded B) (hbase : Serves service.base view (NamedTree.view B))
    (hL : operations (runCalls service calls ⟨none, cache⟩).journal view = .ok L) :
    ∃ T, applyOperations load ofPayload L s B = .ok (s, T) ∧ ∀ p, (∀ n ∈ p, PathName n) →
      (∀ entry, NamedTree.view T p = some entry →
        ∃ node, resolveAt service (runCalls service calls ⟨none, cache⟩).cache view L L.length
          (join p) = .ok node ∧ Shows (NamedTree.view B) ofPayload node entry) ∧
      ∀ node, resolveAt service (runCalls service calls ⟨none, cache⟩).cache view L L.length
        (join p) = .ok node → ∃ entry, NamedTree.view T p = some entry ∧
          Shows (NamedTree.view B) ofPayload node entry := by
  have hstart : OverlayOk service view (NamedTree.view B) ofPayload ⟨none, cache⟩ :=
    overlayOk_empty cache hbase
  obtain ⟨ops, hover⟩ := hstart.run L hL
  obtain ⟨T, hT, hview⟩ := hover.replays hB load s
  refine ⟨T, hT, fun p hp => ⟨fun entry he => hover.resolveAt_some hp (hview ▸ he),
    fun node hnode => ?_⟩⟩
  cases he : NamedTree.view T p with
  | none =>
    obtain ⟨e, herr⟩ := hover.resolveAt_none hp (hview ▸ he)
    simp [hnode] at herr
  | some entry =>
    obtain ⟨node', hnode', hshows⟩ := hover.resolveAt_some hp (hview ▸ he)
    obtain rfl := Except.ok.inj (hnode.symm.trans hnode')
    exact ⟨entry, rfl, hshows⟩

/-- For every run of staging calls from an empty journal, the listing of every
directory of the replayed tree is exact. -/
theorem readDirAt_lists_replay (service : Service) (view : View) (B : TreeNode κ)
    (ofPayload : Cid → κ)
    (load : Loader σ κ) (s : σ) (calls : List Call) (cache : Cache.Store) (L : List Operation)
    (hB : Loaded B) (hbase : Serves service.base view (NamedTree.view B))
    (hL : operations (runCalls service calls ⟨none, cache⟩).journal view = .ok L) :
    ∃ T, applyOperations load ofPayload L s B = .ok (s, T) ∧ ∀ d, NamedTree.view T d = some .dir →
      ∃ entries, readDirAt service (runCalls service calls ⟨none, cache⟩).cache view L (join d) =
        .ok entries ∧ ListsExactly (NamedTree.view T) d entries := by
  have hstart : OverlayOk service view (NamedTree.view B) ofPayload ⟨none, cache⟩ :=
    overlayOk_empty cache hbase
  obtain ⟨ops, hover⟩ := hstart.run L hL
  obtain ⟨T, hT, hview⟩ := hover.replays hB load s
  refine ⟨T, hT, fun d hd => ?_⟩
  rw [hview] at hd ⊢
  have hnames := pathName_of_replayed hover.serves.names hover.means (by rw [hd]; simp)
  exact hover.readDirAt_eq hnames hd

end

section

attribute [local instance] CidFormat.verbatim PayloadHash.verbatim

def sampleView : View :=
  { datasetID := text "data", branch := text "main", root := some ⟨text "root", by decide⟩,
    revision := 0, encryptionEpoch := 1 }

/-- A directory with a file, and a file beside it. -/
def libTree : TreeNode GoString :=
  let data := { key := none, manifest := none, dirty := false, manifestDirty := false,
                retained := none, load := none }
  .dir data [(text "lib", .dir data [(text "x", .file (text "x1"))]),
    (text "note", .file (text "n1"))]

def sampleService : Service :=
  { base := treeBase libTree, maxFile := 1024, maxFile_le := by decide }

def renamedDirectory : List (@Call CidFormat.verbatim) :=
  let env (id : String) : Env :=
    { operationID := text ("op-" ++ id), retryID := text ("retry-" ++ id),
      now := 63918244800000000000, staleFault := .none, putFault := .none, journalFault := .none }
  let call (id : String) (action : Action) : Call :=
    { view := sampleView, action := action, offline := false, env := env id }
  [call "1" (.mkdir (text "docs")), call "2" (.write (text "docs/a") [1, 2]),
    call "3" (.rename (text "lib") (text "docs/lib")), call "4" (.unlink (text "note"))]

def renamedDisk : Disk :=
  runCalls sampleService renamedDirectory ⟨none, ∅⟩

theorem serves_sample :
    Serves sampleService.base sampleView (NamedTree.view libTree) := by
  have hpath : ∀ n ∈ [text "lib", text "note", text "x"], PathName n := by
    intro n hn
    simp only [List.mem_cons, List.not_mem_nil, or_false] at hn
    rcases hn with rfl | rfl | rfl <;> exact ⟨by decide, by decide⟩
  refine serves_treeBase (B := libTree) rfl (fun p hp n hn => hpath n ?_) sampleView
  rcases p with _ | ⟨a, p⟩
  · cases hn
  simp only [NamedTree.view, libTree, get?, child?] at hp
  split_ifs at hp with hlib hnote
  · rcases p with _ | ⟨b, p⟩
    · simp_all
    · simp only [Option.bind_some, get?, child?] at hp
      split_ifs at hp with hx
      · cases p <;> simp_all [get?]
        tauto
      · simp at hp
  · cases p <;> simp_all [get?]
  · simp at hp

theorem operations_renamed :
    ∃ L, operations renamedDisk.journal sampleView = .ok L ∧ L.length = 4 := by
  have hcount : (match operations renamedDisk.journal sampleView with
      | .ok L => L.length
      | .error _ => 0) = 4 := by decide +kernel
  cases hL : operations renamedDisk.journal sampleView with
  | error e => simp [hL] at hcount
  | ok L => exact ⟨L, rfl, by simpa [hL] using hcount⟩

theorem loaded_libTree : Loaded libTree := by
  refine .dir _ _ rfl fun c hc => ?_
  rcases List.mem_pair.mp hc with rfl | rfl
  · refine .dir _ _ rfl fun c hc => ?_
    obtain rfl := List.mem_singleton.mp hc
    exact .file _
  · exact .file _

theorem lookup_iff_replay_renamed :
    ∃ L, operations renamedDisk.journal sampleView = .ok L ∧ L.length = 4 ∧
      ∃ T, applyOperations (fun _ _ _ => .error .cid) Cid.spelling L () libTree = .ok ((), T) ∧
        ∀ p, (∀ n ∈ p, PathName n) →
          (∀ entry, NamedTree.view T p = some entry →
            ∃ node, resolveAt sampleService renamedDisk.cache sampleView L L.length (join p) =
              .ok node ∧ Shows (NamedTree.view libTree) Cid.spelling node entry) ∧
          ∀ node, resolveAt sampleService renamedDisk.cache sampleView L L.length (join p) =
            .ok node → ∃ entry, NamedTree.view T p = some entry ∧
              Shows (NamedTree.view libTree) Cid.spelling node entry := by
  obtain ⟨L, hL, hlen⟩ := operations_renamed
  exact ⟨L, hL, hlen, lookup_iff_replay sampleService sampleView libTree Cid.spelling
    (fun _ _ _ => .error .cid) () renamedDirectory ∅ L loaded_libTree serves_sample hL⟩

theorem readDirAt_lists_replay_renamed :
    ∃ L, operations renamedDisk.journal sampleView = .ok L ∧ L.length = 4 ∧
      ∃ T, applyOperations (fun _ _ _ => .error .cid) Cid.spelling L () libTree = .ok ((), T) ∧
        ∀ d, NamedTree.view T d = some .dir →
          ∃ entries, readDirAt sampleService renamedDisk.cache sampleView L (join d) = .ok entries ∧
            ListsExactly (NamedTree.view T) d entries := by
  obtain ⟨L, hL, hlen⟩ := operations_renamed
  exact ⟨L, hL, hlen, readDirAt_lists_replay sampleService sampleView libTree Cid.spelling
    (fun _ _ _ => .error .cid) () renamedDirectory ∅ L loaded_libTree serves_sample hL⟩

end

end MaltClient.Staging
