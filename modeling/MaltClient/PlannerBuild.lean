import MaltClient.FirstOccurrences
import MaltClient.PlannerSimulation

/-! Committing the marked directories. A directory that is not marked is bound
as before, and a marked one is bound by what a commitment of its whole subtree
from scratch gives. The plan takes the states that are new, in the order of the
walk. -/

namespace MaltClient.Planner

open GoText Checked NamedTree DirectoryManifest Unixfs AssocMap FirstOccurrences
open StagedPath (PathName)

section

variable [CidFormat] [ManifestHash] [Engine]

/-- Of the states that a walk commits, those that are not known and not
committed before. -/
abbrev additions (s : Progress) (seen : List Cid) (ws : List Writer) : List Writer :=
  firsts Writer.root (fun k => ¬ s.Knows k) seen ws

section walk

variable {α : Type} (file : Option Cid → List α) (under : GoString → α → α) (self : Bool → List α)

mutual

/-- What the marked part of a tree yields, children before parents and in the
order of their names. -/
def walk (top : Bool) : TreeNode (Option Cid) → List α
  | .file c => file c
  | .dir d cs =>
    if d.dirty = false then []
    else (sortOn Prod.fst (walkAll cs)).flatMap (fun c => c.2.map (under c.1)) ++ self top

def walkAll : List (GoString × TreeNode (Option Cid)) → List (GoString × List α)
  | [] => []
  | (name, child) :: cs => (name, walk false child) :: walkAll cs

end

end walk

/-- The marked directories that have a Root of their own, in the order in which
they are committed. -/
def marked (layout : LayoutKind) : Bool → TreeNode (Option Cid) → List (List GoString) :=
  walk (fun _ => []) List.cons fun top => if layout = .flatV1 ∧ top = false then [] else [[]]

def payloads [PayloadHash] : TreeNode (Option Cid) → List (Option Cid) :=
  walk (fun c => if c.any PayloadHash.isRaw then [c] else []) (fun _ c => c) (fun _ => []) false

/-- The source holds the state of every directory that the base commits,
within the entry bound. -/
def Serves (p : Capabilities) (origin : DirTree) : Prop :=
  ∀ k, FromBase origin p.layout k → ∃ candidate, p.remote k = some candidate ∧
    candidate.root = k.spelling ∧
    candidate.state.root = k ∧ candidate.state.entries.entries.length ≤ 65536

def Writer.Holds (w : Writer) (layout : LayoutKind) (descriptor : Engine.Descriptor)
    (cs : List (GoString × DirTree)) : Prop :=
  w.descriptor = descriptor ∧ ∀ l, w.entries.lookup l =
    (stateOf layout descriptor cs).entries.lookup l

variable {origin : DirTree} {fresh descriptor : Engine.Descriptor} {layout : LayoutKind}
  {s : Progress} {cs : List (GoString × DirTree)} {draft draft' draft'' : Draft}

section walk

variable {α : Type} {file : Option Cid → List α} {under : GoString → α → α} {self : Bool → List α}

omit [CidFormat] [ManifestHash] [Engine] in
theorem sortOn_map_snd {β γ : Type} (f : β → γ) (l : List (GoString × β)) :
    sortOn Prod.fst (l.map fun c => (c.1, f c.2)) = (sortOn Prod.fst l).map fun c =>
      (c.1, f c.2) := by
  unfold sortOn
  exact (List.map_insertionSort _ _ (fun c : GoString × β => (c.1, f c.2)) l fun _ _ _ _ =>
    Iff.rfl).symm

omit [ManifestHash] [Engine] in
theorem walkAll_eq_map (cs' : List (GoString × TreeNode (Option Cid))) :
    walkAll file under self cs' = cs'.map fun c => (c.1, walk file under self false c.2) := by
  induction cs' with
  | nil => rfl
  | cons c cs' ih =>
    obtain ⟨n, u⟩ := c
    rw [walkAll, ih]
    rfl

variable {d : DirState}

omit [ManifestHash] [Engine] in
theorem walk_dirty (hd : d.dirty = true) (top : Bool)
    (cs' : List (GoString × TreeNode (Option Cid))) :
    walk file under self top (.dir d cs') = (sortOn Prod.fst cs').flatMap
      (fun c => (walk file under self false c.2).map (under c.1)) ++ self top := by
  rw [walk, if_neg (by simp [hd]), walkAll_eq_map, sortOn_map_snd, List.flatMap_map]

omit [ManifestHash] [Engine] in
theorem walk_clean (hd : d.dirty = false) (top : Bool)
    (cs' : List (GoString × TreeNode (Option Cid))) :
    walk file under self top (.dir d cs') = [] := by
  rw [walk, if_pos hd]

end walk

structure Within (origin : DirTree) (layout : LayoutKind) (s : Progress) (draft : Draft) :
    Prop where
  sound : Sound origin layout draft.progress
  grown : Extends s draft.progress
  known : ∀ k, draft.progress.Knows k → s.Knows k

theorem Within.knows_iff (h : Within origin layout s draft) (k : Cid) :
    draft.progress.Knows k ↔ s.Knows k :=
  ⟨h.known k, Or.imp (h.grown.bases k) (h.grown.knownRoots k)⟩

structure Adds (s : Progress) (ws : List Writer) (draft draft' : Draft) : Prop where
  candidates : draft'.candidates = draft.candidates ++ additions s draft.produced ws
  produced : draft'.produced = draft.produced ++ (additions s draft.produced ws).map Writer.root

theorem Adds.nil (s : Progress) (hc : draft'.candidates = draft.candidates)
    (hp : draft'.produced = draft.produced) : Adds s [] draft draft' := by
  constructor
  · rw [hc, additions, firsts, List.append_nil]
  · rw [hp, additions, firsts, List.map_nil, List.append_nil]

theorem Adds.trans {ws ws' : List Writer} (h : Adds s ws draft draft')
    (h' : Adds s ws' draft' draft'') : Adds s (ws ++ ws') draft draft'' := by
  constructor
  · rw [h'.candidates, h.candidates, h.produced]
    unfold additions
    rw [firsts_append, List.append_assoc]
  · rw [h'.produced, h.produced]
    unfold additions
    rw [firsts_append, List.map_append, List.append_assoc]

structure Commits (s : Progress) (layout : LayoutKind) (t : DirTree) (q : List GoString)
    (w : Writer) : Prop where
  holds : ∃ descriptor cs, get? q t = some (.dir descriptor cs) ∧ w.Holds layout descriptor cs
  previous : ∀ k ∈ w.previous, s.Knows k

variable {t : DirTree} {p : Capabilities} {cs' : List (GoString × TreeNode (Option Cid))}
  {d : DirState} {u : TreeNode (Option Cid)}

theorem Commits.under {n : GoString} {q : List GoString} {w : Writer} (h : Commits s layout t q w)
    (hn : child? n cs = some t) : Commits s layout (.dir descriptor cs) (n :: q) w := by
  obtain ⟨d, cs₁, hq, hw⟩ := h.holds
  exact ⟨⟨d, cs₁, by simp [hn, hq], hw⟩, h.previous⟩

theorem loadWriter_serves {k : Cid} (hserves : Serves p origin)
    (hk : FromBase origin p.layout k) (c : WriterCache) :
    ∃ c' w, loadWriter p k c = .ok (c', w) := by
  obtain ⟨candidate, hremote, hspelling, hroot, hbound⟩ := hserves k hk
  have hstate : candidate.state.root.spelling = candidate.root := by rw [hroot, hspelling]
  have himport : importWriter p k = .ok ⟨k, candidate.state, candidate.size⟩ := by
    simp only [importWriter, newWriter, hremote, ok_iff]
    exact ⟨candidate, rfl, (), by simp [hspelling], (), by simp [hbound], candidate.state, ⟨(),
      by simp [hstate], rfl⟩, rfl⟩
  unfold loadWriter
  split
  · exact ⟨_, _, rfl⟩
  · rw [himport]
    by_cases hsize : candidate.size ≤ writerCacheBytes
    · exact ⟨_, _, if_pos hsize⟩
    · exact ⟨_, _, if_neg hsize⟩

theorem persistedWriter_yields (k : Cid) (hw : Within origin p.layout s draft) :
    Yields (Serves p origin) (persistedWriter p k) draft fun o draft' =>
      (∃ progress, draft' = { draft with progress := progress }) ∧ Within origin p.layout s draft' ∧
      (o.isSome = true ↔ s.Knows k) ∧ ∀ w ∈ o, w.root = k := by
  refine (Yields.of_get (Q := fun a b => draft = a ∧ draft = b) ⟨rfl, rfl⟩).bind fun _ _ he => ?_
  obtain ⟨rfl, rfl⟩ := he
  cases hlookup : draft.progress.bases.lookup k with
  | some w =>
    dsimp only
    have hin : k ∈ draft.progress.bases := AList.lookup_isSome.mp (by rw [hlookup]; rfl)
    refine .of_pure ⟨⟨_, rfl⟩, hw, by simp [hw.known k (.inl hin)], fun w' hw' => ?_⟩
    obtain rfl := Option.mem_some_iff.mp hw'
    exact hw.sound.bases k _ hlookup
  | none =>
    dsimp only
    have hout : k ∉ draft.progress.bases := fun hin => by
      have hsome := AList.lookup_isSome.mpr hin
      rw [hlookup] at hsome
      cases hsome
    split_ifs with hknown
    · have hfrom := hw.sound.known k hknown
      have hload : Yields (Serves p origin) (liftM (loadWriter p k draft.progress.writers) :
        Build _) draft fun r draft' =>
          draft = draft' ∧ CacheSound r.1 ∧ r.2.root = k := by
        refine .of_lift (fun hserves => ?_) fun r hr => ⟨rfl, loadWriter_eq_ok hw.sound.cache hr⟩
        obtain ⟨c', w, h⟩ := loadWriter_serves hserves hfrom draft.progress.writers
        exact ⟨(c', w), h⟩
      refine hload.bind fun r _ hr => ?_
      obtain ⟨c', w⟩ := r
      obtain ⟨rfl, hcache, hroot⟩ := hr
      have hmem (k' : Cid) :
        k' ∈ draft.progress.bases.insert k w ↔ k' = k ∨ k' ∈ draft.progress.bases :=
        AList.mem_insert _
      let progress := {
        draft.progress with writers := c', bases := draft.progress.bases.insert k w }
      have hset :
        Yields (Serves p origin) (set { draft with progress := progress } : Build PUnit) draft
          fun _ draft' => draft' = { draft with progress := progress } := .of_set rfl
      refine hset.bind fun _ _ he => ?_
      subst he
      refine .of_pure ⟨⟨_, rfl⟩, ⟨⟨hcache, fun k' w' hk => ?_, fun k' hk => ?_, hw.sound.known⟩,
        ⟨fun k' hk => (hmem k').mpr (.inr (hw.grown.bases k' hk)), hw.grown.knownRoots⟩,
          fun k' hk => ?_⟩,
        by simp [hw.known k (.inr hknown)], fun w' hw' => ?_⟩
      · have hk' : (draft.progress.bases.insert k w).lookup k' = some w' := hk
        rw [lookup_insert_eq] at hk'
        split_ifs at hk' with he
        · rw [← Option.some.inj hk', hroot, he]
        · exact hw.sound.bases k' w' hk'
      · rcases (hmem k').mp hk with rfl | hk
        · exact hfrom
        · exact hw.sound.stored k' hk
      · rcases hk with hk | hk
        · rcases (hmem k').mp hk with rfl | hk
          · exact hw.known k' (.inr hknown)
          · exact hw.known k' (.inl hk)
        · exact hw.known k' (.inr hk)
      · obtain rfl := Option.mem_some_iff.mp hw'
        exact hroot
    · refine .of_pure ⟨⟨_, rfl⟩, hw, ?_, by simp⟩
      rw [← hw.knows_iff]
      simp [Progress.Knows, hout, hknown]

/-- What the export of a state adds to the plan. The Root of the tree is part
of the plan unless it is the base. -/
inductive Exports (s : Progress) (base : Cid) (top : Bool) (w : Writer)
    (draft draft' : Draft) : Prop
  | adds (hplain : top = false ∨ ¬ s.Knows w.root ∨ w.root = base) (h : Adds s [w] draft draft')
  | installed (persisted : Writer) (htop : top = true) (hknown : s.Knows w.root)
      (hbase : w.root ≠ base) (hroot : persisted.root = w.root)
      (hcandidates : draft'.candidates = draft.candidates ++ [persisted])

theorem exportCandidate_yields (base : Cid) (top : Bool) (w : Writer)
    (hw : Within origin p.layout s draft) :
    Yields (Serves p origin) (exportCandidate p base top w) draft fun _ draft' =>
      Within origin p.layout s draft' ∧ draft'.required = draft.required ∧
        Exports s base top w draft draft' := by
  refine (persistedWriter_yields w.root hw).bind fun o draft₁ ho => ?_
  obtain ⟨⟨progress, rfl⟩, hw₁, hknows, hroot⟩ := ho
  cases o with
  | some persisted =>
    have hknown : s.Knows w.root := hknows.mp rfl
    dsimp only
    split_ifs with hexport
    · exact .of_modify ⟨⟨hw₁.sound, hw₁.grown, hw₁.known⟩, rfl,
        .installed persisted hexport.1 hknown hexport.2 (hroot persisted rfl) rfl⟩
    · have hnone : additions s draft.produced [w] = [] := by
        rw [additions, firsts, if_neg fun h => h.1 hknown, firsts]
      refine .of_pure ⟨hw₁, rfl, .adds ?_ ⟨by simp [hnone], by simp [hnone]⟩⟩
      by_cases htop : top = true
      · exact .inr (.inr (not_not.mp fun hb => hexport ⟨htop, hb⟩))
      · exact .inl (by simpa using htop)
  | none =>
    have hknown : ¬ s.Knows w.root := fun hk => by simpa using hknows.mpr hk
    refine .of_modify ?_
    dsimp only
    split_ifs with hdone
    · have hnone : additions s draft.produced [w] = [] := by
        rw [additions, firsts, if_neg fun h => h.2 hdone, firsts]
      exact ⟨hw₁, rfl, .adds (.inr (.inl hknown)) ⟨by simp [hnone], by simp [hnone]⟩⟩
    · have hone : additions s draft.produced [w] = [w] := by
        rw [additions, firsts, if_pos ⟨hknown, hdone⟩, firsts]
      exact ⟨⟨hw₁.sound, hw₁.grown, hw₁.known⟩, rfl, .adds (.inr (.inl hknown)) ⟨by simp [hone],
        by simp [hone]⟩⟩

theorem storeManifest_yields {supplied : Prop}
    (hnodup : (cs'.map Prod.fst).Nodup) (hname : ∀ c ∈ cs', PathName c.1)
    (hsame : manifestOf cs' = manifestOf cs)
    (hclean : d.manifestDirty = false → d.manifest = some (manifestOf cs)) :
    Yields supplied (storeManifest d cs') draft fun d' draft' =>
      d' = { d with manifest := some (manifestOf cs), manifestDirty := false } ∧
      ∃ blocks, draft' = { draft with blocks := blocks } := by
  unfold storeManifest
  split_ifs with hm
  · refine .of_pure ⟨?_, _, rfl⟩
    rw [← hclean hm, ← hm]
  have hnames : (childEntries cs').map DirectoryEntry.name = cs'.map Prod.fst := by
    simp [childEntries, Function.comp_def]
  have hmarshal := marshalDirectoryEntries_eq_ok (hnames ▸ hnodup)
    (fun e he => by
      obtain ⟨c, hc, rfl⟩ := List.mem_map.mp he
      exact (hname c hc).portable)
    (fun e he => by
      obtain ⟨c, hc, rfl⟩ := List.mem_map.mp he
      simp only [typeOf]
      split_ifs <;> simp)
  let data := writeEntries (sortOn DirectoryEntry.name (childEntries cs'))
  have hcid : ManifestHash.manifestCid data = manifestOf cs := hsame
  have hdata :
    Yields supplied (liftM ((marshalDirectoryEntries (childEntries cs')).mapError fun _ =>
      PlanError.message "invalid directory manifest" []) : Build _) draft fun a draft' => data = a ∧
        draft = draft' := by
    refine .of_lift (fun _ => ⟨data, mapError_eq_ok.mpr hmarshal⟩) fun a ha => ⟨?_, rfl⟩
    exact Except.ok.inj (hmarshal.symm.trans (mapError_eq_ok.mp ha))
  refine hdata.bind fun a draft₁ ha => ?_
  obtain ⟨rfl, rfl⟩ := ha
  rw [hcid]
  dsimp only
  split_ifs with hkeep
  · refine (Yields.of_modify (Q := fun _ draft' => ∃ blocks, draft' =
      { draft with blocks := blocks }) ⟨_, rfl⟩).bind
      fun _ draft₁ hdraft => ?_
    exact .of_pure ⟨rfl, hdraft⟩
  · exact .of_pure ⟨rfl, _, rfl⟩

def childOf (layout : LayoutKind) (n : GoString) (u : TreeNode (Option Cid)) : DirectoryChild :=
  { name := n
    directory := u.isDir
    root := u.key
    manifest := u.manifest
    descendants :=
      if u.isDir = true ∧ layout ≠ .rootedV1 then authenticationBindings layout u else ∅ }

omit [ManifestHash] [Engine] in
theorem projectedChildren_eq_map (layout : LayoutKind)
    (cs' : List (GoString × TreeNode (Option Cid))) :
    projectedChildren layout cs' = cs'.map fun c => childOf layout c.1 c.2 := by
  induction cs' with
  | nil => rfl
  | cons c cs' ih =>
    obtain ⟨n, u⟩ := c
    rw [projectedChildren, ih]
    rfl

theorem builds_eq_map [PayloadHash] (p : Capabilities) (base : Cid) (initial : Engine.Descriptor)
    (cs' : List (GoString × TreeNode (Option Cid))) :
    builds p base initial cs' = cs'.map fun c => (c.1, build p base initial false c.2) := by
  induction cs' with
  | nil => rfl
  | cons c cs' ih =>
    obtain ⟨n, u⟩ := c
    rw [builds, ih]
    rfl

theorem lookup_authenticationBindings
    (hdirty : d.dirty = true) (hnamed : Named (.dir descriptor cs : DirTree))
    (hnodup : (cs'.map Prod.fst).Nodup)
    (hsome : ∀ n, (child? n cs).isSome = (child? n cs').isSome)
    (hchild : ∀ n t u, child? n cs = some t → child? n cs' = some u →
      (childOf layout n u).Same layout (rebuild layout t n)) (l : GoString) :
    (authenticationBindings layout (.dir d cs')).lookup l = (bindingsOf layout cs).lookup l := by
  obtain ⟨hnodup₀, -, -⟩ := hnamed.children
  have hperm := sortOn_perm DirectoryChild.name (projectedChildren layout cs')
  have hmem {c : DirectoryChild} : c ∈ sortOn DirectoryChild.name (projectedChildren layout cs') ↔
      ∃ n u, child? n cs' = some u ∧ childOf layout n u = c := by
    rw [hperm.mem_iff, projectedChildren_eq_map, List.mem_map]
    constructor
    · intro ⟨⟨n, u⟩, hc, he⟩
      exact ⟨n, u, child?_of_mem hnodup hc, he⟩
    · intro ⟨n, u, hc, he⟩
      exact ⟨(n, u), mem_of_child? hc, he⟩
  have hnames :
    ((sortOn DirectoryChild.name (projectedChildren layout cs')).map
      DirectoryChild.name).Nodup := by
    rw [(hperm.map _).nodup_iff, projectedChildren_eq_map, List.map_map]
    exact hnodup
  have hmatch : ∀ c' ∈ sortOn DirectoryChild.name (projectedChildren layout cs'),
      ∃ c ∈ rebuildAll layout cs, c.Same layout c' := by
    intro c' hc'
    obtain ⟨n, u, hu, rfl⟩ := hmem.mp hc'
    have hn := hsome n
    rw [hu, Option.isSome_some, Option.isSome_iff_exists] at hn
    obtain ⟨t, ht⟩ := hn
    exact ⟨_, mem_rebuildAll ht, (hchild n t u ht hu).symm⟩
  have hmatch' : ∀ c ∈ rebuildAll layout cs,
      ∃ c' ∈ sortOn DirectoryChild.name (projectedChildren layout cs'), c.Same layout c' := by
    intro c hc
    rw [rebuildAll_eq_map] at hc
    obtain ⟨⟨n, t⟩, hm, rfl⟩ := List.mem_map.mp hc
    have ht := child?_of_mem hnodup₀ hm
    have hn := hsome n
    rw [ht, Option.isSome_some] at hn
    obtain ⟨u, hu⟩ := Option.isSome_iff_exists.mp hn.symm
    exact ⟨_, hmem.mpr ⟨n, u, hu, rfl⟩, (hchild n t u ht hu).symm⟩
  have hproject : authenticationBindings layout (.dir d cs') =
      projectDirectoryBindings layout
        (sortOn DirectoryChild.name (projectedChildren layout cs')) := by
    rw [authenticationBindings, hdirty]
  rw [hproject]
  exact (lookup_project_congr hnamed.plain hnamed.nodup hnames hmatch' hmatch l).symm

theorem Kept.same (h : Kept s layout descriptor cs d) (hdirty : d.dirty = false) (n : GoString) :
    (childOf layout n (.dir d cs')).Same layout (rebuild layout (.dir descriptor cs) n) := by
  refine ⟨(rebuild_name _ n).symm, rfl, ?_, fun hlayout _ l => ?_⟩
  · rw [rebuild_target_dir]
    have hkey := h.key
    rw [rebuild_target_dir] at hkey
    split_ifs at hkey ⊢ with hflat
    · simp [DirectoryChild.target, childOf, hflat, Tree.isDir, TreeNode.manifest, h.manifest hflat]
    · simp [DirectoryChild.target, childOf, hflat, TreeNode.key, hkey]
  · obtain ⟨r, hr, hlookup⟩ := h.retained hlayout
    have hbindings : authenticationBindings layout (.dir d cs') = r := by
      rw [authenticationBindings, hdirty, hr]
    simp only [childOf, Tree.isDir, true_and, hlayout, ne_eq, not_false_eq_true, if_true, hbindings]
    exact hlookup l

theorem commitDirectory_yields (base : Cid) (top : Bool) (hw : Within origin p.layout s draft)
    (hkey : Keyed s fresh descriptor d) (hmanifest : d.manifest = some (manifestOf cs))
    (hbindings : ∀ l, (authenticationBindings p.layout (.dir d cs')).lookup l =
      (bindingsOf p.layout cs).lookup l) :
    Yields (Serves p origin) (commitDirectory p base fresh top d cs') draft fun d' draft' =>
      d' = { d with key := some (stateOf p.layout descriptor cs).root } ∧
        Within origin p.layout s draft' ∧
      draft'.required = draft.required ∧
      ∃ w, Commits s p.layout (.dir descriptor cs) [] w ∧ Exports s base top w draft draft' := by
  refine (Yields.of_get (Q := fun a b => draft = a ∧ draft = b) ⟨rfl, rfl⟩).bind fun _ _ he => ?_
  obtain ⟨rfl, rfl⟩ := he
  let old := d.key.bind draft.progress.bases.lookup
  let w : Writer :=
    { descriptor := (old.map Writer.descriptor).getD fresh
      entries := authenticationEntries p.layout d cs'
      previous := old.map Writer.root }
  have hold :
    (old.map Writer.descriptor).getD fresh = descriptor ∧ ∀ k ∈ old.map Writer.root, s.Knows k := by
    rcases hkey with ⟨hnone, rfl⟩ | ⟨e, hk, hin⟩
    · have hempty : old = none := by rw [show old = d.key.bind _ from rfl, hnone, Option.bind_none]
      simp [hempty]
    · obtain ⟨v, hv⟩ := Option.isSome_iff_exists.mp (AList.lookup_isSome.mpr (hw.grown.bases _ hin))
      have hroot : v.root = Engine.root descriptor e := hw.sound.bases _ v hv
      have hsome :
        old = some v := by rw [show old = d.key.bind _ from rfl, hk, Option.bind_some, hv]
      rw [hsome]
      refine ⟨(Engine.root_injective hroot).1, fun k hk => ?_⟩
      obtain rfl := Option.mem_some_iff.mp hk
      exact .inl (hroot ▸ hin)
  have hentries (l : GoString) :
    w.entries.lookup l = (stateOf p.layout descriptor cs).entries.lookup l := by
    simp only [w, authenticationEntries, stateOf, lookup_insert_eq, hbindings, hmanifest]
  have hcommits : Commits s p.layout (.dir descriptor cs) [] w :=
    ⟨⟨descriptor, cs, get?_nil _, hold.1, hentries⟩, hold.2⟩
  have hroot : w.root = (stateOf p.layout descriptor cs).root := by
    have hmap : w.entries.toFinmap = (stateOf p.layout descriptor cs).entries.toFinmap :=
      Finmap.ext_lookup fun l => by rw [Finmap.lookup_toFinmap, Finmap.lookup_toFinmap, hentries]
    have hdescriptor : w.descriptor = (stateOf p.layout descriptor cs).descriptor := hold.1
    rw [Writer.root, Writer.root, hmap, hdescriptor]
  refine (exportCandidate_yields base top w hw).bind fun _ draft₁ hexport => .of_pure ?_
  obtain ⟨hw₁, hrequired, hexports⟩ := hexport
  rw [← hroot]
  exact ⟨rfl, hw₁, hrequired, w, hcommits, hexports⟩

structure ChildrenBuilt [PayloadHash] (origin : DirTree) (s : Progress) (layout : LayoutKind)
    (descriptor : Engine.Descriptor) (cs : List (GoString × DirTree))
    (l : List (GoString × TreeNode (Option Cid)))
    (draft : Draft) (as : List (GoString × TreeNode (Option Cid))) (draft' : Draft) : Prop where
  within : Within origin layout s draft'
  names : as.map Prod.fst = l.map Prod.fst
  same : ∀ c ∈ as, ∃ t, child? c.1 cs = some t ∧ c.2.isDir = t.isDir ∧
    (childOf layout c.1 c.2).Same layout (rebuild layout t c.1)
  commits : ∃ ws, List.Forall₂ (Commits s layout (.dir descriptor cs))
    (l.flatMap fun c => (marked layout false c.2).map (List.cons c.1)) ws ∧ Adds s ws draft draft'
  required : draft'.required = draft.required ++ l.flatMap fun c => payloads c.2

structure Built [PayloadHash] (origin : DirTree) (s : Progress) (layout : LayoutKind) (t : DirTree)
    (u : TreeNode (Option Cid)) (draft : Draft) (u' : TreeNode (Option Cid)) (draft' : Draft) :
    Prop where
  within : Within origin layout s draft'
  isDir : u'.isDir = t.isDir
  same : ∀ n, (childOf layout n u').Same layout (rebuild layout t n)
  commits :
    ∃ ws, List.Forall₂ (Commits s layout t) (marked layout false u) ws ∧ Adds s ws draft draft'
  required : draft'.required = draft.required ++ payloads u

theorem runAll_yields [PayloadHash] (base : Cid) {l : List (GoString × TreeNode (Option Cid))}
    (hw : Within origin p.layout s draft)
    (hbuild : ∀ c ∈ l, ∃ t, child? c.1 cs = some t ∧ ∀ draft, Within origin p.layout s draft →
      Yields (Serves p origin)
        (build p base fresh false c.2) draft (Built origin s p.layout t c.2 draft)) :
    Yields (Serves p origin) (runAll (l.map fun c => (c.1, build p base fresh false c.2))) draft
      (ChildrenBuilt origin s p.layout descriptor cs l draft) := by
  induction l generalizing draft with
  | nil => exact .of_pure ⟨hw, rfl, by simp, ⟨[], .nil, .nil s rfl rfl⟩, by simp⟩
  | cons c l ih =>
    obtain ⟨t, ht, hc⟩ := hbuild c List.mem_cons_self
    refine (hc draft hw).bind fun a draft₁ hbuilt => ?_
    obtain ⟨ws, hws, hadds⟩ := hbuilt.commits
    refine (ih hbuilt.within fun c hc => hbuild c (List.mem_cons_of_mem _ hc)).bind
      fun as draft₂ hrest => ?_
    obtain ⟨ws', hws', hadds'⟩ := hrest.commits
    refine .of_pure ⟨hrest.within, by simp [hrest.names], fun e he => ?_,
      ⟨ws ++ ws', ?_, hadds.trans hadds'⟩, ?_⟩
    · rcases List.mem_cons.mp he with rfl | he
      · exact ⟨t, ht, hbuilt.isDir, hbuilt.same _⟩
      · exact hrest.same e he
    · rw [List.flatMap_cons]
      refine List.rel_append ?_ hws'
      exact List.forall₂_map_left_iff.mpr (hws.imp fun q w hq => hq.under ht)
    · rw [hrest.required, hbuilt.required, List.flatMap_cons, List.append_assoc]

omit [ManifestHash] [Engine] in
theorem exists_child_of_mem {δ : Type} {cs : List (GoString × Tree GoString δ (Option Cid))}
    (hnodup : (cs'.map Prod.fst).Nodup)
    (hsome : ∀ n, (child? n cs).isSome = (child? n cs').isSome)
    {c : GoString × TreeNode (Option Cid)}
    (hc : c ∈ sortOn Prod.fst cs') : child? c.1 cs' = some c.2 ∧ ∃ t, child? c.1 cs = some t := by
  have hu : child? c.1 cs' = some c.2 := child?_of_mem hnodup ((sortOn_perm Prod.fst cs').subset hc)
  have hn := hsome c.1
  rw [hu, Option.isSome_some, Option.isSome_iff_exists] at hn
  exact ⟨hu, hn⟩

theorem buildChildren_yields [PayloadHash] (base : Cid) (hw : Within origin p.layout s draft)
    (hnamed : Named (.dir descriptor cs : DirTree)) (hnodup : (cs'.map Prod.fst).Nodup)
    (hsome : ∀ n, (child? n cs).isSome = (child? n cs').isSome)
    (hchild : ∀ n t u, child? n cs = some t → child? n cs' = some u →
      ∀ draft, Within origin p.layout s draft →
      Yields (Serves p origin)
        (build p base fresh false u) draft (Built origin s p.layout t u draft)) :
    Yields (Serves p origin) (runAll (sortOn Prod.fst (builds p base fresh cs'))) draft
      fun as draft' =>
      ChildrenBuilt origin s p.layout descriptor cs (sortOn Prod.fst cs') draft as draft' ∧
      (as.map Prod.fst).Nodup ∧ (∀ c ∈ as, PathName c.1) ∧ manifestOf as = manifestOf cs ∧
      ∀ d' : DirState, d'.dirty = true → ∀ l,
        (authenticationBindings p.layout (.dir d' as)).lookup l =
          (bindingsOf p.layout cs).lookup l := by
  obtain ⟨hnodup₀, hname₀, -⟩ := hnamed.children
  have hperm : (sortOn Prod.fst cs').Perm cs' := sortOn_perm Prod.fst cs'
  rw [builds_eq_map, sortOn_map_snd]
  have hrun : Yields (Serves p origin)
      (runAll ((sortOn Prod.fst cs').map fun c => (c.1, build p base fresh false c.2))) draft
      (ChildrenBuilt origin s p.layout descriptor cs (sortOn Prod.fst cs') draft) := by
    refine runAll_yields base hw fun c hc => ?_
    obtain ⟨hu, t, ht⟩ := exists_child_of_mem hnodup hsome hc
    exact ⟨t, ht, hchild c.1 t c.2 ht hu⟩
  refine hrun.imp fun as draft' hbuilt => ?_
  have hnames : (as.map Prod.fst).Perm (cs'.map Prod.fst) := hbuilt.names ▸ hperm.map Prod.fst
  have hnodupAs : (as.map Prod.fst).Nodup := hnames.nodup_iff.mpr hnodup
  have hsomeAs (n : GoString) : (child? n cs).isSome = (child? n as).isSome := by
    have hmem : child? n as ≠ none ↔ child? n cs' ≠ none := by
      rw [← mem_map_fst_iff, ← mem_map_fst_iff, hnames.mem_iff]
    rw [hsome n]
    cases ha : child? n as <;> cases hc : child? n cs' <;> simp_all
  have hsame (n : GoString) (t : DirTree) (a : TreeNode (Option Cid)) (ht : child? n cs = some t)
      (ha : child? n as = some a) :
        (childOf p.layout n a).Same p.layout (rebuild p.layout t n) := by
    obtain ⟨t', ht', -, hsame⟩ := hbuilt.same (n, a) (mem_of_child? ha)
    obtain rfl : t = t' := Option.some.inj (ht.symm.trans ht')
    exact hsame
  refine ⟨hbuilt, hnodupAs, fun c hc => ?_, ?_, fun d' hd' => lookup_authenticationBindings hd'
    hnamed hnodupAs hsomeAs hsame⟩
  · obtain ⟨t, ht, -⟩ := hbuilt.same c hc
    exact hname₀ (c.1, t) (mem_of_child? ht)
  · refine (manifestOf_congr hnodup₀ hnodupAs hname₀ fun n => ?_).symm
    cases ha : child? n as with
    | none =>
      have hn := hsomeAs n
      rw [ha, Option.isSome_none, Option.isSome_eq_false_iff, Option.isNone_iff_eq_none] at hn
      rw [hn]
      rfl
    | some a =>
      obtain ⟨t, ht, hdir, -⟩ := hbuilt.same (n, a) (mem_of_child? ha)
      rw [ht, Option.map_some, Option.map_some, typeOf, typeOf, hdir]

/-- What is built of a marked directory. The directory itself comes after what
is below it. -/
structure DirectoryBuilt [PayloadHash] (origin : DirTree) (s : Progress)
    (layout : LayoutKind) (base : Cid)
    (top : Bool) (descriptor : Engine.Descriptor) (cs : List (GoString × DirTree))
    (l : List (GoString × TreeNode (Option Cid))) (draft : Draft) (u' : TreeNode (Option Cid))
    (draft' : Draft) : Prop where
  within : Within origin layout s draft'
  isDir : u'.isDir = true
  same : top = false →
    ∀ n, (childOf layout n u').Same layout (rebuild layout (.dir descriptor cs) n)
  key : layout ≠ .flatV1 ∨ top = true → u'.key = some (stateOf layout descriptor cs).root
  required : draft'.required = draft.required ++ l.flatMap fun c => payloads c.2
  commits : ∃ ws between, List.Forall₂ (Commits s layout (.dir descriptor cs))
      (l.flatMap fun c => (marked layout false c.2).map (List.cons c.1)) ws ∧
        Adds s ws draft between ∧
    ((layout = .flatV1 ∧ top = false ∧ Adds s [] between draft') ∨
      (layout ≠ .flatV1 ∨ top = true) ∧ ∃ w, Commits s layout (.dir descriptor cs) [] w ∧
        Exports s base top w between draft')

theorem buildDirectory_yields [PayloadHash] (base : Cid) (top : Bool)
    (hw : Within origin p.layout s draft)
    (hnamed : Named (.dir descriptor cs : DirTree)) (hnodup : (cs'.map Prod.fst).Nodup)
    (hmanifest : d.manifestDirty = false → d.manifest = some (manifestOf cs))
    (hdirty : d.dirty = true) (hkey : p.layout ≠ .flatV1 ∨ top = true → Keyed s fresh descriptor d)
    (hsome : ∀ n, (child? n cs).isSome = (child? n cs').isSome)
    (hchild : ∀ n t u, child? n cs = some t → child? n cs' = some u →
      ∀ draft, Within origin p.layout s draft →
      Yields (Serves p origin) (build p base fresh false u) draft
        (Built origin s p.layout t u draft)) :
    Yields (Serves p origin) (build p base fresh top (.dir d cs')) draft
      (DirectoryBuilt origin s p.layout base top descriptor cs (sortOn Prod.fst cs') draft) := by
  rw [build, if_neg (by simp [hdirty])]
  refine (buildChildren_yields base hw hnamed hnodup hsome hchild).bind
    fun as draft₁ hchildren => ?_
  obtain ⟨hbuilt, hnodupAs, hnameAs, hmanifestAs, hbindings⟩ := hchildren
  refine (storeManifest_yields hnodupAs hnameAs hmanifestAs hmanifest).bind
    fun d₁ draft₂ hstore => ?_
  obtain ⟨rfl, blocks, rfl⟩ := hstore
  have hw₂ : Within origin p.layout s { draft₁ with blocks := blocks } :=
    ⟨hbuilt.within.sound, hbuilt.within.grown, hbuilt.within.known⟩
  obtain ⟨ws, hws, hadds⟩ := hbuilt.commits
  have hadds₂ : Adds s ws draft { draft₁ with blocks := blocks } :=
    ⟨hadds.candidates, hadds.produced⟩
  by_cases hflat : p.layout = .flatV1 ∧ top = false
  · rw [sealDirectory, if_pos hflat]
    let d₂ : DirState := { d with
        key := some (manifestOf cs), manifest := some (manifestOf cs), manifestDirty := false }
    have hseal :
      Yields (Serves p origin) (pure d₂ : Build DirState) { draft₁ with blocks := blocks }
      fun d' draft' => d₂ = d' ∧ { draft₁ with blocks := blocks } = draft' := .of_pure ⟨rfl, rfl⟩
    refine hseal.bind fun _ draft₃ he => ?_
    obtain ⟨rfl, rfl⟩ := he
    refine .of_pure ⟨hw₂, rfl, fun _ n => ⟨(rebuild_name _ n).symm, rfl, ?_, fun _ _ =>
      ?_⟩, fun hc => ?_,
      hbuilt.required, ws, _, hws, hadds₂, .inl ⟨hflat.1, hflat.2, .nil s rfl rfl⟩⟩
    · rw [rebuild_target_dir, if_pos hflat.1]
      simp [DirectoryChild.target, childOf, hflat.1, Tree.isDir, TreeNode.manifest, d₂]
    · have hl : p.layout ≠ .rootedV1 := by simp [hflat.1]
      simp only [childOf, Tree.isDir, true_and, hl, ne_eq, not_false_eq_true, if_true]
      exact hbindings _ hdirty
    · simp [hflat] at hc
  · have hcommits : p.layout ≠ .flatV1 ∨ top = true := by
      by_cases h : p.layout = .flatV1
      · exact .inr (by simpa [h] using hflat)
      · exact .inl h
    rw [sealDirectory, if_neg hflat]
    have hkey₂ : Keyed s fresh descriptor
      { d with manifest := some (manifestOf cs), manifestDirty := false } :=
      hkey hcommits
    refine (commitDirectory_yields base top hw₂ hkey₂ rfl (hbindings _ hdirty)).bind
      fun d₂ draft₃ hcommit => ?_
    obtain ⟨rfl, hw₃, hrequired, w, hw, hexports⟩ := hcommit
    refine .of_pure ⟨hw₃, rfl, fun _ n => ⟨(rebuild_name _ n).symm, rfl, ?_, fun hl _ => ?_⟩,
      fun _ => rfl,
      hrequired.trans hbuilt.required, ws, _, hws, hadds₂, .inr ⟨hcommits, w, hw, hexports⟩⟩
    · rw [rebuild_target_dir]
      split_ifs with hl
      · simp [DirectoryChild.target, childOf, hl, Tree.isDir, TreeNode.manifest]
      · simp [DirectoryChild.target, childOf, hl, TreeNode.key]
    · simp only [childOf, Tree.isDir, true_and, hl, ne_eq, not_false_eq_true, if_true]
      exact hbindings _ hdirty

theorem build_yields [PayloadHash] (base : Cid)
    (hrep : Represents origin s fresh p.layout false t u) (hnamed : Named t)
    (hw : Within origin p.layout s draft) : Yields (Serves p origin)
      (build p base fresh false u) draft (Built origin s p.layout t u draft) := by
  generalize htop : false = top at hrep
  induction hrep generalizing draft with
  | file top c =>
    have hbuilt (draft' : Draft) (hw' : Within origin p.layout s draft')
        (hcandidates : draft'.candidates = draft.candidates)
        (hproduced : draft'.produced = draft.produced)
        (hrequired : draft'.required = draft.required ++ payloads (.file c)) :
        Built origin s p.layout (.file c) (.file c) draft (.file c) draft' :=
      ⟨hw', rfl, fun n => ⟨rfl, rfl, by simp [DirectoryChild.target, childOf, Tree.isDir,
        TreeNode.key, rebuild],
        fun _ hd => by cases hd⟩, ⟨[], .nil, .nil s hcandidates hproduced⟩, hrequired⟩
    rw [build, buildFile]
    split_ifs with hraw
    · refine (Yields.of_modify (Q := fun _ draft' => { draft with required := draft.required ++
        [c] } = draft') rfl).bind
        fun _ draft' hdraft => ?_
      subst hdraft
      refine .of_pure (hbuilt _ ⟨hw.sound, hw.grown, hw.known⟩ rfl rfl ?_)
      simp [payloads, walk, hraw]
    · refine .of_pure (hbuilt draft hw rfl rfl ?_)
      simp [payloads, walk, hraw]
  | @closed descriptor cs d context hload hdirty hkept horigin =>
    rw [build, if_pos hdirty]
    refine .of_pure ⟨hw, rfl, fun n => hkept.same hdirty n, ⟨[], ?_, .nil s rfl rfl⟩, ?_⟩
    · rw [marked, walk_clean hdirty]
      exact .nil
    · rw [payloads, walk_clean hdirty, List.append_nil]
  | @opened top descriptor cs d cs' hload hnodup hmanifest hkept hclean hkey hsome hchild ih =>
    subst htop
    cases hdirty : d.dirty with
    | false =>
      rw [build, if_pos hdirty]
      refine .of_pure ⟨hw, rfl, fun n => (hkept hdirty rfl).same hdirty n,
        ⟨[], ?_, .nil s rfl rfl⟩, ?_⟩
      · rw [marked, walk_clean hdirty]
        exact .nil
      · rw [payloads, walk_clean hdirty, List.append_nil]
    | true =>
      have hchildren : ∀ n t u, child? n cs = some t → child? n cs' = some u → ∀ draft,
          Within origin p.layout s draft →
          Yields (Serves p origin)
            (build p base fresh false u) draft (Built origin s p.layout t u draft) :=
        fun n t u ht hu draft₁ hw₁ => ih n t u ht hu (hnamed.children.2.2 (n, t) (mem_of_child? ht))
          hw₁ rfl
      refine (buildDirectory_yields base false hw hnamed hnodup hmanifest hdirty hkey hsome
        hchildren).imp
        fun u' draft' hbuilt => ?_
      obtain ⟨ws, between, hws, hadds, hself⟩ := hbuilt.commits
      have hrequired :
        payloads (.dir d cs') = (sortOn Prod.fst cs').flatMap fun c => payloads c.2 := by
        simp [payloads, walk_dirty hdirty]
      refine ⟨hbuilt.within, hbuilt.isDir, hbuilt.same rfl, ?_, hrequired ▸ hbuilt.required⟩
      rw [marked, walk_dirty hdirty]
      rcases hself with ⟨hflat, -, hnil⟩ | ⟨hroot, w, hcommits, hexports⟩
      · refine ⟨ws, ?_, by simpa using hadds.trans hnil⟩
        rw [if_pos ⟨hflat, rfl⟩, List.append_nil]
        exact hws
      · cases hexports with
        | adds _ hw =>
          refine ⟨ws ++ [w], ?_, hadds.trans hw⟩
          rw [if_neg fun h => hroot.elim (fun hl => hl h.1) (by simp)]
          exact List.rel_append hws (.cons hcommits .nil)
        | installed _ htop => cases htop

theorem buildTop_yields [PayloadHash] (base : Cid)
    (hrep : Represents origin s fresh p.layout true t u) (hnamed : Named t)
    (hmarked : ∃ d cs', u = .dir d cs' ∧ d.dirty = true) (hw : Within origin p.layout s draft) :
    Yields (Serves p origin) (build p base fresh true u) draft fun u' draft' =>
      u'.key = rebuildRoot p.layout t ∧ draft'.required = draft.required ++ payloads u ∧
      ∃ below ws w between, marked p.layout true u = below ++ [[]] ∧ [] ∉ below ∧
        List.Forall₂ (Commits s p.layout t) below ws ∧ Commits s p.layout t [] w ∧
          Adds s ws draft between ∧
        Exports s base true w between draft' := by
  obtain ⟨d, cs', rfl, hdirty⟩ := hmarked
  cases hrep with
  | @opened _ descriptor cs _ _ hload hnodup hmanifest hkept hclean hkey hsome hchild =>
    have hchildren : ∀ n t u, child? n cs = some t → child? n cs' = some u → ∀ draft,
        Within origin p.layout s draft →
        Yields (Serves p origin)
          (build p base fresh false u) draft (Built origin s p.layout t u draft) :=
      fun n t u ht hu _ hw₁ =>
        build_yields base (hchild n t u ht hu) (hnamed.children.2.2 (n, t) (mem_of_child? ht)) hw₁
    refine (buildDirectory_yields base true hw hnamed hnodup hmanifest hdirty hkey hsome
      hchildren).imp
      fun u' draft' hbuilt => ?_
    obtain ⟨ws, between, hws, hadds, hself⟩ := hbuilt.commits
    obtain ⟨-, w, hcommits, hexports⟩ := hself.resolve_left (by simp)
    refine ⟨hbuilt.key (.inr rfl), ?_, _, ws, w, between, ?_, ?_, hws, hcommits, hadds, hexports⟩
    · rw [hbuilt.required]
      simp [payloads, walk_dirty hdirty]
    · rw [marked, walk_dirty hdirty, if_neg (by simp)]
    · simp

end

end MaltClient.Planner
