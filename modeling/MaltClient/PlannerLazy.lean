import MaltClient.PlannerRebuild

/-! Directories are loaded when an operation first reaches them. Until then a
node keeps the key and the labels that the base has for it, and a directory
that is not marked still has them afterwards. -/

namespace MaltClient.Planner

open GoText Checked NamedTree DirectoryManifest Unixfs AssocMap

section

variable [CidFormat] [ManifestHash] [Engine]

structure Extends (s s' : Progress) : Prop where
  bases : ∀ k ∈ s.bases, k ∈ s'.bases
  knownRoots : ∀ k ∈ s.knownRoots, k ∈ s'.knownRoots

def Progress.Knows (s : Progress) (k : Cid) : Prop := k ∈ s.bases ∨ k ∈ s.knownRoots

instance (s : Progress) (k : Cid) : Decidable (s.Knows k) := inferInstanceAs (Decidable (_ ∨ _))

structure Kept (s : Progress) (layout : LayoutKind) (descriptor : Engine.Descriptor)
    (cs : List (GoString × DirTree)) (d : DirState) : Prop where
  key : d.key = (rebuild layout (.dir descriptor cs) []).target layout
  manifest : layout = .flatV1 → d.manifest = some (manifestOf cs)
  retained : layout ≠ .rootedV1 →
    ∃ r, d.retained = some r ∧ ∀ l, r.lookup l = (bindingsOf layout cs).lookup l
  known : layout ≠ .flatV1 → (stateOf layout descriptor cs).root ∈ s.knownRoots

/-- The descriptor of a directory can be found from its key: a new directory
has none, and the writer of an old one is at hand. -/
def Keyed (s : Progress) (fresh descriptor : Engine.Descriptor) (d : DirState) : Prop :=
  (d.key = none ∧ descriptor = fresh) ∨
    ∃ e, d.key = some (Engine.root descriptor e) ∧ Engine.root descriptor e ∈ s.bases

/-- A node of the planner's tree stands for a full tree. The flag says whether
the node is the root of the tree. -/
inductive Represents (origin : DirTree) (s : Progress) (fresh : Engine.Descriptor)
    (layout : LayoutKind) : Bool → DirTree → TreeNode (Option Cid) → Prop
  | file (top : Bool) (c : Option Cid) : Represents origin s fresh layout top (.file c) (.file c)
  | closed {descriptor : Engine.Descriptor} {cs : List (GoString × DirTree)} {d : DirState}
      {context : LoadContext} (hload : d.load = some context) (hdirty : d.dirty = false)
      (hkept : Kept s layout descriptor cs d)
      (horigin : ∃ q, get? q origin = some (.dir descriptor cs)) :
      Represents origin s fresh layout false (.dir descriptor cs) (.dir d [])
  | opened {top : Bool} {descriptor : Engine.Descriptor} {cs : List (GoString × DirTree)}
      {d : DirState} {cs' : List (GoString × TreeNode (Option Cid))} (hload : d.load = none)
      (hnodup : (cs'.map Prod.fst).Nodup)
      (hmanifest : d.manifestDirty = false → d.manifest = some (manifestOf cs))
      (hkept : d.dirty = false → top = false → Kept s layout descriptor cs d)
      (hclean : d.dirty = false → ∀ c ∈ cs', AllDirs (fun d => d.dirty = false) c.2)
      (hkey : layout ≠ .flatV1 ∨ top = true → Keyed s fresh descriptor d)
      (hsome : ∀ n, (child? n cs).isSome = (child? n cs').isSome)
      (hchild : ∀ n t u, child? n cs = some t → child? n cs' = some u →
        Represents origin s fresh layout false t u) :
      Represents origin s fresh layout top (.dir descriptor cs) (.dir d cs')

def BaseRoot (layout : LayoutKind) (origin : DirTree) (base : Cid) : Prop :=
  ∃ descriptor cs, origin = .dir descriptor cs ∧ (stateOf layout descriptor cs).root = base

def FromBase (origin : DirTree) (layout : LayoutKind) (k : Cid) : Prop :=
  ∃ q descriptor cs, get? q origin = some (.dir descriptor cs) ∧ (layout ≠ .flatV1 ∨ q = []) ∧
    (stateOf layout descriptor cs).root = k

def CacheSound (c : WriterCache) : Prop := ∀ item ∈ c.lru, item.writer.root = item.root

structure Sound (origin : DirTree) (layout : LayoutKind) (s : Progress) : Prop where
  cache : CacheSound s.writers
  bases : ∀ k w, s.bases.lookup k = some w → w.root = k
  stored : ∀ k ∈ s.bases, FromBase origin layout k
  known : ∀ k ∈ s.knownRoots, FromBase origin layout k

variable {origin : DirTree} {s s' s'' : Progress} {fresh descriptor : Engine.Descriptor}
  {layout : LayoutKind} {cs : List (GoString × DirTree)}

theorem Extends.refl (s : Progress) : Extends s s := ⟨fun _ hk => hk, fun _ hk => hk⟩

theorem Extends.trans (h : Extends s s') (h' : Extends s' s'') : Extends s s'' :=
  ⟨fun k hk => h'.bases k (h.bases k hk), fun k hk => h'.knownRoots k (h.knownRoots k hk)⟩

variable {d d' : DirState} {t : DirTree} {top : Bool} {w : Writer} {p : Capabilities}
  {targets : Bindings}
  {lineage lineage' : List Cid} {e : DirectoryEntry} {context : LoadContext} {base : Cid}
  {cs' : List (GoString × TreeNode (Option Cid))}

theorem Kept.mono (h : Kept s layout descriptor cs d) (hle : Extends s s') :
    Kept s' layout descriptor cs d :=
  ⟨h.key, h.manifest, h.retained, fun hflat => hle.knownRoots _ (h.known hflat)⟩

theorem Represents.mono {u : TreeNode (Option Cid)} (hle : Extends s s')
    (h : Represents origin s fresh layout top t u) : Represents origin s' fresh layout top t u := by
  induction h with
  | file top c => exact .file top c
  | closed hload hdirty hkept horigin => exact .closed hload hdirty (hkept.mono hle) horigin
  | opened hload hnodup hmanifest hkept hclean hkey hsome hchild ih =>
    refine .opened hload hnodup hmanifest (fun hd htop => (hkept hd htop).mono hle) hclean
      (fun hc => ?_) hsome ih
    rcases hkey hc with hnew | ⟨e, hk, hin⟩
    · exact .inl hnew
    · exact .inr ⟨e, hk, hle.bases _ hin⟩

theorem evict_subset (size : Nat) (l : List CachedWriter) (b : Nat) : (evict size l b).lru ⊆ l := by
  induction l generalizing b with
  | nil => simp [evict]
  | cons old rest ih =>
    rw [evict]
    split_ifs
    · exact List.subset_cons_of_subset _ (ih _)
    · exact List.Subset.refl _

theorem loadWriter_eq_ok {k : Cid} {c c' : WriterCache} (hc : CacheSound c)
    (h : loadWriter p k c = .ok (c', w)) : CacheSound c' ∧ w.root = k := by
  unfold loadWriter at h
  split at h
  · rename_i item hfind
    have hroot : item.root = k := by simpa using List.find?_some hfind
    have hitem : item.writer.root = item.root := hc item (List.mem_of_find?_eq_some hfind)
    simp only [pure_eq_ok, Prod.mk.injEq] at h
    obtain ⟨rfl, rfl⟩ := h
    refine ⟨fun i hi => ?_, hitem.trans hroot⟩
    rcases List.mem_append.mp hi with hi | hi
    · exact hc i (List.mem_filter.mp hi).1
    · obtain rfl := List.mem_singleton.mp hi
      exact hitem
  · simp only [importWriter, newWriter, ok_iff, not_not] at h
    obtain ⟨_, ⟨candidate, -, -, hcandidate, -, -, writer, ⟨-, hroot, rfl⟩, rfl⟩, h⟩ := h
    have hk : candidate.state.root = k := Cid.ext (hroot.trans hcandidate)
    split_ifs at h
    · simp only [pure_eq_ok, Prod.mk.injEq] at h
      obtain ⟨rfl, rfl⟩ := h
      refine ⟨fun i hi => ?_, hk⟩
      rcases List.mem_append.mp hi with hi | hi
      · exact hc i (evict_subset _ _ _ hi)
      · obtain rfl := List.mem_singleton.mp hi
        exact hk
    · simp only [pure_eq_ok, Prod.mk.injEq] at h
      obtain ⟨rfl, rfl⟩ := h
      exact ⟨hc, hk⟩

theorem Writer.eq_of_root {w' : Writer} (h : w.root = w'.root) :
    w.descriptor = w'.descriptor ∧ ∀ l, w.entries.lookup l = w'.entries.lookup l := by
  obtain ⟨hd, he⟩ := Engine.root_injective h
  refine ⟨hd, fun l => ?_⟩
  rw [← Finmap.lookup_toFinmap, he, Finmap.lookup_toFinmap]

omit [ManifestHash] [Engine] in
theorem lookup_retainedBelow (n : GoString) (b : Bindings) (r : GoString) :
    (retainedBelow n b).lookup r = b.lookup (n ++ slash :: r) := by
  have hunder {l : GoString} (h : hasPrefix l (n ++ [slash]) = true) :
    l = n ++ slash :: l.drop (n.length + 1) := by
    obtain ⟨t, rfl⟩ := hasPrefix_iff.mp h
    simp [List.drop_append]
  have hmem {r : GoString} {v : Option Cid} :
    (r, v) ∈ ((b.entries.filter fun e => hasPrefix e.1 (n ++ [slash])).map
      fun e => (e.1.drop (n.length + 1), e.2)) ↔ b.lookup (n ++ slash :: r) = some v := by
    rw [← mem_entries_iff, List.mem_map]
    constructor
    · intro ⟨e, he, hr⟩
      obtain ⟨hin, hpre⟩ := List.mem_filter.mp he
      cases hr
      rwa [← hunder hpre]
    · intro hin
      refine ⟨⟨n ++ slash :: r, v⟩, List.mem_filter.mpr ⟨hin, ?_⟩, ?_⟩
      · exact hasPrefix_iff.mpr ⟨r, by simp⟩
      · simp [List.drop_append]
  have hnodup : (((b.entries.filter fun e => hasPrefix e.1 (n ++ [slash])).map
      fun e => (e.1.drop (n.length + 1), e.2)).map Prod.fst).Nodup := by
    rw [List.map_map]
    have hkeys : (b.entries.map Sigma.fst).Nodup := b.nodupKeys
    refine List.pairwise_map.mpr (((List.pairwise_map.mp hkeys).filter _).imp_of_mem
      fun {x y} hx hy hxy he => hxy ?_)
    rw [hunder (List.mem_filter.mp hx).2, hunder (List.mem_filter.mp hy).2]
    simpa using he
  cases hv : b.lookup (n ++ slash :: r) with
  | some v => exact lookup_insertAll_of_mem hnodup (hmem.mpr hv)
  | none =>
    refine (lookup_insertAll_of_notMem fun hr => ?_).trans (AList.lookup_empty r)
    obtain ⟨⟨_, v⟩, hin, rfl⟩ := List.mem_map.mp hr
    rw [hmem.mp hin] at hv
    cases hv

theorem openRoot_eq_ok {s s' : Progress} (hcache : CacheSound s.writers)
    (hnamed : Named (.dir descriptor cs : DirTree))
    (hkey : d.key = some (stateOf p.layout descriptor cs).root)
    (h : openRoot p lineage d s = .ok (s', d', targets, lineage')) :
    d' = { d with manifest := some (manifestOf cs) } ∧
    (∀ l, targets.lookup l = (bindingsOf p.layout cs).lookup l) ∧ CacheSound s'.writers ∧
    s'.knownRoots = s.knownRoots ∧
    ∃ w, w.root = (stateOf p.layout descriptor cs).root ∧
      s'.bases = s.bases.insert (stateOf p.layout descriptor cs).root w := by
  simp only [openRoot, ok_iff, Prod.mk.injEq] at h
  obtain ⟨key, hd, -, -, ⟨writers, w⟩, hload, -, -, -, -, -, -, -, -, rfl, rfl, rfl, -⟩ := h
  obtain rfl : (stateOf p.layout descriptor cs).root = key := Option.some.inj (hkey.symm.trans hd)
  obtain ⟨hsound, hroot⟩ := loadWriter_eq_ok hcache hload
  have hentries := (Writer.eq_of_root hroot).2
  have hpayload : w.entries.lookup payloadLabel = some (some (manifestOf cs)) := by
    rw [hentries, stateOf, lookup_insert_eq, if_pos rfl]
  refine ⟨by rw [hpayload]; rfl, fun l => ?_, hsound, rfl, w, hroot, rfl⟩
  rw [lookup_erase_eq]
  split_ifs with hl
  · rw [hl, lookup_payload hnamed.labels]
  · rw [hentries, stateOf, lookup_insert_eq, if_neg hl]

theorem readManifest_eq_ok [JsonDecoder] {entries : List DirectoryEntry}
    (hnamed : Named (.dir descriptor cs : DirTree))
    (h : readManifest p (some (manifestOf cs)) = .ok entries) :
    entries = sortOn DirectoryEntry.name (childEntries cs) := by
  simp only [readManifest, ok_iff, Option.some.injEq] at h
  obtain ⟨key, rfl, body, -, -, hsums, -, -, hparse⟩ := h
  obtain ⟨hwell, hbody⟩ := parseDirectoryJSON_eq_ok hparse
  have hsums' : ManifestHash.sums (manifestOf cs) body = true := by simpa using hsums
  have hsame : body = writeEntries (sortOn DirectoryEntry.name (childEntries cs)) :=
    ManifestHash.sums_manifestCid.mp hsums'
  exact writeEntries_injective hwell (wellFormed_entries hnamed.children.1 hnamed.children.2.1)
    (hbody.symm.trans hsame)

theorem loadChild_name
    {c : GoString × TreeNode (Option Cid)} (h : loadChild layout targets context e = .ok c) :
    c.1 = e.name := by
  simp only [loadChild, bind_eq_ok] at h
  obtain ⟨target, -, h⟩ := h
  split at h
  · split_ifs at h
    all_goals
      simp only [ok_iff] at h
      obtain ⟨-, -, h⟩ := h
      rw [← h]
  · rw [← pure_eq_ok.mp h]
  · simp at h

theorem loadChild_eq_ok {c : GoString × TreeNode (Option Cid)}
    (hnamed : Named (.dir descriptor cs : DirTree))
    (horigin : ∃ q, get? q origin = some (.dir descriptor cs))
    (htargets : ∀ l, targets.lookup l = (bindingsOf layout cs).lookup l)
    (ht : child? e.name cs = some t)
    (htype : typeOf t = e.type) (h : loadChild layout targets context e = .ok c)
    (hroots : layout ≠ .flatV1 → c.2.isDir = true → ∀ k, c.2.key = some k → k ∈ s.knownRoots) :
    c.1 = e.name ∧ typeOf c.2 = e.type ∧ AllDirs (fun d => d.dirty = false) c.2 ∧
      Represents origin s fresh layout false t c.2 ∧
      (layout ≠ .flatV1 → c.2.isDir = true → ∀ k, c.2.key = some k → FromBase origin layout k) := by
  have hmem : rebuild layout t e.name ∈ rebuildAll layout cs := mem_rebuildAll ht
  have htarget : targets.lookup e.name = some ((rebuild layout t e.name).target layout) := by
    rw [htargets, hnamed.lookup_name ht]
  simp only [loadChild, ok_iff, htarget, Option.some.injEq] at h
  obtain ⟨target, rfl, h⟩ := h
  cases t with
  | file content =>
    have hfile : e.type = .file := htype.symm.trans rfl
    simp only [hfile, pure_eq_ok, rebuild_target_file] at h
    subst h
    exact ⟨rfl, hfile.symm, .file _, .file _ _, fun _ hd => by simp [Tree.isDir] at hd⟩
  | dir descriptor' cs' =>
    have hdir : e.type = .dir := htype.symm.trans rfl
    have hload : c = (e.name, .dir
        { key := (rebuild layout (.dir descriptor' cs') e.name).target layout
          manifest := if layout = .flatV1 then (rebuild layout (.dir descriptor' cs') e.name).target
            layout else none
          dirty := false
          manifestDirty := false
          retained := if layout = .rootedV1 then none else some (retainedBelow e.name targets)
          load := some context } []) := by
      simp only [hdir] at h
      split_ifs at h
      all_goals
        simp only [ok_iff] at h
        obtain ⟨-, -, h⟩ := h
        simp_all
    subst hload
    obtain ⟨q, hq⟩ := horigin
    have hq' :
      get? (q ++ [e.name]) origin = some (.dir descriptor' cs') := by simp [get?_append, hq, ht]
    refine ⟨rfl, hdir.symm, .dir _ _ rfl (by simp),
      .closed rfl rfl ⟨rfl, fun hflat => ?_, fun hroot => ?_, fun hflat => hroots hflat rfl _ ?_⟩
        ⟨_, hq'⟩,
      fun hflat _ k hk => ⟨_, _, _, hq', .inl hflat, ?_⟩⟩
    · simp [hflat, rebuild_target_dir]
    · refine ⟨retainedBelow e.name targets, by simp [hroot], fun l => ?_⟩
      rw [lookup_retainedBelow, htargets]
      have hbelow := lookup_project_below hnamed.plain hnamed.nodup hmem hroot rfl l
      rwa [rebuild_name] at hbelow
    · rw [TreeNode.key, rebuild_target_dir, if_neg hflat]
    · have hk' : (rebuild layout (.dir descriptor' cs') e.name).target layout = some k := hk
      rw [rebuild_target_dir, if_neg hflat] at hk'
      exact Option.some.inj hk'

/-- Where a directory that is about to be loaded comes from: it is the base
itself, or it is as the base has it. -/
inductive Unloaded (origin : DirTree) (s : Progress) (layout : LayoutKind)
    (descriptor : Engine.Descriptor) (cs : List (GoString × DirTree)) (d : DirState) : Bool → Prop
  | base (horigin : origin = .dir descriptor cs)
      (hkey : d.key = some (stateOf layout descriptor cs).root) :
      Unloaded origin s layout descriptor cs d true
  | below (hkept : Kept s layout descriptor cs d)
      (horigin : ∃ q, get? q origin = some (.dir descriptor cs)) :
      Unloaded origin s layout descriptor cs d false

theorem Unloaded.exists_get? (h : Unloaded origin s layout descriptor cs d top) :
    ∃ q, get? q origin = some (.dir descriptor cs) := by
  cases h with
  | base horigin _ => exact ⟨[], by rw [horigin, get?_nil]⟩
  | below _ horigin => exact horigin

theorem Unloaded.key (h : Unloaded origin s layout descriptor cs d top)
    (hroot : layout ≠ .flatV1 ∨ top = true) : d.key = some (stateOf layout descriptor cs).root ∧
      FromBase origin layout (stateOf layout descriptor cs).root := by
  cases h with
  | base horigin hkey => exact ⟨hkey, [], _, _, by rw [horigin, get?_nil], .inr rfl, rfl⟩
  | below hkept horigin =>
    have hflat : layout ≠ .flatV1 := hroot.resolve_right (by simp)
    obtain ⟨q, hq⟩ := horigin
    exact ⟨by rw [hkept.key, rebuild_target_dir, if_neg hflat], q, _, _, hq, .inl hflat, rfl⟩

theorem openDirectory_eq_ok {s s' : Progress} (hbase : BaseRoot p.layout origin base)
    (hs : Sound origin p.layout s) (hnamed : Named (.dir descriptor cs : DirTree))
    (hd : Unloaded origin s p.layout descriptor cs d top)
    (h : openDirectory p base lineage d s = .ok (s', d', targets, lineage')) :
    d' = { d with manifest := some (manifestOf cs) } ∧
    (∀ l, targets.lookup l = (bindingsOf p.layout cs).lookup l) ∧ Sound origin p.layout s' ∧
      Extends s s' ∧
    (p.layout ≠ .flatV1 ∨ top = true → (stateOf p.layout descriptor cs).root ∈ s'.bases) := by
  unfold openDirectory at h
  split_ifs at h with hroot
  · have hcommits : p.layout ≠ .flatV1 ∨ top = true := by
      cases hd with
      | base => exact .inr rfl
      | below hkept _ =>
        refine .inl fun hflat => ?_
        have hk : some (manifestOf cs) = some base := by
          rw [← hroot.resolve_left (not_not.mpr hflat), hkept.key, rebuild_target_dir, if_pos hflat]
        obtain ⟨d₀, cs₀, -, he⟩ := hbase
        have hnot : ManifestHash.isManifest (stateOf p.layout d₀ cs₀).root = false :=
          Engine.not_isManifest_root _ _
        rw [he, ← Option.some.inj hk, manifestOf, ManifestHash.isManifest_manifestCid] at hnot
        cases hnot
    obtain ⟨hkey, hfrom⟩ := hd.key hcommits
    obtain ⟨hd', htargets, hcache, hknown, w, hw, hbases⟩ := openRoot_eq_ok hs.cache hnamed hkey h
    have hmem (k : Cid) :
      k ∈ s'.bases ↔ k = (stateOf p.layout descriptor cs).root ∨ k ∈ s.bases := by
      rw [hbases, AList.mem_insert]
    refine ⟨hd', htargets, ⟨hcache, fun k w' hk => ?_, fun k hk => ?_, hknown ▸ hs.known⟩,
      ⟨fun k hk => (hmem k).mpr (.inr hk), hknown ▸ fun _ hk => hk⟩,
        fun _ => (hmem _).mpr (.inl rfl)⟩
    · rw [hbases, lookup_insert_eq] at hk
      split_ifs at hk with he
      · rw [← Option.some.inj hk, hw, he]
      · exact hs.bases k w' hk
    · rcases (hmem k).mp hk with rfl | hk
      · exact hfrom
      · exact hs.stored k hk
  · simp only [hasRoot, not_or, not_not] at hroot
    simp only [pure_eq_ok, Prod.mk.injEq] at h
    obtain ⟨rfl, rfl, rfl, rfl⟩ := h
    cases hd with
    | base horigin hkey =>
      obtain ⟨d₀, cs₀, horigin', he⟩ := hbase
      obtain ⟨rfl, rfl⟩ := Tree.dir.inj (horigin.symm.trans horigin')
      exact absurd (hkey.trans (congrArg some he)) hroot.2
    | below hkept _ =>
      obtain ⟨r, hr, hlookup⟩ := hkept.retained (by simp [hroot.1])
      refine ⟨by rw [← hkept.manifest hroot.1], by simpa [hr] using hlookup, hs, .refl s, ?_⟩
      intro hc
      exact absurd hroot.1 (hc.resolve_right (by simp))

theorem loadChildren_eq_ok (hnamed : Named (.dir descriptor cs : DirTree))
    (horigin : ∃ q, get? q origin = some (.dir descriptor cs))
    (htargets : ∀ l, targets.lookup l = (bindingsOf layout cs).lookup l)
    (h : (sortOn DirectoryEntry.name (childEntries cs)).mapM (loadChild layout targets context) =
      .ok cs')
    (hknown : ∀ k ∈ childRoots layout cs', k ∈ s.knownRoots) :
    (cs'.map Prod.fst).Nodup ∧ (∀ n, (child? n cs).isSome = (child? n cs').isSome) ∧
    (∀ n t u, child? n cs = some t → child? n cs' = some u →
      Represents origin s fresh layout false t u) ∧
    (∀ c ∈ cs', AllDirs (fun d => d.dirty = false) c.2) ∧ ∀ k ∈ childRoots layout cs',
      FromBase origin layout k := by
  obtain ⟨hnodup, hname, -⟩ := hnamed.children
  have hentry {e : DirectoryEntry} (he : e ∈ sortOn DirectoryEntry.name (childEntries cs)) :
      ∃ t, child? e.name cs = some t ∧ typeOf t = e.type :=
    (mem_childEntries hnodup).mp ((sortOn_perm DirectoryEntry.name _).subset he)
  have hroots {c : GoString × TreeNode (Option Cid)} (hc : c ∈ cs') (hflat : layout ≠ .flatV1)
      (hdir : c.2.isDir = true) (k : Cid) (hk : c.2.key = some k) : k ∈ s.knownRoots := by
    refine hknown k ?_
    rw [childRoots, if_neg hflat]
    exact List.mem_filterMap.mpr ⟨c, List.mem_filter.mpr ⟨hc, hdir⟩, hk⟩
  have hspec {c : GoString × TreeNode (Option Cid)} (hc : c ∈ cs') : ∃ t, child? c.1 cs = some t ∧
      AllDirs (fun d => d.dirty = false) c.2 ∧ Represents origin s fresh layout false t c.2 ∧
      (layout ≠ .flatV1 → c.2.isDir = true → ∀ k, c.2.key = some k → FromBase origin layout k) := by
    obtain ⟨e, he, hload⟩ := exists_of_mem_mapM h hc
    obtain ⟨t, ht, htype⟩ := hentry he
    obtain ⟨hn, -, hclean, hrep, hfrom⟩ := loadChild_eq_ok hnamed horigin htargets ht htype
      hload (hroots hc)
    exact ⟨t, hn ▸ ht, hclean, hrep, hfrom⟩
  have hnames :
    cs'.map Prod.fst = (sortOn DirectoryEntry.name (childEntries cs)).map DirectoryEntry.name :=
    map_eq_map_of_mapM h fun e _ c hc => loadChild_name hc
  have hnodup' : (cs'.map Prod.fst).Nodup := by
    rw [hnames]
    exact (wellFormed_entries hnodup hname).nodup
  refine ⟨hnodup', fun n => ?_, fun n t u ht hu => ?_, fun c hc => ?_, fun k hk => ?_⟩
  · have hmem : n ∈ cs.map Prod.fst ↔ n ∈ cs'.map Prod.fst := by
      have hperm := (sortOn_perm DirectoryEntry.name (childEntries cs)).map DirectoryEntry.name
      have hmap : (childEntries cs).map DirectoryEntry.name = cs.map Prod.fst := by
        simp [childEntries, Function.comp_def]
      rw [hnames, hperm.mem_iff, hmap]
    rw [mem_map_fst_iff, mem_map_fst_iff] at hmem
    cases hcs : child? n cs <;> cases hcs' : child? n cs' <;> simp_all
  · obtain ⟨t', ht', -, hrep, -⟩ := hspec (mem_of_child? hu)
    obtain rfl : t = t' := Option.some.inj (ht.symm.trans ht')
    exact hrep
  · obtain ⟨-, -, hclean, -, -⟩ := hspec hc
    exact hclean
  · unfold childRoots at hk
    split_ifs at hk with hflat
    · simp at hk
    · obtain ⟨c, hc, hck⟩ := List.mem_filterMap.mp hk
      obtain ⟨hc, hdir⟩ := List.mem_filter.mp hc
      obtain ⟨-, -, -, -, hfrom⟩ := hspec hc
      exact hfrom hflat hdir k hck

theorem loadDirectory_eq_ok [JsonDecoder] (hbase : BaseRoot p.layout origin base)
    (hs : Sound origin p.layout s) (hnamed : Named (.dir descriptor cs : DirTree))
    (hd : Unloaded origin s p.layout descriptor cs d top)
    (hdirty : d.dirty = false) (h : loadDirectory p base context d s = .ok (s', d', cs')) :
    Sound origin p.layout s' ∧ Extends s s' ∧
    (p.layout ≠ .flatV1 ∨ top = true → (stateOf p.layout descriptor cs).root ∈ s'.bases) ∧
    AllDirs (fun d => d.dirty = false) (.dir { d' with load := none } cs') ∧
    Represents origin s' fresh p.layout top (.dir descriptor cs)
      (.dir { d' with load := none } cs') := by
  simp only [loadDirectory, ok_iff, Prod.mk.injEq] at h
  obtain ⟨-, -, ⟨s₁, d₁, targets, lineage⟩, hopen, entries, hread, cs₁, hchildren, -, -, rfl,
    rfl, rfl⟩ := h
  have hs₀ : Sound origin p.layout { s with objects := s.objects + 1 } :=
    ⟨hs.cache, hs.bases, hs.stored, hs.known⟩
  have hd₀ : Unloaded origin { s with objects := s.objects + 1 } p.layout descriptor cs d top := by
    cases hd with
    | base horigin hkey => exact .base horigin hkey
    | below hkept horigin =>
      exact .below ⟨hkept.key, hkept.manifest, hkept.retained, hkept.known⟩ horigin
  obtain ⟨rfl, htargets, hs₁, hgrows, hstored⟩ := openDirectory_eq_ok hbase hs₀ hnamed hd₀ hopen
  obtain rfl := readManifest_eq_ok hnamed hread
  let s₂ : Progress := { s₁ with knownRoots := s₁.knownRoots ++ childRoots p.layout cs₁ }
  have hgrows₂ : Extends s s₂ :=
    ⟨hgrows.bases, fun k hk => List.mem_append_left _ (hgrows.knownRoots k hk)⟩
  have hknown₂ : ∀ k ∈ childRoots p.layout cs₁, k ∈ s₂.knownRoots :=
    fun k hk => List.mem_append_right _ hk
  obtain ⟨hnodup, hsome, hrep, hclean, hroots⟩ := loadChildren_eq_ok hnamed hd.exists_get? htargets
    hchildren hknown₂
  refine ⟨⟨hs₁.cache, hs₁.bases, hs₁.stored, fun k hk => ?_⟩, hgrows₂, hstored,
    .dir _ _ hdirty hclean, .opened rfl hnodup (fun _ => rfl) (fun _ htop => ?_) (fun _ => hclean)
      (fun hc => ?_) hsome hrep⟩
  · rcases List.mem_append.mp hk with hk | hk
    · exact hs₁.known k hk
    · exact hroots k hk
  · cases hd with
    | base => simp at htop
    | below hkept _ =>
      exact ⟨hkept.key, fun _ => rfl, fun _ => ⟨targets, rfl, htargets⟩,
        fun hflat => hgrows₂.knownRoots _ (hkept.known hflat)⟩
  · exact .inr ⟨_, (hd.key hc).1, hstored hc⟩

end

end MaltClient.Planner
