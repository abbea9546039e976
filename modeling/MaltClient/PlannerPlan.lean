import MaltClient.PlannerBuild
import MaltClient.VerbatimEngine

/-! Incremental planning gives the Root of a full rebuild. -/

namespace MaltClient.Planner

open GoText Checked NamedTree DirectoryManifest Unixfs AssocMap FirstOccurrences
open StagedPath (PathName isPortableSegment isPortableSegment_iff)
open Journal (Operation)

section

variable [CidFormat] [ManifestHash] [Engine]

/-- A tree that a layout can project: the names are portable, and only the flat
layout has an escape for reserved ones. -/
def Projectable (layout : LayoutKind) (t : DirTree) : Prop :=
  NamedBy (fun s => isPortableSegment s = true ∧
    (layout ≠ .flatV1 → hasPrefix s (text "@") = false)) t

variable {layout : LayoutKind} {descriptor : Engine.Descriptor} {cs : List (GoString × DirTree)}
  {t : DirTree}

theorem Projectable.named (h : Projectable layout t) (hl : layout ≠ .flatV1) : Named t := by
  induction h with
  | file c => exact .file c
  | dir d cs hnodup hname _ ih =>
    exact .dir d cs hnodup (fun c hc => ⟨(hname c hc).1, (hname c hc).2 hl⟩) ih

variable {l n : GoString} {q : List GoString} {operations : List Operation} {base : Cid}
  {writers : WriterCache}
  {p : Capabilities} {w : Writer} {tree : TreeNode (Option Cid)} {s : Progress} {origin : DirTree}

theorem exists_flatLabel (h : Projectable .flatV1 (.dir descriptor cs : DirTree))
    (hl : l ∈ bindingsOf .flatV1 cs) :
    ∃ q, q ≠ [] ∧ (∀ s ∈ q, isPortableSegment s = true) ∧ l = flatLabel (join q) := by
  generalize ht : (.dir descriptor cs : DirTree) = t at h
  induction h generalizing descriptor cs l with
  | file c => cases ht
  | dir d cs₀ hnodup hname hcs ih =>
    cases ht
    have hm := (mem_insertAll.mp hl).resolve_left (AList.notMem_empty l)
    obtain ⟨⟨l, v⟩, hv, rfl⟩ := List.mem_map.mp hm
    obtain ⟨c, hc, hb⟩ := List.mem_flatMap.mp hv
    rw [rebuildAll_eq_map] at hc
    obtain ⟨⟨n, t⟩, hnt, rfl⟩ := List.mem_map.mp hc
    have hn : isPortableSegment n = true := (hname (n, t) hnt).1
    unfold childBindings at hb
    rcases List.mem_cons.mp hb with he | hb
    · refine ⟨[n], by simp, by simpa using hn, ?_⟩
      have hlabel : l = childLabel .flatV1 (rebuild .flatV1 t n).name := (Prod.mk.inj he).1
      rw [rebuild_name] at hlabel
      exact hlabel
    · split_ifs at hb with hdir
      · obtain ⟨⟨l', v'⟩, hin, he⟩ := List.mem_map.mp hb
        cases t with
        | file c => simp [rebuild] at hdir
        | dir d₁ cs₁ =>
          obtain ⟨q, hne, hq, hl'⟩ := ih (n, .dir d₁ cs₁) hnt (List.mem_keys_of_mem hin) rfl
          refine ⟨n :: q, by simp, by simpa using ⟨hn, hq⟩, ?_⟩
          have hlabel : descendantLabel .flatV1 (rebuild .flatV1 (.dir d₁ cs₁) n).name l' = l :=
            (Prod.mk.inj he).1
          have hl'' : l' = flatLabel (join q) := hl'
          rw [rebuild_name, hl'', descendantLabel_flat hne hq] at hlabel
          exact hlabel.symm
      · simp at hb

theorem mem_bindings_child (h : (n, t) ∈ cs) : childLabel layout n ∈ bindingsOf layout cs := by
  refine mem_insertAll.mpr
    (.inr (List.mem_map.mpr ⟨(childLabel layout n, (rebuild layout t n).target layout), ?_, rfl⟩))
  refine List.mem_flatMap.mpr ⟨rebuild layout t n, ?_, ?_⟩
  · rw [rebuildAll_eq_map]
    exact List.mem_map.mpr ⟨(n, t), h, rfl⟩
  · rw [childBindings, rebuild_name]
    exact List.mem_cons_self

theorem mem_bindings_below {d : Engine.Descriptor} {cs₁ : List (GoString × DirTree)}
    (hlayout : layout ≠ .rootedV1) (h : (n, .dir d cs₁) ∈ cs) (hl : l ∈ bindingsOf layout cs₁) :
    descendantLabel layout n l ∈ bindingsOf layout cs := by
  obtain ⟨v, hv⟩ := mem_iff_lookup.mp hl
  refine mem_insertAll.mpr (.inr (List.mem_map.mpr ⟨(descendantLabel layout n l, v), ?_, rfl⟩))
  refine List.mem_flatMap.mpr ⟨rebuild layout (.dir d cs₁) n, ?_, ?_⟩
  · rw [rebuildAll_eq_map]
    exact List.mem_map.mpr ⟨(n, .dir d cs₁), h, rfl⟩
  · rw [childBindings, rebuild_name, if_pos ⟨hlayout, rfl⟩]
    exact List.mem_cons_of_mem _ (List.mem_map.mpr ⟨⟨l, v⟩, mem_entries_iff.mpr hv, rfl⟩)

omit [CidFormat] [ManifestHash] [Engine] in
theorem eq_of_flatLabel {r : List GoString} (hne : q ≠ [])
    (hq : ∀ s ∈ q, isPortableSegment s = true)
    (hr : ∀ s ∈ r, PathName s) (h : flatLabel (join q) = join r) : q = r := by
  have hplain : ∀ s ∈ q, Plain s := fun s hs => (isPortableSegment_iff.mp (hq s hs)).1.plain
  have hplain' : ∀ s ∈ r, Plain s := fun s hs => (hr s hs).name.plain
  rw [flatLabel_portable hne hq] at h
  split_ifs at h
  · exact absurd (by rw [← h]; rfl) (head?_join_ne_slash hplain')
  · exact join_injective hplain hplain' h

theorem Projectable.named_of_labels (h : Projectable .flatV1 (.dir descriptor cs : DirTree))
    (hlabels : Labels (bindingsOf .flatV1 cs)) : Named (.dir descriptor cs : DirTree) := by
  generalize ht : (.dir descriptor cs : DirTree) = t at h ⊢
  induction h generalizing descriptor cs with
  | file c => cases ht
  | dir d cs₀ hnodup hname hcs ih =>
    cases ht
    refine .dir _ _ hnodup (fun c hc => ?_) fun c hc => ?_
    · obtain ⟨r, -, hr, he⟩ := hlabels _ (mem_bindings_child hc)
      have hone : [c.1] = r := eq_of_flatLabel (by simp) (by simpa using (hname c hc).1) hr he
      exact hr c.1 (by simp [← hone])
    · obtain ⟨n, t⟩ := c
      cases t with
      | file c => exact .file c
      | dir d₁ cs₁ =>
        refine ih (n, .dir d₁ cs₁) hc (fun l hl => ?_) rfl
        obtain ⟨q, hne, hq, rfl⟩ := exists_flatLabel (hcs (n, .dir d₁ cs₁) hc) hl
        obtain ⟨r, -, hr, he⟩ := hlabels _ (mem_bindings_below (by simp) hc hl)
        rw [descendantLabel_flat hne hq] at he
        have hcons : n :: q = r :=
          eq_of_flatLabel (by simp) (by simpa using ⟨(hname _ hc).1, hq⟩) hr he
        have hq' : ∀ s ∈ q, PathName s := fun s hs => hr s (by simp [← hcons, hs])
        exact ⟨q, hne, hq', flatLabel_join hne hq'⟩

omit [CidFormat] [ManifestHash] [Engine] in
theorem checkLabel_eq_ok {u : Unit} (h : checkLabel layout l = .ok u) :
    ∃ p, p ≠ [] ∧ (∀ s ∈ p, PathName s) ∧ l = join p := by
  unfold checkLabel at h
  split at h
  · simp at h
  · rename_i parts hparse
    simp only [reject_eq_ok, not_or, not_not] at h
    exact ⟨parts, h.1, fun s hs => ((StagedPath.staged_of_parse hparse).2 s hs).pathName,
      h.2.1.symm⟩

theorem named_of_accepted [JsonDecoder] [PayloadHash] {r : Progress × TreeNode (Option Cid)}
    (hproject : Projectable p.layout (.dir descriptor cs : DirTree))
    (hroot : (stateOf p.layout descriptor cs).root = base) (hcache : CacheSound writers)
    (h : replayOperations p writers base operations = .ok r) :
    Named (.dir descriptor cs : DirTree) := by
  by_cases hflat : p.layout = .flatV1
  · rw [hflat] at hproject
    refine hproject.named_of_labels fun l hl => ?_
    simp only [replayOperations, ensure, baseTree, bind_eq_ok] at h
    obtain ⟨_, ⟨_, hload, _⟩, _⟩ := h
    simp only [loadDirectory, bind_eq_ok] at hload
    obtain ⟨-, -, _, hopen, -⟩ := hload
    simp only [openDirectory, hasRoot, or_true, if_true, openRoot, ok_iff, Option.some.injEq]
      at hopen
    obtain ⟨_, rfl, -, -, ⟨_, w⟩, hwriter, _, _, _, _, _, hcheck, _⟩ := hopen
    have hw := (Writer.eq_of_root ((loadWriter_eq_ok hcache hwriter).2.trans hroot.symm)).2
    obtain ⟨q, hne, hq, hlabel⟩ := exists_flatLabel hproject hl
    have hpayload : l ≠ payloadLabel := by
      rw [hlabel]
      exact flatLabel_ne_payload hne hq
    have hmem : l ∈ w.entries.erase payloadLabel := by
      rw [AList.mem_erase]
      refine ⟨hpayload, ?_⟩
      rw [mem_iff_lookup] at hl ⊢
      obtain ⟨v, hv⟩ := hl
      refine ⟨v, ?_⟩
      rw [hw, stateOf, lookup_insert_eq, if_neg hpayload, hflat]
      exact hv
    exact checkLabel_eq_ok (forM_eq_ok.mp hcheck l hmem)
  · exact hproject.named hflat

/-- A plan for the tree after the operations. A state that is known is left out,
unless it is the new Root. -/
structure Planned [PayloadHash] (s : Progress) (layout : LayoutKind) (base : Cid) (final : DirTree)
    (tree : TreeNode (Option Cid)) (plan : Plan) : Prop where
  root : plan.root = rebuildRoot layout final
  required : plan.required = payloads tree
  commits : ∃ below ws w, marked layout true tree = below ++ [[]] ∧ [] ∉ below ∧
    List.Forall₂ (Commits s layout final) below ws ∧ Commits s layout final [] w ∧
    (((¬ s.Knows w.root ∨ w.root = base) ∧ plan.candidates = additions s [] (ws ++ [w])) ∨
      ∃ persisted, s.Knows w.root ∧ w.root ≠ base ∧ persisted.root = w.root ∧
        plan.candidates = additions s [] ws ++ [persisted])
  sameBase : plan.base = base

theorem buildPlan_yields [PayloadHash] {final : DirTree}
    (hs : Sound origin p.layout s) (hw : s.bases.lookup base = some w)
    (hrep : Represents origin s w.descriptor p.layout true final tree) (hnamed : Named final)
    (hmarked : ∃ d cs', tree = .dir d cs' ∧ d.dirty = true) :
    (Serves p origin → ∃ r, buildPlan p base s tree = .ok r) ∧
      ∀ writers plan, buildPlan p base s tree = .ok (writers, plan) →
        Planned s p.layout base final tree plan := by
  let draft :
    Draft := { progress := s, required := [], candidates := [], produced := [], blocks := [] }
  have hwithin : Within origin p.layout s draft := ⟨hs, .refl s, fun _ hk => hk⟩
  have hbuild := buildTop_yields base hrep hnamed hmarked hwithin
  constructor
  · intro hserves
    obtain ⟨⟨tree', draft'⟩, htree⟩ := hbuild.total hserves
    have hplan : buildPlan p base s tree = .ok (draft'.progress.writers,
        { base := base, root := tree'.key, required := draft'.required,
          candidates := draft'.candidates, blocks := draft'.blocks }) := by
      simp only [buildPlan, ok_iff]
      exact ⟨w, hw, (tree', draft'), htree, rfl⟩
    exact ⟨_, hplan⟩
  · intro writers plan h
    simp only [buildPlan, ok_iff, Prod.mk.injEq] at h
    obtain ⟨w', hw', ⟨tree', draft'⟩, htree, -, rfl⟩ := h
    obtain rfl : w = w' := Option.some.inj (hw.symm.trans hw')
    obtain ⟨hkey, hrequired, below, ws, v, between, hmarked, hbelow, hws, hv, hadds, hexports⟩ :=
      hbuild.sound tree' draft' htree
    refine ⟨hkey, by rw [hrequired]; rfl, ⟨below, ws, v, hmarked, hbelow, hws, hv, ?_⟩, rfl⟩
    cases hexports with
    | adds hplain h =>
      refine .inl ⟨hplain.resolve_left (by simp), ?_⟩
      rw [(hadds.trans h).candidates]
      rfl
    | installed persisted _ hknown hbase hroot hcandidates =>
      refine .inr ⟨persisted, hknown, hbase, hroot, ?_⟩
      rw [hcandidates, hadds.candidates]
      rfl

theorem mem_marked {fresh : Engine.Descriptor} {top : Bool}
    {u : TreeNode (Option Cid)} (h : Represents origin s fresh layout top t u) {d : DirState}
    {cs' : List (GoString × TreeNode (Option Cid))} (hq : get? q u = some (.dir d cs'))
    (hdirty : d.dirty = true)
    (hroot : layout ≠ .flatV1 ∨ (top = true ∧ q = [])) : q ∈ marked layout top u := by
  induction q generalizing top t u with
  | nil =>
    obtain rfl := Option.some.inj ((get?_nil u).symm.trans hq)
    rw [marked, walk_dirty hdirty]
    have hself : ¬ (layout = .flatV1 ∧ top = false) :=
      fun hc => hroot.elim (fun hl => hl hc.1) fun ht => by
      rw [ht.1] at hc
      exact absurd hc.2 (by simp)
    rw [if_neg hself]
    exact List.mem_append_right _ (List.mem_singleton.mpr rfl)
  | cons n q ih =>
    cases u with
    | file c => simp at hq
    | dir d₁ cs₁ =>
      obtain ⟨v, hv, hq'⟩ := Option.bind_eq_some_iff.mp hq
      obtain ⟨descriptor₁, cs₀, rfl⟩ := h.eq_dir
      obtain ⟨t', -, hrep⟩ := h.child n hv
      have hd₁ : d₁.dirty = true := by
        by_contra hd
        cases h with
        | closed => simp [child?] at hv
        | opened _ _ _ _ hclean _ _ _ =>
          have hc := (hclean (by simpa using hd) (n, v) (mem_of_child? hv)).get? hq'
          rw [hc.children.1] at hdirty
          cases hdirty
      have hlayout : layout ≠ .flatV1 := hroot.resolve_right (by simp)
      rw [marked, walk_dirty hd₁]
      refine List.mem_append_left _ (List.mem_flatMap.mpr ⟨(n, v), ?_, ?_⟩)
      · exact (sortOn_perm Prod.fst cs₁).symm.subset (mem_of_child? hv)
      · exact List.mem_map.mpr ⟨q, ih hrep hq' (.inl hlayout), rfl⟩

theorem Writer.Holds.root_eq (h : w.Holds layout descriptor cs) :
    w.root = (stateOf layout descriptor cs).root := by
  have hentries : w.entries.toFinmap = (stateOf layout descriptor cs).entries.toFinmap :=
    Finmap.ext_lookup fun l => by rw [Finmap.lookup_toFinmap, Finmap.lookup_toFinmap, h.2]
  have hdescriptor : w.descriptor = (stateOf layout descriptor cs).descriptor := h.1
  rw [Writer.root, Writer.root, hentries, hdescriptor]

section

variable [PayloadHash] {s : Progress} {base : Cid} {final : DirTree} {tree : TreeNode (Option Cid)}
  {plan : Plan}

theorem Planned.exists_holds (h : Planned s layout base final tree plan) {v : Writer}
    (hv : v ∈ plan.candidates) :
    ∃ q d cs', get? q final = some (.dir d cs') ∧ v.Holds layout d cs' := by
  obtain ⟨below, ws, w, -, -, hws, hw, hcandidates⟩ := h.commits
  have hof {x : Writer} (hx : x ∈ ws ++ [w]) :
      ∃ q d cs', get? q final = some (.dir d cs') ∧ x.Holds layout d cs' := by
    obtain ⟨q, -, hq⟩ := exists_of_mem_right (List.rel_append hws (.cons hw .nil)) hx
    obtain ⟨d, cs', hget, hholds⟩ := hq.holds
    exact ⟨q, d, cs', hget, hholds⟩
  rcases hcandidates with ⟨-, hc⟩ | ⟨persisted, -, -, hroot, hc⟩
  · exact hof (mem_firsts (hc ▸ hv)).1
  · rcases List.mem_append.mp (hc ▸ hv) with hv | hv
    · exact hof (List.mem_append_left _ (mem_firsts hv).1)
    · obtain rfl := List.mem_singleton.mp hv
      obtain ⟨d, cs', hget, hholds⟩ := hw.holds
      exact ⟨[], d, cs', hget, Writer.eq_of_root (hroot.trans hholds.root_eq)⟩

theorem Planned.exists_root (h : Planned s layout base final tree plan) {q : List GoString}
    (hq : q ∈ marked layout true tree) : ∃ d cs', get? q final = some (.dir d cs') ∧
      ((∃ v ∈ plan.candidates, v.root = (stateOf layout d cs').root) ∨
        s.Knows (stateOf layout d cs').root) := by
  obtain ⟨below, ws, w, hmarked, -, hws, hw, hcandidates⟩ := h.commits
  obtain ⟨x, hx, hcommits⟩ := exists_of_mem_left (List.rel_append hws (.cons hw .nil))
    (hmarked ▸ hq)
  obtain ⟨d, cs', hget, hholds⟩ := hcommits.holds
  refine ⟨d, cs', hget, ?_⟩
  rw [← hholds.root_eq]
  by_cases hknown : s.Knows x.root
  · exact .inr hknown
  refine .inl ?_
  rcases hcandidates with ⟨-, hc⟩ | ⟨persisted, hroot, -, -, hc⟩
  · rw [hc]
    exact List.mem_map.mp (key_mem_firsts hx hknown (by simp))
  · have hx' : x ∈ ws := by
      rcases List.mem_append.mp hx with hx | hx
      · exact hx
      · obtain rfl := List.mem_singleton.mp hx
        exact absurd hroot hknown
    have hroot : x.root ∈ (additions s [] ws).map Writer.root :=
      key_mem_firsts hx' hknown List.not_mem_nil
    obtain ⟨v, hv, hroot⟩ := List.mem_map.mp hroot
    exact ⟨v, hc ▸ List.mem_append_left _ hv, hroot⟩

end

/-- What is known once a batch is accepted: the tree after the operations, and
that the planner's tree stands for it. -/
structure Accepted (origin : DirTree) (fresh : Engine.Descriptor) (layout : LayoutKind) (base : Cid)
    (s : Progress) (tree : TreeNode (Option Cid)) (final : DirTree) : Prop where
  originNamed : Named origin
  named : Named final
  sound : Sound origin layout s
  base : base ∈ s.bases
  represents : Represents origin s fresh layout true final tree
  marked : ∃ d cs, tree = .dir d cs ∧ d.dirty = true

theorem accepted_planned [JsonDecoder] [PayloadHash]
    (hproject : Projectable p.layout (.dir descriptor cs : DirTree))
    (hbase : rebuildRoot p.layout (.dir descriptor cs) = some base) (hcache : CacheSound writers)
    (hvalid : validateOperations base operations = .ok ())
    (haccept : replayOperations p writers base operations = .ok (s, tree)) :
    ∃ final, replay descriptor operations (.dir descriptor cs) = some final ∧
      Accepted (.dir descriptor cs) descriptor p.layout base s tree final ∧
      (Serves p (.dir descriptor cs) → ∃ r, prepare p writers base operations = .ok r) ∧
      ∀ writers' plan, prepare p writers base operations = .ok (writers', plan) →
        Planned s p.layout base final tree plan := by
  have hroot : (stateOf p.layout descriptor cs).root = base := Option.some.inj hbase
  have hnamed := named_of_accepted hproject hroot hcache haccept
  have hne : operations ≠ [] := by
    simp only [validateOperations, ok_iff] at hvalid
    obtain ⟨-, hne, -⟩ := hvalid
    exact hne
  obtain ⟨final, hreplay, hu, hin, hmarked⟩ := replayOperations_eq_ok hroot hnamed
    hcache hne haccept
  obtain ⟨w, hw⟩ := Option.isSome_iff_exists.mp (AList.lookup_isSome.mpr hin)
  obtain rfl : w.descriptor = descriptor :=
    (Writer.eq_of_root ((hu.sound.bases base w hw).trans hroot.symm)).1
  have hprepare : prepare p writers base operations = buildPlan p base s tree := by
    simp [prepare, hvalid, haccept, bind, Except.bind]
  obtain ⟨htotal, hplanned⟩ := buildPlan_yields hu.sound hw hu.represents hu.named hmarked
  rw [hprepare]
  exact ⟨final, hreplay, ⟨hnamed, hu.named, hu.sound, hin, hu.represents, hmarked⟩,
    htotal, hplanned⟩

theorem prepare_eq_ok [JsonDecoder] [PayloadHash] {writers' : WriterCache}
    {plan : Plan} (hproject : Projectable p.layout (.dir descriptor cs : DirTree))
    (hbase : rebuildRoot p.layout (.dir descriptor cs) = some base) (hcache : CacheSound writers)
    (hplan : prepare p writers base operations = .ok (writers', plan)) :
    ∃ s tree final, replayOperations p writers base operations = .ok (s, tree) ∧
      replay descriptor operations (.dir descriptor cs) = some final ∧
      Accepted (.dir descriptor cs) descriptor p.layout base s tree final ∧
      Planned s p.layout base final tree plan := by
  have hparts := hplan
  simp only [prepare, bind_eq_ok] at hparts
  obtain ⟨_, hvalid, ⟨s, tree⟩, haccept, -⟩ := hparts
  obtain ⟨final, hreplay, haccepted, -, hplanned⟩ := accepted_planned hproject hbase hcache
    hvalid haccept
  exact ⟨s, tree, final, haccept, hreplay, haccepted, hplanned writers' plan hplan⟩

/-- For every layout and every base tree whose Root is that of its complete
projection, an accepted batch is planned, and the planned Root is that of the
tree after the operations, projected and committed from scratch. The plan
commits nothing but states of that tree, and each marked directory with a Root
of its own is committed with its state there or had that state in the base. -/
theorem prepare_root_eq_rebuild [JsonDecoder] [PayloadHash] (p : Capabilities)
    (writers : WriterCache)
    (descriptor : Engine.Descriptor) (cs : List (GoString × DirTree)) (base : Cid)
    (operations : List Operation) (s : Progress) (tree : TreeNode (Option Cid))
    (hproject : Projectable p.layout (.dir descriptor cs))
    (hbase : rebuildRoot p.layout (.dir descriptor cs) = some base)
    (hserves : Serves p (.dir descriptor cs)) (hcache : CacheSound writers)
    (hvalid : validateOperations base operations = .ok ())
    (haccept : replayOperations p writers base operations = .ok (s, tree)) :
    ∃ writers' plan final, prepare p writers base operations = .ok (writers', plan) ∧
      replay descriptor operations (.dir descriptor cs) = some final ∧
      plan.root = rebuildRoot p.layout final ∧
      (∀ w ∈ plan.candidates, ∃ q d cs', get? q final = some (.dir d cs') ∧
        w.Holds p.layout d cs') ∧
      ∀ q node cs', get? q tree = some (.dir node cs') → node.dirty = true →
        p.layout ≠ .flatV1 ∨ q = [] → ∃ d cs'', get? q final = some (.dir d cs'') ∧
          ((∃ w ∈ plan.candidates, w.Holds p.layout d cs'') ∨
            ∃ q₀ d₀ cs₀, get? q₀ (.dir descriptor cs : DirTree) = some (.dir d₀ cs₀) ∧
              (stateOf p.layout d₀ cs₀).Holds p.layout d cs'') := by
  obtain ⟨final, hreplay, haccepted, htotal, hplanned⟩ := accepted_planned hproject hbase hcache
    hvalid haccept
  obtain ⟨⟨writers', plan⟩, hplan⟩ := htotal hserves
  have h := hplanned writers' plan hplan
  refine ⟨writers', plan, final, hplan, hreplay, h.root, fun v hv => h.exists_holds hv, ?_⟩
  intro q node cs' hget hdirty hc
  obtain ⟨d, cs'', hq, hroot⟩ :=
    h.exists_root (mem_marked haccepted.represents hget hdirty (hc.imp_right fun hq => ⟨rfl, hq⟩))
  refine ⟨d, cs'', hq, ?_⟩
  rcases hroot with ⟨v, hv, he⟩ | hknown
  · exact .inl ⟨v, hv, Writer.eq_of_root he⟩
  · obtain ⟨q₀, d₀, cs₀, hq₀, -, he⟩ :
      FromBase (.dir descriptor cs) p.layout (stateOf p.layout d cs'').root :=
      hknown.elim (haccepted.sound.stored _) (haccepted.sound.known _)
    exact .inr ⟨q₀, d₀, cs₀, hq₀, Writer.eq_of_root he⟩

end

section sample

attribute [local instance] CidFormat.verbatim PayloadHash.verbatim ManifestHash.verbatim
  Engine.verbatim

def sampleDocs : List (GoString × DirTree) :=
  [(text "a", .file (some (tagged 'f' (by decide) [])))]

def sampleChildren : List (GoString × DirTree) :=
  [(text "docs", .dir () sampleDocs)]

def sampleManifests : List (List DirectoryEntry) :=
  [childEntries sampleChildren, childEntries sampleDocs]

def sampleStates : List Writer :=
  [stateOf .hybridV1 () sampleChildren, stateOf .hybridV1 () sampleDocs]

@[reducible] def sampleDecoder : JsonDecoder where
  entries data := sampleManifests.find? fun entries => writeEntries entries = data

attribute [local instance] sampleDecoder

def samplePlanner : Capabilities :=
  { layout := .hybridV1
    blocks :=
      fun k => (sampleManifests.map writeEntries).find? fun data =>
        ManifestHash.manifestCid data = k
    remote := fun k => (sampleStates.find? fun w => w.root = k).map fun w =>
      { root := k.spelling, state := w, size := 0 } }

def sampleBase : Cid :=
  (stateOf .hybridV1 () sampleChildren).root

def renameDocs : Operation :=
  { operationID := text "rename", retryID := text "retry", datasetID := text "dataset",
    branch := text "main"
    baseRoot := sampleBase.spelling, baseRevision := 1, kind := .rename, path := text "docs"
    destination := text "notes", payloadCID := [], encryptionEpoch := 0, sequence := 1,
      status := .pendingUpload
    conflictID := [], resultRoot := [], replacementOperationID := [], createdAt := 0,
      updatedAt := 0 }

theorem projectable_sample :
    Projectable .hybridV1 (.dir () sampleChildren) := by
  have hdocs : Projectable .hybridV1 (.dir () sampleDocs : DirTree) := by
    refine .dir _ _ (by decide) (by decide) ?_
    simp only [sampleDocs, List.mem_singleton, forall_eq]
    exact .file _
  refine .dir _ _ (by decide) (by decide) ?_
  simp only [sampleChildren, List.mem_singleton, forall_eq]
  exact hdocs

theorem serves_samplePlanner :
    Serves samplePlanner (.dir () sampleChildren) := by
  have hstates : ∀ w ∈ sampleStates, ∃ candidate, samplePlanner.remote w.root = some candidate ∧
      candidate.root = w.root.spelling ∧ candidate.state.root = w.root ∧
      candidate.state.entries.entries.length ≤ 65536 := by
    intro w hw
    have hfind : (sampleStates.find? fun v => v.root = w.root).isSome :=
      List.find?_isSome.mpr ⟨w, hw, by simp⟩
    obtain ⟨v, hv⟩ := Option.isSome_iff_exists.mp hfind
    have hlen : ∀ v ∈ sampleStates, v.entries.entries.length ≤ 65536 := by decide +kernel
    refine ⟨{ root := w.root.spelling, state := v, size := 0 }, ?_, rfl, ?_,
      hlen v (List.mem_of_find?_eq_some hv)⟩
    · simp only [samplePlanner, hv, Option.map_some]
    · simpa using List.find?_some hv
  intro k hk
  obtain ⟨q, d, cs, hq, -, rfl⟩ := hk
  apply hstates
  cases q with
  | nil =>
    cases hq
    exact List.mem_cons_self
  | cons n q =>
    obtain ⟨t, ht, hq⟩ := Option.bind_eq_some_iff.mp hq
    obtain ⟨rfl, rfl⟩ :
      n = text "docs" ∧ t = .dir () sampleDocs := by simpa [sampleChildren] using mem_of_child? ht
    cases q with
    | nil =>
      cases hq
      exact List.mem_cons_of_mem _ List.mem_cons_self
    | cons n' q =>
      obtain ⟨t', ht', hq⟩ := Option.bind_eq_some_iff.mp hq
      obtain ⟨rfl, rfl⟩ : n' = text "a" ∧ t' = .file (some (tagged 'f' (by decide) [])) := by
        simpa [sampleDocs] using mem_of_child? ht'
      cases q <;> cases hq

theorem prepare_root_eq_rebuild_renamed :
    ∃ writers plan, prepare samplePlanner ⟨[], 0⟩ sampleBase [renameDocs] = .ok (writers, plan) ∧
      plan.root = rebuildRoot .hybridV1 (.dir () [(text "notes", .dir () sampleDocs)]) := by
  have hvalid : validateOperations sampleBase [renameDocs] = .ok () := by
    have hsome :
      (validateOperations sampleBase [renameDocs]).toOption.isSome = true := by decide +kernel
    cases h : validateOperations sampleBase [renameDocs] with
    | error e => simp [h, Except.toOption] at hsome
    | ok u => rfl
  have haccept :
    (replayOperations samplePlanner ⟨[], 0⟩ sampleBase [renameDocs]).toOption.isSome = true := by
    decide +kernel
  have hreplay : replay () [renameDocs] (.dir () sampleChildren : DirTree) =
    some (.dir () [(text "notes", .dir () sampleDocs)]) := by rfl
  cases h : replayOperations samplePlanner ⟨[], 0⟩ sampleBase [renameDocs] with
  | error e => simp [h, Except.toOption] at haccept
  | ok r =>
    obtain ⟨writers, plan, final, hplan, hfinal, hroot, -⟩ :=
      prepare_root_eq_rebuild samplePlanner ⟨[], 0⟩ () sampleChildren sampleBase
        [renameDocs] r.1 r.2
        projectable_sample rfl serves_samplePlanner (by simp [CacheSound]) hvalid h
    rw [hreplay] at hfinal
    exact ⟨writers, plan, hplan, by rw [hroot, ← Option.some.inj hfinal]; rfl⟩

end sample

end MaltClient.Planner
