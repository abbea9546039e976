import MaltClient.PlannerRebuild

/-! The flat projection of a whole tree: one binding for each node below the root,
labelled by the path of the node. -/

namespace MaltClient.Unixfs

open GoText AssocMap NamedTree
open Planner (NamedBy)
open StagedPath (isPortableSegment)

section

variable [CidFormat]

/-- What a materialized directory is known by. -/
structure DirectoryKeys [CidFormat] where
  root : Option Cid
  manifest : Option Cid

abbrev MaterialTree := Tree GoString DirectoryKeys (Option Cid)

def rootOf : MaterialTree → Option Cid
  | .file target => target
  | .dir keys _ => keys.root

def manifestOf : MaterialTree → Option Cid
  | .file _ => none
  | .dir keys _ => keys.manifest

mutual

/-- The bindings of a tree, children before parents. -/
def flatBindings : MaterialTree → Bindings
  | .file _ => ∅
  | .dir _ cs => projectDirectoryBindings .flatV1 (flatChildren cs)

def flatChildren : List (GoString × MaterialTree) → List DirectoryChild
  | [] => []
  | (name, child) :: cs =>
    { name := name, directory := child.isDir, root := rootOf child, manifest := manifestOf child
      descendants := flatBindings child } :: flatChildren cs

end

/-- What a node is bound to: the target of a file, or the manifest of a directory. -/
def boundTo : MaterialTree → Option Cid
  | .file target => target
  | .dir keys _ => keys.manifest

mutual

/-- The nodes below the root, with their paths. -/
def nodes : MaterialTree → List (List GoString × Option Cid)
  | .file _ => []
  | .dir _ cs => nodesOf cs

def nodesOf : List (GoString × MaterialTree) → List (List GoString × Option Cid)
  | [] => []
  | (name, child) :: cs =>
    ([name], boundTo child) :: (nodes child).map (fun e => (name :: e.1, e.2)) ++ nodesOf cs

end

def flatChild (c : GoString × MaterialTree) : DirectoryChild :=
  { name := c.1, directory := c.2.isDir, root := rootOf c.2, manifest := manifestOf c.2,
    descendants := flatBindings c.2 }

def nodesAt (c : GoString × MaterialTree) : List (List GoString × Option Cid) :=
  ([c.1], boundTo c.2) :: (nodes c.2).map fun e => (c.1 :: e.1, e.2)

theorem flatChildren_eq (cs : List (GoString × MaterialTree)) :
    flatChildren cs = cs.map flatChild := by
  induction cs with
  | nil => rfl
  | cons c cs ih => rw [flatChildren, List.map_cons, ih, flatChild]

theorem nodesOf_eq (cs : List (GoString × MaterialTree)) : nodesOf cs = cs.flatMap nodesAt := by
  induction cs with
  | nil => rfl
  | cons c cs ih => rw [nodesOf, List.flatMap_cons, ih, nodesAt]

abbrev Portable (t : MaterialTree) : Prop := NamedBy (fun s => isPortableSegment s = true) t

variable {t : MaterialTree} {c : GoString × MaterialTree} {p : List GoString} {v w : Option Cid}

theorem portable_nodes (h : Portable t) :
    ∀ e ∈ nodes t, e.1 ≠ [] ∧ ∀ s ∈ e.1, isPortableSegment s = true := by
  induction h with
  | file target => simp [nodes]
  | dir keys cs hnodup hname hcs ih =>
    intro e he
    rw [nodes, nodesOf_eq] at he
    obtain ⟨c, hc, he⟩ := List.mem_flatMap.mp he
    rcases List.mem_cons.mp he with rfl | he
    · simpa using hname c hc
    · obtain ⟨e', he', rfl⟩ := List.mem_map.mp he
      have hbelow := (ih c hc e' he').2
      simpa using ⟨hname c hc, hbelow⟩

theorem nodup_nodes (h : Portable t) : ((nodes t).map Prod.fst).Nodup := by
  induction h with
  | file target => simp [nodes]
  | dir keys cs hnodup hname hcs ih =>
    have hhead (c : GoString × MaterialTree) :
      ∀ q ∈ (nodesAt c).map Prod.fst, q.head? = some c.1 := by
      intro q hq
      obtain ⟨e, he, rfl⟩ := List.mem_map.mp hq
      rcases List.mem_cons.mp he with rfl | he
      · rfl
      · obtain ⟨e', -, rfl⟩ := List.mem_map.mp he
        rfl
    rw [nodes, nodesOf_eq, List.map_flatMap, List.nodup_flatMap]
    constructor
    · intro c hc
      have hbelow : ((nodes c.2).map Prod.fst).map (c.1 :: ·) =
        ((nodes c.2).map fun e => (c.1 :: e.1, e.2)).map Prod.fst := by
        rw [List.map_map, List.map_map]
        rfl
      rw [nodesAt, List.map_cons, List.nodup_cons, ← hbelow]
      refine ⟨fun hmem => ?_, (ih c hc).map fun q q' heq => (List.cons.inj heq).2⟩
      obtain ⟨q, hq, heq⟩ := List.mem_map.mp hmem
      obtain ⟨e, he, rfl⟩ := List.mem_map.mp hq
      exact (portable_nodes (hcs c hc) e he).1 (List.cons.inj heq).2
    · refine (List.pairwise_map.mp hnodup).imp fun {c c'} hne => ?_
      intro q hq hq'
      exact hne (Option.some.inj ((hhead c q hq).symm.trans (hhead c' q hq')))

theorem eq_of_mem_nodes (h : Portable t) (hv : (p, v) ∈ nodes t) (hw : (p, w) ∈ nodes t) : v = w :=
  congrArg Prod.snd (List.inj_on_of_nodup_map (nodup_nodes h) hv hw rfl)

/-- A map whose labels are those of the nodes. -/
def Labelled (b : Bindings) (t : MaterialTree) : Prop :=
  ∀ l v, b.lookup l = some v ↔ ∃ p, (p, v) ∈ nodes t ∧ l = flatLabel (join p)

theorem mem_childBindings_flat (hportable : Portable c.2) (hbelow : Labelled (flatBindings c.2) c.2)
    (l : GoString) (v : Option Cid) :
    (l, v) ∈ childBindings .flatV1 (flatChild c) ↔ ∃ p, (p, v) ∈ nodesAt c ∧
      l = flatLabel (join p) := by
  obtain ⟨name, child⟩ := c
  cases child with
  | file target =>
    simp only [childBindings, flatChild, childLabel, DirectoryChild.target, nodesAt, nodes,
      Tree.isDir, boundTo, rootOf]
    constructor
    · intro h
      simp only [Bool.false_eq_true, and_false, if_false, if_true, List.mem_singleton,
        Prod.mk.injEq] at h
      exact ⟨[name], by simp [h.2], h.1⟩
    · rintro ⟨p, hp, rfl⟩
      simp only [List.map_nil, List.mem_singleton, Prod.mk.injEq] at hp
      simp [hp, join]
  | dir keys cs =>
    have hlabels : ∀ e ∈ nodes (.dir keys cs), descendantLabel .flatV1 name (flatLabel (join e.1)) =
      flatLabel (join (name :: e.1)) :=
      fun e he => descendantLabel_flat (portable_nodes hportable e he).1
        (portable_nodes hportable e he).2
    simp only [childBindings, flatChild, childLabel, DirectoryChild.target, nodesAt, Tree.isDir,
      boundTo, manifestOf]
    constructor
    · intro h
      rcases List.mem_cons.mp h with h | h
      · cases h
        exact ⟨[name], List.mem_cons_self, rfl⟩
      · rw [if_pos (by simp)] at h
        obtain ⟨⟨l', v'⟩, hmem, heq⟩ := List.mem_map.mp h
        cases heq
        obtain ⟨p, hp, hl⟩ := (hbelow l' v').mp (mem_entries_iff.mp hmem)
        refine ⟨name :: p, List.mem_cons_of_mem _ (List.mem_map.mpr ⟨_, hp, rfl⟩), ?_⟩
        rw [← hlabels _ hp, ← hl]
    · rintro ⟨p, hp, rfl⟩
      rcases List.mem_cons.mp hp with hp | hp
      · cases hp
        exact List.mem_cons_self
      · obtain ⟨⟨q, v'⟩, hq, heq⟩ := List.mem_map.mp hp
        cases heq
        refine List.mem_cons_of_mem _ ?_
        rw [if_pos (by simp)]
        exact List.mem_map.mpr ⟨⟨_, v'⟩, mem_entries_iff.mpr ((hbelow _ v').mpr ⟨q, hq, rfl⟩),
          by rw [hlabels _ hq]⟩

theorem labelled_flatBindings (h : Portable t) : Labelled (flatBindings t) t := by
  induction h with
  | file target =>
    intro l v
    simp [flatBindings, nodes]
  | dir keys cs hnodup hname hcs ih =>
    have hportable : Portable (.dir keys cs) := .dir keys cs hnodup hname hcs
    have hmem (l : GoString) (v : Option Cid) :
      (l, v) ∈ (flatChildren cs).flatMap (childBindings .flatV1) ↔
        ∃ p, (p, v) ∈ nodes (.dir keys cs) ∧ l = flatLabel (join p) := by
      rw [nodes, nodesOf_eq, flatChildren_eq, List.mem_flatMap]
      constructor
      · rintro ⟨_, hchild, hl⟩
        obtain ⟨c, hc, rfl⟩ := List.mem_map.mp hchild
        obtain ⟨p, hp, rfl⟩ := (mem_childBindings_flat (hcs c hc) (ih c hc) l v).mp hl
        exact ⟨p, List.mem_flatMap.mpr ⟨c, hc, hp⟩, rfl⟩
      · rintro ⟨p, hp, rfl⟩
        obtain ⟨c, hc, hp⟩ := List.mem_flatMap.mp hp
        exact ⟨_, List.mem_map.mpr ⟨c, hc, rfl⟩,
          (mem_childBindings_flat (hcs c hc) (ih c hc) _ v).mpr ⟨p, hp, rfl⟩⟩
    have hfound (l : GoString) (v : Option Cid)
      (hl : (flatBindings (.dir keys cs)).lookup l = some v) :
        ∃ p, (p, v) ∈ nodes (.dir keys cs) ∧ l = flatLabel (join p) := by
      rw [flatBindings, projectDirectoryBindings] at hl
      rcases mem_of_lookup_insertAll hl with hl | hl
      · exact (hmem l v).mp hl
      · simp at hl
    intro l v
    refine ⟨hfound l v, ?_⟩
    rintro ⟨p, hp, rfl⟩
    have hkey : flatLabel (join p) ∈ flatBindings (.dir keys cs) :=
      mem_insertAll.mpr (.inr (List.mem_map.mpr ⟨_, (hmem _ v).mpr ⟨p, hp, rfl⟩, rfl⟩))
    obtain ⟨w, hw⟩ := mem_iff_lookup.mp hkey
    -- Another node with the same label would have the same path.
    obtain ⟨q, hq, heq⟩ := hfound _ w hw
    have hp' := portable_nodes hportable _ hp
    have hq' := portable_nodes hportable _ hq
    obtain rfl := flatLabel_injective hp'.1 hq'.1 hp'.2 hq'.2 heq
    rw [hw, eq_of_mem_nodes hportable hp hq]

/-- The flat projection of a tree binds the label of each path below the root, and
nothing else. Different nodes have different labels, and none has that of the
manifest of the root. -/
theorem flatBindings_exact (t : MaterialTree) (h : Portable t) :
    (∀ l v, (flatBindings t).lookup l = some v ↔ ∃ p, (p, v) ∈ nodes t ∧
      flatPathLabel (join p) = .ok l) ∧ ((nodes t).map fun e => flatPathLabel (join e.1)).Nodup ∧
      ∀ e ∈ nodes t, flatPathLabel (join e.1) ≠ .ok payloadLabel := by
  have hlabel (e) (he : e ∈ nodes t) : flatPathLabel (join e.1) = .ok (flatLabel (join e.1)) := by
    obtain ⟨hne, hp⟩ := portable_nodes h e he
    rw [flatLabel_portable hne hp, flatPathLabel_portable hne hp]
  refine ⟨fun l v => ?_, ?_, fun e he => ?_⟩
  · rw [labelled_flatBindings h l v]
    refine exists_congr fun p => and_congr_right fun hp => ?_
    rw [hlabel _ hp, Except.ok.injEq, eq_comm]
  · refine (List.nodup_map_iff_inj_on (nodup_nodes h).of_map).mpr fun e he e' he' heq => ?_
    rw [hlabel e he, hlabel e' he', Except.ok.injEq] at heq
    obtain ⟨hne, hp⟩ := portable_nodes h e he
    obtain ⟨hne', hp'⟩ := portable_nodes h e' he'
    exact List.inj_on_of_nodup_map (nodup_nodes h) he he' (flatLabel_injective hne hne' hp hp' heq)
  · obtain ⟨hne, hp⟩ := portable_nodes h e he
    rw [hlabel e he, ne_eq, Except.ok.injEq]
    exact flatLabel_ne_payload hne hp

/-- A file in a directory, both with reserved names. -/
def reservedNames : letI := CidFormat.verbatim
    MaterialTree := letI := CidFormat.verbatim
  .dir ⟨none, none⟩ [(text "@payload", .dir ⟨none, none⟩ [(text "@b", .file none)])]

end

theorem flatBindings_exact_reserved : letI := CidFormat.verbatim
    (flatBindings reservedNames).lookup (text "/@payload/@b") = some none ∧
      (flatBindings reservedNames).lookup payloadLabel = none := by
  let format : CidFormat := CidFormat.verbatim
  have hportable : Portable reservedNames := by
    refine .dir _ _ (by simp) (by decide) fun c hc => ?_
    obtain rfl := List.mem_singleton.mp hc
    refine .dir _ _ (by simp) (by decide) fun c hc => ?_
    obtain rfl := List.mem_singleton.mp hc
    exact .file none
  obtain ⟨hlookup, -, hpayload⟩ := flatBindings_exact reservedNames hportable
  refine ⟨(hlookup _ none).mpr ⟨[text "@payload", text "@b"], by simp [reservedNames, nodes,
    nodesOf, boundTo], rfl⟩, ?_⟩
  by_contra hsome
  obtain ⟨v, hv⟩ := Option.ne_none_iff_exists'.mp hsome
  obtain ⟨p, hp, hlabel⟩ := (hlookup _ v).mp hv
  exact hpayload _ hp hlabel

end MaltClient.Unixfs
