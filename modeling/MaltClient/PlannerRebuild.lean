import MaltClient.PlannerPrepare

/-! The reference for planning: the operations on a tree that is held in full,
and the commitment of every directory of such a tree from scratch. -/

namespace MaltClient.Planner

open GoText Checked NamedTree DirectoryManifest Unixfs AssocMap
open StagedPath (PathName)
open Journal (Operation)

section

variable [CidFormat] [ManifestHash] [Engine]

abbrev DirTree := Tree GoString Engine.Descriptor (Option Cid)

def manifestOf {δ : Type} (cs : List (GoString × Tree GoString δ (Option Cid))) : Cid :=
  ManifestHash.manifestCid (writeEntries (sortOn DirectoryEntry.name (childEntries cs)))

mutual

def rebuild (layout : LayoutKind) : DirTree → GoString → DirectoryChild
  | .file c, name =>
    { name := name, directory := false, root := c, manifest := none, descendants := ∅ }
  | .dir descriptor cs, name =>
    let bindings := projectDirectoryBindings layout (rebuildAll layout cs)
    let manifest := some (manifestOf cs)
    let root := some (Engine.root descriptor (bindings.insert payloadLabel manifest).toFinmap)
    { name := name
      directory := true
      root := if layout = .flatV1 then manifest else root
      manifest := manifest
      descendants := bindings }

def rebuildAll (layout : LayoutKind) : List (GoString × DirTree) → List DirectoryChild
  | [] => []
  | (name, child) :: cs => rebuild layout child name :: rebuildAll layout cs

end

def bindingsOf (layout : LayoutKind) (cs : List (GoString × DirTree)) : Bindings :=
  projectDirectoryBindings layout (rebuildAll layout cs)

def stateOf (layout : LayoutKind) (descriptor : Engine.Descriptor)
    (cs : List (GoString × DirTree)) : Writer :=
  { descriptor := descriptor,
    entries := (bindingsOf layout cs).insert payloadLabel (some (manifestOf cs)) }

def rebuildRoot (layout : LayoutKind) : DirTree → Option Cid
  | .file c => c
  | .dir descriptor cs => some (stateOf layout descriptor cs).root

section replay

variable {δ : Type}

def isDirAt (p : List GoString) (t : Tree GoString δ (Option Cid)) : Bool :=
  (get? p t).any Tree.isDir

def hasChildren : Tree GoString δ (Option Cid) → Bool
  | .file _ => false
  | .dir _ cs => !cs.isEmpty

def editAt (parent : List GoString)
    (edit : List (GoString × Tree GoString δ (Option Cid)) →
      List (GoString × Tree GoString δ (Option Cid)))
    (t : Tree GoString δ (Option Cid)) : Tree GoString δ (Option Cid) :=
  updateAt id (fun d cs => .dir d (edit cs)) parent t

def splitPath (raw : GoString) : Option (List GoString × GoString) := do
  let segments ← (StagedPath.parseCanonicalStagedPath raw).toOption
  let name ← segments.getLast?
  return (segments.dropLast, name)

def replaceable (value : Tree GoString δ (Option Cid)) :
    Option (Tree GoString δ (Option Cid)) → Bool
  | none => true
  | some existing => existing.isDir == value.isDir && !hasChildren existing

/-- One operation on a tree held in full; a new directory gets the data `fresh`. -/
def replayOperation [PayloadHash] (fresh : δ) (operation : Operation)
    (t : Tree GoString δ (Option Cid)) : Option (Tree GoString δ (Option Cid)) := do
  let (parent, name) ← splitPath operation.path
  match operation.kind with
  | .write => do
    let payload ← Cid.parse operation.payloadCID
    guard (PayloadHash.isRaw payload = true)
    guard (isDirAt parent t = true ∧ isDirAt (parent ++ [name]) t = false)
    return editAt parent (setChild name (.file (some payload))) t
  | .mkdir => do
    guard (isDirAt parent t = true ∧ (get? (parent ++ [name]) t).isNone = true)
    return editAt parent (setChild name (.dir fresh [])) t
  | .unlink => do
    let child ← get? (parent ++ [name]) t
    guard (hasChildren child = false)
    return editAt parent (removeChild name) t
  | .rename => do
    let (parent', name') ← splitPath operation.destination
    guard (¬ parent ++ [name] <+: parent' ++ [name'])
    guard (isDirAt parent' t = true)
    let value ← get? (parent ++ [name]) t
    guard (replaceable value (get? (parent' ++ [name']) t) = true)
    return editAt parent' (setChild name' value) (editAt parent (removeChild name) t)
  | .other _ => none

def replay [PayloadHash] (fresh : δ) (operations : List Operation)
    (t : Tree GoString δ (Option Cid)) : Option (Tree GoString δ (Option Cid)) :=
  operations.foldlM (fun t operation => replayOperation fresh operation t) t

end replay

inductive NamedBy {δ : Type} (P : GoString → Prop) : Tree GoString δ (Option Cid) → Prop
  | file (c : Option Cid) : NamedBy P (.file c)
  | dir (d : δ) (cs : List (GoString × Tree GoString δ (Option Cid)))
      (hnodup : (cs.map Prod.fst).Nodup)
      (hname : ∀ c ∈ cs, P c.1) (hcs : ∀ c ∈ cs, NamedBy P c.2) : NamedBy P (.dir d cs)

abbrev Named {δ : Type} (t : Tree GoString δ (Option Cid)) : Prop := NamedBy PathName t

section

variable {δ : Type} {d : δ} {cs : List (GoString × Tree GoString δ (Option Cid))}
  {t u : Tree GoString δ (Option Cid)}

omit [ManifestHash] [Engine]

theorem Named.children (h : Named (.dir d cs)) :
    (cs.map Prod.fst).Nodup ∧ (∀ c ∈ cs, PathName c.1) ∧ ∀ c ∈ cs, Named c.2 := by
  cases h with
  | dir _ _ hnodup hname hcs => exact ⟨hnodup, hname, hcs⟩

variable {p : List GoString} {n : GoString}

theorem Named.get? (h : Named t) (hp : get? p t = some u) : Named u := by
  induction p generalizing t with
  | nil =>
    rw [get?_nil, Option.some.injEq] at hp
    exact hp ▸ h
  | cons n p ih =>
    cases t with
    | file c => simp at hp
    | dir d cs =>
      obtain ⟨c, hc, hp⟩ := Option.bind_eq_some_iff.mp hp
      exact ih (h.children.2.2 (n, c) (mem_of_child? hc)) hp

theorem Named.setChild (h : Named (.dir d cs)) (hn : PathName n) (ht : Named t) :
    Named (.dir d (setChild n t cs)) := by
  obtain ⟨hnodup, hname, hcs⟩ := h.children
  refine .dir _ _ (nodup_setChild hnodup) (fun c hc => ?_) (fun c hc => ?_)
  · rcases mem_setChild hc with rfl | hc
    · exact hn
    · exact hname c hc
  · rcases mem_setChild hc with rfl | hc
    · exact ht
    · exact hcs c hc

theorem Named.removeChild (h : Named (.dir d cs)) : Named (.dir d (removeChild n cs)) := by
  obtain ⟨hnodup, hname, hcs⟩ := h.children
  exact .dir _ _ (nodup_removeChild hnodup) (fun c hc => hname c (List.mem_filter.mp hc).1)
    fun c hc => hcs c (List.mem_filter.mp hc).1

theorem Named.editAt
    {edit : List (GoString × Tree GoString δ (Option Cid)) →
      List (GoString × Tree GoString δ (Option Cid))}
    (h : Named t) (hedit : ∀ d cs, Named (.dir d cs) → Named (.dir d (edit cs))) :
    Named (editAt p edit t) := by
  unfold Planner.editAt
  induction p generalizing t with
  | nil =>
    cases t with
    | file c => exact h
    | dir d cs => exact hedit d cs h
  | cons n p ih =>
    cases t with
    | file c => exact h
    | dir d cs =>
      cases hc : child? n cs with
      | none => simpa [updateAt, hc] using h
      | some u =>
        simp only [updateAt, hc]
        have hm := mem_of_child? hc
        exact h.setChild (h.children.2.1 _ hm) (ih (h.children.2.2 _ hm))

omit [CidFormat] in
theorem splitPath_eq_some {raw : GoString} {parent : List GoString} {name : GoString}
    (h : splitPath raw = some (parent, name)) :
    raw = join (parent ++ [name]) ∧ ∀ s ∈ parent ++ [name], StagedPath.StagedName s := by
  simp only [splitPath, Option.bind_eq_bind, Option.bind_eq_some_iff, Option.pure_def,
    Option.some.injEq, Prod.mk.injEq] at h
  obtain ⟨segments, hparse, last, hlast, rfl, rfl⟩ := h
  have hok : StagedPath.parseCanonicalStagedPath raw = .ok segments := by
    cases hr : StagedPath.parseCanonicalStagedPath raw with
    | error e => simp [hr, Except.toOption] at hparse
    | ok s => simpa [hr, Except.toOption] using hparse
  rw [List.dropLast_append_getLast? last hlast]
  exact StagedPath.staged_of_parse hok

/-- What an accepted operation does to a tree held in full, one case for each
kind. -/
inductive Replays [PayloadHash] (fresh : δ) (operation : Operation)
    (t : Tree GoString δ (Option Cid)) : Tree GoString δ (Option Cid) → Prop
  | write {parent : List GoString} {name : GoString} {payload : Cid}
      (hkind : operation.kind = .write) (hpath : splitPath operation.path = some (parent, name))
      (hpayload : Cid.parse operation.payloadCID = some payload)
      (hparent : isDirAt parent t = true) (hnot : isDirAt (parent ++ [name]) t = false) :
      Replays fresh operation t (editAt parent (setChild name (.file (some payload))) t)
  | mkdir {parent : List GoString} {name : GoString} (hkind : operation.kind = .mkdir)
      (hpath : splitPath operation.path = some (parent, name)) (hparent : isDirAt parent t = true)
      (hnone : NamedTree.get? (parent ++ [name]) t = none) :
      Replays fresh operation t (editAt parent (setChild name (.dir fresh [])) t)
  | unlink {parent : List GoString} {name : GoString} {child : Tree GoString δ (Option Cid)}
      (hkind : operation.kind = .unlink) (hpath : splitPath operation.path = some (parent, name))
      (hchild : NamedTree.get? (parent ++ [name]) t = some child)
      (hempty : hasChildren child = false) :
      Replays fresh operation t (editAt parent (removeChild name) t)
  | rename {parent parent' : List GoString} {name name' : GoString}
      {value : Tree GoString δ (Option Cid)}
      (hkind : operation.kind = .rename) (hpath : splitPath operation.path = some (parent, name))
      (hpath' : splitPath operation.destination = some (parent', name'))
      (hout : ¬ parent ++ [name] <+: parent' ++ [name']) (hparent : isDirAt parent' t = true)
      (hvalue : NamedTree.get? (parent ++ [name]) t = some value)
      (hreplaced : replaceable value (NamedTree.get? (parent' ++ [name']) t) = true) :
      Replays fresh operation t (editAt parent' (setChild name' value)
        (editAt parent (removeChild name) t))

theorem replays_of_eq_some [PayloadHash] {fresh : δ} {operation : Operation}
    (h : replayOperation fresh operation t = some u) : Replays fresh operation t u := by
  simp only [replayOperation, Option.bind_eq_bind, Option.bind_eq_some_iff] at h
  obtain ⟨⟨parent, name⟩, hpath, h⟩ := h
  cases hkind : operation.kind with
  | write =>
    simp only [hkind, Option.bind_eq_some_iff, Option.pure_def, Option.some.injEq,
      Option.guard_eq_some'] at h
    obtain ⟨payload, hpayload, -, -, -, ⟨hparent, hnot⟩, rfl⟩ := h
    exact .write hkind hpath hpayload hparent hnot
  | mkdir =>
    simp only [hkind, Option.bind_eq_some_iff, Option.pure_def, Option.some.injEq,
      Option.guard_eq_some'] at h
    obtain ⟨-, ⟨hparent, hnone⟩, rfl⟩ := h
    exact .mkdir hkind hpath hparent (Option.isNone_iff_eq_none.mp hnone)
  | unlink =>
    simp only [hkind, Option.bind_eq_some_iff, Option.pure_def, Option.some.injEq,
      Option.guard_eq_some'] at h
    obtain ⟨child, hchild, -, hempty, rfl⟩ := h
    exact .unlink hkind hpath hchild hempty
  | rename =>
    simp only [hkind, Option.bind_eq_some_iff, Option.pure_def, Option.some.injEq,
      Option.guard_eq_some'] at h
    obtain ⟨⟨parent', name'⟩, hpath', -, hout, -, hparent, value, hvalue, -, hreplaced, rfl⟩ := h
    exact .rename hkind hpath hpath' hout hparent hvalue hreplaced
  | other kind => simp [hkind] at h

theorem Named.replayOperation [PayloadHash] {fresh : δ} {operation : Operation} (h : Named t)
    (hu : replayOperation fresh operation t = some u) : Named u := by
  have hname {raw name : GoString} {parent : List GoString}
    (hpath : splitPath raw = some (parent, name)) :
      PathName name := ((splitPath_eq_some hpath).2 name (by simp)).pathName
  cases replays_of_eq_some hu with
  | write _ hpath => exact h.editAt fun d cs hd => hd.setChild (hname hpath) (.file _)
  | mkdir _ hpath =>
    exact h.editAt fun d cs hd => hd.setChild (hname hpath)
      (.dir _ _ List.nodup_nil (by simp) (by simp))
  | unlink => exact h.editAt fun d cs hd => hd.removeChild
  | rename _ _ hpath' _ _ hvalue =>
    exact (h.editAt fun d cs hd => hd.removeChild).editAt fun d cs hd => hd.setChild (hname hpath')
      (h.get? hvalue)

end

section

variable {layout : LayoutKind} {descriptor : Engine.Descriptor} {cs : List (GoString × DirTree)}

theorem rebuildAll_eq_map (layout : LayoutKind) (cs : List (GoString × DirTree)) :
    rebuildAll layout cs = cs.map fun c => rebuild layout c.2 c.1 := by
  induction cs with
  | nil => rfl
  | cons c cs ih =>
    obtain ⟨n, t⟩ := c
    rw [rebuildAll, ih]
    rfl

@[simp] theorem rebuild_name (t : DirTree) (n : GoString) : (rebuild layout t n).name = n := by
  cases t <;> rfl

@[simp] theorem rebuild_directory (t : DirTree) (n : GoString) :
    (rebuild layout t n).directory = t.isDir := by
  cases t <;> rfl

theorem rebuild_target_file (c : Option Cid) (n : GoString) :
    (rebuild layout (.file c) n).target layout = c := by
  simp [DirectoryChild.target, rebuild]

theorem rebuild_target_dir (n : GoString) : (rebuild layout (.dir descriptor cs) n).target layout =
    if layout = .flatV1 then some (manifestOf cs) else some (stateOf layout descriptor
      cs).root := by
  simp only [DirectoryChild.target, rebuild_directory, Tree.isDir, and_true]
  split_ifs with h <;> simp [rebuild, h, stateOf, Writer.root, bindingsOf]

theorem map_name_rebuildAll (layout : LayoutKind) (cs : List (GoString × DirTree)) :
    (rebuildAll layout cs).map DirectoryChild.name = cs.map Prod.fst := by
  simp [rebuildAll_eq_map, Function.comp_def]

variable {n : GoString} {t : DirTree}

theorem rebuild_plain (ht : Named t) (hn : PathName n) :
    (rebuild layout t n).Plain layout := by
  induction ht generalizing n with
  | file c => exact ⟨hn, fun _ hd => by simp [rebuild] at hd⟩
  | dir d cs hnodup hname hcs ih =>
    refine ⟨hn, fun _ _ => ?_⟩
    have hplain : ∀ c ∈ rebuildAll layout cs, c.Plain layout := by
      intro c hc
      rw [rebuildAll_eq_map] at hc
      obtain ⟨e, he, rfl⟩ := List.mem_map.mp hc
      exact ih e he (hname e he)
    exact labels_project hplain (by rwa [map_name_rebuildAll])

theorem Named.plain (h : Named (.dir descriptor cs : DirTree)) :
    ∀ c ∈ rebuildAll layout cs, c.Plain layout := by
  intro c hc
  rw [rebuildAll_eq_map] at hc
  obtain ⟨e, he, rfl⟩ := List.mem_map.mp hc
  exact rebuild_plain (h.children.2.2 e he) (h.children.2.1 e he)

theorem Named.nodup (h : Named (.dir descriptor cs : DirTree)) :
    ((rebuildAll layout cs).map DirectoryChild.name).Nodup := by
  rw [map_name_rebuildAll]
  exact h.children.1

theorem Named.labels (h : Named (.dir descriptor cs : DirTree)) : Labels (bindingsOf layout cs) :=
  labels_project h.plain h.nodup

theorem mem_rebuildAll (h : child? n cs = some t) :
    rebuild layout t n ∈ rebuildAll layout cs := by
  rw [rebuildAll_eq_map]
  exact List.mem_map.mpr ⟨(n, t), mem_of_child? h, rfl⟩

theorem Named.lookup_name (h : Named (.dir descriptor cs : DirTree))
    (ht : child? n cs = some t) :
    (bindingsOf layout cs).lookup n = some ((rebuild layout t n).target layout) := by
  have hmem : rebuild layout t n ∈ rebuildAll layout cs := mem_rebuildAll ht
  have hname := lookup_project_name h.plain h.nodup hmem
  rwa [rebuild_name] at hname

omit [ManifestHash] [Engine] in
theorem lookup_payload {b : Bindings} (h : Labels b) : b.lookup payloadLabel = none := by
  rw [AList.lookup_eq_none]
  intro hm
  obtain ⟨p, hne, hp, he⟩ := h payloadLabel hm
  have hsplit : split payloadLabel = p := by
    rw [he]
    exact split_join hne fun s hs => (hp s hs).name.plain.2
  have hsingle : split payloadLabel = [payloadLabel] := by decide
  have hname : PathName payloadLabel := hp _ (by rw [← hsplit, hsingle]; simp)
  exact absurd hname.unreserved (by decide)

omit [ManifestHash] [Engine] in
theorem wellFormed_entries {δ : Type} {cs : List (GoString × Tree GoString δ (Option Cid))}
    (hnodup : (cs.map Prod.fst).Nodup) (hname : ∀ c ∈ cs, PathName c.1) :
    WellFormed (sortOn DirectoryEntry.name (childEntries cs)) := by
  have hmap : (childEntries cs).map DirectoryEntry.name = cs.map Prod.fst := by
    simp [childEntries, Function.comp_def]
  refine wellFormed_sortOn (hmap ▸ hnodup) (fun e he => ?_) (fun e he => ?_)
  · obtain ⟨c, hc, rfl⟩ := List.mem_map.mp he
    exact (hname c hc).portable
  · obtain ⟨c, hc, rfl⟩ := List.mem_map.mp he
    simp only [typeOf]
    split_ifs <;> simp

omit [ManifestHash] [Engine] in
theorem mem_childEntries {δ : Type} {cs : List (GoString × Tree GoString δ (Option Cid))}
    (hnodup : (cs.map Prod.fst).Nodup) {e : DirectoryEntry} :
    e ∈ childEntries cs ↔ ∃ t, child? e.name cs = some t ∧ typeOf t = e.type := by
  constructor
  · intro he
    obtain ⟨⟨n, t⟩, hc, rfl⟩ := List.mem_map.mp he
    exact ⟨t, child?_of_mem hnodup hc, rfl⟩
  · intro ⟨t, ht, htype⟩
    refine List.mem_map.mpr ⟨(e.name, t), mem_of_child? ht, ?_⟩
    rw [htype]

omit [Engine] in
theorem manifestOf_congr {δ δ' : Type} {cs : List (GoString × Tree GoString δ (Option Cid))}
    {cs' : List (GoString × Tree GoString δ' (Option Cid))} (hnodup : (cs.map Prod.fst).Nodup)
    (hnodup' : (cs'.map Prod.fst).Nodup) (hname : ∀ c ∈ cs, PathName c.1)
    (h : ∀ n, (child? n cs).map typeOf = (child? n cs').map typeOf) :
    manifestOf cs = manifestOf cs' := by
  have hmem (e : DirectoryEntry) : e ∈ childEntries cs ↔ e ∈ childEntries cs' := by
    rw [mem_childEntries hnodup, mem_childEntries hnodup', ← Option.map_eq_some_iff, h,
      Option.map_eq_some_iff]
  have hnames : (childEntries cs).map DirectoryEntry.name = cs.map Prod.fst := by
    simp [childEntries, Function.comp_def]
  have hnames' : (childEntries cs').map DirectoryEntry.name = cs'.map Prod.fst := by
    simp [childEntries, Function.comp_def]
  have hperm : (childEntries cs).Perm (childEntries cs') :=
    (List.perm_ext_iff_of_nodup (List.Nodup.of_map _ (hnames ▸ hnodup))
      (List.Nodup.of_map _ (hnames' ▸ hnodup'))).mpr hmem
  have hvalid : ∀ e ∈ childEntries cs, validString e.name = true := by
    intro e he
    obtain ⟨c, hc, rfl⟩ := List.mem_map.mp he
    exact validString_of_portable (hname c hc).portable
  rw [manifestOf, manifestOf, sortOn_eq_of_perm hperm hvalid (hnames ▸ hnodup)]

end

end

end MaltClient.Planner
