import MaltClient.PlannerLazy

/-! The operations on the planner's tree, step by step: what the planner does to
a tree that stands for a full tree, the reference does to the full tree. -/

namespace MaltClient.Planner

open GoText Checked NamedTree DirectoryManifest Unixfs
open Journal (Operation)

section

variable [CidFormat] [ManifestHash] [Engine]
variable {origin : DirTree} {s s' : Progress} {fresh descriptor : Engine.Descriptor}
  {layout : LayoutKind}
  {cs : List (GoString × DirTree)} {d : DirState} {cs' : List (GoString × TreeNode (Option Cid))}
  {top : Bool} {t : DirTree} {u : TreeNode (Option Cid)}

def isOpen : TreeNode (Option Cid) → Bool
  | .file _ => false
  | .dir d _ => d.load.isNone

/-- A path has a directory that has been loaded. -/
def OpenAt (u : TreeNode (Option Cid)) (q : List GoString) : Prop :=
  ∃ d cs', NamedTree.get? q u = some (.dir d cs') ∧ d.load = none

omit [ManifestHash] [Engine] in
theorem openAt_iff {q : List GoString} :
    OpenAt u q ↔ (NamedTree.get? q u).map isOpen = some true := by
  unfold OpenAt
  cases NamedTree.get? q u with
  | none => simp
  | some v => cases v <;> simp [isOpen]

abbrev Clean (u : TreeNode (Option Cid)) : Prop := AllDirs (fun d => d.dirty = false) u

theorem Represents.isDir_eq (h : Represents origin s fresh layout top t u) : t.isDir = u.isDir := by
  cases h <;> rfl

theorem Represents.typeOf_eq (h : Represents origin s fresh layout top t u) :
    typeOf t = typeOf u := by
  rw [typeOf, typeOf, h.isDir_eq]

theorem Represents.child (h : Represents origin s fresh layout top (.dir descriptor cs)
    (.dir d cs')) (n : GoString) (hu : child? n cs' = some u) :
    ∃ t, child? n cs = some t ∧ Represents origin s fresh layout false t u := by
  cases h with
  | closed => simp [child?] at hu
  | opened hload hnodup hmanifest hkept hclean hkey hsome hchild =>
    have hn := hsome n
    rw [hu, Option.isSome_some, Option.isSome_iff_exists] at hn
    obtain ⟨t, ht⟩ := hn
    exact ⟨t, ht, hchild n t u ht hu⟩

variable {v : TreeNode (Option Cid)} {n : GoString}
  {E' : List (GoString × TreeNode (Option Cid)) → List (GoString × TreeNode (Option Cid))}
  {E : List (GoString × DirTree) → List (GoString × DirTree)} {m : Bool} {q : List GoString}

theorem Represents.get? {p : List GoString} (h : Represents origin s fresh layout top t u)
    (hv : get? p u = some v) :
    ∃ w b, get? p t = some w ∧ Represents origin s fresh layout b w v := by
  induction p generalizing top t u with
  | nil =>
    rw [get?_nil, Option.some.injEq] at hv
    exact ⟨t, top, get?_nil t, hv ▸ h⟩
  | cons n p ih =>
    cases u with
    | file c => simp at hv
    | dir d cs' =>
      cases t with
      | file c => cases h
      | dir descriptor cs =>
        obtain ⟨c, hc, hp⟩ := Option.bind_eq_some_iff.mp hv
        obtain ⟨w, hw, hrep⟩ := h.child n hc
        obtain ⟨w', b, hw', hrep'⟩ := ih hrep hp
        exact ⟨w', b, by simp [hw, hw'], hrep'⟩

theorem Represents.load_eq_none
    (h : Represents origin s fresh layout top t (.dir d cs')) (hn : child? n cs' ≠ none) :
    d.load = none := by
  cases h with
  | closed => simp [child?] at hn
  | opened hload => exact hload

theorem Represents.setChild
    (h : Represents origin s fresh layout top (.dir descriptor cs) (.dir d cs'))
    (ht : child? n cs = some t)
    (hu : child? n cs' = some u) (hv : Represents origin s fresh layout false t v)
    (hclean : Clean u → Clean v) :
    Represents origin s fresh layout top (.dir descriptor cs) (.dir d (setChild n v cs')) := by
  cases h with
  | closed => simp [child?] at hu
  | opened hload hnodup hmanifest hkept hclean' hkey hsome hchild =>
    refine .opened hload (nodup_setChild hnodup) hmanifest hkept (fun hd c hc => ?_) hkey
      (fun m => ?_)
      fun m a b ha hb => ?_
    · rcases mem_setChild hc with rfl | hc
      · exact hclean (hclean' hd (n, u) (mem_of_child? hu))
      · exact hclean' hd c hc
    · rw [child?_setChild]
      split_ifs with hm
      · simp [hm, ht]
      · exact hsome m
    · rw [child?_setChild] at hb
      split_ifs at hb with hm
      · subst hm
        obtain rfl : t = a := Option.some.inj (ht.symm.trans ha)
        exact Option.some.inj hb ▸ hv
      · exact hchild m a b ha hb

section loading

variable [JsonDecoder] {p : Capabilities} {base : Cid} {u' : TreeNode (Option Cid)}

structure Loads (origin : DirTree) (fresh : Engine.Descriptor) (layout : LayoutKind) (top : Bool)
    (t : DirTree)
    (u : TreeNode (Option Cid)) (s s' : Progress) (u' : TreeNode (Option Cid)) : Prop where
  sound : Sound origin layout s'
  grows : Extends s s'
  clean : Clean u → Clean u'
  represents : Represents origin s' fresh layout top t u'

/-- The planner's tree stands for a tree with the names that a directory may have. -/
structure Stands (p : Capabilities) (origin : DirTree) (base : Cid)
    (fresh : Engine.Descriptor) (top : Bool)
    (s : Progress) (t : DirTree) (u : TreeNode (Option Cid)) : Prop where
  base : BaseRoot p.layout origin base
  sound : Sound origin p.layout s
  named : Named t
  represents : Represents origin s fresh p.layout top t u

omit [JsonDecoder] in
theorem Stands.after (h : Stands p origin base fresh top s t u)
    (hl : Loads origin fresh p.layout top t u s s' u') :
    Stands p origin base fresh top s' t u' := ⟨h.base, hl.sound, h.named, hl.represents⟩

omit [JsonDecoder] in
theorem Stands.isDir_after (h : Stands p origin base fresh top s t u) (hdir : u.isDir = true)
    (hl : Loads origin fresh p.layout top t u s s' u') : u'.isDir = true := by
  rw [← hl.represents.isDir_eq, h.represents.isDir_eq, hdir]

theorem ensure_eq_ok (hu : Stands p origin base fresh top s t u)
    (h : ensure (loadDirectory p base) s u = .ok (s', u')) :
    Loads origin fresh p.layout top t u s s' u' ∧ ∀ d cs', u' = .dir d cs' → d.load = none := by
  obtain ⟨hbase, hs, hnamed, hrep⟩ := hu
  cases hrep with
  | file top c =>
    simp only [ensure, pure_eq_ok, Prod.mk.injEq] at h
    obtain ⟨rfl, rfl⟩ := h
    exact ⟨⟨hs, .refl _, id, .file _ _⟩, fun _ _ he => by cases he⟩
  | closed hload hdirty hkept horigin =>
    simp only [ensure, hload, ok_iff, Prod.mk.injEq] at h
    obtain ⟨⟨s₁, d₁, cs₁⟩, hl, rfl, rfl⟩ := h
    obtain ⟨hs', hgrows, -, hclean, hrep'⟩ :=
      loadDirectory_eq_ok hbase hs hnamed (.below hkept horigin) hdirty hl
    refine ⟨⟨hs', hgrows, fun _ => hclean, hrep'⟩, fun d cs' he => ?_⟩
    cases he
    rfl
  | opened hload hnodup hmanifest hkept hclean hkey hsome hchild =>
    simp only [ensure, hload, pure_eq_ok, Prod.mk.injEq] at h
    obtain ⟨rfl, rfl⟩ := h
    refine ⟨⟨hs, .refl _, id, .opened hload hnodup hmanifest hkept hclean hkey hsome hchild⟩,
      fun d cs' he => ?_⟩
    cases he
    exact hload

theorem directoryAt_eq_ok {whole q : List GoString} (hu : Stands p origin base fresh top s t u)
    (hdir : u.isDir = true) (h : directoryAt (loadDirectory p base) whole q s u = .ok (s', u')) :
    Loads origin fresh p.layout top t u s s' u' ∧ ∃ d cs', get? q u' = some (.dir d cs') ∧
      d.load = none := by
  induction q generalizing top t u s s' u' with
  | nil =>
    obtain ⟨hl, hopen⟩ := ensure_eq_ok hu h
    have hdir' := hu.isDir_after hdir hl
    cases u' with
    | file c => simp [Tree.isDir] at hdir'
    | dir d cs' => exact ⟨hl, d, cs', get?_nil _, hopen d cs' rfl⟩
  | cons n q ih =>
    simp only [directoryAt, bind_eq_ok] at h
    obtain ⟨⟨s₁, u₁⟩, hensure, h⟩ := h
    obtain ⟨hl, hopen⟩ := ensure_eq_ok hu hensure
    cases u₁ with
    | file c => simp at h
    | dir d₁ cs₁ =>
      cases hc : child? n cs₁ with
      | none => simp [hc] at h
      | some v =>
        simp only [hc, ok_iff, Prod.mk.injEq, Bool.not_eq_false] at h
        obtain ⟨-, hv, ⟨s₂, v'⟩, hrest, rfl, rfl⟩ := h
        cases t with
        | file c => cases hl.represents
        | dir descriptor cs =>
          obtain ⟨w, hw, hrepw⟩ := hl.represents.child n hc
          have hnamed' : Named w := hu.named.children.2.2 (n, w) (mem_of_child? hw)
          obtain ⟨hl', d', cs', hget, hload⟩ := ih ⟨hu.base, hl.sound, hnamed', hrepw⟩ hv hrest
          have hmono : Represents origin s₂ fresh p.layout top (.dir descriptor cs) (.dir d₁ cs₁) :=
            hl.represents.mono hl'.grows
          refine ⟨⟨hl'.sound, hl.grows.trans hl'.grows, fun hclean => ?_,
            hmono.setChild hw hc hl'.represents hl'.clean⟩, d', cs', ?_, hload⟩
          · have hclean₁ := (hl.clean hclean).children
            exact .dir _ _ hclean₁.1
              (AllDirs.setChild (hl'.clean (hclean₁.2 (n, v) (mem_of_child? hc))) hclean₁.2)
          · simpa [child?_setChild] using hget

end loading

omit [ManifestHash] [Engine] in
theorem childEntries_setChild {δ : Type} {cs : List (GoString × Tree GoString δ (Option Cid))}
    {a b : Tree GoString δ (Option Cid)} (h : child? n cs = some a) (htype : typeOf b = typeOf a) :
    childEntries (setChild n b cs) = childEntries cs := by
  induction cs with
  | nil => simp [child?] at h
  | cons c cs ih =>
    rw [child?] at h
    rw [NamedTree.setChild]
    split_ifs at h ⊢ with hc
    · cases h
      simp [childEntries, htype, hc]
    · simpa [childEntries] using ih h

omit [ManifestHash] [Engine] in
theorem isDir_editAt {δ : Type} (q : List GoString)
    (edit : List (GoString × Tree GoString δ (Option Cid)) →
      List (GoString × Tree GoString δ (Option Cid)))
    (t : Tree GoString δ (Option Cid)) : (editAt q edit t).isDir = t.isDir := by
  cases t with
  | file c => cases q <;> rfl
  | dir d cs =>
    cases q with
    | nil => rfl
    | cons n q =>
      simp only [editAt, updateAt]
      split <;> rfl

theorem Represents.edit {x : Option DirTree} {y : Option (TreeNode (Option Cid))}
    (h : Represents origin s fresh layout top (.dir descriptor cs) (.dir d cs'))
    (hload : d.load = none) (hE : ∀ cs k, child? k (E cs) = if k = n then x else child? k cs)
    (hE' : ∀ cs k, child? k (E' cs) = if k = n then y else child? k cs)
    (hnodup' : (cs'.map Prod.fst).Nodup → ((E' cs').map Prod.fst).Nodup)
    (hxy : Option.Rel (Represents origin s fresh layout false) x y)
    (hmanifest' : m = false → manifestOf (E cs) = manifestOf cs) :
    Represents origin s fresh layout top (.dir descriptor (E cs))
      (.dir (d.markDirty m) (E' cs')) := by
  cases h with
  | closed hl => simp [hload] at hl
  | opened _ hnodup hmanifest hkept hclean hkey hsome hchild =>
    refine .opened hload (hnodup' hnodup) (fun hm => ?_)
      (fun hd => by simp [DirState.markDirty] at hd)
      (fun hd => by simp [DirState.markDirty] at hd) hkey (fun k => ?_) fun k a b ha hb => ?_
    · simp only [DirState.markDirty, Bool.or_eq_false_iff] at hm
      rw [hmanifest' hm.2]
      exact hmanifest hm.1
    · rw [hE, hE']
      split_ifs
      · cases hxy <;> rfl
      · exact hsome k
    · rw [hE] at ha
      rw [hE'] at hb
      split_ifs at ha hb
      · cases hxy with
        | none => cases ha
        | some hab =>
          cases ha
          cases hb
          exact hab
      · exact hchild k a b ha hb

theorem Represents.editDirectory
    (h : Represents origin s fresh layout top t u)
    (ht : NamedTree.get? q t = some (.dir descriptor cs))
    (hu : NamedTree.get? q u = some (.dir d cs'))
    (hedit : ∀ b, Represents origin s fresh layout b (.dir descriptor cs) (.dir d cs') →
      Represents origin s fresh layout b (.dir descriptor (E cs)) (.dir (d.markDirty m) (E' cs'))) :
    Represents origin s fresh layout top (editAt q E t) (editDirectory q m E' u) := by
  induction q generalizing top t u with
  | nil =>
    obtain rfl := Option.some.inj ((get?_nil t).symm.trans ht)
    obtain rfl := Option.some.inj ((get?_nil u).symm.trans hu)
    exact hedit top h
  | cons n q ih =>
    cases u with
    | file c => simp at hu
    | dir d₁ cs₁ =>
      cases t with
      | file c => simp at ht
      | dir descriptor₁ cs₀ =>
        obtain ⟨v, hv, hu⟩ := Option.bind_eq_some_iff.mp hu
        obtain ⟨w, hw, ht⟩ := Option.bind_eq_some_iff.mp ht
        obtain ⟨w', hw', hrep⟩ := h.child n hv
        obtain rfl : w = w' := Option.some.inj (hw.symm.trans hw')
        have hload : d₁.load = none := h.load_eq_none (by rw [hv]; simp)
        have hstep : Represents origin s fresh layout top
            (.dir descriptor₁ (NamedTree.setChild n (editAt q E w) cs₀))
            (.dir (d₁.markDirty false)
              (NamedTree.setChild n (Planner.editDirectory q m E' v) cs₁)) := by
          refine h.edit hload (fun cs k => child?_setChild n k _ cs)
            (fun cs k => child?_setChild n k _ cs)
            nodup_setChild (.some (ih hrep ht hu)) fun _ => ?_
          have htype : typeOf (editAt q E w) = typeOf w := by rw [typeOf, typeOf, isDir_editAt]
          rw [manifestOf, manifestOf, childEntries_setChild hw htype]
        simpa [editAt, Planner.editDirectory, updateAt, hv, hw] using hstep

theorem Represents.eq_dir (h : Represents origin s fresh layout top t (.dir d cs')) :
    ∃ descriptor cs, t = .dir descriptor cs := by
  cases h with
  | closed => exact ⟨_, _, rfl⟩
  | opened => exact ⟨_, _, rfl⟩

omit [ManifestHash] [Engine] in
theorem get?_snoc {δ : Type} {t : Tree GoString δ (Option Cid)} {d : δ}
    {cs : List (GoString × Tree GoString δ (Option Cid))}
    (h : NamedTree.get? q t = some (.dir d cs)) : NamedTree.get? (q ++ [n]) t = child? n cs := by
  rw [get?_append, h]
  simp

omit [ManifestHash] [Engine] in
theorem exists_parent {δ : Type} {t u : Tree GoString δ (Option Cid)}
    (h : NamedTree.get? (q ++ [n]) t = some u) :
    ∃ d cs, NamedTree.get? q t = some (.dir d cs) ∧ child? n cs = some u := by
  rw [get?_append] at h
  obtain ⟨v, hv, hu⟩ := Option.bind_eq_some_iff.mp h
  cases v with
  | file c => simp at hu
  | dir d cs => exact ⟨d, cs, hv, by simpa using hu⟩

omit [ManifestHash] [Engine] in
theorem editDirectory_dirty (hu : NamedTree.get? q u = some (.dir d cs')) :
    ∃ d₁ cs₁, editDirectory q m E' u = .dir d₁ cs₁ ∧ d₁.dirty = true := by
  cases u with
  | file c => cases q <;> simp at hu
  | dir d₀ cs₀ =>
    cases q with
    | nil => exact ⟨_, _, rfl, rfl⟩
    | cons n q =>
      obtain ⟨v, hv, -⟩ := Option.bind_eq_some_iff.mp hu
      have hmark : editDirectory (n :: q) m E' (.dir d₀ cs₀) =
          .dir (d₀.markDirty false) (NamedTree.setChild n (editDirectory q m E' v) cs₀) := by
        simp [editDirectory, updateAt, hv]
      exact ⟨_, _, hmark, rfl⟩

omit [CidFormat] [ManifestHash] [Engine] in
theorem splitPath_of_parseSegments {raw : GoString} {format : String} {args : List GoString}
    {r : List GoString × GoString} (h : parseSegments raw format args = .ok r) :
    splitPath raw = some r := by
  simp only [parseSegments, ok_iff] at h
  obtain ⟨segments, hparse, h⟩ := h
  cases hl : segments.getLast? with
  | none => simp [hl] at h
  | some n =>
    rw [hl] at h
    cases h
    simp [splitPath, hparse, Except.toOption, hl]

theorem Represents.hasChildren_eq (h : Represents origin s fresh layout top t u)
    (hload : ∀ d cs', u = .dir d cs' → d.load = none) : hasChildren t = isNonEmptyDirectory u := by
  cases h with
  | file => rfl
  | closed hl => simp [hload _ _ rfl] at hl
  | @opened _ _ cs d cs' _ _ _ _ _ _ hsome _ =>
    have hnil : cs = [] ↔ cs' = [] := by
      rw [← child?_eq_none_iff, ← child?_eq_none_iff]
      refine forall_congr' fun n => ?_
      have hn := hsome n
      cases ha : child? n cs <;> cases hb : child? n cs' <;> simp_all
    simp only [hasChildren, isNonEmptyDirectory]
    cases cs <;> cases cs' <;> simp_all

section operations

variable [JsonDecoder] {p : Capabilities} {base : Cid} {u' : TreeNode (Option Cid)}

structure Applied (origin : DirTree) (fresh : Engine.Descriptor) (layout : LayoutKind)
    (s s' : Progress) (t' : DirTree) (u' : TreeNode (Option Cid)) : Prop where
  sound : Sound origin layout s'
  grows : Extends s s'
  represents : Represents origin s' fresh layout true t' u'
  dirty : ∃ d cs, u' = .dir d cs ∧ d.dirty = true

omit [JsonDecoder] in
theorem Represents.rel_child (h : Represents origin s fresh layout top (.dir descriptor cs)
    (.dir d cs')) (hload : d.load = none) (n : GoString) :
    Option.Rel (Represents origin s fresh layout false) (child? n cs) (child? n cs') := by
  cases h with
  | closed hl => simp [hload] at hl
  | opened _ _ _ _ _ _ hsome hchild =>
    have hn := hsome n
    cases ha : child? n cs with
    | none =>
      cases hb : child? n cs' with
      | none => exact .none
      | some b => simp [ha, hb] at hn
    | some a =>
      cases hb : child? n cs' with
      | none => simp [ha, hb] at hn
      | some b => exact .some (hchild n a b ha hb)

variable {parent source destination : List GoString}
  {name path sourceName destinationName : GoString} {s₁ : Progress} {value : TreeNode (Option Cid)}

omit [JsonDecoder] in
theorem Loads.opened (hl : Loads origin fresh p.layout top t u s s' u')
    (hget : NamedTree.get? parent u' = some (.dir d cs')) :
    ∃ descriptor cs, NamedTree.get? parent t = some (.dir descriptor cs) ∧
      ∃ b, Represents origin s' fresh p.layout b (.dir descriptor cs) (.dir d cs') := by
  obtain ⟨w, b, hw, hrep⟩ := hl.represents.get? hget
  obtain ⟨descriptor, cs, rfl⟩ := hrep.eq_dir
  exact ⟨descriptor, cs, hw, b, hrep⟩

omit [JsonDecoder] in
theorem Loads.set {m : Bool} {x : DirTree} {y : TreeNode (Option Cid)}
    (hl : Loads origin fresh p.layout true t u s s' u')
    (ht : NamedTree.get? parent t = some (.dir descriptor cs))
    (hget : NamedTree.get? parent u' = some (.dir d cs')) (hload : d.load = none)
    (hxy : Represents origin s' fresh p.layout false x y)
    (hm : m = false → ∃ old, child? name cs' = some old ∧ typeOf old = typeOf y) :
    Applied origin fresh p.layout s s' (editAt parent (setChild name x) t)
      (editDirectory parent m (setChild name y) u') := by
  refine ⟨hl.sound, hl.grows, hl.represents.editDirectory ht hget fun b hb => ?_,
    editDirectory_dirty hget⟩
  refine hb.edit hload (fun cs k => child?_setChild name k x cs)
    (fun cs k => child?_setChild name k y cs)
    nodup_setChild (.some hxy) fun hm' => ?_
  obtain ⟨old, hold, htype⟩ := hm hm'
  obtain ⟨a, ha, hab⟩ := hb.child name hold
  rw [manifestOf, manifestOf,
    childEntries_setChild ha (by rw [hxy.typeOf_eq, ← htype, hab.typeOf_eq])]

theorem applyWrite (payload : Cid)
    (hu : Stands p origin base fresh true s t u) (hdir : u.isDir = true)
    (hopen : directoryAt (loadDirectory p base) parent parent s u = .ok (s', u'))
    (hex : ¬ (childAt parent name u').any Tree.isDir = true) :
    (isDirAt parent t = true ∧ isDirAt (parent ++ [name]) t = false) ∧
      Applied origin fresh p.layout s s' (editAt parent (setChild name (.file (some payload))) t)
        (editDirectory parent (childAt parent name u').isNone (setChild name (.file (some payload)))
          u') := by
  obtain ⟨hl, d, cs', hget, hload⟩ := directoryAt_eq_ok hu hdir hopen
  obtain ⟨descriptor, cs, ht, b, hrepd⟩ := hl.opened hget
  have hchild : childAt parent name u' = child? name cs' := get?_snoc hget
  rw [hchild] at hex ⊢
  refine ⟨⟨by simp [isDirAt, ht, Tree.isDir], ?_⟩, hl.set ht hget hload (.file _ _) fun hm => ?_⟩
  · rw [isDirAt, get?_snoc ht]
    have hrel := hrepd.rel_child hload name
    cases ha : child? name cs with
    | none => rfl
    | some a =>
      cases hb : child? name cs' with
      | none => simp [ha, hb] at hrel
      | some b =>
        rw [ha, hb] at hrel
        cases hrel with
        | some hab =>
          have hnot : ¬ b.isDir = true := by simpa [hb] using hex
          simpa [hab.isDir_eq] using hnot
  · cases hb : child? name cs' with
    | none => simp [hb] at hm
    | some b =>
      cases b with
      | file c => exact ⟨_, rfl, rfl⟩
      | dir d₁ cs₁ => simp [hb, Tree.isDir] at hex

theorem applyMkdir
    (hu : Stands p origin base fresh true s t u) (hdir : u.isDir = true)
    (hopen : directoryAt (loadDirectory p base) parent parent s u = .ok (s', u'))
    (hex : ¬ (childAt parent name u').isSome = true) :
    (isDirAt parent t = true ∧ (NamedTree.get? (parent ++ [name]) t).isNone = true) ∧
      Applied origin fresh p.layout s s' (editAt parent (setChild name (.dir fresh [])) t)
        (editDirectory parent true (setChild name newDirectory) u') := by
  obtain ⟨hl, d, cs', hget, hload⟩ := directoryAt_eq_ok hu hdir hopen
  obtain ⟨descriptor, cs, ht, b, hrepd⟩ := hl.opened hget
  have hchild : childAt parent name u' = child? name cs' := get?_snoc hget
  have hnew : Represents origin s' fresh p.layout false (.dir fresh []) newDirectory :=
    .opened rfl List.nodup_nil (fun hm => by cases hm) (fun hm => by cases hm)
      (fun hm => by cases hm) (fun _ => .inl ⟨rfl, rfl⟩) (fun _ => rfl) fun _ _ _ h => by cases h
  refine ⟨⟨by simp [isDirAt, ht, Tree.isDir], ?_⟩, hl.set ht hget hload hnew fun hm => by cases hm⟩
  rw [hchild] at hex
  have hnone : child? name cs' = none := by simpa using hex
  have hrel := hrepd.rel_child hload name
  rw [get?_snoc ht]
  cases ha : child? name cs with
  | none => rfl
  | some a => simp [ha, hnone] at hrel

omit [JsonDecoder] in
theorem Represents.removeName (hrep : Represents origin s fresh layout top t u)
    (ht : NamedTree.get? parent t = some (.dir descriptor cs))
    (hget : NamedTree.get? parent u = some (.dir d cs')) (hload : d.load = none) :
    Represents origin s fresh layout top (editAt parent (removeChild name) t)
      (Planner.editDirectory parent true (removeChild name) u) :=
  hrep.editDirectory ht hget fun _ hb =>
    hb.edit hload (fun cs k => child?_removeChild name k cs)
      (fun cs k => child?_removeChild name k cs)
      nodup_removeChild .none fun hm => by cases hm

theorem applyUnlink {child child' : TreeNode (Option Cid)}
    (hu : Stands p origin base fresh true s t u) (hdir : u.isDir = true)
    (hopen : directoryAt (loadDirectory p base) parent parent s u = .ok (s₁, u'))
    (hchild : childAt parent name u' = some child)
    (hensure : ensure (loadDirectory p base) s₁ child = .ok (s', child'))
    (hempty : ¬ isNonEmptyDirectory child' = true) :
    ∃ tc, NamedTree.get? (parent ++ [name]) t = some tc ∧ hasChildren tc = false ∧
      Applied origin fresh p.layout s s' (editAt parent (removeChild name) t)
        (editDirectory parent true (removeChild name) u') := by
  obtain ⟨hl, d, cs', hget, hload⟩ := directoryAt_eq_ok hu hdir hopen
  obtain ⟨descriptor, cs, ht, b, hrepd⟩ := hl.opened hget
  rw [childAt, get?_snoc hget] at hchild
  obtain ⟨tc, htc, hrepc⟩ := hrepd.child name hchild
  have hnamedc : Named tc := hu.named.get? ((get?_snoc ht).trans htc)
  obtain ⟨hlc, hopened⟩ := ensure_eq_ok ⟨hu.base, hl.sound, hnamedc, hrepc⟩ hensure
  refine ⟨tc, (get?_snoc ht).trans htc, ?_, hlc.sound, hl.grows.trans hlc.grows, ?_,
    editDirectory_dirty hget⟩
  · rw [hlc.represents.hasChildren_eq hopened]
    simpa using hempty
  · exact (hl.represents.mono hlc.grows).removeName ht hget hload

theorem checkReplaced_eq_ok {x : Option DirTree} {y : Option (TreeNode (Option Cid))}
    {v : DirTree} (hbase : BaseRoot p.layout origin base)
    (hs : Sound origin p.layout s) (hv : v.isDir = value.isDir) (hnamed : ∀ a ∈ x, Named a)
    (hxy : Option.Rel (Represents origin s fresh p.layout false) x y)
    (h : checkReplaced (loadDirectory p base) path value y s = .ok s') :
    replaceable v x = true ∧ Sound origin p.layout s' ∧ Extends s s' := by
  cases hxy with
  | none =>
    cases h
    exact ⟨rfl, hs, .refl _⟩
  | @some a b hab =>
    simp only [checkReplaced, ok_iff, not_not] at h
    obtain ⟨⟨s₁, b'⟩, hensure, -, hkind, -, hempty, rfl⟩ := h
    obtain ⟨hl, hopened⟩ := ensure_eq_ok ⟨hbase, hs, hnamed a rfl, hab⟩ hensure
    refine ⟨?_, hl.sound, hl.grows⟩
    rw [replaceable, hl.represents.isDir_eq, hl.represents.hasChildren_eq hopened, hv, hkind]
    simpa using hempty

section

omit [ManifestHash] [Engine] [JsonDecoder]

theorem openAt_editDirectory {y : Option (TreeNode (Option Cid))}
    (hE' : ∀ cs k, child? k (E' cs) = if k = n then y else child? k cs)
    (hget : NamedTree.get? parent u = some (.dir d cs')) (q : List GoString) :
    OpenAt (editDirectory parent m E' u) q ↔
      if parent ++ [n] <+: q then ∃ v ∈ y, OpenAt v (q.drop (parent ++ [n]).length)
        else OpenAt u q := by
  rw [openAt_iff, editDirectory, map_get?_updateAt (fun _ _ _ => rfl) (fun _ _ _ => rfl) hE' hget]
  split_ifs
  · simp [openAt_iff, Option.bind_eq_some_iff]
  · rw [openAt_iff]

theorem opened_after_removal (hsource : NamedTree.get? source u = some (.dir d cs'))
    (hget : OpenAt u destination) (hnot : ¬ source ++ [sourceName] <+: destination ++
      [destinationName]) :
    OpenAt (editDirectory source true (removeChild sourceName) u) destination := by
  have hout : ¬ source ++ [sourceName] <+: destination :=
    fun h => hnot (h.trans (List.prefix_append _ _))
  rwa [openAt_editDirectory (fun cs k => child?_removeChild sourceName k cs) hsource, if_neg hout]

end

theorem applyMove {s₂ : Progress} {u₁ u₂ : TreeNode (Option Cid)}
    (hu : Stands p origin base fresh true s t u)
    (hdir : u.isDir = true) (hnot : ¬ source ++ [sourceName] <+: destination ++ [destinationName])
    (hopen : directoryAt (loadDirectory p base) source source s u = .ok (s₁, u₁))
    (hopen' : directoryAt (loadDirectory p base) destination destination s₁ u₁ = .ok (s₂, u₂))
    (hvalue : childAt source sourceName u₂ = some value)
    (hreplaced : checkReplaced (loadDirectory p base) path value
      (childAt destination destinationName u₂) s₂ = .ok s') :
    isDirAt destination t = true ∧ ∃ v, NamedTree.get? (source ++ [sourceName]) t = some v ∧
      replaceable v (NamedTree.get? (destination ++ [destinationName]) t) = true ∧
      Applied origin fresh p.layout s s'
        (editAt destination (setChild destinationName v) (editAt source (removeChild sourceName) t))
        (editDirectory destination true (setChild destinationName value)
          (editDirectory source true (removeChild sourceName) u₂)) := by
  obtain ⟨hl₁, -⟩ := directoryAt_eq_ok hu hdir hopen
  obtain ⟨hl₂, dd, dcs, hdget, hdload⟩ := directoryAt_eq_ok (hu.after hl₁)
    (hu.isDir_after hdir hl₁) hopen'
  obtain ⟨ddescriptor, dtcs, hdt, _, hrepd⟩ := hl₂.opened hdget
  obtain ⟨sd, scs, hsget, hschild⟩ := exists_parent hvalue
  obtain ⟨sdescriptor, stcs, hst, _, hreps⟩ := hl₂.opened hsget
  obtain ⟨v, hv, hrepv⟩ := hreps.child sourceName hschild
  have hsload : sd.load = none := hreps.load_eq_none (by rw [hschild]; simp)
  have hv' : NamedTree.get? (source ++ [sourceName]) t = some v := (get?_snoc hst).trans hv
  rw [childAt, get?_snoc hdget] at hreplaced
  obtain ⟨hrepl, hsound, hgrows⟩ := checkReplaced_eq_ok hu.base hl₂.sound hrepv.isDir_eq
    (fun a ha => hu.named.get? ((get?_snoc hdt).trans ha))
    (hrepd.rel_child hdload destinationName) hreplaced
  have hremoved :
    Represents origin s' fresh p.layout true (editAt source (removeChild sourceName) t)
      (editDirectory source true (removeChild sourceName) u₂) :=
    (hl₂.represents.mono hgrows).removeName hst hsget hsload
  obtain ⟨dd', dcs', hdget', hdload'⟩ := opened_after_removal hsget ⟨dd, dcs, hdget, hdload⟩ hnot
  have hl' : Loads origin fresh p.layout true (editAt source (removeChild sourceName) t)
      (editDirectory source true (removeChild sourceName) u₂) s s'
      (editDirectory source true (removeChild sourceName) u₂) :=
    ⟨hsound, (hl₁.grows.trans hl₂.grows).trans hgrows, id, hremoved⟩
  obtain ⟨_, _, hdt', -⟩ := hl'.opened hdget'
  refine ⟨by simp [isDirAt, hdt, Tree.isDir], v, hv', by rwa [get?_snoc hdt], ?_⟩
  exact hl'.set hdt' hdget' hdload' (hrepv.mono hgrows) fun hm => by cases hm

variable [PayloadHash] {operation : Operation}

variable {operations : List Operation} {writers : WriterCache}

/-- What an accepted operation does to the planner's tree, one case for each kind. -/
inductive Applies (load : Loader Progress (Option Cid)) (operation : Operation) (s : Progress)
    (u : TreeNode (Option Cid)) (s' : Progress) : TreeNode (Option Cid) → Prop
  | write {parent : List GoString} {name : GoString} {payload : Cid} {u₁ : TreeNode (Option Cid)}
      (hkind : operation.kind = .write) (hpath : splitPath operation.path = some (parent, name))
      (hpayload : Cid.parse operation.payloadCID = some payload)
      (hraw : PayloadHash.isRaw payload = true)
      (hopen : directoryAt load parent parent s u = .ok (s', u₁))
      (hex : ¬ (childAt parent name u₁).any Tree.isDir = true) :
      Applies load operation s u s'
        (editDirectory parent (childAt parent name u₁).isNone
          (setChild name (.file (some payload))) u₁)
  | mkdir {parent : List GoString} {name : GoString} {u₁ : TreeNode (Option Cid)}
      (hkind : operation.kind = .mkdir) (hpath : splitPath operation.path = some (parent, name))
      (hopen : directoryAt load parent parent s u = .ok (s', u₁))
      (hex : ¬ (childAt parent name u₁).isSome = true) :
      Applies load operation s u s' (editDirectory parent true (setChild name newDirectory) u₁)
  | unlink {parent : List GoString} {name : GoString} {s₁ : Progress}
      {u₁ child child' : TreeNode (Option Cid)}
      (hkind : operation.kind = .unlink) (hpath : splitPath operation.path = some (parent, name))
      (hopen : directoryAt load parent parent s u = .ok (s₁, u₁))
      (hchild : childAt parent name u₁ = some child)
      (hensure : ensure load s₁ child = .ok (s', child'))
      (hempty : ¬ isNonEmptyDirectory child' = true) :
      Applies load operation s u s' (editDirectory parent true (removeChild name) u₁)
  | rename {parent parent' : List GoString} {name name' path : GoString} {s₁ s₂ : Progress}
      {u₁ u₂ value : TreeNode (Option Cid)}
      (hkind : operation.kind = .rename) (hpath : splitPath operation.path = some (parent, name))
      (hpath' : splitPath operation.destination = some (parent', name'))
      (hout : ¬ parent ++ [name] <+: parent' ++ [name'])
      (hopen : directoryAt load parent parent s u = .ok (s₁, u₁))
      (hopen' : directoryAt load parent' parent' s₁ u₁ = .ok (s₂, u₂))
      (hvalue : childAt parent name u₂ = some value)
      (hreplaced : checkReplaced load path value (childAt parent' name' u₂) s₂ = .ok s') :
      Applies load operation s u s'
        (editDirectory parent' true (setChild name' value)
          (editDirectory parent true (removeChild name) u₂))

omit [JsonDecoder] in
theorem applies_of_eq_ok {load : Loader Progress (Option Cid)}
    (h : applyOperation load some operation s u = .ok (s', u')) :
    Applies load operation s u s' u' := by
  simp only [applyOperation, bind_eq_ok] at h
  obtain ⟨⟨parent, name⟩, hpath, h⟩ := h
  have hsplit := splitPath_of_parseSegments hpath
  cases hkind : operation.kind with
  | write =>
    simp only [hkind, ok_iff, Prod.mk.injEq] at h
    obtain ⟨payload, hpayload, -, hraw, ⟨s₁, u₁⟩, hopen, -, hex, rfl, rfl⟩ := h
    exact .write hkind hsplit hpayload (by simpa using hraw) hopen hex
  | mkdir =>
    simp only [hkind, ok_iff, Prod.mk.injEq] at h
    obtain ⟨⟨s₁, u₁⟩, hopen, -, hex, rfl, rfl⟩ := h
    exact .mkdir hkind hsplit hopen hex
  | unlink =>
    simp only [hkind, ok_iff, Prod.mk.injEq] at h
    obtain ⟨⟨s₁, u₁⟩, hopen, child, hchild, ⟨s₂, child'⟩, hensure, -, hempty, rfl, rfl⟩ := h
    exact .unlink hkind hsplit hopen hchild hensure hempty
  | rename =>
    simp only [hkind, ok_iff, applyRename, Prod.mk.injEq] at h
    obtain ⟨⟨parent', name'⟩, hpath', -, hnot, ⟨s₁, u₁⟩, hopen, ⟨s₂, u₂⟩, hopen', value, hvalue,
      s₃, hreplaced, rfl, rfl⟩ := h
    have hsplit' := splitPath_of_parseSegments hpath'
    refine .rename hkind hsplit hsplit' (fun hpre => hnot ?_) hopen hopen' hvalue hreplaced
    obtain ⟨r, hr⟩ := hpre
    by_cases hnil : r = []
    · exact .inl (by rw [← hr, hnil, List.append_nil])
    · have hs' := (splitPath_eq_some hsplit).2
      have hd' := (splitPath_eq_some hsplit').2
      refine .inr (hasPrefix_iff.mpr ?_)
      exact (join_slash_prefix_iff (fun q hq => (hd' q hq).plain) (fun q hq => (hs' q hq).plain)
        (by simp)).mpr
        ⟨r, hnil, hr.symm⟩
  | other kind => simp [hkind] at h

theorem applyOperation_eq_ok (hu : Stands p origin base fresh true s t u) (hdir : u.isDir = true)
    (h : Applies (loadDirectory p base) operation s u s' u') :
    ∃ t', replayOperation fresh operation t = some t' ∧
      Applied origin fresh p.layout s s' t' u' := by
  cases h with
  | write hkind hsplit hpayload hraw hopen hex =>
    obtain ⟨hguard, happlied⟩ := applyWrite _ hu hdir hopen hex
    exact ⟨_, by simp [replayOperation, hsplit, hkind, hpayload, hraw, hguard, guard], happlied⟩
  | mkdir hkind hsplit hopen hex =>
    obtain ⟨hguard, happlied⟩ := applyMkdir hu hdir hopen hex
    refine ⟨_, ?_, happlied⟩
    simp only [replayOperation, hsplit, hkind, Option.bind_eq_bind, Option.bind_some, guard,
      if_pos hguard]
    rfl
  | unlink hkind hsplit hopen hchild hensure hempty =>
    obtain ⟨tc, htc, hnone, happlied⟩ := applyUnlink hu hdir hopen hchild hensure hempty
    exact ⟨_, by simp [replayOperation, hsplit, hkind, htc, hnone, guard], happlied⟩
  | rename hkind hsplit hsplit' hout hopen hopen' hvalue hreplaced =>
    obtain ⟨hdest, v, hv, hrepl, happlied⟩ :=
      applyMove hu hdir hout hopen hopen' hvalue hreplaced
    exact ⟨_, by simp [replayOperation, hsplit, hsplit', hkind, hout, hdest, hv, hrepl, guard],
      happlied⟩

omit [JsonDecoder] in
theorem Stands.applied (h : Stands p origin base fresh true s t u) {t' : DirTree}
    (ht : replayOperation fresh operation t = some t')
    (happlied : Applied origin fresh p.layout s s' t' u') :
    Stands p origin base fresh true s' t' u' ∧ u'.isDir = true := by
  obtain ⟨d₁, cs₁, rfl, -⟩ := happlied.dirty
  exact ⟨⟨h.base, happlied.sound, h.named.replayOperation ht, happlied.represents⟩, rfl⟩

theorem applyOperations_eq_ok (hu : Stands p origin base fresh true s t u) (hdir : u.isDir = true)
    (h : applyOperations (loadDirectory p base) some operations s u = .ok (s', u')) :
    ∃ t', replay fresh operations t = some t' ∧ Stands p origin base fresh true s' t' u' ∧
      u'.isDir = true ∧
      Extends s s' ∧ (operations ≠ [] → ∃ d cs, u' = .dir d cs ∧ d.dirty = true) := by
  induction operations generalizing s t u with
  | nil =>
    simp only [applyOperations, List.foldlM_nil, pure_eq_ok, Prod.mk.injEq] at h
    obtain ⟨rfl, rfl⟩ := h
    exact ⟨t, rfl, hu, hdir, .refl _, fun hne => absurd rfl hne⟩
  | cons operation operations ih =>
    simp only [applyOperations, List.foldlM_cons, bind_eq_ok] at h
    obtain ⟨⟨s₁, u₁⟩, hstep, hrest⟩ := h
    obtain ⟨t₁, ht₁, happlied⟩ := applyOperation_eq_ok hu hdir (applies_of_eq_ok hstep)
    obtain ⟨hu₁, hdir₁⟩ := hu.applied ht₁ happlied
    obtain ⟨t', hreplay, hu', hdir', hgrows, hmarked⟩ := ih hu₁ hdir₁ hrest
    refine ⟨t', ?_, hu', hdir', happlied.grows.trans hgrows, fun _ => ?_⟩
    · rw [replay, List.foldlM_cons, ht₁]
      exact hreplay
    · by_cases hnil : operations = []
      · subst hnil
        simp only [List.foldlM_nil, pure_eq_ok, Prod.mk.injEq] at hrest
        obtain ⟨-, rfl⟩ := hrest
        exact happlied.dirty
      · exact hmarked hnil

theorem replayOperations_start
    (hroot : (stateOf p.layout fresh cs).root = base) (hnamed : Named (.dir fresh cs : DirTree))
    (hcache : CacheSound writers) (h : replayOperations p writers base operations = .ok (s', u')) :
    ∃ context d₀ s₀ s₁ d₁ cs₁, loadDirectory p base context d₀ s₀ = .ok (s₁, d₁, cs₁) ∧
      d₀.key = some base ∧ CacheSound s₀.writers ∧ (∀ k, s₀.Knows k ↔ k = base) ∧ base ∈ s₁.bases ∧
      Stands p (.dir fresh cs) base fresh true s₁ (.dir fresh cs)
        (.dir { d₁ with load := none } cs₁) ∧
      applyOperations (loadDirectory p base) some operations s₁ (.dir { d₁ with load := none }
        cs₁) = .ok (s', u') := by
  simp only [replayOperations, bind_eq_ok] at h
  obtain ⟨⟨s₁, u₁⟩, hload, happly⟩ := h
  have hfrom : FromBase (.dir fresh cs) p.layout base := ⟨[], _, _, get?_nil _, .inr rfl, hroot⟩
  have hs₀ : Sound (.dir fresh cs) p.layout
      { writers := writers, bases := ∅, knownRoots := [base], objects := 0, entries := 0 } :=
    ⟨hcache, fun k w hk => by simp at hk, fun k hk => absurd hk (AList.notMem_empty k),
      by simpa using hfrom⟩
  simp only [ensure, baseTree, ok_iff, Prod.mk.injEq] at hload
  obtain ⟨⟨s₂, d₂, cs₂⟩, hloaded, rfl, rfl⟩ := hload
  have hbase : BaseRoot p.layout (.dir fresh cs) base := ⟨fresh, cs, rfl, hroot⟩
  have hloads : _ ∧ _ ∧ _ ∧ _ ∧ Represents _ s₂ fresh p.layout true _ _ :=
    loadDirectory_eq_ok hbase hs₀ hnamed (.base rfl (by rw [hroot])) rfl hloaded
  obtain ⟨hs₁, -, hstored, -, hrep⟩ := hloads
  exact ⟨_, _, _, s₂, d₂, cs₂, hloaded, rfl, hcache, fun k => by
    simp [Progress.Knows, AList.notMem_empty],
    hroot ▸ hstored (.inr rfl), ⟨hbase, hs₁, hnamed, hrep⟩, happly⟩

theorem replayOperations_eq_ok
    (hroot : (stateOf p.layout fresh cs).root = base) (hnamed : Named (.dir fresh cs : DirTree))
    (hcache : CacheSound writers) (hne : operations ≠ [])
    (h : replayOperations p writers base operations = .ok (s', u')) :
    ∃ t', replay fresh operations (.dir fresh cs) = some t' ∧
      Stands p (.dir fresh cs) base fresh true s' t' u' ∧
      base ∈ s'.bases ∧ ∃ d cs, u' = .dir d cs ∧ d.dirty = true := by
  obtain ⟨_, _, _, s₁, d₁, cs₁, -, -, -, -, hbase₁, hu₁, happly⟩ := replayOperations_start hroot
    hnamed hcache h
  obtain ⟨t', hreplay, hu', -, hgrows, hmarked⟩ := applyOperations_eq_ok hu₁ rfl happly
  exact ⟨t', hreplay, hu', hgrows.bases base hbase₁, hmarked hne⟩

end operations

end

end MaltClient.Planner
