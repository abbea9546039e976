import MaltClient.AssocMap
import MaltClient.Cid
import MaltClient.StagedPath

/-! The layouts of a directory tree and what a directory binds in each of them:
its children, and in the flat and hybrid layouts also everything below. -/

namespace MaltClient.Unixfs

open GoText Checked StagedPath AssocMap

inductive LayoutKind where
  | flatV1
  | rootedV1
  | hybridV1
  deriving DecidableEq, Repr

def parseFlatPath (path : GoString) : Except PathError (List GoString) :=
  if path = [] then return []
  else do
    let segments := split path
    forM segments fun segment => reject (¬ isPortableSegment segment = true) (.invalid "%s" [path])
    return segments

def payloadLabel : GoString := text "@payload"

def flatPathLabel (path : GoString) : Except PathError GoString :=
  if path = [] then return payloadLabel
  else do
    let _ ← parseFlatPath path
    return if hasPrefix path (text "@") then slash :: path else path

/-- The label of a path whose error is dropped. -/
def flatLabel (path : GoString) : GoString := (flatPathLabel path).toOption.getD []

section

variable [CidFormat]

/-- The value `cid.Undef` is `none`. -/
abbrev Bindings := AList fun _ : GoString => Option Cid

structure DirectoryChild where
  name : GoString
  directory : Bool
  root : Option Cid
  manifest : Option Cid
  descendants : Bindings

def DirectoryChild.target (layout : LayoutKind) (child : DirectoryChild) : Option Cid :=
  if layout = .flatV1 ∧ child.directory = true then child.manifest else child.root

def childLabel (layout : LayoutKind) (name : GoString) : GoString :=
  if layout = .flatV1 then flatLabel name else name

def descendantLabel (layout : LayoutKind) (parent name : GoString) : GoString :=
  if layout = .flatV1 then flatLabel (parent ++ slash :: (if hasPrefix name [slash]
    then name.drop 1 else name))
  else parent ++ slash :: name

/-- The assignments made for one child, in order. -/
def childBindings (layout : LayoutKind) (child : DirectoryChild) : List (GoString × Option Cid) :=
  (childLabel layout child.name, child.target layout) ::
    if layout ≠ .rootedV1 ∧ child.directory = true then
      child.descendants.entries.map fun e => (descendantLabel layout child.name e.1, e.2)
    else []

def projectDirectoryBindings (layout : LayoutKind) (children : List DirectoryChild) : Bindings :=
  insertAll ∅ (children.flatMap (childBindings layout))

/-- The labels are paths of plain names, without any escape. -/
def Labels (b : Bindings) : Prop :=
  ∀ l ∈ b, ∃ p, p ≠ [] ∧ (∀ s ∈ p, PathName s) ∧ l = join p

/-- A child whose name and labels need no escape. -/
structure DirectoryChild.Plain (layout : LayoutKind) (child : DirectoryChild) : Prop where
  name : PathName child.name
  labels : layout ≠ .rootedV1 → child.directory = true → Labels child.descendants

end

variable {p q : List GoString} {n : GoString} {layout : LayoutKind}

theorem flatPathLabel_portable (hne : p ≠ []) (hp : ∀ s ∈ p, isPortableSegment s = true) :
    flatPathLabel (join p) = .ok (if hasPrefix (join p) (text "@") then slash :: join p
      else join p) := by
  have hplain : ∀ s ∈ p, Plain s := fun s hs => (isPortableSegment_iff.mp (hp s hs)).1.plain
  have hsplit : split (join p) = p := split_join hne fun s hs => (hplain s hs).2
  have hparse : parseFlatPath (join p) = .ok p := by
    unfold parseFlatPath
    rw [if_neg (join_ne_nil hne hplain)]
    simp only [ok_iff, forM_eq_ok, not_not, hsplit]
    exact ⟨⟨⟩, hp, trivial⟩
  rw [flatPathLabel, if_neg (join_ne_nil hne hplain), hparse]
  rfl

theorem flatLabel_portable (hne : p ≠ []) (hp : ∀ s ∈ p, isPortableSegment s = true) :
    flatLabel (join p) = if hasPrefix (join p) (text "@") then slash :: join p else join p := by
  rw [flatLabel, flatPathLabel_portable hne hp]
  rfl

theorem descendantLabel_flat (hne : q ≠ []) (hq : ∀ s ∈ q, isPortableSegment s = true) :
    descendantLabel .flatV1 n (flatLabel (join q)) = flatLabel (join (n :: q)) := by
  have hhead : hasPrefix (join q) [slash] = false := by
    by_contra hpre
    obtain ⟨t, ht⟩ := hasPrefix_iff.mp (by simpa using hpre)
    exact head?_join_ne_slash (fun s hs => (isPortableSegment_iff.mp (hq s hs)).1.plain)
      (by rw [← ht]; rfl)
  have htrim : (if hasPrefix (flatLabel (join q)) [slash] then (flatLabel (join q)).drop 1
    else flatLabel (join q)) = join q := by
    rw [flatLabel_portable hne hq]
    by_cases hat : hasPrefix (join q) (text "@") = true
    · have hslash : hasPrefix (slash :: join q) [slash] = true := hasPrefix_iff.mpr ⟨join q, rfl⟩
      rw [if_pos hat, if_pos hslash]
      rfl
    · rw [if_neg hat, if_neg (by simp [hhead])]
  rw [descendantLabel, if_pos rfl, htrim, join_cons_of_ne_nil hne]

/-- The escape keeps the label of the manifest free. -/
theorem flatLabel_ne_payload (hne : q ≠ []) (hq : ∀ s ∈ q, isPortableSegment s = true) :
    flatLabel (join q) ≠ payloadLabel := by
  intro h
  rw [flatLabel_portable hne hq] at h
  split_ifs at h with hat
  · exact absurd (List.cons.inj h).1 (by decide)
  · rw [h] at hat
    exact hat (by decide)

theorem flatLabel_injective {r : List GoString} (hne : q ≠ []) (hne' : r ≠ [])
    (hq : ∀ s ∈ q, isPortableSegment s = true)
    (hr : ∀ s ∈ r, isPortableSegment s = true) (h : flatLabel (join q) = flatLabel (join r)) :
    q = r := by
  have hplain {q : List GoString} (hq : ∀ s ∈ q, isPortableSegment s = true) : ∀ s ∈ q, Plain s :=
    fun s hs => (isPortableSegment_iff.mp (hq s hs)).1.plain
  have hjoin : join q = join r := by
    rw [flatLabel_portable hne hq, flatLabel_portable hne' hr] at h
    split_ifs at h
    · exact (List.cons.inj h).2
    · exact absurd (by rw [← h]; rfl) (head?_join_ne_slash (hplain hr))
    · exact absurd (by rw [h]; rfl) (head?_join_ne_slash (hplain hq))
    · exact h
  exact join_injective (hplain hq) (hplain hr) hjoin

theorem hasPrefix_at_join (hp : ∀ s ∈ p, PathName s) : hasPrefix (join p) (text "@") = false := by
  cases p with
  | nil => decide
  | cons s q =>
    have hs := (hp s (by simp)).unreserved
    by_contra hpre
    obtain ⟨t, ht⟩ := hasPrefix_iff.mp (by simpa using hpre)
    have hhead : s.head? = some (.char '@') := by
      have hjoin : (join (s :: q)).head? = s.head? := head?_join (hp s (by simp)).name.plain.1
      rw [← hjoin, ← ht]
      rfl
    obtain ⟨u, rfl⟩ := List.head?_eq_some_iff.mp hhead
    simp [hasPrefix, text] at hs

theorem flatLabel_join (hne : p ≠ []) (hp : ∀ s ∈ p, PathName s) :
    flatLabel (join p) = join p := by
  rw [flatLabel_portable hne fun s hs => (hp s hs).portable, hasPrefix_at_join hp]
  rfl

theorem childLabel_eq (hn : PathName n) : childLabel layout n = n := by
  have h : flatLabel (join [n]) = join [n] := flatLabel_join (by simp) (by simpa using hn)
  unfold childLabel
  split_ifs
  · simpa [join] using h
  · rfl

theorem descendantLabel_join (hn : PathName n) (hne : p ≠ []) (hp : ∀ s ∈ p, PathName s) :
    descendantLabel layout n (join p) = n ++ slash :: join p := by
  unfold descendantLabel
  split_ifs with hflat hpre
  · obtain ⟨t, ht⟩ := hasPrefix_iff.mp hpre
    exact absurd (by rw [← ht]; rfl) (head?_join_ne_slash fun s hs => (hp s hs).name.plain)
  · rw [← join_cons_of_ne_nil hne]
    exact flatLabel_join (by simp) (by simpa using ⟨hn, hp⟩)
  · rfl

section

variable [CidFormat] {layout : LayoutKind}

variable {l : GoString} {v : Option Cid} {c c' : DirectoryChild} {children : List DirectoryChild}

theorem mem_iff_lookup {b : Bindings} : l ∈ b ↔ ∃ v, b.lookup l = some v := by
  rw [← AList.lookup_isSome, Option.isSome_iff_exists]

theorem mem_childBindings (hc : c.Plain layout) :
    (l, v) ∈ childBindings layout c ↔ (l = c.name ∧ v = c.target layout) ∨
      (layout ≠ .rootedV1 ∧ c.directory = true) ∧ ∃ r, l = c.name ++ slash :: r ∧
        c.descendants.lookup r = some v := by
  unfold childBindings
  rw [List.mem_cons, childLabel_eq hc.name, Prod.mk.injEq]
  refine or_congr_right ?_
  split_ifs with hdeep
  · have hlabel : ∀ e ∈ c.descendants.entries,
        descendantLabel layout c.name e.1 = c.name ++ slash :: e.1 := by
      intro e he
      obtain ⟨p, hne, hp, hl⟩ := hc.labels hdeep.1 hdeep.2 e.1 (List.mem_keys_of_mem he)
      rw [hl]
      exact descendantLabel_join hc.name hne hp
    simp only [List.mem_map, Prod.mk.injEq, hdeep, ne_eq, not_false_eq_true, and_self, true_and]
    constructor
    · intro ⟨e, he, hl, hv⟩
      exact ⟨e.1, by rw [← hl, hlabel e he], by rw [← hv]; exact mem_entries_iff.mp he⟩
    · intro ⟨r, hl, hr⟩
      have he := mem_entries_iff.mpr hr
      exact ⟨⟨r, v⟩, he, by rw [hlabel _ he, hl], rfl⟩
  · simp [hdeep]

theorem head_split_of_mem (hc : c.Plain layout)
    (h : (l, v) ∈ childBindings layout c) : (split l).head? = some c.name := by
  have hsplit : split c.name = [c.name] := split_of_notMem hc.name.name.plain.2
  rcases (mem_childBindings hc).mp h with ⟨rfl, -⟩ | ⟨-, r, rfl, -⟩
  · rw [hsplit]
    rfl
  · rw [split_append_slash, hsplit]
    rfl

theorem nodup_childBindings (hc : c.Plain layout) :
    ((childBindings layout c).map Prod.fst).Nodup := by
  unfold childBindings
  rw [List.map_cons, List.nodup_cons]
  split_ifs with hdeep
  · have hlabel :
      (c.descendants.entries.map fun e => (descendantLabel layout c.name e.1, e.2)).map Prod.fst =
        c.descendants.keys.map fun r => c.name ++ slash :: r := by
      rw [List.map_map, AList.keys, List.keys, List.map_map]
      refine List.map_congr_left fun e he => ?_
      obtain ⟨p, hne, hp, hl⟩ := hc.labels hdeep.1 hdeep.2 e.1 (List.mem_keys_of_mem he)
      simp only [Function.comp, hl]
      exact descendantLabel_join hc.name hne hp
    rw [hlabel, childLabel_eq hc.name]
    constructor
    · intro hm
      obtain ⟨r, -, hr⟩ := List.mem_map.mp hm
      have hr' : c.name ++ slash :: r = c.name := hr
      simp at hr'
    · exact c.descendants.keys_nodup.map fun r r' he => by simpa using he
  · simp

theorem nodup_project (hplain : ∀ c ∈ children, c.Plain layout)
    (hnodup : (children.map DirectoryChild.name).Nodup) :
    ((children.flatMap (childBindings layout)).map Prod.fst).Nodup := by
  rw [List.map_flatMap, List.nodup_flatMap]
  refine ⟨fun c hc => nodup_childBindings (hplain c hc), ?_⟩
  refine (List.pairwise_map.mp hnodup).imp_of_mem fun {a b} ha hb hab => ?_
  intro l hla hlb
  obtain ⟨⟨_, v⟩, hva, rfl⟩ := List.mem_map.mp hla
  obtain ⟨⟨_, w⟩, hwb, rfl⟩ := List.mem_map.mp hlb
  have h := (head_split_of_mem (hplain a ha) hva).symm.trans (head_split_of_mem (hplain b hb) hwb)
  exact hab (Option.some.inj h)

theorem lookup_project (hplain : ∀ c ∈ children, c.Plain layout)
    (hnodup : (children.map DirectoryChild.name).Nodup) :
    (projectDirectoryBindings layout children).lookup l = some v ↔
      ∃ c ∈ children, (l, v) ∈ childBindings layout c := by
  rw [← List.mem_flatMap]
  constructor
  · intro h
    by_contra hm
    by_cases hl : l ∈ (children.flatMap (childBindings layout)).map Prod.fst
    · obtain ⟨⟨l, w⟩, hw, rfl⟩ := List.mem_map.mp hl
      have hlw : (projectDirectoryBindings layout children).lookup l = some w :=
        lookup_insertAll_of_mem (nodup_project hplain hnodup) hw
      rw [hlw, Option.some.injEq] at h
      exact hm (h ▸ hw)
    · rw [projectDirectoryBindings, lookup_insertAll_of_notMem hl, AList.lookup_empty] at h
      cases h
  · exact fun h => lookup_insertAll_of_mem (nodup_project hplain hnodup) h

/-- Two descriptions of a child that bind the same. -/
structure DirectoryChild.Same (layout : LayoutKind) (c c' : DirectoryChild) : Prop where
  name : c.name = c'.name
  directory : c.directory = c'.directory
  target : c.target layout = c'.target layout
  descendants :
    layout ≠ .rootedV1 → c.directory = true → ∀ l, c.descendants.lookup l = c'.descendants.lookup l

theorem DirectoryChild.Same.symm (h : c.Same layout c') : c'.Same layout c :=
  ⟨h.name.symm, h.directory.symm, h.target.symm,
    fun hl hd l => (h.descendants hl (h.directory.trans hd) l).symm⟩

theorem DirectoryChild.Same.plain (h : c.Same layout c') (hc : c.Plain layout) :
    c'.Plain layout := by
  refine ⟨h.name ▸ hc.name, fun hl hd l hm => ?_⟩
  have hd' : c.directory = true := h.directory.trans hd
  rw [mem_iff_lookup, ← h.descendants hl hd' l, ← mem_iff_lookup] at hm
  exact hc.labels hl hd' l hm

theorem DirectoryChild.Same.bindings (h : c.Same layout c') (hc : c.Plain layout)
    (hm : (l, v) ∈ childBindings layout c) : (l, v) ∈ childBindings layout c' := by
  rw [mem_childBindings hc] at hm
  rw [mem_childBindings (h.plain hc)]
  rcases hm with ⟨hl, hv⟩ | ⟨hdeep, r, hl, hr⟩
  · exact .inl ⟨hl.trans h.name, hv.trans h.target⟩
  · refine .inr ⟨⟨hdeep.1, h.directory ▸ hdeep.2⟩, r, h.name ▸ hl, ?_⟩
    rw [← h.descendants hdeep.1 hdeep.2]
    exact hr

theorem lookup_project_congr {children' : List DirectoryChild}
    (hplain : ∀ c ∈ children, c.Plain layout) (hnodup : (children.map DirectoryChild.name).Nodup)
    (hnodup' : (children'.map DirectoryChild.name).Nodup)
    (h : ∀ c ∈ children, ∃ c' ∈ children', c.Same layout c')
    (h' : ∀ c' ∈ children', ∃ c ∈ children, c.Same layout c') (l : GoString) :
    (projectDirectoryBindings layout children).lookup l =
      (projectDirectoryBindings layout children').lookup l := by
  have hplain' : ∀ c' ∈ children', c'.Plain layout := by
    intro c' hc'
    obtain ⟨c, hc, hsame⟩ := h' c' hc'
    exact hsame.plain (hplain c hc)
  refine Option.ext fun v => ?_
  rw [lookup_project hplain hnodup, lookup_project hplain' hnodup']
  constructor
  · intro ⟨c, hc, hm⟩
    obtain ⟨c', hc', hsame⟩ := h c hc
    exact ⟨c', hc', hsame.bindings (hplain c hc) hm⟩
  · intro ⟨c', hc', hm⟩
    obtain ⟨c, hc, hsame⟩ := h' c' hc'
    exact ⟨c, hc, hsame.symm.bindings (hplain' c' hc') hm⟩

theorem labels_project (hplain : ∀ c ∈ children, c.Plain layout)
    (hnodup : (children.map DirectoryChild.name).Nodup) :
    Labels (projectDirectoryBindings layout children) := by
  intro l hl
  obtain ⟨v, hv⟩ := mem_iff_lookup.mp hl
  obtain ⟨c, hc, hm⟩ := (lookup_project hplain hnodup).mp hv
  rcases (mem_childBindings (hplain c hc)).mp hm with ⟨rfl, -⟩ | ⟨hdeep, r, rfl, hr⟩
  · exact ⟨[c.name], by simp, by simpa using (hplain c hc).name, rfl⟩
  · obtain ⟨p, hne, hp, rfl⟩ := (hplain c hc).labels hdeep.1 hdeep.2 r (mem_iff_lookup.mpr ⟨v, hr⟩)
    exact ⟨c.name :: p, by simp, by simpa using ⟨(hplain c hc).name, hp⟩,
      (join_cons_of_ne_nil hne).symm⟩

theorem lookup_project_name (hplain : ∀ c ∈ children, c.Plain layout)
    (hnodup : (children.map DirectoryChild.name).Nodup) (hc : c ∈ children) :
    (projectDirectoryBindings layout children).lookup c.name = some (c.target layout) :=
  (lookup_project hplain hnodup).mpr ⟨c, hc, (mem_childBindings (hplain c hc)).mpr
    (.inl ⟨rfl, rfl⟩)⟩

theorem lookup_project_below (hplain : ∀ c ∈ children, c.Plain layout)
    (hnodup : (children.map DirectoryChild.name).Nodup) (hc : c ∈ children)
    (hlayout : layout ≠ .rootedV1) (hdir : c.directory = true) (r : GoString) :
    (projectDirectoryBindings layout children).lookup (c.name ++ slash :: r) =
      c.descendants.lookup r := by
  refine Option.ext fun v => ?_
  rw [lookup_project hplain hnodup]
  constructor
  · intro ⟨c', hc', hm⟩
    have hhead := head_split_of_mem (hplain c' hc') hm
    rw [split_append_slash, split_of_notMem (hplain c hc).name.name.plain.2] at hhead
    have hname : c.name = c'.name := Option.some.inj hhead
    obtain rfl : c' = c := List.inj_on_of_nodup_map hnodup hc' hc hname.symm
    rcases (mem_childBindings (hplain c' hc')).mp hm with ⟨hl, -⟩ | ⟨-, r', hl, hr⟩
    · simp at hl
    · have hr' : r = r' := by simpa using hl
      rw [hr', hr]
  · intro hr
    exact ⟨c, hc, (mem_childBindings (hplain c hc)).mpr (.inr ⟨⟨hlayout, hdir⟩, r, rfl, hr⟩)⟩

end

end MaltClient.Unixfs
