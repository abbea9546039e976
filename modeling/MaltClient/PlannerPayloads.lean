import MaltClient.PlannerPlan

/-! The files that a batch writes, followed through the rest of the batch. A
written file stays below marked directories wherever it or a directory above it
is moved, so the plan asks for its body. -/

namespace MaltClient.Planner

open GoText Checked NamedTree DirectoryManifest Unixfs
open Journal (Operation)

def pathOf (raw : GoString) : List GoString :=
  match splitPath raw with
  | some (parent, name) => parent ++ [name]
  | none => []

/-- Where an operation leaves what is at a path, unless it removes or replaces
it. -/
def follow (operation : Operation) (q : List GoString) : Option (List GoString) :=
  match operation.kind with
  | .write | .unlink => if q = pathOf operation.path then none else some q
  | .rename =>
    if pathOf operation.path <+: q then
      some (pathOf operation.destination ++ q.drop (pathOf operation.path).length)
    else if q = pathOf operation.destination then none else some q
  | _ => some q

def followAll (operations : List Operation) (q : List GoString) : Option (List GoString) :=
  operations.foldlM (fun q operation => follow operation q) q

theorem pathOf_eq {raw name : GoString} {parent : List GoString}
    (h : splitPath raw = some (parent, name)) : pathOf raw = parent ++ [name] := by
  rw [pathOf, h]

variable {q q' : List GoString} {operation : Operation} {operations : List Operation}

theorem follow_rename (h : operation.kind = .rename) :
    follow operation q =
      if pathOf operation.path <+: q then
        some (pathOf operation.destination ++ q.drop (pathOf operation.path).length)
      else if q = pathOf operation.destination then none else some q := by
  rw [follow, h]

theorem follow_rename_eq_some {s d : List GoString} (hkind : operation.kind = .rename)
    (hs : pathOf operation.path = s)
    (hd : pathOf operation.destination = d) : follow operation q = some q' ↔
      (∃ r, q = s ++ r ∧ q' = d ++ r) ∨ ¬ s <+: q ∧ q ≠ d ∧ q' = q := by
  rw [follow_rename hkind, hs, hd]
  constructor
  · intro h
    split_ifs at h with hpre hne
    · obtain ⟨r, rfl⟩ := hpre
      exact .inl ⟨r, rfl, by simpa using h.symm⟩
    · exact .inr ⟨hpre, hne, (Option.some.inj h).symm⟩
  · intro h
    obtain ⟨r, rfl, rfl⟩ | ⟨hpre, hne, rfl⟩ := h
    · simp
    · simp [hpre, hne]

theorem followAll_cons :
    followAll (operation :: operations) q = (follow operation q).bind (followAll operations) := by
  rw [followAll, List.foldlM_cons]
  rfl

section provenance

variable [CidFormat] {δ : Type} {t t' : Tree GoString δ (Option Cid)} {c : Option Cid}
  {r : List GoString}

theorem isDirAt_iff : isDirAt q t = true ↔ ∃ d cs, get? q t = some (.dir d cs) := by
  unfold isDirAt
  cases get? q t with
  | none => simp
  | some u => cases u <;> simp [Tree.isDir]

theorem isDirAt_below (h : isDirAt (q ++ r) t = true) : isDirAt q t = true := by
  obtain ⟨d, cs, hget⟩ := isDirAt_iff.mp h
  rw [get?_append] at hget
  obtain ⟨u, hu, hr⟩ := Option.bind_eq_some_iff.mp hget
  cases u with
  | file c => cases r <;> simp at hr
  | dir d₀ cs₀ => exact isDirAt_iff.mpr ⟨d₀, cs₀, hu⟩

variable {parent : List GoString} {name : GoString} {x : Option (Tree GoString δ (Option Cid))}
  {edit : List (GoString × Tree GoString δ (Option Cid)) →
    List (GoString × Tree GoString δ (Option Cid))}

theorem isDirAt_editAt (hedit : ∀ cs k, child? k (edit cs) = if k = name then x else child? k cs)
    (hp : isDirAt parent t = true) (q : List GoString) : isDirAt q (editAt parent edit t) =
      if parent ++ [name] <+: q then x.any (isDirAt (q.drop (parent ++ [name]).length))
        else isDirAt q t := by
  obtain ⟨d, cs, hget⟩ := isDirAt_iff.mp hp
  have hmap (q : List GoString) (t : Tree GoString δ (Option Cid)) :
    isDirAt q t = ((get? q t).map Tree.isDir).any id := by
    rw [isDirAt, Option.any_map]
    rfl
  rw [hmap, editAt, map_get?_updateAt (fun _ _ _ => rfl) (fun _ _ _ => rfl) hedit hget]
  split_ifs
  · cases x with
    | none => rfl
    | some v => exact (hmap _ v).symm
  · exact (hmap q t).symm

theorem get?_editAt_apart (hedit : ∀ cs k, child? k (edit cs) = if k = name then x else child? k cs)
    (hp : isDirAt parent t = true) (hq : ¬ q <+: parent) : get? q (editAt parent edit t) =
      if parent ++ [name] <+: q then x.bind (get? (q.drop (parent ++ [name]).length))
        else get? q t := by
  obtain ⟨d, cs, hget⟩ := isDirAt_iff.mp hp
  exact get?_updateAt_apart hedit hget hq

theorem file_of_editAt (hedit : ∀ cs k, child? k (edit cs) = if k = name then x else child? k cs)
    (hp : isDirAt parent t = true) (h : get? q (editAt parent edit t) = some (.file c)) :
    (∃ r v, q = parent ++ [name] ++ r ∧ x = some v ∧ get? r v = some (.file c)) ∨
      ¬ parent ++ [name] <+: q ∧ get? q t = some (.file c) := by
  have hq : ¬ q <+: parent := by
    rintro ⟨r, rfl⟩
    obtain ⟨d, cs, hget⟩ := isDirAt_iff.mp (isDirAt_below hp)
    have hdir : isDirAt q (editAt (q ++ r) edit t) = true := by
      rw [isDirAt_editAt hedit hp, if_neg fun hpre => by simpa using hpre.length_le,
        isDirAt_iff.mpr ⟨d, cs, hget⟩]
    simp [isDirAt, h, Tree.isDir] at hdir
  rw [get?_editAt_apart hedit hp hq] at h
  split_ifs at h with hpre
  · obtain ⟨r, rfl⟩ := hpre
    obtain ⟨v, hv, hr⟩ := Option.bind_eq_some_iff.mp h
    exact .inl ⟨r, v, rfl, hv, by rwa [List.drop_left] at hr⟩
  · exact .inr ⟨hpre, h⟩

variable [PayloadHash] {fresh : δ} {operation : Operation}

theorem replayOperation_file (h : replayOperation fresh operation t = some t')
    (hq : get? q t' = some (.file c)) :
    (∃ q₀, get? q₀ t = some (.file c) ∧ follow operation q₀ = some q) ∨
      operation.kind = .write ∧ q = pathOf operation.path ∧
        ∃ payload, Cid.parse operation.payloadCID = some payload ∧ c = some payload := by
  cases replays_of_eq_some h with
  | @write parent name payload hkind hpath hpayload hparent _ =>
    have hpathOf := pathOf_eq hpath
    rcases file_of_editAt (fun cs k => child?_setChild name k _ cs) hparent hq with ⟨r, v, hr, hv,
      hfile⟩ | ⟨hpre, hold⟩
    · cases hv
      cases r with
      | nil =>
        rw [get?_nil, Option.some.injEq, Tree.file.injEq] at hfile
        exact .inr ⟨hkind, by rw [hr, hpathOf, List.append_nil], payload, hpayload, hfile.symm⟩
      | cons n r => simp at hfile
    · refine .inl ⟨q, hold, ?_⟩
      have hne : q ≠ pathOf operation.path := fun he => hpre (by rw [he, hpathOf])
      simp [follow, hkind, hne]
  | @mkdir parent name hkind hpath hparent _ =>
    rcases file_of_editAt (fun cs k => child?_setChild name k _ cs) hparent hq with ⟨r, v, hr, hv,
      hfile⟩ | ⟨hpre, hold⟩
    · cases hv
      cases r with
      | nil => simp at hfile
      | cons n r => simp [child?] at hfile
    · exact .inl ⟨q, hold, by simp [follow, hkind]⟩
  | @unlink parent name child hkind hpath hchild _ =>
    obtain ⟨d, cs, hparent, -⟩ := exists_parent hchild
    rcases file_of_editAt (fun cs k => child?_removeChild name k cs)
      (isDirAt_iff.mpr ⟨d, cs, hparent⟩) hq with
      ⟨r, v, hr, hv, hfile⟩ | ⟨hpre, hold⟩
    · cases hv
    · refine .inl ⟨q, hold, ?_⟩
      have hne : q ≠ pathOf operation.path := fun he => hpre (by rw [he, pathOf_eq hpath])
      simp [follow, hkind, hne]
  | @rename parent parent' name name' value hkind hpath hpath' hout hparent hvalue _ =>
    have hfollow (q₀ : List GoString) : follow operation q₀ = some q ↔ _ :=
      follow_rename_eq_some hkind (pathOf_eq hpath) (pathOf_eq hpath')
    obtain ⟨d, cs, hsource, -⟩ := exists_parent hvalue
    have hremove :=
      fun (cs : List (GoString × Tree GoString δ (Option Cid))) k => child?_removeChild name k cs
    have hsource' : isDirAt parent t = true := isDirAt_iff.mpr ⟨d, cs, hsource⟩
    have hparent' : isDirAt parent' (editAt parent (removeChild name) t) = true := by
      rw [isDirAt_editAt hremove hsource', if_neg fun hpre =>
        hout (hpre.trans (List.prefix_append _ _)), hparent]
    rcases file_of_editAt (fun cs k => child?_setChild name' k _ cs) hparent' hq with ⟨r, v, hr, hv,
      hfile⟩ | ⟨hpre', hold⟩
    · cases hv
      refine .inl ⟨parent ++ [name] ++ r, by rw [get?_append, hvalue, Option.bind_some, hfile], ?_⟩
      exact (hfollow _).mpr (.inl ⟨r, rfl, hr⟩)
    · rcases file_of_editAt hremove hsource' hold with ⟨r, v, hr, hv, hfile⟩ | ⟨hpre, hold⟩
      · cases hv
      · have hne : q ≠ parent' ++ [name'] := fun he => hpre' (by rw [he])
        exact .inl ⟨q, hold, (hfollow q).mpr (.inr ⟨hpre, hne, rfl⟩)⟩

/-- Every file after a batch is a file of the tree before it, followed through
the batch, or one that the batch writes, followed from there on. -/
theorem replay_file {operations : List Operation} (h : replay fresh operations t = some t')
    (hq : get? q t' = some (.file c)) :
    (∃ q₀, get? q₀ t = some (.file c) ∧ followAll operations q₀ = some q) ∨
      ∃ before w after payload, operations = before ++ w :: after ∧ w.kind = .write ∧
        Cid.parse w.payloadCID = some payload ∧ c = some payload ∧
          followAll after (pathOf w.path) = some q := by
  induction operations generalizing t with
  | nil =>
    cases h
    exact .inl ⟨q, hq, rfl⟩
  | cons operation operations ih =>
    rw [replay, List.foldlM_cons, Option.bind_eq_bind, Option.bind_eq_some_iff] at h
    obtain ⟨t₁, hstep, hrest⟩ := h
    rcases ih hrest with ⟨q₁, hq₁, hfollow⟩ | ⟨before, w, after, payload, rfl, hw⟩
    · rcases replayOperation_file hstep hq₁ with ⟨q₀, hq₀, hfollow₀⟩ | ⟨hkind, rfl, payload,
        hpayload, hc⟩
      · exact .inl ⟨q₀, hq₀, by rw [followAll_cons, hfollow₀, Option.bind_some, hfollow]⟩
      · exact .inr ⟨[], operation, operations, payload, rfl, hkind, hpayload, hc, hfollow⟩
    · exact .inr ⟨operation :: before, w, after, payload, rfl, hw⟩

end provenance

section tracking

variable [CidFormat]

def Tracks (payload : Cid) : List GoString → TreeNode (Option Cid) → Prop
  | [], u => u = .file (some payload)
  | _ :: _, .file _ => False
  | n :: q, .dir d cs' => d.dirty = true ∧ ∃ v, child? n cs' = some v ∧ Tracks payload q v

variable {payload : Cid} {q r : List GoString} {u v u' : TreeNode (Option Cid)} {d : DirState}
  {cs' : List (GoString × TreeNode (Option Cid))}

theorem Tracks.get? (h : Tracks payload q u) : get? q u = some (.file (some payload)) := by
  induction q generalizing u with
  | nil => exact (get?_nil u).trans (congrArg some h)
  | cons n q ih =>
    cases u with
    | file c => exact h.elim
    | dir d cs' =>
      obtain ⟨-, v, hv, h⟩ := h
      rw [get?_cons_dir, hv, Option.bind_some, ih h]

theorem Tracks.below (h : Tracks payload (q ++ r) u) (hv : NamedTree.get? q u = some v) :
    Tracks payload r v := by
  induction q generalizing u with
  | nil => exact Option.some.inj ((get?_nil u).symm.trans hv) ▸ h
  | cons n q ih =>
    cases u with
    | file c => simp at hv
    | dir d cs' =>
      obtain ⟨-, w, hw, h⟩ := h
      rw [get?_cons_dir, hw, Option.bind_some] at hv
      exact ih h hv

theorem Tracks.exists_below (h : Tracks payload (q ++ r) u) :
    ∃ v, NamedTree.get? q u = some v ∧ Tracks payload r v := by
  have hget := h.get?
  rw [get?_append] at hget
  obtain ⟨v, hv, -⟩ := Option.bind_eq_some_iff.mp hget
  exact ⟨v, hv, h.below hv⟩

theorem Tracks.isNonEmptyDirectory (h : Tracks payload r u) (hr : r ≠ []) :
    u.isDir = true ∧ isNonEmptyDirectory u = true := by
  cases r with
  | nil => exact absurd rfl hr
  | cons n r =>
    cases u with
    | file c => exact h.elim
    | dir d cs' =>
      obtain ⟨-, v, hv, -⟩ := h
      refine ⟨rfl, ?_⟩
      cases cs' with
      | nil => cases hv
      | cons c cs' => rfl

theorem Tracks.set {parent : List GoString} {name : GoString} (m : Bool) (h : Tracks payload r v)
    (hget : NamedTree.get? parent u = some (.dir d cs')) :
    Tracks payload (parent ++ [name] ++ r) (editDirectory parent m (setChild name v) u) := by
  induction parent generalizing u with
  | nil =>
    obtain rfl := Option.some.inj ((get?_nil u).symm.trans hget)
    exact ⟨rfl, v, by simp [child?_setChild], h⟩
  | cons k parent ih =>
    cases u with
    | file c => simp at hget
    | dir d₁ cs₁ =>
      obtain ⟨w, hw, hget⟩ := Option.bind_eq_some_iff.mp hget
      have hedit : editDirectory (k :: parent) m (setChild name v) (.dir d₁ cs₁) =
          .dir (d₁.markDirty false)
            (setChild k (editDirectory parent m (setChild name v) w) cs₁) := by
        simp [editDirectory, updateAt, hw]
      rw [hedit]
      exact ⟨rfl, _, by simp [child?_setChild], ih hget⟩

theorem Tracks.edit {parent : List GoString} {name : GoString} (m : Bool)
    {edit : List (GoString × TreeNode (Option Cid)) → List (GoString × TreeNode (Option Cid))}
    (hedit : ∀ cs k, k ≠ name → child? k (edit cs) = child? k cs) (hq : ¬ parent ++ [name] <+: q)
    (h : Tracks payload q u) : Tracks payload q (editDirectory parent m edit u) := by
  induction parent generalizing q u with
  | nil =>
    cases u with
    | file c => exact h
    | dir d cs' =>
      cases q with
      | nil => cases h
      | cons n q =>
        obtain ⟨-, v, hv, h⟩ := h
        have hn : n ≠ name := fun hn => hq (by simp [hn])
        exact ⟨rfl, v, (hedit cs' n hn).trans hv, h⟩
  | cons k parent ih =>
    cases u with
    | file c => exact h
    | dir d cs' =>
      cases q with
      | nil => cases h
      | cons n q =>
        obtain ⟨hd, v, hv, h⟩ := h
        cases hk : child? k cs' with
        | none =>
          have hsame : editDirectory (k :: parent) m edit (.dir d cs') = .dir d cs' := by
            simp [editDirectory, updateAt, hk]
          rw [hsame]
          exact ⟨hd, v, hv, h⟩
        | some w =>
          have hset : editDirectory (k :: parent) m edit (.dir d cs') =
              .dir (d.markDirty false) (setChild k (editDirectory parent m edit w) cs') := by
            simp [editDirectory, updateAt, hk]
          rw [hset]
          by_cases hn : n = k
          · subst hn
            obtain rfl : w = v := Option.some.inj (hk.symm.trans hv)
            refine ⟨rfl, editDirectory parent m edit w, by simp [child?_setChild],
              ih (fun hpre => hq ?_) h⟩
            exact List.cons_prefix_cons.mpr ⟨rfl, hpre⟩
          · exact ⟨rfl, v, by rw [child?_setChild, if_neg hn, hv], h⟩

variable [ManifestHash] [Engine] {origin t : DirTree} {s s' : Progress} {fresh : Engine.Descriptor}
  {layout : LayoutKind} {top : Bool}

section loading

variable [JsonDecoder] {p : Capabilities} {base : Cid}

theorem ensure_tracks (hrep : Represents origin s fresh layout top t u) (h : Tracks payload q u)
    (hensure : ensure (loadDirectory p base) s u = .ok (s', u')) : Tracks payload q u' := by
  have hsame : u' = u := by
    cases hrep with
    | file =>
      simp only [ensure, pure_eq_ok, Prod.mk.injEq] at hensure
      exact hensure.2.symm
    | closed =>
      cases q with
      | nil => cases h
      | cons n q =>
        obtain ⟨-, v, hv, -⟩ := h
        cases hv
    | opened hload =>
      simp only [ensure, hload, pure_eq_ok, Prod.mk.injEq] at hensure
      exact hensure.2.symm
  rw [hsame]
  exact h

theorem directoryAt_tracks {whole path : List GoString} (hu : Stands p origin base fresh top s t u)
    (h : Tracks payload q u) (hopen : directoryAt (loadDirectory p base) whole path s u =
      .ok (s', u')) :
    Tracks payload q u' := by
  induction path generalizing top t u s s' u' q with
  | nil => exact ensure_tracks hu.represents h hopen
  | cons n path ih =>
    simp only [directoryAt, bind_eq_ok] at hopen
    obtain ⟨⟨s₁, u₁⟩, hensure, hopen⟩ := hopen
    obtain ⟨hl, -⟩ := ensure_eq_ok hu hensure
    have h₁ : Tracks payload q u₁ := ensure_tracks hu.represents h hensure
    cases u₁ with
    | file c => simp at hopen
    | dir d₁ cs₁ =>
      cases hc : child? n cs₁ with
      | none => simp [hc] at hopen
      | some v =>
        simp only [hc, ok_iff, Prod.mk.injEq] at hopen
        obtain ⟨-, -, ⟨s₂, v'⟩, hrest, rfl, rfl⟩ := hopen
        obtain ⟨descriptor, cs, rfl⟩ := hl.represents.eq_dir
        obtain ⟨w, hw, hrepw⟩ := hl.represents.child n hc
        have hnamed' : Named w := hu.named.children.2.2 (n, w) (mem_of_child? hw)
        cases q with
        | nil => cases h₁
        | cons k q =>
          obtain ⟨hd, x, hx, hq⟩ := h₁
          by_cases hk : k = n
          · subst hk
            obtain rfl : v = x := Option.some.inj (hc.symm.trans hx)
            exact ⟨hd, v', by simp [child?_setChild], ih ⟨hu.base, hl.sound, hnamed',
              hrepw⟩ hq hrest⟩
          · exact ⟨hd, x, by rw [child?_setChild, if_neg hk, hx], hq⟩

theorem not_tracks_of_checkReplaced {path : GoString} {value existing : TreeNode (Option Cid)}
    (hrep : Represents origin s fresh layout top t existing)
    (h : checkReplaced (loadDirectory p base) path value (some existing) s = .ok s') (hr : r ≠ []) :
    ¬ Tracks payload r existing := by
  intro htracks
  simp only [checkReplaced, ok_iff] at h
  obtain ⟨⟨s₁, existing'⟩, hensure, -, -, -, hempty, -⟩ := h
  exact hempty ((ensure_tracks hrep htracks hensure).isNonEmptyDirectory hr).2

end loading

section operations

variable [JsonDecoder] [PayloadHash] {p : Capabilities} {base : Cid} {operation : Operation}
  {q' : List GoString}

theorem Applies.tracks (hu : Stands p origin base fresh true s t u) (hdir : u.isDir = true)
    (h : Applies (loadDirectory p base) operation s u s' u') (htracks : Tracks payload q u)
    (hfollow : follow operation q = some q') : Tracks payload q' u' := by
  cases h with
  | @write parent name written u₁ hkind hpath _ _ hopen hex =>
    have h₁ : Tracks payload q u₁ := directoryAt_tracks hu htracks hopen
    simp only [follow, hkind, pathOf_eq hpath] at hfollow
    split_ifs at hfollow with hne
    cases hfollow
    refine h₁.edit _ (fun cs k hk => by rw [child?_setChild, if_neg hk]) fun hpre => ?_
    -- a file strictly below the written path would make it a directory
    obtain ⟨r, rfl⟩ := hpre
    have hr : r ≠ [] := fun hr => hne (by rw [hr, List.append_nil])
    obtain ⟨v, hv, hbelow⟩ := h₁.exists_below
    rw [childAt, hv, Option.any_some] at hex
    exact hex (hbelow.isNonEmptyDirectory hr).1
  | @mkdir parent name u₁ hkind hpath hopen hex =>
    have h₁ : Tracks payload q u₁ := directoryAt_tracks hu htracks hopen
    simp only [follow, hkind, Option.some.injEq] at hfollow
    subst hfollow
    refine h₁.edit _ (fun cs k hk => by rw [child?_setChild, if_neg hk]) fun hpre => ?_
    obtain ⟨r, rfl⟩ := hpre
    obtain ⟨v, hv, -⟩ := h₁.exists_below
    rw [childAt, hv] at hex
    exact hex rfl
  | @unlink parent name s₁ u₁ child child' hkind hpath hopen hchild hensure hempty =>
    have h₁ : Tracks payload q u₁ := directoryAt_tracks hu htracks hopen
    simp only [follow, hkind, pathOf_eq hpath] at hfollow
    split_ifs at hfollow with hne
    cases hfollow
    refine h₁.edit _ (fun cs k hk => by rw [child?_removeChild, if_neg hk]) fun hpre => ?_
    obtain ⟨r, rfl⟩ := hpre
    have hr : r ≠ [] := fun hr => hne (by rw [hr, List.append_nil])
    have hbelow : Tracks payload r child := h₁.below hchild
    obtain ⟨hl, -⟩ := directoryAt_eq_ok hu hdir hopen
    obtain ⟨_, _, -, hrepc⟩ := hl.represents.get? hchild
    exact hempty ((ensure_tracks hrepc hbelow hensure).isNonEmptyDirectory hr).2
  | @rename parent parent' name name' path s₁ s₂ u₁ u₂ value hkind hpath hpath' hout hopen hopen'
      hvalue hreplaced =>
    obtain ⟨hl₁, -⟩ := directoryAt_eq_ok hu hdir hopen
    obtain ⟨hl₂, dd, dcs, hdget, hdload⟩ := directoryAt_eq_ok (hu.after hl₁)
      (hu.isDir_after hdir hl₁) hopen'
    have h₁ : Tracks payload q u₁ := directoryAt_tracks hu htracks hopen
    have h₂ : Tracks payload q u₂ := directoryAt_tracks (hu.after hl₁) h₁ hopen'
    rw [follow_rename hkind, pathOf_eq hpath, pathOf_eq hpath'] at hfollow
    split_ifs at hfollow with hpre hne
    · -- the file moves with the renamed file or directory
      obtain ⟨r, rfl⟩ := hpre
      cases hfollow
      obtain ⟨_, _, hsget, -⟩ := exists_parent hvalue
      obtain ⟨_, _, hdget', -⟩ := opened_after_removal hsget ⟨dd, dcs, hdget, hdload⟩ hout
      rw [List.drop_left]
      exact (h₂.below hvalue).set true hdget'
    · cases hfollow
      have hremoved : Tracks payload q (editDirectory parent true (removeChild name) u₂) :=
        h₂.edit _ (fun cs k hk => by rw [child?_removeChild, if_neg hk]) hpre
      refine hremoved.edit _ (fun cs k hk => by rw [child?_setChild, if_neg hk]) fun hpre' => ?_
      obtain ⟨r, rfl⟩ := hpre'
      have hr : r ≠ [] := fun hr => hne (by rw [hr, List.append_nil])
      obtain ⟨existing, hexisting, hbelow⟩ := h₂.exists_below
      obtain ⟨_, _, -, hrepx⟩ := hl₂.represents.get? hexisting
      rw [childAt, hexisting] at hreplaced
      exact not_tracks_of_checkReplaced hrepx hreplaced hr hbelow

theorem Applies.tracks_written (hu : Stands p origin base fresh true s t u) (hdir : u.isDir = true)
    (h : Applies (loadDirectory p base) operation s u s' u') (hkind : operation.kind = .write)
    (hpayload : Cid.parse operation.payloadCID = some payload) :
    Tracks payload (pathOf operation.path) u' ∧ PayloadHash.isRaw payload = true := by
  cases h with
  | @write parent name written u₁ _ hpath hwritten hraw hopen hex =>
    obtain rfl : written = payload := Option.some.inj (hwritten.symm.trans hpayload)
    obtain ⟨-, d, cs', hget, -⟩ := directoryAt_eq_ok hu hdir hopen
    have hset :
      Tracks written (parent ++ [name] ++ []) (editDirectory parent (childAt parent name u₁).isNone
        (setChild name (.file (some written))) u₁) := Tracks.set _ rfl hget
    rw [List.append_nil, ← pathOf_eq hpath] at hset
    exact ⟨hset, hraw⟩
  | mkdir hkind' => simp [hkind] at hkind'
  | unlink hkind' => simp [hkind] at hkind'
  | rename hkind' => simp [hkind] at hkind'

theorem applyOperations_tracks {operations : List Operation}
    (hu : Stands p origin base fresh true s t u)
    (hdir : u.isDir = true) (h : applyOperations (loadDirectory p base) some operations s u =
      .ok (s', u'))
    (htracks : Tracks payload q u) (hfollow : followAll operations q = some q') :
    Tracks payload q' u' := by
  induction operations generalizing s t u q with
  | nil =>
    simp only [applyOperations, List.foldlM_nil, pure_eq_ok, Prod.mk.injEq] at h
    obtain ⟨rfl, rfl⟩ := h
    cases hfollow
    exact htracks
  | cons operation operations ih =>
    simp only [applyOperations, List.foldlM_cons, bind_eq_ok] at h
    obtain ⟨⟨s₁, u₁⟩, hstep, hrest⟩ := h
    rw [followAll_cons] at hfollow
    obtain ⟨q₁, hq₁, hfollow⟩ := Option.bind_eq_some_iff.mp hfollow
    have happlies : Applies (loadDirectory p base) operation s u s₁ u₁ := applies_of_eq_ok hstep
    obtain ⟨t₁, ht₁, happlied⟩ := applyOperation_eq_ok hu hdir happlies
    obtain ⟨hu₁, hdir₁⟩ := hu.applied ht₁ happlied
    exact ih hu₁ hdir₁ hrest (happlies.tracks hu hdir htracks hq₁) hfollow

theorem replayOperations_tracks {cs : List (GoString × DirTree)} {writers : WriterCache}
    {before after : List Operation} (hroot : (stateOf p.layout fresh cs).root = base)
    (hnamed : Named (.dir fresh cs : DirTree)) (hcache : CacheSound writers)
    (h : replayOperations p writers base (before ++ operation :: after) = .ok (s', u'))
    (hkind : operation.kind = .write) (hpayload : Cid.parse operation.payloadCID = some payload)
    (hfollow : followAll after (pathOf operation.path) = some q') :
    Tracks payload q' u' ∧ PayloadHash.isRaw payload = true := by
  obtain ⟨_, _, _, s₁, d₁, cs₁, -, -, -, -, -, hu₁, happly⟩ := replayOperations_start hroot
    hnamed hcache h
  simp only [applyOperations, List.foldlM_append, List.foldlM_cons, bind_eq_ok] at happly
  obtain ⟨⟨s₂, u₂⟩, hbefore, ⟨s₃, u₃⟩, hstep, hafter⟩ := happly
  obtain ⟨t₂, -, hu₂, hdir₂, -⟩ := applyOperations_eq_ok hu₁ rfl hbefore
  have happlies : Applies (loadDirectory p base) operation s₂ u₂ s₃ u₃ := applies_of_eq_ok hstep
  obtain ⟨t₃, ht₃, happlied⟩ := applyOperation_eq_ok hu₂ hdir₂ happlies
  obtain ⟨hwritten, hraw⟩ := happlies.tracks_written hu₂ hdir₂ hkind hpayload
  obtain ⟨hu₃, hdir₃⟩ := hu₂.applied ht₃ happlied
  exact ⟨applyOperations_tracks hu₃ hdir₃ hafter hwritten hfollow, hraw⟩

end operations

section payloads

variable [PayloadHash]

omit [ManifestHash] [Engine] in
theorem Tracks.mem_payloads (h : Tracks payload q u) (hraw : PayloadHash.isRaw payload = true) :
    some payload ∈ payloads u := by
  induction q generalizing u with
  | nil =>
    have hfile : u = .file (some payload) := h
    simp [hfile, payloads, walk, hraw]
  | cons n q ih =>
    cases u with
    | file c => exact h.elim
    | dir d cs' =>
      obtain ⟨hd, v, hv, h⟩ := h
      rw [payloads, walk_dirty hd]
      refine List.mem_append_left _ (List.mem_flatMap.mpr ⟨(n, v), ?_,
        List.mem_map.mpr ⟨some payload, ih h, rfl⟩⟩)
      exact (sortOn_perm Prod.fst cs').symm.subset (mem_of_child? hv)

theorem exists_of_mem_payloads (h : Represents origin s fresh layout top t u) {c : Option Cid}
    (hc : c ∈ payloads u) : ∃ q, NamedTree.get? q t = some (.file c) := by
  induction h with
  | file top c' =>
    have hfile : c = c' := by
      rw [payloads, walk] at hc
      split_ifs at hc
      · exact List.mem_singleton.mp hc
      · cases hc
    exact ⟨[], by rw [hfile, get?_nil]⟩
  | closed hload hdirty =>
    rw [payloads, walk_clean hdirty] at hc
    cases hc
  | @opened top descriptor cs d cs' hload hnodup hmanifest hkept hclean hkey hsome hchild ih =>
    cases hdirty : d.dirty with
    | false =>
      rw [payloads, walk_clean hdirty] at hc
      cases hc
    | true =>
      rw [payloads, walk_dirty hdirty, List.append_nil] at hc
      obtain ⟨e, he, hc⟩ := List.mem_flatMap.mp hc
      have hbelow : c ∈ payloads e.2 := by simpa [payloads] using hc
      obtain ⟨hu, t, ht⟩ := exists_child_of_mem hnodup hsome he
      obtain ⟨q, hq⟩ := ih e.1 t e.2 ht hu hbelow
      exact ⟨e.1 :: q, by rw [get?_cons_dir, ht, Option.bind_some, hq]⟩

end payloads

end tracking

end MaltClient.Planner
