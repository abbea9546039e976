import MaltClient.PlannerTree

/-! Replaying operations on a loaded tree. An operation that the file system of
the tree enables is applied by the planner, and the tree it leaves stands for
the file system after the operation. -/

namespace MaltClient.Planner

open GoText Checked NamedTree
open Journal (Operation)
open StagedPath (StagedName parse_join)

/-- The names of a path that an operation can have. -/
structure OperationPath (p : List GoString) : Prop where
  ne_nil : p ≠ []
  staged : ∀ n ∈ p, StagedName n

variable {p : List GoString}

theorem OperationPath.plain (h : OperationPath p) : ∀ n ∈ p, Plain n :=
  fun n hn => (h.staged n hn).plain

theorem OperationPath.pathName (h : OperationPath p) : ∀ n ∈ p, StagedPath.PathName n :=
  fun n hn => (h.staged n hn).pathName

theorem parseSegments_join {n : GoString} (h : OperationPath (p ++ [n])) (format : String)
    (args : List GoString) : parseSegments (join (p ++ [n])) format args = .ok (p, n) := by
  simp [parseSegments, parse_join h.staged, Except.mapError, bind, Except.bind, pure, Except.pure]

theorem rename_outside {s d : List GoString} (hs : OperationPath s) (hd : OperationPath d)
    (h : ¬ s <+: d) : ¬ (join s = join d ∨ hasPrefix (join d) (join s ++ [slash]) = true) := by
  rintro (he | hpre)
  · exact h (join_injective hs.plain hd.plain he ▸ List.prefix_refl _)
  · obtain ⟨r, -, rfl⟩ :=
      (join_slash_prefix_iff hd.plain hs.plain hs.ne_nil).mp (hasPrefix_iff.mp hpre)
    exact h (List.prefix_append _ _)

section

variable [CidFormat] {κ σ : Type}

/-- A tree with no directory left to load. -/
def Loaded (t : TreeNode κ) : Prop := AllDirs (fun d => d.load = none) t

theorem ensure_loaded {load : Loader σ κ} {s : σ} {t : TreeNode κ} (h : Loaded t) :
    ensure load s t = .ok (s, t) := by
  cases t with
  | file c => rfl
  | dir d cs => simp [ensure, h.children.1, pure, Except.pure]

variable {p parent r : List GoString} {manifest : Bool}

theorem directoryAt_loaded {load : Loader σ κ} {whole : List GoString} {s : σ} {t : TreeNode κ}
    (h : Loaded t) (hp : view t p = some .dir) : directoryAt load whole p s t = .ok (s, t) := by
  induction p generalizing t with
  | nil => exact ensure_loaded h
  | cons n p ih =>
    cases t with
    | file c => simp [view] at hp
    | dir d cs =>
      rw [view_cons_dir] at hp
      obtain ⟨u, hu, hdir⟩ := Option.bind_eq_some_iff.mp hp
      have hlu : Loaded u := h.children.2 (n, u) (mem_of_child? hu)
      have hud : u.isDir = true := by
        cases u with
        | file c => cases p <;> simp [view, Tree.entry] at hdir
        | dir d' cs' => rfl
      simp [directoryAt, ensure_loaded h, hu, hud, ih hlu hdir, setChild_eq_self hu, reject]

theorem loaded_editDirectory {t : TreeNode κ}
    {edit : List (GoString × TreeNode κ) → List (GoString × TreeNode κ)} (h : Loaded t)
    (hedit : ∀ cs : List (GoString × TreeNode κ), (∀ c ∈ cs, Loaded c.2) → ∀ c ∈ edit cs,
      Loaded c.2) :
    Loaded (editDirectory parent manifest edit t) :=
  AllDirs.updateAt h (fun _ hd => hd) fun _ cs hd hcs => .dir _ _ hd (hedit cs hcs)

theorem view_editDirectory_leaf {n : GoString} {t : TreeNode κ}
    {edit : List (GoString × TreeNode κ) → List (GoString × TreeNode κ)} {x : Option (TreeNode κ)}
    (hp : view t parent = some .dir)
    (hedit : ∀ cs m, child? m (edit cs) = if m = n then x else child? m cs)
    (hx : ∀ u ∈ x, ∀ r, r ≠ [] → view u r = none)
    (hbelow : ∀ r, r ≠ [] → view t (parent ++ [n] ++ r) = none) :
    view (editDirectory parent manifest edit t) =
      fun q => if q = parent ++ [n] then x.map Tree.entry else view t q := by
  obtain ⟨d, cs, hget⟩ := view_eq_dir_iff.mp hp
  funext q
  rw [editDirectory, view_updateAt hedit hget]
  by_cases hq : q = parent ++ [n]
  · subst hq
    cases x <;> simp [view]
  by_cases hpre : parent ++ [n] <+: q
  · obtain ⟨r, hr, rfl⟩ := PathFs.exists_tail hpre hq
    rw [if_pos hpre, if_neg hq, hbelow r hr, List.drop_left]
    cases x with
    | none => rfl
    | some u => exact hx u rfl r hr
  · rw [if_neg hpre, if_neg hq]

theorem view_newDirectory (hr : r ≠ []) : view (newDirectory : TreeNode κ) r = none := by
  cases r with
  | nil => exact absurd rfl hr
  | cons n r => rfl

theorem view_file {c : κ} (hr : r ≠ []) : view (.file c : TreeNode κ) r = none := by
  cases r with
  | nil => exact absurd rfl hr
  | cons n r => rfl

theorem isNonEmptyDirectory_of_childless {t u : TreeNode κ} (hu : get? p t = some u)
    (hc : PathFs.Childless (view t) p) : isNonEmptyDirectory u = false := by
  cases u with
  | file c => rfl
  | dir d cs =>
    obtain rfl := (childless_iff hu).mp hc
    rfl

theorem isDir_iff {t u : TreeNode κ} (hu : get? p t = some u) :
    u.isDir = true ↔ view t p = some .dir := by
  cases u <;> simp [view, hu, Tree.isDir, Tree.entry]

theorem checkReplaced_ok {load : Loader σ κ} {path : GoString} {t value : TreeNode κ}
    {source dest : List GoString} {s : σ} (hl : Loaded t) (hv : get? source t = some value)
    (hd : view t dest ≠ none → (view t source = some .dir ↔ view t dest = some .dir) ∧
      PathFs.Childless (view t) dest) : checkReplaced load path value (get? dest t) s = .ok s := by
  cases he : get? dest t with
  | none => rfl
  | some existing =>
    obtain ⟨hkind, hc⟩ := hd (by simp [view, he])
    have hsame : existing.isDir = value.isDir := by
      rw [Bool.eq_iff_iff, isDir_iff he, isDir_iff hv, hkind]
    have hempty := isNonEmptyDirectory_of_childless he hc
    simp [checkReplaced, ensure_loaded (hl.get? he), hsame, hempty, reject, bind, Except.bind,
      pure, Except.pure]

theorem view_move {t value : TreeNode κ} {sp dp : List GoString} {sn dn : GoString}
    (hnot : ¬ sp ++ [sn] <+: dp ++ [dn]) (hs : get? (sp ++ [sn]) t = some value)
    (hd : view t dp = some .dir) :
    view (editDirectory dp true (setChild dn value) (editDirectory sp true (removeChild sn) t)) =
      PathFs.apply (view t) (.rename (sp ++ [sn]) (dp ++ [dn])) := by
  have hsdir : ∃ d cs, get? sp t = some (.dir d cs) := by
    rw [get?_append] at hs
    obtain ⟨u, hu, hsn⟩ := Option.bind_eq_some_iff.mp hs
    cases u with
    | file c => simp at hsn
    | dir d cs => exact ⟨d, cs, hu⟩
  obtain ⟨sd, scs, hsget⟩ := hsdir
  have hremoved (q : List GoString) : view (editDirectory sp true (removeChild sn) t) q =
      if sp ++ [sn] <+: q then none else view t q := by
    rw [editDirectory, view_updateAt (fun cs m => child?_removeChild sn m cs) hsget]
    rfl
  have hdp : view (editDirectory sp true (removeChild sn) t) dp = some .dir := by
    rw [hremoved, if_neg fun hpre => hnot (hpre.trans (List.prefix_append _ _)), hd]
  obtain ⟨dd, dcs, hdget⟩ := view_eq_dir_iff.mp hdp
  funext q
  rw [editDirectory, view_updateAt (fun cs m => child?_setChild dn m value cs) hdget, hremoved]
  simp only [PathFs.apply, Option.bind_some, view_append hs]

end

section

variable [CidFormat] [PayloadHash] {κ σ : Type}

/-- What a journaled operation does to the file system. -/
inductive Means (ofPayload : Cid → κ) : Operation → PathFs.Op GoString κ → Prop
  | write {o : Operation} {p : List GoString} {c : Cid} (kind : o.kind = .write)
      (path : o.path = join p) (names : OperationPath p) (payload : Cid.parse o.payloadCID = some c)
      (raw : PayloadHash.isRaw c = true) : Means ofPayload o (.write p (ofPayload c))
  | mkdir {o : Operation} {p : List GoString} (kind : o.kind = .mkdir) (path : o.path = join p)
      (names : OperationPath p) : Means ofPayload o (.mkdir p)
  | unlink {o : Operation} {p : List GoString} (kind : o.kind = .unlink) (path : o.path = join p)
      (names : OperationPath p) : Means ofPayload o (.unlink p)
  | rename {o : Operation} {s d : List GoString} (kind : o.kind = .rename) (path : o.path = join s)
      (destination : o.destination = join d) (names : OperationPath s) (names' : OperationPath d) :
      Means ofPayload o (.rename s d)

variable {load : Loader σ κ} {ofPayload : Cid → κ} {s : σ} {t : TreeNode κ} {o : Operation}

theorem applyOperation_enabled {op : PathFs.Op GoString κ} (hm : Means ofPayload o op)
    (hl : Loaded t) (hw : PathFs.WellFormed (view t)) (he : PathFs.Enabled (view t) op) :
    ∃ t', applyOperation load ofPayload o s t = .ok (s, t') ∧ Loaded t' ∧
      view t' = PathFs.apply (view t) op := by
  cases hm with
  | @write p c kind path names payload raw =>
    obtain ⟨⟨q, n, rfl, hq⟩, hnd⟩ := he
    have hex : (childAt q n t).any Tree.isDir = false := by
      cases hc : childAt q n t with
      | none => rfl
      | some u =>
        have hnu : ¬ u.isDir = true := fun hu => hnd ((isDir_iff hc).mp hu)
        simpa using hnu
    refine ⟨editDirectory q (childAt q n t).isNone (setChild n (.file (ofPayload c))) t, ?_, ?_, ?_⟩
    · simp [applyOperation, path, parseSegments_join names, kind, payload, raw,
        directoryAt_loaded hl hq, hex, required, reject, bind, Except.bind, pure, Except.pure]
    · exact loaded_editDirectory hl fun cs hcs => AllDirs.setChild (.file _) hcs
    · rw [view_editDirectory_leaf hq (fun cs m => child?_setChild n m _ cs)
        (by rintro u ⟨⟩ r hr; exact view_file hr) fun r hr => hw.none_below hr hnd]
      rfl
  | @mkdir p kind path names =>
    obtain ⟨⟨q, n, rfl, hq⟩, hnone⟩ := he
    have hex : childAt q n t = none := by
      simpa [view, childAt] using hnone
    refine ⟨editDirectory q true (setChild n newDirectory) t, ?_, ?_, ?_⟩
    · simp [applyOperation, path, parseSegments_join names, kind, directoryAt_loaded hl hq, hex,
        reject, bind, Except.bind, pure, Except.pure]
    · exact loaded_editDirectory hl fun cs hcs => AllDirs.setChild (.dir _ _ rfl (by simp)) hcs
    · rw [view_editDirectory_leaf hq (fun cs m => child?_setChild n m _ cs)
        (by rintro u ⟨⟩ r hr; exact view_newDirectory hr) fun r hr => hw.none_below_none hr hnone]
      rfl
  | @unlink p kind path names =>
    obtain ⟨hne, hex, hc⟩ := he
    obtain ⟨q, n, rfl⟩ := (List.eq_nil_or_concat' p).resolve_left hne
    have hq := hw.parent q n hex
    obtain ⟨u, hu⟩ : ∃ u, get? (q ++ [n]) t = some u := by
      cases hu : get? (q ++ [n]) t with
      | none => exact absurd (by simp [view, hu]) hex
      | some u => exact ⟨u, rfl⟩
    refine ⟨editDirectory q true (removeChild n) t, ?_, ?_, ?_⟩
    · simp [applyOperation, path, parseSegments_join names, kind,
        directoryAt_loaded hl hq, childAt, hu,
        ensure_loaded (hl.get? hu), isNonEmptyDirectory_of_childless hu hc, required, reject,
          bind, Except.bind,
        pure, Except.pure]
    · exact loaded_editDirectory hl fun cs hcs => AllDirs.removeChild hcs
    · rw [view_editDirectory_leaf hq (fun cs m => child?_removeChild n m cs) (by simp) fun r hr =>
        hw.none_below_childless hc hr]
      rfl
  | @rename source dest kind path destination names names' =>
    obtain ⟨hnot, hex, ⟨dq, dn, rfl, hdq⟩, hd⟩ := he
    obtain ⟨sq, sn, rfl⟩ := (List.eq_nil_or_concat' source).resolve_left names.ne_nil
    have hsq := hw.parent sq sn hex
    obtain ⟨value, hv⟩ : ∃ u, get? (sq ++ [sn]) t = some u := by
      cases hu : get? (sq ++ [sn]) t with
      | none => exact absurd (by simp [view, hu]) hex
      | some u => exact ⟨u, rfl⟩
    refine ⟨editDirectory dq true (setChild dn value) (editDirectory sq true (removeChild sn) t),
      ?_, ?_, view_move hnot hv hdq⟩
    · simp [applyOperation, path, parseSegments_join names, kind, destination, applyRename,
        parseSegments_join names', rename_outside names names' hnot, directoryAt_loaded hl hsq,
        directoryAt_loaded hl hdq, childAt, hv, checkReplaced_ok hl hv hd, required, reject, bind,
          Except.bind, pure,
        Except.pure, Except.mapError]
    · exact loaded_editDirectory (loaded_editDirectory hl fun cs hcs => AllDirs.removeChild hcs)
        fun cs hcs =>
        AllDirs.setChild (hl.get? hv) hcs

end

end MaltClient.Planner
