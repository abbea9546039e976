import MaltClient.PlaintextMerge

/-! What a merge makes: at every path the node that the three trees choose, with
the permission bits that the system leaves of it. -/

namespace MaltClient.Backup

open GoText Checked AssocMap FileTree

section nodes

variable [Sha256]

def Snapshot.nodeAt (s : Snapshot) (p : List FileName) : Option TreeNode :=
  match s with
  | .tree t => (t.lookup p).bind fun o => (scanObject o).toOption
  | _ => none

theorem mapM_scan {entries :
    List (Sigma fun _ : List FileName => Object UInt32 (List UInt8) GoString)}
    {nodes : List (GoString × TreeNode)}
    (h : (entries.mapM fun e => do
      let node ← scanObject e.2
      return (relative e.1, node)) = .ok nodes) :
        nodes.map Prod.fst = (entries.map Sigma.fst).map relative := by
  rw [List.map_map]
  refine map_eq_map_of_mapM h fun e _ b hb => ?_
  simp only [ok_iff] at hb
  obtain ⟨node, -, rfl⟩ := hb
  rfl

variable {s : Snapshot}

theorem lookup_scan {nodes : Nodes} (h : scanPlaintextTree s = .ok nodes) (p : List FileName) :
    nodes.lookup (relative p) = s.nodeAt p := by
  cases s with
  | absent =>
    cases h
    rfl
  | unsafeRoot => simp [scanPlaintextTree] at h
  | unreadable => simp [scanPlaintextTree] at h
  | tree t =>
    simp only [scanPlaintextTree, ok_iff] at h
    obtain ⟨list, hlist, rfl⟩ := h
    have hkeys := mapM_scan hlist
    simp only [Snapshot.nodeAt]
    cases hl : t.lookup p with
    | none =>
      rw [lookup_insertAll_of_notMem, AList.lookup_empty]
      · rfl
      · rw [hkeys, List.mem_map_of_injective relative_injective]
        exact AList.lookup_eq_none.mp hl
    | some o =>
      have hentry : (⟨p, o⟩ : Sigma fun _ : List FileName => Object UInt32 (List UInt8) GoString) ∈
        t.objects.entries :=
        mem_entries_iff.mpr hl
      obtain ⟨b, hb, hscan⟩ := exists_of_mem_left (mapM_eq_ok.mp hlist) hentry
      simp only [ok_iff] at hscan
      obtain ⟨node, hnode, rfl⟩ := hscan
      have hnodup : (list.map Prod.fst).Nodup := by
        rw [hkeys]
        exact (List.nodup_map_iff relative_injective).mpr t.objects.nodupKeys
      rw [lookup_insertAll_of_mem hnodup hb, Option.bind_some, hnode]
      rfl

theorem exists_of_scan_key {nodes : Nodes} (h : scanPlaintextTree s = .ok nodes) {k : GoString}
    (hk : k ∈ nodes) : ∃ p, p ≠ [] ∧ k = relative p := by
  cases s with
  | absent =>
    cases h
    simp at hk
  | unsafeRoot => simp [scanPlaintextTree] at h
  | unreadable => simp [scanPlaintextTree] at h
  | tree t =>
    simp only [scanPlaintextTree, ok_iff] at h
    obtain ⟨list, hlist, rfl⟩ := h
    rw [mem_insertAll, mapM_scan hlist, List.mem_map] at hk
    obtain ⟨p, hp, rfl⟩ := hk.resolve_left (by simp)
    refine ⟨p, ?_, rfl⟩
    rintro rfl
    exact AList.lookup_eq_none.mp t.root hp

theorem Snapshot.nodeAt_nil (s : Snapshot) : s.nodeAt [] = none := by
  cases s with
  | tree t =>
    have hroot : t.lookup [] = none := t.root
    simp [Snapshot.nodeAt, hroot]
  | absent => rfl
  | unsafeRoot => rfl
  | unreadable => rfl

end nodes

section choice

theorem sameTreeNode_refl (x : Option TreeNode) : sameTreeNode x x = true := by
  cases x <;> simp [sameTreeNode]

theorem sameTreeNode_some {x y : TreeNode} : sameTreeNode (some x) (some y) = true ↔
    x.kind = y.kind ∧ perm x.mode = perm y.mode ∧ x.digest = y.digest ∧ x.link = y.link := by
  simp [sameTreeNode, and_assoc]

variable {x b l r : Option TreeNode}

theorem sameTreeNode_symm {y : Option TreeNode} (h : sameTreeNode x y = true) :
    sameTreeNode y x = true := by
  cases x with
  | none => cases y <;> simp_all [sameTreeNode]
  | some x =>
    cases y with
    | none => simp [sameTreeNode] at h
    | some y =>
      obtain ⟨hkind, hmode, hdigest, hlink⟩ := sameTreeNode_some.mp h
      exact sameTreeNode_some.mpr ⟨hkind.symm, hmode.symm, hdigest.symm, hlink.symm⟩

theorem sameTreeNode_trans {y z : Option TreeNode} (h : sameTreeNode x y = true)
    (h' : sameTreeNode y z = true) : sameTreeNode x z = true := by
  cases y with
  | none => cases x <;> cases z <;> simp_all [sameTreeNode]
  | some y =>
    cases x with
    | none => simp [sameTreeNode] at h
    | some x =>
      cases z with
      | none => simp [sameTreeNode] at h'
      | some z =>
        obtain ⟨hkind, hmode, hdigest, hlink⟩ := sameTreeNode_some.mp h
        obtain ⟨hkind', hmode', hdigest', hlink'⟩ := sameTreeNode_some.mp h'
        exact sameTreeNode_some.mpr
          ⟨hkind.trans hkind', hmode.trans hmode', hdigest.trans hdigest', hlink.trans hlink'⟩

theorem choose_none : choose none none none = some none := rfl

theorem choose_swap (h : choose b l r = some x) :
    ∃ y, choose b r l = some y ∧ sameTreeNode x y = true := by
  unfold choose at h ⊢
  by_cases hsame : sameTreeNode l r = true
  · rw [if_pos hsame] at h
    rw [if_pos (sameTreeNode_symm hsame)]
    exact ⟨r, rfl, Option.some.inj h ▸ hsame⟩
  · rw [if_neg hsame] at h
    rw [if_neg fun hs => hsame (sameTreeNode_symm hs)]
    by_cases hl : sameTreeNode l b = true
    · have hr : ¬ sameTreeNode r b = true :=
        fun hr => hsame (sameTreeNode_trans hl (sameTreeNode_symm hr))
      rw [if_pos hl] at h
      rw [if_neg hr, if_pos hl]
      exact ⟨r, rfl, Option.some.inj h ▸ sameTreeNode_refl r⟩
    · rw [if_neg hl] at h
      by_cases hr : sameTreeNode r b = true
      · rw [if_pos hr] at h ⊢
        exact ⟨l, rfl, Option.some.inj h ▸ sameTreeNode_refl l⟩
      · rw [if_neg hr] at h
        cases h

theorem choose_mem (h : choose b l r = some x) : x = l ∨ x = r := by
  unfold choose at h
  split_ifs at h
  · exact .inl (Option.some.inj h).symm
  · exact .inr (Option.some.inj h).symm
  · exact .inl (Option.some.inj h).symm

def Rule (b l r x : Option TreeNode) : Prop :=
  (sameTreeNode l r = true ∧ x = l) ∨ (sameTreeNode l b = false ∧ sameTreeNode r b = true ∧ x = l) ∨
    (sameTreeNode l b = true ∧ sameTreeNode r b = false ∧ x = r)

theorem rule_of_choose (h : choose b l r = some x) : Rule b l r x := by
  unfold choose at h
  split_ifs at h with hsame hl hr
  · exact .inl ⟨hsame, (Option.some.inj h).symm⟩
  · have hr : sameTreeNode r b = false := by
      rw [Bool.eq_false_iff]
      exact fun hr => hsame (sameTreeNode_trans hl (sameTreeNode_symm hr))
    exact .inr (.inr ⟨hl, hr, (Option.some.inj h).symm⟩)
  · exact .inr (.inl ⟨Bool.eq_false_iff.mpr hl, hr, (Option.some.inj h).symm⟩)

variable {baseNodes localNodes remoteNodes : Nodes}

theorem foldl_selectPath (paths : List GoString) (s : Selection) :
    (∀ k, (paths.foldl (selectPath baseNodes localNodes remoteNodes) s).selected.lookup k =
      if k ∈ paths then
        (choose (baseNodes.lookup k) (localNodes.lookup k) (remoteNodes.lookup k)).or
          (s.selected.lookup k)
      else s.selected.lookup k) ∧
    (paths.foldl (selectPath baseNodes localNodes remoteNodes) s).conflicts =
      s.conflicts ++ paths.filter fun k =>
        choose (baseNodes.lookup k) (localNodes.lookup k) (remoteNodes.lookup k) = none := by
  induction paths generalizing s with
  | nil => simp
  | cons path paths ih =>
    obtain ⟨hlookup, hconflicts⟩ := ih (selectPath baseNodes localNodes remoteNodes s path)
    rw [List.foldl_cons, hconflicts]
    simp only [hlookup]
    cases hc :
      choose (baseNodes.lookup path) (localNodes.lookup path) (remoteNodes.lookup path) with
    | none =>
      refine ⟨fun k => ?_, by simp [selectPath, hc]⟩
      by_cases hk : k = path
      · subst hk
        simp [selectPath, hc]
      · simp [selectPath, hc, hk]
    | some node =>
      refine ⟨fun k => ?_, by simp [selectPath, hc]⟩
      by_cases hk : k = path
      · subst hk
        simp [selectPath, hc]
      · simp [selectPath, hc, hk]

end choice

section selected

structure Represents (selected : Selected) (pick : List FileName → Option TreeNode) : Prop where
  node : ∀ p, (selected.lookup (relative p)).join = pick p
  key : ∀ k ∈ selected, ∃ p, p ≠ [] ∧ k = relative p

def Above (pick : List FileName → Option TreeNode) (p : List FileName) : Prop :=
  ∀ q, q <+: p → q ≠ [] → ∃ d, pick q = some d ∧ d.kind = .dir

def Parented (pick : List FileName → Option TreeNode) : Prop :=
  ∀ p n node, pick (p ++ [n]) = some node → p = [] ∨ ∃ d, pick p = some d ∧ d.kind = .dir

variable {selected : Selected} {pick : List FileName → Option TreeNode}

variable {p : List FileName}

theorem above_append_one {n : FileName} :
    Above pick (p ++ [n]) ↔ (∃ d, pick (p ++ [n]) = some d ∧ d.kind = .dir) ∧ Above pick p := by
  constructor
  · intro h
    exact ⟨h _ (List.prefix_refl _) (by simp), fun q hq hne =>
      h q (hq.trans (List.prefix_append p [n])) hne⟩
  · intro h q hq hne
    rcases List.prefix_concat_iff.mp hq with rfl | hq
    · exact h.1
    · exact h.2 q hq hne

theorem Parented.above (h : Parented pick) (p : List FileName) (n : FileName) (node : TreeNode)
    (hnode : pick (p ++ [n]) = some node) : Above pick p := by
  induction p using List.reverseRecOn generalizing n node with
  | nil =>
    intro q hq hne
    exact absurd (List.prefix_nil.mp hq) hne
  | append_singleton p m ih =>
    obtain ⟨d, hd, hkind⟩ := (h (p ++ [m]) n node hnode).resolve_left (by simp)
    exact above_append_one.mpr ⟨⟨d, hd, hkind⟩, ih m d hd⟩

theorem parentsSelected_iff (h : Represents selected pick) {rounds : Nat} (hp : p.length ≤ rounds) :
    parentsSelected selected rounds (if p = [] then dot else relative p) = true ↔ Above pick p := by
  induction rounds generalizing p with
  | zero =>
    obtain rfl := List.length_eq_zero_iff.mp (Nat.le_zero.mp hp)
    refine iff_of_true rfl fun q hq hne => ?_
    exact absurd (List.prefix_nil.mp hq) hne
  | succ rounds ih =>
    rcases List.eq_nil_or_concat p with rfl | ⟨q, n, rfl⟩
    · refine iff_of_true (by simp [parentsSelected]) fun q hq hne => ?_
      exact absurd (List.prefix_nil.mp hq) hne
    · have hne : q ++ [n] ≠ [] := by simp
      have hlength : q.length ≤ rounds := by simpa using hp
      have hnode := h.node (q ++ [n])
      rw [List.concat_eq_append, if_neg hne, above_append_one, parentsSelected,
        if_neg (relative_ne_dot hne)]
      cases hl : selected.lookup (relative (q ++ [n])) with
      | none => simp [← hnode, hl]
      | some x =>
        cases x with
        | none => simp [← hnode, hl]
        | some node =>
          rw [hl, Option.join_some] at hnode
          simp only [Bool.and_eq_true, decide_eq_true_eq, dir_relative, ih hlength, ← hnode,
            Option.some.injEq, exists_eq_left']

/-- A path is orphaned if it is chosen, and some path above it is not chosen as a
directory. -/
theorem orphaned_iff (h : Represents selected pick) {k : GoString} : orphaned selected k = true ↔
    ∃ p n node, k = relative (p ++ [n]) ∧ pick (p ++ [n]) = some node ∧ ¬ Above pick p := by
  have hat (p : List FileName) (n : FileName) : orphaned selected (relative (p ++ [n])) = true ↔
      (∃ node, pick (p ++ [n]) = some node) ∧ ¬ Above pick p := by
    have hlength : p.length ≤ (split (relative (p ++ [n]))).length := by
      rw [split_relative (by simp)]
      simp
    have hiff := parentsSelected_iff h hlength
    rw [← dir_relative p n] at hiff
    rw [← hiff, ← h.node]
    simp [orphaned, Option.isSome_iff_exists]
  constructor
  · intro ho
    have hkey : k ∈ selected := by
      by_contra hk
      simp [orphaned, AList.lookup_eq_none.mpr hk] at ho
    obtain ⟨p, hp, rfl⟩ := h.key k hkey
    obtain ⟨q, n, rfl⟩ := (List.eq_nil_or_concat' p).resolve_left hp
    obtain ⟨⟨node, hnode⟩, habove⟩ := (hat q n).mp ho
    exact ⟨q, n, node, rfl, hnode, habove⟩
  · rintro ⟨p, n, node, rfl, hnode, habove⟩
    exact (hat p n).mpr ⟨⟨node, hnode⟩, habove⟩

theorem find_orphaned_eq_none (visit : Visit) :
    (visit.keys selected.keys).find? (orphaned selected) = none ↔
      ∀ k, ¬ orphaned selected k = true := by
  rw [List.find?_eq_none]
  refine ⟨fun h k ho => ?_, fun h k _ => h k⟩
  refine h k ((visit.perm _).mem_iff.mpr ?_) ho
  by_contra hk
  simp [orphaned, AList.lookup_eq_none.mpr hk] at ho

theorem find_orphaned_iff (h : Represents selected pick) (visit : Visit) :
    (visit.keys selected.keys).find? (orphaned selected) = none ↔ Parented pick := by
  rw [find_orphaned_eq_none]
  simp only [orphaned_iff h, not_exists, not_and, not_not]
  constructor
  · intro hall p n node hnode
    by_cases hp : p = []
    · exact .inl hp
    · exact .inr (hall _ p n node rfl hnode p (List.prefix_refl p) hp)
  · intro hparented k p n node _ hnode
    exact hparented.above p n node hnode

end selected

section written

theorem depth_relative (p : List FileName) : depth (relative p) = p.length - 1 := by
  induction p with
  | nil => rfl
  | cons n p ih =>
    have hcount : n.val.count slash = 0 := List.count_eq_zero.mpr n.2.plain.2
    cases p with
    | nil => simpa [depth, relative, join] using hcount
    | cons m p =>
      have hjoin : relative (n :: m :: p) = n.val ++ slash :: relative (m :: p) := rfl
      rw [depth] at ih ⊢
      rw [hjoin, List.count_append, hcount, List.count_cons_self, ih]
      simp

variable {selected : Selected} {pick : List FileName → Option TreeNode} {os : System}

instance : Std.Total order := by
  constructor
  intro a b
  unfold order
  by_cases h : depth a = depth b
  · simp only [h, ne_eq, not_true_eq_false, if_false]
    exact leBytes_total _ _
  · rw [if_pos h, if_pos (Ne.symm h)]
    omega

theorem order.depth_le {a b : GoString} (h : order a b) : depth a ≤ depth b := by
  unfold order at h
  split_ifs at h with hd
  · omega
  · omega

instance : IsTrans GoString order := by
  constructor
  intro a b c hab hbc
  have hle := hab.depth_le
  have hle' := hbc.depth_le
  unfold order at hab hbc ⊢
  by_cases h : depth a = depth c
  · have hb : depth a = depth b := by omega
    have hc : depth b = depth c := by omega
    rw [if_neg (not_not.mpr hb)] at hab
    rw [if_neg (not_not.mpr hc)] at hbc
    rw [if_neg (not_not.mpr h)]
    exact leBytes_trans hab hbc
  · rw [if_pos h]
    omega

variable {p : List FileName} {node : TreeNode} {t t' : PlainTree} {done todo : List GoString}

theorem mem_ordered (h : Represents selected pick) :
    relative p ∈ ordered selected ↔ ∃ node, pick p = some node := by
  rw [ordered, (List.perm_insertionSort order _).mem_iff]
  simp only [List.mem_map, List.mem_filter, Option.isSome_iff_exists, ← h.node,
    Option.join_eq_some_iff]
  constructor
  · intro hm
    obtain ⟨⟨k, x⟩, ⟨he, node, rfl⟩, rfl⟩ := hm
    exact ⟨node, mem_entries_iff.mp he⟩
  · intro hm
    obtain ⟨node, hl⟩ := hm
    exact ⟨⟨relative p, some node⟩, ⟨mem_entries_iff.mpr hl, node, rfl⟩, rfl⟩

theorem exists_of_mem_ordered (h : Represents selected pick) {k : GoString}
    (hk : k ∈ ordered selected) : ∃ p node, p ≠ [] ∧ k = relative p ∧ pick p = some node := by
  have hselected : k ∈ selected := by
    rw [ordered, (List.perm_insertionSort order _).mem_iff] at hk
    obtain ⟨e, he, rfl⟩ := List.mem_map.mp hk
    exact List.mem_map_of_mem (List.mem_filter.mp he).1
  obtain ⟨p, hp, rfl⟩ := h.key k hselected
  obtain ⟨node, hnode⟩ := (mem_ordered h).mp hk
  exact ⟨p, node, hp, rfl, hnode⟩

theorem nodup_ordered (selected : Selected) : (ordered selected).Nodup := by
  rw [ordered, (List.perm_insertionSort order _).nodup_iff]
  exact List.NodupKeys.sublist List.filter_sublist selected.nodupKeys

def Written (os : System) (pick : List FileName → Option TreeNode) (done : List GoString)
    (t : PlainTree) : Prop :=
  ∀ q, t.lookup q = if relative q ∈ done then (pick q).map os.made else none

theorem Written.next
    (h : Written os pick done t) (hnode : pick p = some node)
    (hcreate : t.create p (os.made node) = some t') :
    Written os pick (done ++ [relative p]) t' := by
  intro q
  rw [(create_eq_some hcreate q).2]
  by_cases hq : q = p
  · subst hq
    simp [hnode]
  · have hne : relative q ≠ relative p := fun he => hq (relative_injective he)
    rw [if_neg hq, h q]
    simp [hne]

theorem Written.fresh (h : Written os pick done t)
    (hsplit : ordered selected = done ++ relative p :: todo) : t.lookup p = none := by
  have hnodup := nodup_ordered selected
  rw [hsplit] at hnodup
  have hnot : relative p ∉ done := fun hm => (List.disjoint_of_nodup_append hnodup) hm (by simp)
  rw [h p, if_neg hnot]

theorem writeNode_eq_ok (h : Represents selected pick) {path : GoString}
    (hsplit : ordered selected = done ++ path :: todo) (hdone : Written os pick done t)
    (hwrite : writeNode os selected t path = .ok t') : Written os pick (done ++ [path]) t' := by
  have hmem : path ∈ ordered selected := by simp [hsplit]
  obtain ⟨p, node, hp, rfl, hnode⟩ := exists_of_mem_ordered h hmem
  have hnew := hdone.fresh hsplit
  simp only [writeNode, ok_iff, components_relative hp, h.node, hnode, Option.some.injEq] at hwrite
  obtain ⟨_, -, _, rfl, _, rfl, hwrite⟩ := hwrite
  cases hcreate : t.create p (os.made node) with
  | some t₁ =>
    simp only [hcreate, pure_eq_ok] at hwrite
    exact hwrite ▸ hdone.next hnode hcreate
  | none =>
    simp only [hcreate, ok_iff, not_or] at hwrite
    obtain ⟨_, ⟨-, hthere⟩, -⟩ := hwrite
    exact absurd hnew hthere

theorem lookup_of_foldlM (h : Represents selected pick)
    (hrun : (ordered selected).foldlM (writeNode os selected) empty = .ok t) (p : List FileName) :
    t.lookup p = (pick p).map os.made := by
  have hwritten : Written os pick (ordered selected) t := by
    refine foldlM_invariant (Written os pick) hrun (fun q => by simp)
      fun done path todo s s' hsplit hs hstep => ?_
    exact writeNode_eq_ok h hsplit hs hstep
  rw [hwritten p]
  split_ifs with hm
  · rfl
  · cases hpick : pick p with
    | none => rfl
    | some node => exact absurd ((mem_ordered h).mpr ⟨node, hpick⟩) hm

theorem System.isDir_made (h : node.kind = .dir) : (os.made node).isDir = true := by
  simp [System.made, h, Object.isDir]

theorem Written.holds_parent (h : Represents selected pick) (hparented : Parented pick)
    {n : FileName} (hnode : pick (p ++ [n]) = some node)
    (hsplit : ordered selected = done ++ relative (p ++ [n]) :: todo)
    (hdone : Written os pick done t) : Holds t.objects p := by
  rcases hparented p n node hnode with hp | ⟨d, hd, hkind⟩
  · exact .inl hp
  · by_cases hp : p = []
    · exact .inl hp
    have hmem : relative p ∈ ordered selected := (mem_ordered h).mpr ⟨d, hd⟩
    have hsorted : (ordered selected).Pairwise order := List.pairwise_insertionSort order _
    have hdepth : depth (relative p) < depth (relative (p ++ [n])) := by
      have hpos := List.length_pos_of_ne_nil hp
      rw [depth_relative, depth_relative, List.length_append, List.length_singleton]
      omega
    have hbefore : relative p ∈ done := by
      rw [hsplit, List.mem_append, List.mem_cons] at hmem
      rw [hsplit, List.pairwise_append] at hsorted
      rcases hmem with hm | hm | hm
      · exact hm
      · rw [hm] at hdepth
        exact absurd hdepth (lt_irrefl _)
      · have hle := (List.pairwise_cons.mp hsorted.2.1).1 _ hm
        exact absurd hle.depth_le (by omega)
    have hlookup :
      t.lookup p = some (os.made d) := by rw [hdone p, if_pos hbefore, hd, Option.map_some]
    exact .inr ⟨_, hlookup, System.isDir_made hkind⟩

theorem exists_foldlM (h : Represents selected pick) (hparented : Parented pick)
    (hsystem : ∀ path, os.fails path = false) :
    ∃ t, (ordered selected).foldlM (writeNode os selected) empty = .ok t := by
  have hstep (done : List GoString) (path : GoString) (todo : List GoString) (t : PlainTree)
      (hsplit : ordered selected = done ++ path :: todo) (hdone : Written os pick done t) :
      ∃ t', writeNode os selected t path = .ok t' ∧ Written os pick (done ++ [path]) t' := by
    obtain ⟨p, node, hp, rfl, hnode⟩ := exists_of_mem_ordered h (show path ∈ ordered selected by
      simp [hsplit])
    have hparent : Holds t.objects p.dropLast := by
      rcases List.eq_nil_or_concat p with rfl | ⟨q, n, rfl⟩
      · exact absurd rfl hp
      · rw [List.concat_eq_append] at hsplit hnode ⊢
        rw [List.dropLast_concat]
        exact hdone.holds_parent h hparented hnode hsplit
    obtain ⟨t', hcreate⟩ := exists_create (o := os.made node) hp hparent (hdone.fresh hsplit)
    have hwrite : writeNode os selected t (relative p) = .ok t' := by
      simp [writeNode, hsystem, h.node, hnode, components_relative hp, hcreate, reject, required]
    exact ⟨t', hwrite, hdone.next hnode hcreate⟩
  obtain ⟨t, hrun, -⟩ := foldlM_progress (s := (empty : PlainTree)) (Written os pick)
    (fun q => by simp) hstep
  exact ⟨t, hrun⟩

end written

section merge

variable [Sha256] {os : System} {base localTree remote : Snapshot}

def chosenAt (base localTree remote : Snapshot) (p : List FileName) : Option (Option TreeNode) :=
  choose (base.nodeAt p) (localTree.nodeAt p) (remote.nodeAt p)

def chosen (base localTree remote : Snapshot) (p : List FileName) : Option TreeNode :=
  (chosenAt base localTree remote p).join

structure Mergeable (base localTree remote : Snapshot) : Prop where
  decided : ∀ p, chosenAt base localTree remote p ≠ none
  parented : Parented (chosen base localTree remote)

theorem chosenAt_eq_some {p : List FileName} (h : Mergeable base localTree remote) :
    chosenAt base localTree remote p = some (chosen base localTree remote p) := by
  obtain ⟨x, hx⟩ := Option.ne_none_iff_exists'.mp (h.decided p)
  rw [chosen, hx, Option.join_some]

theorem Mergeable.swap (h : Mergeable base localTree remote) :
    Mergeable base remote localTree ∧
      ∀ p, sameTreeNode (chosen base localTree remote p)
        (chosen base remote localTree p) = true := by
  have hsame (p : List FileName) : ∃ y, chosenAt base remote localTree p = some y ∧
      sameTreeNode (chosen base localTree remote p) y = true := choose_swap (chosenAt_eq_some h)
  have hchosen (p : List FileName) :
      sameTreeNode (chosen base localTree remote p) (chosen base remote localTree p) = true := by
    obtain ⟨y, hy, hsame⟩ := hsame p
    have hchosen : chosen base remote localTree p = y := by rw [chosen, hy, Option.join_some]
    rw [hchosen]
    exact hsame
  refine ⟨⟨fun p => ?_, fun p n node hnode => ?_⟩, hchosen⟩
  · obtain ⟨y, hy, -⟩ := hsame p
    rw [hy]
    simp
  · have hthere := hchosen (p ++ [n])
    cases hx : chosen base localTree remote (p ++ [n]) with
    | none => simp [hx, hnode, sameTreeNode] at hthere
    | some x =>
      refine (h.parented p n x hx).imp_right fun hd => ?_
      obtain ⟨d, hd, hkind⟩ := hd
      have hdir := hchosen p
      cases hy : chosen base remote localTree p with
      | none => simp [hd, hy, sameTreeNode] at hdir
      | some d' =>
        rw [hd, hy] at hdir
        exact ⟨d', rfl, (sameTreeNode_some.mp hdir).1 ▸ hkind⟩

section selection

variable {baseNodes localNodes remoteNodes : Nodes} (hb : scanPlaintextTree base = .ok baseNodes)
  (hl : scanPlaintextTree localTree = .ok localNodes)
  (hr : scanPlaintextTree remote = .ok remoteNodes)

include hb hl hr

theorem choose_lookup (p : List FileName) :
    choose (baseNodes.lookup (relative p)) (localNodes.lookup (relative p))
      (remoteNodes.lookup (relative p)) = chosenAt base localTree remote p := by
  rw [lookup_scan hb, lookup_scan hl, lookup_scan hr, chosenAt]

theorem exists_of_mem_paths {k : GoString}
    (hk : k ∈ (baseNodes.keys ++ localNodes.keys ++ remoteNodes.keys).dedup) :
    ∃ p, p ≠ [] ∧ k = relative p := by
  rw [List.mem_dedup, List.mem_append, List.mem_append] at hk
  rcases hk with (hk | hk) | hk
  · exact exists_of_scan_key hb hk
  · exact exists_of_scan_key hl hk
  · exact exists_of_scan_key hr hk

theorem chosenAt_of_notMem {p : List FileName}
    (hp : relative p ∉ (baseNodes.keys ++ localNodes.keys ++ remoteNodes.keys).dedup) :
    chosenAt base localTree remote p = some none := by
  rw [List.mem_dedup, List.mem_append, List.mem_append, not_or, not_or] at hp
  have hbase : baseNodes.lookup (relative p) = none := AList.lookup_eq_none.mpr hp.1.1
  have hlocal : localNodes.lookup (relative p) = none := AList.lookup_eq_none.mpr hp.1.2
  have hremote : remoteNodes.lookup (relative p) = none := AList.lookup_eq_none.mpr hp.2
  rw [← choose_lookup hb hl hr, hbase, hlocal, hremote, choose_none]

theorem represents_selectPaths (visit : Visit) :
    Represents (selectPaths visit baseNodes localNodes remoteNodes).selected
      (chosen base localTree remote) := by
  have hlookup := (@foldl_selectPath baseNodes localNodes remoteNodes
    (visit.keys (baseNodes.keys ++ localNodes.keys ++ remoteNodes.keys).dedup) ⟨∅, []⟩).1
  simp only [(visit.perm _).mem_iff, AList.lookup_empty] at hlookup
  constructor
  · intro p
    rw [selectPaths, hlookup]
    split_ifs with hp
    · rw [choose_lookup hb hl hr, Option.or_none]
      rfl
    · rw [chosen, chosenAt_of_notMem hb hl hr hp]
      rfl
  · intro k hk
    by_contra hnot
    have hnone := hlookup k
    rw [if_neg fun hm => hnot (exists_of_mem_paths hb hl hr hm)] at hnone
    exact AList.lookup_eq_none.mp hnone hk

theorem mem_conflicts_iff (visit : Visit) {k : GoString} :
    k ∈ (selectPaths visit baseNodes localNodes remoteNodes).conflicts ↔
      ∃ p, k = relative p ∧ chosenAt base localTree remote p = none := by
  rw [selectPaths, (foldl_selectPath _ _).2, List.nil_append, List.mem_filter, decide_eq_true_eq,
    (visit.perm _).mem_iff]
  constructor
  · rintro ⟨hk, hnone⟩
    obtain ⟨p, -, rfl⟩ := exists_of_mem_paths hb hl hr hk
    exact ⟨p, rfl, choose_lookup hb hl hr p ▸ hnone⟩
  · rintro ⟨p, rfl, hnone⟩
    rw [choose_lookup hb hl hr]
    refine ⟨?_, hnone⟩
    by_contra hp
    rw [chosenAt_of_notMem hb hl hr hp] at hnone
    cases hnone

theorem conflicts_eq_nil_iff (visit : Visit) :
    (selectPaths visit baseNodes localNodes remoteNodes).conflicts = [] ↔
      ∀ p, chosenAt base localTree remote p ≠ none := by
  rw [List.eq_nil_iff_forall_not_mem]
  simp only [mem_conflicts_iff hb hl hr visit, not_exists, not_and]
  exact ⟨fun h p => h _ p rfl, fun h _ p _ => h p⟩

/-- What a merge returns: the paths without a choice, or an orphaned one, or
none and the chosen nodes. -/
theorem merge_cases {conflicts : List GoString} {dest : PlainTree}
    (h : mergePlaintextTrees os base localTree remote = .ok (conflicts, dest)) :
    ((∃ p, chosenAt base localTree remote p = none) ∧
      conflicts = sortOn id (selectPaths os.first baseNodes localNodes remoteNodes).conflicts) ∨
    ((∀ p, chosenAt base localTree remote p ≠ none) ∧
      ((∃ p n node, chosen base localTree remote (p ++ [n]) = some node ∧
        ¬ Above (chosen base localTree remote) p ∧ conflicts = [relative (p ++ [n])]) ∨
        Parented (chosen base localTree remote) ∧ conflicts = [] ∧
          ∀ p, dest.lookup p = (chosen base localTree remote p).map os.made)) := by
  have hselected := represents_selectPaths hb hl hr os.first
  simp only [mergePlaintextTrees, hb, hl, hr, bind_eq_ok, Except.ok.injEq, exists_eq_left'] at h
  by_cases hc : (selectPaths os.first baseNodes localNodes remoteNodes).conflicts = []
  · rw [if_neg (not_not.mpr hc)] at h
    refine .inr ⟨(conflicts_eq_nil_iff hb hl hr _).mp hc, ?_⟩
    split at h
    next path hfind =>
      cases h
      obtain ⟨p, n, node, rfl, hnode, habove⟩ := (orphaned_iff hselected).mp (List.find?_some hfind)
      exact .inl ⟨p, n, node, hnode, habove, rfl⟩
    next hfind =>
      simp only [ok_iff, Prod.mk.injEq] at h
      obtain ⟨_, -, t, hrun, rfl, rfl⟩ := h
      exact .inr ⟨(find_orphaned_iff hselected _).mp hfind, rfl, lookup_of_foldlM hselected hrun⟩
  · rw [if_pos hc] at h
    cases h
    rw [conflicts_eq_nil_iff hb hl hr _] at hc
    push Not at hc
    exact .inl ⟨hc, rfl⟩

theorem exists_merge (hm : Mergeable base localTree remote) (hmkdir : os.mkdirAllFails = false)
    (hsystem : ∀ path, os.fails path = false) :
    ∃ dest, mergePlaintextTrees os base localTree remote = .ok ([], dest) := by
  have hselected := represents_selectPaths hb hl hr os.first
  obtain ⟨t, hrun⟩ := @exists_foldlM _ _ os hselected hm.parented hsystem
  have hc := (conflicts_eq_nil_iff hb hl hr os.first).mpr hm.decided
  have hfind := (find_orphaned_iff hselected os.second).mpr hm.parented
  refine ⟨t, ?_⟩
  simp only [mergePlaintextTrees, hb, hl, hr, bind_eq_ok, Except.ok.injEq, exists_eq_left']
  rw [if_neg (not_not.mpr hc), hfind]
  simp only [ok_iff, hmkdir, Bool.false_eq_true, not_false_eq_true, exists_const, true_and]
  exact ⟨t, hrun, rfl⟩

end selection

theorem scans_of_merge {conflicts : List GoString} {dest : PlainTree}
    (h : mergePlaintextTrees os base localTree remote = .ok (conflicts, dest)) :
    ∃ baseNodes localNodes remoteNodes, scanPlaintextTree base = .ok baseNodes ∧
      scanPlaintextTree localTree = .ok localNodes ∧ scanPlaintextTree remote =
        .ok remoteNodes := by
  simp only [mergePlaintextTrees, bind_eq_ok] at h
  obtain ⟨baseNodes, hb, localNodes, hl, remoteNodes, hr, -⟩ := h
  exact ⟨baseNodes, localNodes, remoteNodes, hb, hl, hr⟩

theorem merge_eq_ok {conflicts : List GoString} {dest : PlainTree}
    (h : mergePlaintextTrees os base localTree remote = .ok (conflicts, dest)) :
    (conflicts = [] ↔ Mergeable base localTree remote) ∧
      (conflicts = [] → ∀ p, dest.lookup p = (chosen base localTree remote p).map os.made) := by
  obtain ⟨baseNodes, localNodes, remoteNodes, hb, hl, hr⟩ := scans_of_merge h
  rcases merge_cases hb hl hr h with ⟨⟨p, hp⟩, rfl⟩ | ⟨hdecided,
    ⟨p, n, node, hnode, habove, rfl⟩ | ⟨hparented, rfl, hdest⟩⟩
  · have hmem :=
      (sortOn_perm id _).symm.subset ((mem_conflicts_iff hb hl hr os.first).mpr ⟨p, rfl, hp⟩)
    have hne := List.ne_nil_of_mem hmem
    exact ⟨iff_of_false hne fun hm => hm.decided p hp, fun hnil => absurd hnil hne⟩
  · exact ⟨iff_of_false (by simp) fun hm => habove (hm.parented.above p n node hnode),
      fun hnil => by cases hnil⟩
  · exact ⟨iff_of_true rfl ⟨hdecided, hparented⟩, fun _ => hdest⟩

end merge

section exact

variable [Sha256] {os : System} {base localTree remote : Snapshot}

def System.Keeps (os : System) (node : TreeNode) : Prop :=
  match node.kind with
  | .symlink => perm os.linkMode = perm node.mode
  | _ => perm node.mode &&& os.umask = 0

omit [Sha256] in
theorem perm_masked_iff (mode umask : UInt32) :
    perm (perm mode &&& ~~~ umask) = perm mode ↔ perm mode &&& umask = 0 := by
  simp only [perm, ← UInt32.toBitVec_inj, UInt32.toBitVec_and, UInt32.toBitVec_not]
  generalize mode.toBitVec = x
  generalize umask.toBitVec = u
  generalize (0o777 : UInt32).toBitVec = m
  constructor
  · intro h
    refine BitVec.eq_of_getLsbD_eq fun i hi => ?_
    have hbit := congrArg (fun b => b.getLsbD i) h
    simp only [BitVec.getLsbD_and, BitVec.getLsbD_not, hi, decide_true, Bool.true_and] at hbit
    have hzero : (UInt32.toBitVec 0).getLsbD i = false := BitVec.getLsbD_zero
    rw [hzero, BitVec.getLsbD_and, BitVec.getLsbD_and]
    revert hbit
    cases x.getLsbD i <;> cases u.getLsbD i <;> cases m.getLsbD i <;> simp
  · intro h
    refine BitVec.eq_of_getLsbD_eq fun i hi => ?_
    have hbit := congrArg (fun b => b.getLsbD i) h
    have hzero : (UInt32.toBitVec 0).getLsbD i = false := BitVec.getLsbD_zero
    simp only [BitVec.getLsbD_and, hzero] at hbit
    simp only [BitVec.getLsbD_and, BitVec.getLsbD_not, hi, decide_true, Bool.true_and]
    revert hbit
    cases x.getLsbD i <;> cases u.getLsbD i <;> cases m.getLsbD i <;> simp

variable {node x y : TreeNode} {o o' : Object UInt32 (List UInt8) GoString} {os' : System}
  {p : List FileName} {dest : PlainTree}

theorem scan_made (h : scanObject o = .ok node) :
    ∃ node', scanObject (os.made node) = .ok node' ∧ node'.kind = node.kind ∧ node'.digest =
      node.digest ∧
      node'.link = node.link ∧ (perm node'.mode = perm node.mode ↔ os.Keeps node) := by
  cases o with
  | dir mode =>
    cases h
    exact ⟨_, rfl, rfl, rfl, rfl, perm_masked_iff mode os.umask⟩
  | file mode body =>
    cases h
    exact ⟨_, rfl, rfl, rfl, rfl, perm_masked_iff mode os.umask⟩
  | link mode target =>
    cases h
    exact ⟨_, rfl, rfl, rfl, rfl, Iff.rfl⟩
  | special mode => simp [scanObject] at h

theorem digest_of_scan (h : scanObject o = .ok node)
    (hkind : node.kind = .file) : node.digest = Sha256.hexSum node.source := by
  cases o with
  | file mode body =>
    cases h
    rfl
  | dir mode =>
    cases h
    cases hkind
  | link mode target =>
    cases h
    cases hkind
  | special mode => simp [scanObject] at h

theorem scan_made_same (hx : scanObject o = .ok x)
    (hy : scanObject o' = .ok y) (hsame : sameTreeNode (some x) (some y) = true)
    (humask : os'.umask = os.umask) (hlink : os'.linkMode = os.linkMode) :
    sameTreeNode (scanObject (os.made x)).toOption (scanObject (os'.made y)).toOption = true := by
  obtain ⟨hkind, hperm, hdigest, hlinks⟩ := sameTreeNode_some.mp hsame
  cases hk : x.kind with
  | dir =>
    simp only [System.made, hk, ← hkind, humask, ← hperm]
    exact sameTreeNode_refl _
  | file =>
    have hx' := digest_of_scan hx hk
    have hy' := digest_of_scan hy (hkind.symm.trans hk)
    simp only [System.made, hk, ← hkind, humask, ← hperm]
    exact sameTreeNode_some.mpr ⟨rfl, rfl, by rw [← hx', ← hy', hdigest], rfl⟩
  | symlink =>
    simp only [System.made, hk, ← hkind, hlink, ← hlinks]
    exact sameTreeNode_refl _

theorem made_eq_of_same (hinj : Function.Injective Sha256.hexSum)
    (hx : scanObject o = .ok x) (hy : scanObject o' = .ok y)
    (hsame : sameTreeNode (some x) (some y) = true) (humask : os'.umask = os.umask)
    (hlink : os'.linkMode = os.linkMode) : os'.made y = os.made x := by
  obtain ⟨hkind, hperm, hdigest, hlinks⟩ := sameTreeNode_some.mp hsame
  cases hk : x.kind with
  | dir => simp only [System.made, hk, ← hkind, humask, ← hperm]
  | file =>
    have hx' := digest_of_scan hx hk
    have hy' := digest_of_scan hy (hkind.symm.trans hk)
    have hsource : x.source = y.source := hinj (by rw [← hx', ← hy', hdigest])
    simp only [System.made, hk, ← hkind, humask, ← hperm, hsource]
  | symlink => simp only [System.made, hk, ← hkind, hlink, ← hlinks]

theorem exists_of_nodeAt {s : Snapshot} (h : s.nodeAt p = some node) :
    ∃ o, scanObject o = .ok node := by
  cases s with
  | tree t =>
    obtain ⟨o, -, ho⟩ := Option.bind_eq_some_iff.mp h
    cases hscan : scanObject o with
    | error e => simp [hscan, Except.toOption] at ho
    | ok x =>
      rw [hscan] at ho
      exact ⟨o, hscan.trans (congrArg Except.ok (Option.some.inj ho))⟩
  | absent => cases h
  | unsafeRoot => cases h
  | unreadable => cases h

theorem exists_of_chosen (h : chosen base localTree remote p = some node) :
    ∃ o, scanObject o = .ok node := by
  rcases choose_mem (Option.join_eq_some_iff.mp h) with hl | hr
  · exact exists_of_nodeAt hl.symm
  · exact exists_of_nodeAt hr.symm

theorem nodeAt_of_merge (h : mergePlaintextTrees os base localTree remote = .ok ([], dest))
    (p : List FileName) : (Snapshot.tree dest).nodeAt p =
      ((chosen base localTree remote p).map os.made).bind fun o => (scanObject o).toOption := by
  rw [Snapshot.nodeAt, (merge_eq_ok h).2 rfl p]

theorem sameTreeNode_merge_iff (h : mergePlaintextTrees os base localTree remote = .ok ([], dest)) :
    (∀ p, sameTreeNode ((Snapshot.tree dest).nodeAt p) (chosen base localTree remote p) = true) ↔
      ∀ p node, chosen base localTree remote p = some node → os.Keeps node := by
  constructor
  · intro hall p node hchosen
    obtain ⟨o, ho⟩ := exists_of_chosen hchosen
    obtain ⟨node', hscan, -, -, -, hmode⟩ := @scan_made _ os _ _ ho
    have hp := hall p
    rw [nodeAt_of_merge h, hchosen, Option.map_some, Option.bind_some, hscan] at hp
    exact hmode.mp (sameTreeNode_some.mp hp).2.1
  · intro hkeeps p
    rw [nodeAt_of_merge h]
    cases hchosen : chosen base localTree remote p with
    | none => rfl
    | some node =>
      obtain ⟨o, ho⟩ := exists_of_chosen hchosen
      obtain ⟨node', hscan, hkind, hdigest, hlink, hmode⟩ := @scan_made _ os _ _ ho
      rw [Option.map_some, Option.bind_some, hscan]
      exact sameTreeNode_some.mpr ⟨hkind, hmode.mpr (hkeeps p node hchosen), hdigest, hlink⟩

theorem sameTreeNode_merges {dest' : PlainTree} (h : mergePlaintextTrees os base localTree remote =
    .ok ([], dest))
    (h' : mergePlaintextTrees os' base remote localTree = .ok ([], dest'))
    (humask : os'.umask = os.umask) (hlink : os'.linkMode = os.linkMode) (p : List FileName) :
    sameTreeNode ((Snapshot.tree dest).nodeAt p) ((Snapshot.tree dest').nodeAt p) = true ∧
      (Function.Injective Sha256.hexSum → dest'.lookup p = dest.lookup p) := by
  have hsame := (((merge_eq_ok h).1.mp rfl).swap).2 p
  rw [nodeAt_of_merge h, nodeAt_of_merge h', (merge_eq_ok h).2 rfl p, (merge_eq_ok h').2 rfl p]
  cases hx : chosen base localTree remote p with
  | none =>
    cases hy : chosen base remote localTree p with
    | none => exact ⟨rfl, fun _ => rfl⟩
    | some y => simp [hx, hy, sameTreeNode] at hsame
  | some x =>
    cases hy : chosen base remote localTree p with
    | none => simp [hx, hy, sameTreeNode] at hsame
    | some y =>
      rw [hx, hy] at hsame
      obtain ⟨o, ho⟩ := exists_of_chosen hx
      obtain ⟨o', ho'⟩ := exists_of_chosen hy
      refine ⟨scan_made_same ho ho' hsame humask hlink, fun hinj => ?_⟩
      exact congrArg some (made_eq_of_same hinj ho ho' hsame humask hlink)

/-- A merge without a conflict holds at every path what the rule chooses, with
the same kind, bytes and link target, and nothing else. The permission bits are
the same as well exactly if the system keeps those of every chosen node. The
exchanged merge has no conflict either and an equal destination. -/
theorem mergePlaintextTrees_exact_iff (os : System) (base localTree remote : Snapshot)
    (dest : PlainTree) (h : mergePlaintextTrees os base localTree remote = .ok ([], dest)) :
    (∀ p, Rule (base.nodeAt p) (localTree.nodeAt p) (remote.nodeAt p)
      (chosen base localTree remote p) ∧
      dest.lookup p = (chosen base localTree remote p).map os.made) ∧
    ((∀ p, sameTreeNode ((Snapshot.tree dest).nodeAt p) (chosen base localTree remote p) = true) ↔
      ∀ p node, chosen base localTree remote p = some node → os.Keeps node) ∧
    (∀ os' conflicts dest', os'.umask = os.umask → os'.linkMode = os.linkMode →
      mergePlaintextTrees os' base remote localTree = .ok (conflicts, dest') →
        conflicts = [] ∧
        ∀ p, sameTreeNode ((Snapshot.tree dest).nodeAt p) ((Snapshot.tree dest').nodeAt p) = true ∧
          (Function.Injective Sha256.hexSum → dest'.lookup p = dest.lookup p)) ∧
    ∀ os', os'.mkdirAllFails = false → (∀ path, os'.fails path = false) →
      ∃ dest', mergePlaintextTrees os' base remote localTree = .ok ([], dest') := by
  obtain ⟨hmergeable, hdest⟩ := merge_eq_ok h
  have hm := hmergeable.mp rfl
  obtain ⟨hswap, -⟩ := hm.swap
  refine ⟨fun p => ⟨rule_of_choose (chosenAt_eq_some hm), hdest rfl p⟩,
    sameTreeNode_merge_iff h, ?_, ?_⟩
  · intro os' conflicts dest' humask hlink h'
    obtain rfl := (merge_eq_ok h').1.mpr hswap
    exact ⟨rfl, sameTreeNode_merges h h' humask hlink⟩
  · intro os' hmkdir hsystem
    obtain ⟨baseNodes, localNodes, remoteNodes, hb, hl, hr⟩ := scans_of_merge h
    exact exists_merge hb hr hl hswap hmkdir hsystem

end exact

section runs

@[reducible] def Sha256.spelled : Sha256 :=
  ⟨fun body => body.map fun b => .char (Char.ofNat b.toNat)⟩

theorem name_f : Name (text "f") := by decide

def fileF : FileName := ⟨text "f", name_f⟩

def oneFile (mode : UInt32) (body : List UInt8) : Snapshot :=
  .tree ((empty.create [fileF] (.file mode body)).getD empty)

def masked (umask : UInt32) : System :=
  { umask := umask, linkMode := 0o777, mkdirAllFails := false, fails := fun _ => false,
    first := .listed, second := .listed }

theorem exists_dest {x : Except MergeError (List GoString × PlainTree)}
    (h : x.map Prod.fst = .ok []) : ∃ dest, x = .ok ([], dest) := by
  obtain ⟨⟨conflicts, dest⟩, hx, rfl⟩ := map_eq_ok.mp h
  exact ⟨dest, hx⟩

/-- The remote edit of a private file is taken. -/
theorem mergePlaintextTrees_exact_private :
    letI := Sha256.spelled
    ∃ dest, mergePlaintextTrees (masked 0o077) (oneFile 0o600 [1]) (oneFile 0o600 [1])
      (oneFile 0o600 [2]) = .ok ([], dest) ∧ dest.lookup [fileF] = some (.file 0o600 [2]) := by
  let _ := Sha256.spelled
  obtain ⟨dest, h⟩ :
    ∃ dest, mergePlaintextTrees (masked 0o077) (oneFile 0o600 [1]) (oneFile 0o600 [1])
      (oneFile 0o600 [2]) = .ok ([], dest) := exists_dest (by decide +kernel)
  refine ⟨dest, h, ?_⟩
  rw [((mergePlaintextTrees_exact_iff _ _ _ _ dest h).1 [fileF]).2]
  decide +kernel

/-- A new file that its group may write loses that bit under the usual mask. -/
theorem merge_drops_group_write :
    letI := Sha256.spelled
    ∃ dest, mergePlaintextTrees (masked 0o022) .absent .absent (oneFile 0o664 [1]) =
      .ok ([], dest) ∧ dest.lookup [fileF] = some (.file 0o644 [1]) ∧
      sameTreeNode ((Snapshot.tree dest).nodeAt [fileF])
        (chosen .absent .absent (oneFile 0o664 [1]) [fileF]) = false := by
  let _ := Sha256.spelled
  obtain ⟨dest, h⟩ :
    ∃ dest, mergePlaintextTrees (masked 0o022) .absent .absent (oneFile 0o664 [1]) =
      .ok ([], dest) :=
    exists_dest (by decide +kernel)
  have hdest := (merge_eq_ok h).2 rfl [fileF]
  have hmade : (chosen .absent .absent (oneFile 0o664 [1]) [fileF]).map (masked 0o022).made =
      some (.file 0o644 [1]) := by decide +kernel
  refine ⟨dest, h, hdest.trans hmade, ?_⟩
  rw [nodeAt_of_merge h]
  decide +kernel

end runs

end MaltClient.Backup
