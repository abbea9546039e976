import MaltClient.PlaintextMergeExact

/-! The conflicts that a merge reports, for every order in which its loops visit
the maps: the paths that both sides changed, and the paths that one side keeps
below a directory that the other has removed or replaced. -/

namespace MaltClient.Backup

open GoText Checked AssocMap FileTree

theorem sorted_bytes_eq {l l' : List GoString} (h : l.Perm l') :
    (sortOn id l).map bytes = (sortOn id l').map bytes := by
  have hperm : (sortOn id l).Perm (sortOn id l') :=
    (sortOn_perm id l).trans (h.trans (sortOn_perm id l').symm)
  have hsorted (l : List GoString) :
    ((sortOn id l).map bytes).Pairwise fun a b => leBytes a b = true :=
    List.pairwise_map.mpr (sortOn_pairwise id l)
  exact (hperm.map bytes).eq_of_pairwise (fun _ _ _ _ => leBytes_antisymm) (hsorted l) (hsorted l')

section conflicts

variable [Sha256] {os : System} {base localTree remote : Snapshot}

def Diverged (base localTree remote : Snapshot) (p : List FileName) : Prop :=
  sameTreeNode (localTree.nodeAt p) (remote.nodeAt p) = false ∧
    sameTreeNode (localTree.nodeAt p) (base.nodeAt p) = false ∧
    sameTreeNode (remote.nodeAt p) (base.nodeAt p) = false

def Snapshot.IsDirAt (s : Snapshot) (p : List FileName) : Prop :=
  ∃ d, s.nodeAt p = some d ∧ d.kind = .dir

/-- One side has the path, below a directory that the other has removed or
replaced. -/
def KeptBelow (base kept other : Snapshot) (p : List FileName) : Prop :=
  kept.nodeAt p ≠ none ∧ ∃ q, q <+: p ∧ q ≠ p ∧ q ≠ [] ∧ base.IsDirAt q ∧ ¬ other.IsDirAt q

def Stranded (base localTree remote : Snapshot) (p : List FileName) : Prop :=
  chosen base localTree remote p ≠ none ∧ (KeptBelow base localTree remote p ∨
    KeptBelow base remote localTree p)

theorem chosenAt_eq_none {p : List FileName} :
    chosenAt base localTree remote p = none ↔ Diverged base localTree remote p := by
  simp only [chosenAt, choose, Diverged]
  split_ifs with hsame hl hr
  · simp [hsame]
  · simp [hl]
  · simp [hr]
  · simp [hsame, hl, hr]

theorem Snapshot.isDirAt_of_prefix {s : Snapshot} {p q : List FileName} (h : s.nodeAt p ≠ none)
    (hq : q <+: p) (hne : q ≠ p) (hroot : q ≠ []) : s.IsDirAt q := by
  obtain ⟨node, hnode⟩ := Option.ne_none_iff_exists'.mp h
  cases s with
  | absent => cases hnode
  | unsafeRoot => cases hnode
  | unreadable => cases hnode
  | tree t =>
    obtain ⟨r, rfl⟩ := hq
    obtain ⟨o, ho, -⟩ := Option.bind_eq_some_iff.mp hnode
    have hr : r ≠ [] := by
      rintro rfl
      exact hne (List.append_nil q).symm
    obtain ⟨d, hd, hdir⟩ := (t.holds_of_append hr ho).resolve_left hroot
    have hlookup : t.lookup q = some d := hd
    cases d with
    | dir mode => exact ⟨_, by simp only [Snapshot.nodeAt, hlookup]; rfl, rfl⟩
    | file mode body => simp [Object.isDir] at hdir
    | link mode target => simp [Object.isDir] at hdir
    | special mode => simp [Object.isDir] at hdir

theorem isDirAt_congr {s s' : Snapshot} {p : List FileName}
    (h : sameTreeNode (s.nodeAt p) (s'.nodeAt p) = true) : s.IsDirAt p ↔ s'.IsDirAt p := by
  simp only [Snapshot.IsDirAt]
  cases hd : s.nodeAt p with
  | none => cases hd' : s'.nodeAt p <;> simp_all [sameTreeNode]
  | some d =>
    cases hd' : s'.nodeAt p with
    | none => simp [hd, hd', sameTreeNode] at h
    | some d' =>
      rw [hd, hd'] at h
      simp [(sameTreeNode_some.mp h).1]

theorem chosen_isDir_iff {q : List FileName} (hdecided : ¬ Diverged base localTree remote q) :
    (∃ d, chosen base localTree remote q = some d ∧ d.kind = .dir) ↔
      (localTree.IsDirAt q ∧ remote.IsDirAt q) ∨ ((localTree.IsDirAt q ∨ remote.IsDirAt q) ∧
        ¬ base.IsDirAt q) := by
  rw [← chosenAt_eq_none] at hdecided
  simp only [chosen, chosenAt, choose] at hdecided ⊢
  split_ifs at hdecided ⊢ with hsame hlocal hremote
  · have hiff := isDirAt_congr hsame
    show localTree.IsDirAt q ↔ _
    tauto
  · have hiff := isDirAt_congr hlocal
    show remote.IsDirAt q ↔ _
    tauto
  · have hiff := isDirAt_congr hremote
    show localTree.IsDirAt q ↔ _
    tauto
  · exact absurd rfl hdecided

theorem chosen_mem {p : List FileName} (h : chosen base localTree remote p ≠ none) :
    localTree.nodeAt p ≠ none ∨ remote.nodeAt p ≠ none := by
  obtain ⟨node, hnode⟩ := Option.ne_none_iff_exists'.mp h
  have hchosen := Option.join_eq_some_iff.mp hnode
  refine (choose_mem hchosen).imp (fun he => ?_) fun he => ?_
  · rw [← he]
    simp
  · rw [← he]
    simp

theorem stranded_iff (hdecided : ∀ q, ¬ Diverged base localTree remote q) {p : List FileName}
    {n : FileName} (hchosen : chosen base localTree remote (p ++ [n]) ≠ none) :
    Stranded base localTree remote (p ++ [n]) ↔ ¬ Above (chosen base localTree remote) p := by
  have hbelow {q : List FileName} (hq : q <+: p) : q <+: p ++ [n] ∧ q ≠ p ++ [n] := by
    refine ⟨hq.trans (List.prefix_append p [n]), ?_⟩
    rintro rfl
    have hlength := hq.length_le
    simp at hlength
  constructor
  · rintro ⟨-, hkept⟩ habove
    rcases hkept with ⟨hnode, q, hq, hne, hroot, hbase, hother⟩ | ⟨hnode, q, hq, hne, hroot,
      hbase, hother⟩
    all_goals
      have hqp : q <+: p := (List.prefix_concat_iff.mp hq).resolve_left hne
      have hdir := (chosen_isDir_iff (hdecided q)).mp (habove q hqp hroot)
      tauto
  · intro habove
    simp only [Above, not_forall] at habove
    obtain ⟨q, hq, hroot, hnot⟩ := habove
    rw [chosen_isDir_iff (hdecided q)] at hnot
    obtain ⟨hpre, hne⟩ := hbelow hq
    refine ⟨hchosen, ?_⟩
    rcases chosen_mem hchosen with hnode | hnode
    · have hdir := Snapshot.isDirAt_of_prefix hnode hpre hne hroot
      exact .inl ⟨hnode, q, hpre, hne, hroot, by tauto, by tauto⟩
    · have hdir := Snapshot.isDirAt_of_prefix hnode hpre hne hroot
      exact .inr ⟨hnode, q, hpre, hne, hroot, by tauto, by tauto⟩

theorem stranded_ne_nil {p : List FileName} (h : Stranded base localTree remote p) : p ≠ [] := by
  rintro rfl
  rcases chosen_mem h.1 with hnode | hnode
  · exact hnode localTree.nodeAt_nil
  · exact hnode remote.nodeAt_nil

end conflicts

section reported

variable [Sha256] {os : System} {base localTree remote : Snapshot}

section selection

variable {baseNodes localNodes remoteNodes : Nodes} (hb : scanPlaintextTree base = .ok baseNodes)
  (hl : scanPlaintextTree localTree = .ok localNodes)
  (hr : scanPlaintextTree remote = .ok remoteNodes)

include hb hl hr

theorem mem_conflicts_iff_diverged (visit : Visit) {k : GoString} :
    k ∈ (selectPaths visit baseNodes localNodes remoteNodes).conflicts ↔
      ∃ p, k = relative p ∧ Diverged base localTree remote p := by
  simp only [mem_conflicts_iff hb hl hr, chosenAt_eq_none]

theorem conflicts_of_merge {conflicts : List GoString} {dest : PlainTree}
    (h : mergePlaintextTrees os base localTree remote = .ok (conflicts, dest)) :
    ((∃ p, Diverged base localTree remote p) ∧
      conflicts = sortOn id (selectPaths os.first baseNodes localNodes remoteNodes).conflicts) ∨
    ((∀ p, ¬ Diverged base localTree remote p) ∧
      ((conflicts = [] ∧ ∀ p, ¬ Stranded base localTree remote p) ∨
        ∃ p, Stranded base localTree remote p ∧ conflicts = [relative p])) := by
  have hcases := merge_cases hb hl hr h
  simp only [chosenAt_eq_none, ne_eq] at hcases
  refine hcases.imp_right ?_
  rintro ⟨hdecided, ⟨p, n, node, hnode, habove, rfl⟩ | ⟨hparented, rfl, -⟩⟩
  · exact ⟨hdecided, .inr ⟨_, (stranded_iff hdecided (by simp [hnode])).mpr habove, rfl⟩⟩
  · refine ⟨hdecided, .inl ⟨rfl, fun p hp => ?_⟩⟩
    obtain ⟨q, n, rfl⟩ := (List.eq_nil_or_concat' p).resolve_left (stranded_ne_nil hp)
    obtain ⟨node, hnode⟩ := Option.ne_none_iff_exists'.mp hp.1
    exact (stranded_iff hdecided hp.1).mp hp (hparented.above q n node hnode)

theorem exists_merge_stranded {p : List FileName} (h : Stranded base localTree remote p) :
    ∃ conflicts dest, mergePlaintextTrees os base localTree remote = .ok (conflicts, dest) := by
  have hselected := represents_selectPaths hb hl hr os.first
  simp only [mergePlaintextTrees, hb, hl, hr, bind_eq_ok, Except.ok.injEq, exists_eq_left']
  by_cases hc : (selectPaths os.first baseNodes localNodes remoteNodes).conflicts = []
  · rw [if_neg (not_not.mpr hc)]
    have hdecided := (conflicts_eq_nil_iff hb hl hr _).mp hc
    simp only [ne_eq, chosenAt_eq_none] at hdecided
    obtain ⟨q, n, rfl⟩ := (List.eq_nil_or_concat' p).resolve_left (stranded_ne_nil h)
    obtain ⟨node, hnode⟩ := Option.ne_none_iff_exists'.mp h.1
    split
    · exact ⟨_, _, rfl⟩
    next hfind =>
      have hparented := (find_orphaned_iff hselected _).mp hfind
      exact absurd (hparented.above q n node hnode) ((stranded_iff hdecided h.1).mp h)
  · rw [if_pos hc]
    exact ⟨_, _, rfl⟩

end selection

def Complete (base localTree remote : Snapshot) (conflicts : List GoString) : Prop :=
  conflicts.Pairwise (fun a b => leBytes (bytes a) (bytes b) = true) ∧
    ∀ p, Diverged base localTree remote p ∨ Stranded base localTree remote p →
      relative p ∈ conflicts

theorem not_diverged_of_stranded {p : List FileName} (h : Stranded base localTree remote p) :
    ¬ Diverged base localTree remote p := by
  intro hd
  refine h.1 ?_
  rw [chosen, chosenAt_eq_none.mpr hd]
  rfl

/-- The reported conflicts are complete, and the same in every order of the
maps, exactly if no path is stranded, or one path is and both sides changed
none. -/
theorem conflicts_complete_iff (os : System) (base localTree remote : Snapshot)
    (baseNodes localNodes remoteNodes : Nodes) (hb : scanPlaintextTree base = .ok baseNodes)
    (hl : scanPlaintextTree localTree = .ok localNodes)
    (hr : scanPlaintextTree remote = .ok remoteNodes) :
    ((∀ first second conflicts dest,
        mergePlaintextTrees { os with first, second } base localTree remote =
          .ok (conflicts, dest) → Complete base localTree remote conflicts) ∧
      ∀ first second first' second' conflicts dest conflicts' dest',
        mergePlaintextTrees { os with first, second } base localTree remote =
          .ok (conflicts, dest) →
        mergePlaintextTrees { os with first := first', second := second' } base localTree remote =
            .ok (conflicts', dest') →
          conflicts.map bytes = conflicts'.map bytes) ↔
    (∀ p, ¬ Stranded base localTree remote p) ∨
      ((∀ p, ¬ Diverged base localTree remote p) ∧ ∃! p, Stranded base localTree remote p) := by
  constructor
  · rintro ⟨hcomplete, -⟩
    by_cases hs : ∃ p, Stranded base localTree remote p
    · refine .inr ?_
      obtain ⟨p, hp⟩ := hs
      obtain ⟨conflicts, dest, hrun⟩ := @exists_merge_stranded _ os _ _ _ _ _ _ hb hl hr _ hp
      obtain ⟨-, hall⟩ := hcomplete os.first os.second _ _ hrun
      rcases conflicts_of_merge hb hl hr hrun with ⟨-, rfl⟩ | ⟨hdecided, hone⟩
      · have hmem := (sortOn_perm id _).subset (hall p (.inr hp))
        obtain ⟨q, heq, hq⟩ := (mem_conflicts_iff_diverged hb hl hr _).mp hmem
        exact absurd (relative_injective heq ▸ hq) (not_diverged_of_stranded hp)
      · refine ⟨hdecided, p, hp, fun q hq => ?_⟩
        rcases hone with ⟨-, hnone⟩ | ⟨r, -, rfl⟩
        · exact absurd hp (hnone p)
        · have hqr := relative_injective (List.mem_singleton.mp (hall q (.inr hq)))
          have hpr := relative_injective (List.mem_singleton.mp (hall p (.inr hp)))
          rw [hqr, hpr]
    · exact .inl fun p hp => hs ⟨p, hp⟩
  · intro h
    constructor
    · intro first second conflicts dest hrun
      rcases conflicts_of_merge hb hl hr hrun with ⟨⟨q, hq⟩, rfl⟩ | ⟨hdecided, hone⟩
      · refine ⟨sortOn_pairwise id _, fun p hp => ?_⟩
        have hstranded := h.resolve_right fun h' => h'.1 q hq
        refine (sortOn_perm id _).symm.subset ((mem_conflicts_iff_diverged hb hl hr _).mpr
          ⟨p, rfl, ?_⟩)
        exact hp.resolve_right (hstranded p)
      · rcases hone with ⟨rfl, hnone⟩ | ⟨r, hr, rfl⟩
        · exact ⟨.nil, fun p hp => absurd hp (not_or.mpr ⟨hdecided p, hnone p⟩)⟩
        · refine ⟨List.pairwise_singleton _ _, fun p hp => ?_⟩
          obtain ⟨-, hunique⟩ := h.resolve_left fun h' => h' r hr
          rw [hunique.unique hr (hp.resolve_left (hdecided p))]
          simp
    · intro first second first' second' conflicts dest conflicts' dest' hrun hrun'
      rcases conflicts_of_merge hb hl hr hrun with ⟨⟨q, hq⟩, rfl⟩ | ⟨hdecided, hone⟩
      · rcases conflicts_of_merge hb hl hr hrun' with ⟨-, rfl⟩ | ⟨hdecided, -⟩
        · refine sorted_bytes_eq ?_
          simp only [selectPaths, (foldl_selectPath _ _).2, List.nil_append]
          exact ((first.perm _).trans (first'.perm _).symm).filter _
        · exact absurd hq (hdecided q)
      · rcases conflicts_of_merge hb hl hr hrun' with ⟨⟨q, hq⟩, -⟩ | ⟨-, hone'⟩
        · exact absurd hq (hdecided q)
        · rcases hone with ⟨rfl, hnone⟩ | ⟨p, hp, rfl⟩
          · rcases hone' with ⟨rfl, -⟩ | ⟨p, hp, -⟩
            · rfl
            · exact absurd hp (hnone p)
          · rcases hone' with ⟨-, hnone⟩ | ⟨p', hp', rfl⟩
            · exact absurd hp (hnone p)
            · obtain ⟨-, hunique⟩ := h.resolve_left fun h' => h' p hp
              rw [hunique.unique hp hp']

end reported

section runs

theorem name_d : Name (text "d") := by decide

theorem name_g : Name (text "g") := by decide

def directoryD : FileName := ⟨text "d", name_d⟩

def fileG : FileName := ⟨text "g", name_g⟩

def inDirectory (names : List FileName) : Snapshot :=
  let directory := (empty.create [directoryD] (.dir 0o755)).getD empty
  .tree (names.foldl (fun t n => (t.create [directoryD, n] (.file 0o644 [])).getD t) directory)

def Visit.reversed : Visit := ⟨List.reverse, List.reverse_perm⟩

theorem stranded_inDirectory [Sha256] {n : FileName} (h : n = fileF ∨ n = fileG) :
    Stranded (inDirectory []) (inDirectory [fileF, fileG]) (.tree empty) [directoryD, n] := by
  have hbase : (inDirectory []).IsDirAt [directoryD] := ⟨_, rfl, rfl⟩
  have hremote : ¬ (Snapshot.tree empty).IsDirAt [directoryD] := by
    rintro ⟨d, hd, -⟩
    cases hd
  have hnode : ∃ node, (inDirectory [fileF, fileG]).nodeAt [directoryD, n] = some node := by
    rcases h with rfl | rfl
    · exact ⟨_, rfl⟩
    · exact ⟨_, rfl⟩
  obtain ⟨node, hnode⟩ := hnode
  refine ⟨?_, .inl ⟨by simp [hnode], [directoryD], ⟨[n], rfl⟩, by simp, by simp, hbase, hremote⟩⟩
  have hold : (inDirectory []).nodeAt [directoryD, n] = none := by
    rcases h with rfl | rfl
    · rfl
    · rfl
  have hnew : (Snapshot.tree empty).nodeAt [directoryD, n] = none := rfl
  simp [chosen, chosenAt, choose, hnode, hold, hnew, sameTreeNode]

/-- Two new files in a directory that the other side has removed: one of them is
reported, and which one depends on the order. -/
theorem one_of_two_stranded :
    letI := Sha256.spelled
    Stranded (inDirectory []) (inDirectory [fileF, fileG]) (.tree empty) [directoryD, fileF] ∧
    Stranded (inDirectory []) (inDirectory [fileF, fileG]) (.tree empty) [directoryD, fileG] ∧
    (mergePlaintextTrees (masked 0o022) (inDirectory []) (inDirectory [fileF, fileG])
      (.tree empty)).map
        Prod.fst = .ok [text "d/g"] ∧
    (mergePlaintextTrees { masked 0o022 with second := .reversed } (inDirectory [])
      (inDirectory [fileF, fileG]) (.tree empty)).map
        Prod.fst = .ok [text "d/f"] := by
  let _ := Sha256.spelled
  exact ⟨stranded_inDirectory (.inl rfl), stranded_inDirectory (.inr rfl), by decide +kernel,
    by decide +kernel⟩

/-- Both sides add a file under one name: every order reports it. -/
theorem conflicts_complete_added :
    letI := Sha256.spelled
    (mergePlaintextTrees (masked 0o022) .absent (oneFile 0o600 [1]) (oneFile 0o600 [2])).map
        Prod.fst = .ok [text "f"] ∧
    ∀ first second conflicts dest,
      mergePlaintextTrees { masked 0o022 with first, second } .absent (oneFile 0o600 [1])
        (oneFile 0o600 [2]) = .ok (conflicts, dest) → Complete .absent (oneFile 0o600 [1])
          (oneFile 0o600 [2]) conflicts := by
  let _ := Sha256.spelled
  obtain ⟨localNodes, hl⟩ := exists_of_isOk (x := scanPlaintextTree (oneFile 0o600 [1]))
    (by decide +kernel)
  obtain ⟨remoteNodes, hr⟩ := exists_of_isOk (x := scanPlaintextTree (oneFile 0o600 [2]))
    (by decide +kernel)
  have hstranded : ∀ p, ¬ Stranded .absent (oneFile 0o600 [1]) (oneFile 0o600 [2]) p := by
    rintro p ⟨-, ⟨-, q, -, -, -, ⟨d, hd, -⟩, -⟩ | ⟨-, q, -, -, -, ⟨d, hd, -⟩, -⟩⟩
    · cases hd
    · cases hd
  exact ⟨by decide +kernel,
    ((conflicts_complete_iff (masked 0o022) .absent _ _ ∅ localNodes remoteNodes rfl hl hr).mpr
      (.inl hstranded)).1⟩

end runs

end MaltClient.Backup
