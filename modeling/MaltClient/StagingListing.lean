import MaltClient.StagingOverlay

/-! The listing of a directory through the overlay: the candidates cover every
name in the directory, and looking each one up leaves exactly those. -/

namespace MaltClient.Staging

open GoText Checked
open Journal (Operation)
open Planner (Means)
open StagedPath (PathName)
open PathFs (Fs Op Found)

section

variable {κ : Type}

/-- A listing of a directory: its names with their kinds, each once, in the
order of their bytes. -/
structure ListsExactly (F : Fs GoString κ) (d : List GoString) (entries : List DirEntry) :
    Prop where
  exact : ∀ n k, ⟨n, k⟩ ∈ entries ↔ ∃ e, F (d ++ [n]) = some e ∧ kindOf e = k
  nodup : (entries.map DirEntry.name).Nodup
  sorted : (entries.map DirEntry.name).Pairwise fun a b => leBytes (bytes a) (bytes b) = true

instance : Std.Total fun a b : GoString => leBytes (bytes a) (bytes b) = true :=
  ⟨fun a b => leBytes_total (bytes a) (bytes b)⟩

instance : IsTrans GoString fun a b => leBytes (bytes a) (bytes b) = true :=
  ⟨fun _ _ _ => leBytes_trans⟩

def present (F : Fs GoString κ) (d : List GoString) (names : List GoString) : List DirEntry :=
  names.filterMap fun n => (F (d ++ [n])).map fun e => { name := n, kind := kindOf e }

theorem map_name_present (F : Fs GoString κ) (d names : List GoString) :
    (present F d names).map DirEntry.name = names.filter fun n => (F (d ++ [n])).isSome := by
  induction names with
  | nil => rfl
  | cons n names ih =>
    unfold present at ih ⊢
    cases hn : F (d ++ [n]) <;> simp [hn, ih]

theorem listsExactly_present {F : Fs GoString κ} {d names : List GoString} (hnd : names.Nodup)
    (hall : ∀ n, F (d ++ [n]) ≠ none → n ∈ names) :
    ListsExactly F d (present F d (sortNames names)) where
  exact n k := by
    simp only [present, List.mem_filterMap, Option.map_eq_some_iff, DirEntry.mk.injEq]
    constructor
    · rintro ⟨m, -, e, he, rfl, rfl⟩
      exact ⟨e, he, rfl⟩
    · rintro ⟨e, he, rfl⟩
      exact ⟨n, (List.mem_insertionSort _).mpr (hall n (by simp [he])), e, he, rfl, rfl⟩
  nodup := by
    rw [map_name_present]
    exact ((List.perm_insertionSort _ names).nodup_iff.mpr hnd).filter _
  sorted := by
    rw [map_name_present]
    exact (List.pairwise_insertionSort _ names).filter _

end

variable [CidFormat] [PayloadHash] {κ : Type} {ofPayload : Cid → κ} {service : Service}
  {cache : Cache.Store}
  {view : View} {F : Fs GoString κ} {L : List Operation} {ops : List (Op GoString κ)}

variable {d : List GoString}

theorem Overlay.listCandidates_eq (h : Overlay service cache view F ofPayload L ops)
    {names : List GoString} (hd : ∀ n ∈ d, PathName n) (hn : ∀ n ∈ names, PathName n)
    (hdir : replayed F ops d = some .dir) : listCandidates service cache view L (join d) names =
      .ok (present (replayed F ops) d names) := by
  induction names with
  | nil => rfl
  | cons n names ih =>
    have hnames : ∀ m ∈ d ++ [n], PathName m := fun m hm =>
      (List.mem_append.mp hm).elim (hd m) fun he => hn m (by simp_all)
    have hjoin : joinPath (join d) n = join (d ++ [n]) := by
      have hj := joinPath_join (a := d) (r := [n]) (fun m hm => (hd m hm).name.plain)
        fun m hm => (hnames m (List.mem_append_right _ hm)).name.plain
      exact hj
    have hrest := ih fun m hm => hn m (by simp [hm])
    unfold listCandidates
    rw [hjoin]
    cases he : replayed F ops (d ++ [n]) with
    | none =>
      have habs := h.resolveAt_absent hnames hdir he
      simpa [statAt, habs, bind, Except.bind, present, he] using hrest
    | some e =>
      obtain ⟨node, hnode, hshows⟩ := h.resolveAt_some hnames he
      simp only [statAt, hnode, bind, Except.bind, pure, Except.pure, hrest, hshows.kind, present,
        List.filterMap_cons, he, Option.map_some]

theorem mem_baseCandidates (h : Overlay service cache view F ofPayload L ops) {r : List GoString}
    (hd : ∀ m ∈ d, Plain m) (hr : F r = some .dir) (node : ResolvedNode)
    (hlocal : node.isLocal = false) (hpath : node.remotePath = join r) :
    ∃ cs, baseCandidates service view L (join d) node = .ok cs ∧ cs.Nodup ∧
      ∀ n, n ∈ cs ↔ ∃ m q, F (r ++ [m]) ≠ none ∧ PathFs.forward ops (r ++ [m]) = some q ∧
        d ++ [n] <+: q := by
  obtain ⟨entries, hread, hlisted⟩ := h.serves.listed r hr
  have hmem (e : DirEntry) (he : e ∈ entries) : F (r ++ [e.name]) ≠ none :=
    (hlisted e.name).mp (List.mem_map_of_mem he)
  have hplain : ∀ p ∈ entries.map fun e => r ++ [e.name], ∀ m ∈ p, Plain m := by
    intro p hp m hm
    obtain ⟨e, he, rfl⟩ := List.mem_map.mp hp
    exact (h.serves.names _ (hmem e he) m hm).name.plain
  have hfold :
    entries.foldl (fun cs e => addForwarded cs (join d) (joinPath (join r) e.name) L) [] =
      ((entries.map fun e => r ++ [e.name]).map join).foldl (fun cs path => addForwarded cs (join d)
        path L) [] := by
    rw [List.map_map, List.foldl_map]
    refine List.foldl_ext _ _ _ fun cs e he => ?_
    have hj := joinPath_join (a := r) (r := [e.name])
      (fun m hm => hplain _ (List.mem_map_of_mem he) m (List.mem_append_left _ hm))
      fun m hm => hplain _ (List.mem_map_of_mem he) m (List.mem_append_right _ hm)
    exact congrArg (fun path => addForwarded cs (join d) path L) hj
  refine ⟨entries.foldl (fun cs e => addForwarded cs (join d) (joinPath (join r) e.name) L) [],
    ?_, ?_, fun n => ?_⟩
  · simp only [baseCandidates, hlocal, hpath, hread, bind, Except.bind, pure, Except.pure,
      Bool.false_eq_true, if_false]
  · exact hfold ▸ nodup_foldl_addForwarded List.nodup_nil _ _ _
  · rw [hfold, mem_foldl_addForwarded h.means hd hplain]
    simp only [List.not_mem_nil, false_or, List.mem_filterMap, List.mem_map]
    constructor
    · rintro ⟨q, ⟨p, ⟨e, he, rfl⟩, hq⟩, hpre⟩
      exact ⟨e.name, q, hmem e he, hq, hpre⟩
    · rintro ⟨m, q, hm, hq, hpre⟩
      obtain ⟨e, he, rfl⟩ := List.mem_map.mp ((hlisted m).mpr hm)
      exact ⟨q, ⟨_, ⟨e, he, rfl⟩, hq⟩, hpre⟩

theorem Overlay.candidates (h : Overlay service cache view F ofPayload L ops)
    (hd : ∀ n ∈ d, PathName n) (hdir : replayed F ops d = some .dir) :
    ∃ node cs, resolveAt service cache view L L.length (join d) = .ok node ∧ node.info.kind = .dir ∧
      baseCandidates service view L (join d) node = .ok cs ∧
      (addTargets (join d) (L.drop node.createdAt) cs).Nodup ∧
      (∀ n ∈ addTargets (join d) (L.drop node.createdAt) cs, PathName n) ∧
      ∀ n, replayed F ops (d ++ [n]) ≠ none → n ∈ addTargets (join d)
        (L.drop node.createdAt) cs := by
  have hpl : ∀ m ∈ d, Plain m := fun m hm => (hd m hm).name.plain
  have ha := h.agrees hd
  have he := h.entry d
  have hgather (n : GoString) (hn : replayed F ops (d ++ [n]) ≠ none) :=
    PathFs.gathered_of_child h.serves.wellFormed h.valid hdir hn
  have hstaged : ∀ op ∈ ops, ∀ p ∈ PathFs.targets op, ∀ m ∈ p, PathName m := fun op ho p hp m hm =>
    (staged_targets h.means op ho p hp m hm).pathName
  have hlast {n : GoString} {q : List GoString} (hpre : d ++ [n] <+: q) : n ∈ q :=
    hpre.subset (by simp)
  rw [hdir] at he
  unfold PathFs.Gathered at hgather
  rw [List.reverse_reverse] at hgather
  have hdrop (k : Nat) : List.Forall₂ (Means ofPayload) (L.drop k) (ops.drop k) :=
    List.forall₂_drop k h.means
  have hgathered (k : Nat) {q : List GoString} (hq : q ∈ PathFs.gathered (ops.drop k)) :
    ∀ m ∈ q, PathName m :=
    PathFs.names_gathered (fun op ho => hstaged op (List.mem_of_mem_drop ho)) hq
  generalize PathFs.resolve ops.reverse d = x at ha he hgather
  generalize resolveAt service cache view L L.length (join d) = y at ha
  cases ha with
  | notFound => simp [Found.entry] at he
  | notDirectory => simp [Found.entry] at he
  | written c b node kind isLocal binding cid => simp [Found.entry] at he
  | made k node kind isLocal createdAt =>
    refine ⟨node, [], rfl, kind, by simp [baseCandidates, isLocal, pure, Except.pure],
      nodup_addTargets List.nodup_nil _ _, fun n hn => ?_, fun n hn => ?_⟩
    · rw [mem_addTargets (hdrop node.createdAt) hpl] at hn
      obtain ⟨q, hq, hpre⟩ := hn.resolve_left (by simp)
      exact hgathered _ hq n (hlast hpre)
    · rw [mem_addTargets (hdrop node.createdAt) hpl, createdAt]
      rcases hgather n hn with hg | ⟨r, hr, -⟩
      · exact .inr ⟨_, hg, List.prefix_refl _⟩
      · simp at hr
  | based r names =>
    have hr : F r = some .dir := he
    obtain ⟨info, hstat, hkind⟩ := h.serves.found r .dir hr
    rw [stat_based hstat]
    obtain ⟨cs, hcs, hnd, hmem⟩ := mem_baseCandidates h hpl hr
      { info := { info with path := join d, name := baseName (join d) }
        isLocal := false, remotePath := join r, binding := none, createdAt := 0 } rfl rfl
    refine ⟨_, cs, rfl, hkind, hcs, nodup_addTargets hnd _ _, fun n hn => ?_, fun n hn => ?_⟩
    · rw [mem_addTargets (hdrop 0) hpl] at hn
      rcases hn with hn | ⟨q, hq, hpre⟩
      · obtain ⟨m, q, hm, hq, hpre⟩ := (hmem n).mp hn
        exact PathFs.names_forward hstaged (h.serves.names _ hm) hq n (hlast hpre)
      · exact hgathered _ hq n (hlast hpre)
    · rw [mem_addTargets (hdrop 0) hpl, hmem]
      rcases hgather n hn with hg | ⟨r', hr', hex, hf⟩
      · exact .inr ⟨_, hg, List.prefix_refl _⟩
      · obtain rfl : r = r' := by simpa using hr'
        exact .inl ⟨n, _, hex, hf, List.prefix_refl _⟩

theorem Overlay.readDirAt_eq (h : Overlay service cache view F ofPayload L ops)
    (hd : ∀ n ∈ d, PathName n) (hdir : replayed F ops d = some .dir) :
    ∃ entries, readDirAt service cache view L (join d) = .ok entries ∧
      ListsExactly (replayed F ops) d entries := by
  obtain ⟨node, cs, hnode, hkind, hcs, hnd, hnames, hall⟩ := h.candidates hd hdir
  have hsorted :
    ∀ n ∈ sortNames (addTargets (join d) (L.drop node.createdAt) cs), PathName n := fun n hn =>
    hnames n ((List.mem_insertionSort _).mp hn)
  refine ⟨_, ?_, listsExactly_present hnd hall⟩
  simp only [readDirAt, hnode, hkind, hcs, reject, bind, Except.bind, ne_eq,
    not_true_eq_false, if_false, h.listCandidates_eq hd hsorted hdir]

end MaltClient.Staging
