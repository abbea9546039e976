import MaltClient.EncryptedRestore

/-! Where the links of a restored binding lead. Each target is checked by its
spelling and alone, but a parent is taken where the walk stands. -/

namespace MaltClient.EncryptedUnixFs

open GoText Checked FileTree

/-- What the manifests of a binding store below an entry of the given type. -/
def storedWay : EntryType → Sealed → List FileName → Way GoString
  | .directory, _, [] => .into
  | .symlink, .file manifest _, [] => .along manifest.linkTarget
  | .directory, .directory manifest child, n :: p =>
    match manifest.entries.find? fun e => e.name = n.val with
    | none => .blocked
    | some e => storedWay e.type (child e.token) p
  | _, _, _ => .blocked

section restored

/-- A tree has at a path what a binding stores, with targets that pass the check,
and elsewhere what another tree has. -/
structure Restored (type : EntryType) (binding : Sealed) (p : List FileName)
    (tree tree' : RestoredTree) : Prop where
  below : ∀ q, tree'.way (p ++ q) = storedWay type binding q
  apart : ∀ q, ¬ p <+: q → tree'.way q = tree.way q
  valid : ∀ q target, storedWay type binding q = .along target →
    ∃ portable, validateSymlinkTarget (relative (p ++ q)) target = .ok portable

variable {os : System} {tree tree' : RestoredTree} {p : List FileName}
  {o : Object UInt32 (List UInt8) GoString}

theorem way_of_create (hp : p ≠ []) (h : create os (relative p) o tree = .ok tree')
    (q : List FileName) : tree'.way q = if q = p then o.way else tree.way q := by
  simp only [create, ok_iff] at h
  obtain ⟨_, -, p', hp', hcreate⟩ := h
  rw [components_relative hp] at hp'
  cases hp'
  exact way_create hp hcreate q

theorem way_of_chmod {target : GoString} {mode : UInt32} (h : chmod os target mode tree = .ok tree')
    (q : List FileName) : tree'.way q = tree.way q := by
  simp only [chmod, bind_eq_ok] at h
  obtain ⟨_, -, h⟩ := h
  cases hp : components target with
  | none =>
    rw [hp] at h
    exact pure_eq_ok.mp h ▸ rfl
  | some p =>
    rw [hp] at h
    rw [← pure_eq_ok.mp h, way_chmod]

theorem relative_concat (p : List FileName) (n : FileName) :
    pathJoin [relative p, n.val] = relative (p ++ [n]) := by
  have hnames : ∀ m ∈ p.map Subtype.val, Name m := by
    intro m hm
    obtain ⟨q, -, rfl⟩ := List.mem_map.mp hm
    exact q.2
  rw [relative, pathJoin_name hnames n.2, relative, List.map_append]
  rfl

variable {type : EntryType} {binding : Sealed}

/-- Nothing is stored below a file or a link. -/
theorem restored_leaf (hfresh : ∀ n q, tree.way (p ++ n :: q) = .blocked)
    (htype : type ≠ .directory)
    (hway : ∀ q, tree'.way q = if q = p then storedWay type binding [] else tree.way q)
    (hvalid : ∀ target, storedWay type binding [] = .along target →
      ∃ portable, validateSymlinkTarget (relative p) target = .ok portable) :
        Restored type binding p tree tree' := by
  have hbelow (n : FileName) (q : List FileName) : storedWay type binding (n :: q) = .blocked := by
    cases type with
    | directory => exact absurd rfl htype
    | _ => simp [storedWay]
  refine ⟨fun q => ?_, fun q hq => ?_, fun q target h => ?_⟩
  · rw [hway]
    cases q with
    | nil => simp
    | cons n q => simp [hfresh, hbelow]
  · rw [hway, if_neg]
    rintro rfl
    exact hq (List.prefix_refl _)
  · cases q with
    | nil => simpa using hvalid target h
    | cons n q =>
      rw [hbelow] at h
      cases h

theorem restored_restoreFile (hp : p ≠ []) (hfresh : ∀ n q, tree.way (p ++ n :: q) = .blocked)
    (htype : type = .file ∨ type = .symlink)
    (h : restoreFile os type (relative p) tree binding = .ok tree') :
    Restored type binding p tree tree' := by
  cases binding with
  | unreadable => simp [restoreFile] at h
  | directory manifest child => simp [restoreFile] at h
  | file manifest body =>
    simp only [restoreFile, bind_eq_ok] at h
    obtain ⟨_, -, _, -, h⟩ := h
    rcases htype with rfl | rfl
    · simp only [reduceCtorEq, if_false, restoreRegularFile, bind_eq_ok] at h
      obtain ⟨_, -, tree₁, hcreate, hchmod⟩ := h
      refine restored_leaf hfresh (by simp) (fun q => ?_) (fun target h => by cases h)
      rw [way_of_chmod hchmod, way_of_create hp hcreate]
      rfl
    · simp only [if_true, bind_eq_ok] at h
      obtain ⟨portable, hportable, hcreate⟩ := h
      refine restored_leaf hfresh (by simp) (way_of_create hp hcreate) fun target h =>
        ⟨portable, ?_⟩
      cases h
      exact hportable

variable {manifest : DirectoryManifest} {child : GoString → Sealed} {done : List DirectoryEntry}
  {entry : DirectoryEntry}

theorem find?_name_eq_none {name : GoString} (hnew : name ∉ done.map DirectoryEntry.name) :
    done.find? (fun e => e.name = name) = none := by
  rw [List.find?_eq_none]
  intro e he hname
  exact hnew (List.mem_map.mpr ⟨e, he, of_decide_eq_true hname⟩)

theorem storedWay_concat (hnew : entry.name ∉ done.map DirectoryEntry.name) (n : FileName)
    (q : List FileName) :
    storedWay .directory (.directory { manifest with entries := done ++ [entry] } child) (n :: q) =
      if n.val = entry.name then storedWay entry.type (child entry.token) q
      else storedWay .directory (.directory { manifest with entries := done } child) (n :: q) := by
  rw [storedWay, storedWay, List.find?_append]
  split_ifs with hn
  · simp [hn, find?_name_eq_none hnew]
  · simp [Ne.symm hn]

theorem Restored.concat {n : FileName} (hn : n.val = entry.name)
    (hnew : entry.name ∉ done.map DirectoryEntry.name) {tree₁ : RestoredTree}
    (h : Restored .directory (.directory { manifest with entries := done } child) p tree tree₁)
    (hentry : Restored entry.type (child entry.token) (p ++ [n]) tree₁ tree') :
    Restored .directory (.directory { manifest with entries := done ++ [entry] } child) p
      tree tree' := by
  refine ⟨fun q => ?_, fun q hq => ?_, fun q target hway => ?_⟩
  · cases q with
    | nil =>
      have hlonger : ¬ p ++ [n] <+: p ++ [] := fun hpre => by simpa using hpre.length_le
      rw [hentry.apart _ hlonger, h.below]
      rfl
    | cons m q =>
      rw [storedWay_concat hnew]
      split_ifs with hm
      · rw [List.append_cons, Subtype.ext (hm.trans hn.symm), hentry.below]
      · rw [hentry.apart _ (by
          simp only [List.prefix_append_right_inj, List.cons_prefix_cons, List.nil_prefix, and_true]
          exact fun he => hm (he ▸ hn)), h.below]
  · rw [hentry.apart q fun hpre => hq ((List.prefix_append p [n]).trans hpre), h.apart q hq]
  · cases q with
    | nil => cases hway
    | cons m q =>
      rw [storedWay_concat hnew] at hway
      split_ifs at hway with hm
      · rw [List.append_cons, Subtype.ext (hm.trans hn.symm)]
        exact hentry.valid q target hway
      · exact h.valid _ target hway

theorem name_of_entryName {name : GoString} (h : validateEntryName name = .ok ()) : Name name := by
  have hname := reject_eq_ok.mp h
  push Not at hname
  obtain ⟨-, hne, hdot, hdotDot, -, hslash, -⟩ := hname
  exact ⟨⟨hne, hslash⟩, hdot, hdotDot⟩

variable [BindingSecret]

theorem restored_restoreDirectory (hfresh : ∀ q, tree.way (p ++ q) = if q = [] then .into
    else .blocked)
    (h : restoreDirectory os binding (relative p) tree = .ok tree') :
    Restored .directory binding p tree tree' := by
  induction binding generalizing p tree tree' with
  | unreadable => simp [restoreDirectory] at h
  | file manifest body => simp [restoreDirectory] at h
  | directory manifest child ih =>
    simp only [restoreDirectory, openDirectoryAt, validateDirectoryManifest, bind_eq_ok] at h
    obtain ⟨_, ⟨_, ⟨_, -, hvalid⟩, -⟩, tree₁, hentries, hchmod⟩ := h
    obtain ⟨hnames, hnodup, -⟩ := validateEntries_eq_ok hvalid
    suffices hall :
      Restored .directory (.directory { manifest with entries := manifest.entries } child) p
        tree tree₁ by
      refine ⟨fun q => ?_, fun q hq => ?_, hall.valid⟩
      · rw [way_of_chmod hchmod, hall.below]
      · rw [way_of_chmod hchmod, hall.apart q hq]
    refine foldlM_invariant (fun done t =>
      Restored .directory (.directory { manifest with entries := done } child) p tree t)
        hentries ?_ ?_
    · refine ⟨fun q => ?_, fun q _ => rfl, fun q target hway => ?_⟩
      · rw [hfresh]
        cases q <;> rfl
      · cases q <;> cases hway
    · intro done entry todo t t' hsplit ht hstep
      have hnew : entry.name ∉ done.map DirectoryEntry.name := by
        rw [hsplit, List.map_append, List.map_cons, List.nodup_append] at hnodup
        exact fun hmem => hnodup.2.2 _ hmem _ (by simp) rfl
      have hname : Name entry.name := name_of_entryName (hnames entry (by simp [hsplit])).1
      obtain ⟨n, hn⟩ : ∃ n : FileName, n.val = entry.name := ⟨⟨entry.name, hname⟩, rfl⟩
      have htarget : pathJoin [relative p, entry.name] = relative (p ++ [n]) :=
        hn ▸ relative_concat p n
      have hblocked (q : List FileName) : t.way (p ++ [n] ++ q) = .blocked := by
        rw [← hn] at hnew
        rw [List.append_assoc, List.singleton_append, ht.below, storedWay, find?_name_eq_none hnew]
      refine ht.concat hn hnew ?_
      simp only [htarget] at hstep
      cases htype : entry.type with
      | directory =>
        simp only [htype, bind_eq_ok] at hstep
        obtain ⟨t₁, hcreate, hchild⟩ := hstep
        have hway := way_of_create (by simp) hcreate
        have hfresh' (q : List FileName) :
          t₁.way (p ++ [n] ++ q) = if q = [] then .into else .blocked := by
          rw [hway, hblocked]
          simp only [List.append_right_eq_self, Object.way]
        have hall := ih entry.token hfresh' hchild
        refine ⟨hall.below, fun q hq => ?_, hall.valid⟩
        rw [hall.apart q hq, hway, if_neg]
        rintro rfl
        exact hq (List.prefix_refl _)
      | file =>
        simp only [htype] at hstep
        exact restored_restoreFile (by simp) (fun _ _ => hblocked _) (.inl rfl) hstep
      | symlink =>
        simp only [htype] at hstep
        exact restored_restoreFile (by simp) (fun _ _ => hblocked _) (.inr rfl) hstep
      | other value => simp [htype] at hstep

theorem restored_restoreBindingRoot {restoreRoot : RestoredTree}
    (h : restoreBindingRoot os binding restoreRoot = .ok tree) :
    Restored .directory binding [] restoreRoot tree := by
  simp only [restoreBindingRoot, ok_iff, not_not] at h
  obtain ⟨_, hempty, h⟩ := h
  refine restored_restoreDirectory (fun q => ?_) h
  cases q with
  | nil => rfl
  | cons n q =>
    have hnone : restoreRoot.lookup (n :: q) = none := by
      rw [Tree.lookup, AList.lookup_eq_none, AList.mem_keys, AList.keys,
        List.length_eq_zero_iff.mp hempty]
      simp
    rw [List.nil_append, Tree.way, hnone]
    simp

end restored

section targets

theorem foldl_cleanStep_lexical {segs : List GoString} (hs : ∀ seg ∈ segs, slash ∉ seg)
    {p q : List FileName} (h : lexical p (segs.map component) = some q) :
    segs.foldl (cleanStep false) (p.map Subtype.val).reverse = (q.map Subtype.val).reverse := by
  induction segs generalizing p with
  | nil =>
    cases h
    rfl
  | cons seg segs ih =>
    have hrest {r : List FileName} (h : lexical r (segs.map component) = some q) :=
      ih (fun s hm => hs s (by simp [hm])) h
    rw [List.map_cons, component] at h
    split_ifs at h with hname hup
    · rw [lexical] at h
      rw [List.foldl_cons, cleanStep_name hname, ← hrest h]
      simp
    · rw [lexical] at h
      split_ifs at h with hp
      rw [List.foldl_cons, ← hrest h, hup]
      obtain ⟨r, n, rfl⟩ := List.eq_nil_or_concat' p |>.resolve_left hp
      have hn : n.val ≠ dotDot := n.2.2.2
      simp [cleanStep_dotDot_cons, hn]
    · rw [lexical] at h
      have hskip : seg = [] ∨ seg = dot := by
        by_contra hnot
        push Not at hnot
        exact hname ⟨⟨hnot.1, hs seg (by simp)⟩, hnot.2, hup⟩
      rw [List.foldl_cons, cleanStep_skip hskip, hrest h]

/-- By its spelling a target that passes the check takes no parent at the
root. -/
theorem lexical_of_validated {p : List FileName} {n : FileName} {target portable : GoString}
    (h : validateSymlinkTarget (relative (p ++ [n])) target = .ok portable) :
    ∃ cs, follow target = some cs ∧ ∀ pre post, cs = pre ++ .up :: post → lexical p pre ≠
      some [] := by
  simp only [validateSymlinkTarget, ok_iff, not_or, Bool.not_eq_true] at h
  obtain ⟨_, ⟨hne, habs, -⟩, _, ⟨hdd, hescape⟩, -⟩ := h
  refine ⟨_, by rw [follow, if_neg (by simp [habs])], fun pre post hcs hroot => ?_⟩
  obtain ⟨segs, rest, hsplit, rfl, hrest⟩ := List.map_eq_append_iff.mp hcs
  obtain ⟨seg, segs', rfl, hseg, -⟩ := List.map_eq_cons_iff.mp hrest
  obtain rfl : seg = dotDot := by
    rw [component] at hseg
    split_ifs at hseg with hname hup
    exact hup
  have hmem : ∀ s ∈ segs, slash ∉ s :=
    fun s hs => slash_notMem_of_mem_split (hsplit ▸ List.mem_append_left _ hs)
  set parent := dir (relative (p ++ [n])) with hparent
  have hstart : parent ≠ [] ∧ parent.head? ≠ some slash ∧
      (split parent).foldl (cleanStep false) [] = (p.map Subtype.val).reverse := by
    rw [hparent, dir_relative]
    split_ifs with hp
    · subst hp
      decide
    · refine ⟨join_ne_nil (map_val_ne_nil hp) (plain_relative p),
        head?_join_ne_slash (plain_relative p), ?_⟩
      rw [split_relative hp, foldl_cleanStep_names, List.append_nil]
      intro m hm
      obtain ⟨q, -, rfl⟩ := List.mem_map.mp hm
      exact q.2
  obtain ⟨hnil, hrel, hfold⟩ := hstart
  have hjoin : pathJoin [parent, target] = clean (parent ++ slash :: target) := by
    simp [pathJoin, hnil, hne, join]
  have hlast :
    ((split (parent ++ slash :: target)).foldl (cleanStep false) []).getLast? = some dotDot := by
    rw [split_append_slash, hsplit, List.foldl_append, List.foldl_append, hfold,
      foldl_cleanStep_lexical hmem hroot]
    exact getLast?_foldl_cleanStep segs' rfl
  have hhead :
    (parent ++ slash :: target).head? ≠ some slash := by rwa [List.head?_append_of_ne_nil _ hnil]
  rw [hjoin] at hdd hescape
  rcases clean_clean_dotDot hhead hlast with heq | hprefix
  · exact hdd heq
  · rw [hasPrefix_iff.mpr hprefix] at hescape
    cases hescape

end targets

/-- The walks along the names of the restored tree stay inside exactly if no
stored target, after a component that is a stored link, takes a parent where the
stored directories and links have led it to the root. -/
theorem restoreBindingRoot_contained_iff [BindingSecret] (os : System) (binding : Sealed)
    (restoreRoot tree : RestoredTree) (h : restoreBindingRoot os binding restoreRoot = .ok tree) :
    (∀ names : List FileName, Safe tree.way follow (.inside [] (names.map .name))) ↔
      ∀ p n target, storedWay .directory binding (p ++ [n]) = .along target →
        ∀ cs, follow target = some cs →
          ¬ TurnsPastLink (storedWay .directory binding) follow p cs := by
  have hrestored := restored_restoreBindingRoot h
  have hway : tree.way = storedWay .directory binding := funext hrestored.below
  rw [safe_names_iff, hway, LinkTurns]
  constructor
  · intro hnot p n target hlink cs hcs hturns
    refine hnot ⟨p, n, target, hlink, fun cs' hcs' => ?_⟩
    rw [← Option.some.inj (hcs.symm.trans hcs')]
    exact hturns.turns
  · rintro hall ⟨p, n, target, hlink, hturns⟩
    obtain ⟨portable, hportable⟩ := hrestored.valid _ _ hlink
    obtain ⟨cs, hcs, hlexical⟩ := lexical_of_validated hportable
    exact hall p n target hlink cs hcs ((hturns cs hcs).past_link hlexical)

section bindings

@[reducible] def spelledSecret : BindingSecret :=
  ⟨fun _ name => text "e1-aaaaaaaaaaaaaaaaaaaaaaaaaaaaaaaaaaaaaaaaaaaaaaaaaaa" ++ name⟩

def plainSystem : System := { umask := 0o022, linkMode := 0o777, fails := fun _ => false }

def listing (entries : List (String × EntryType)) (child : GoString → Sealed) : Sealed :=
  .directory
    { profile := profileID, version := profileVersion, kind := .directory, mode := 0o755
      entries := entries.map fun e => ⟨text e.1, e.2, spelledSecret.entryToken [] (text e.1)⟩ }
    child

def linkTo (target : String) : Sealed :=
  .file
    { profile := profileID, version := profileVersion, kind := .symlink, mode := 0o777, size := 0,
      storage := .unset
      plaintextChunkSize := 0, ciphertextChunkSize := 0, ciphertextSize := 0, chunkCount := 0
      linkTarget := text target }
    none

/-- A directory `d` with a link to its parent, and a link at the root. -/
def twoLinks (target : String) : Sealed :=
  listing [("d", .directory), ("m", .symlink)] fun token =>
    if token.getLast? = some (.char 'd') then listing [("l", .symlink)] fun _ => linkTo ".."
      else linkTo target

theorem exists_of_listing {entries : List (String × EntryType)} {child : GoString → Sealed}
    {q : List FileName}
    {target : GoString} (h : storedWay .directory (listing entries child) q = .along target) :
    ∃ e ∈ entries, ∃ r, storedWay e.2 (child (spelledSecret.entryToken [] (text e.1))) r =
      .along target := by
  cases q with
  | nil => cases h
  | cons n q =>
    rw [listing, storedWay] at h
    split at h
    · cases h
    next e he =>
      obtain ⟨e, hmem, rfl⟩ := List.mem_map.mp (List.mem_of_find?_eq_some he)
      exact ⟨e, hmem, q, h⟩

theorem eq_of_linkTo {target : String} {q : List FileName} {target' : GoString}
    (h : storedWay .symlink (linkTo target) q = .along target') : target' = text target := by
  cases q with
  | nil =>
    cases h
    rfl
  | cons n q => cases h

theorem twoLinks_targets {target : String} {q : List FileName} {target' : GoString}
    (h : storedWay .directory (twoLinks target) q = .along target') :
    target' = text ".." ∨ target' = text target := by
  obtain ⟨e, he, r, hr⟩ := exists_of_listing h
  obtain rfl | rfl : e = ("d", .directory) ∨ e = ("m", .symlink) := by simpa using he
  · obtain ⟨e, he, r, hr⟩ := exists_of_listing hr
    obtain rfl : e = ("l", .symlink) := by simpa using he
    exact .inl (eq_of_linkTo hr)
  · exact .inr (eq_of_linkTo hr)

theorem name_m : Name (text "m") := by decide

/-- The root link is restored as a link to `d` with its first component, and all
walks stay inside. -/
theorem restoreBindingRoot_contained_dot :
    letI := spelledSecret
    ∃ tree, restoreBindingRoot plainSystem (twoLinks "./d") empty = .ok tree ∧
      ∀ names : List FileName, Safe tree.way follow (.inside [] (names.map .name)) := by
  let _ := spelledSecret
  have hok :
    (restoreBindingRoot plainSystem (twoLinks "./d") empty).isOk = true := by decide +kernel
  obtain ⟨tree, htree⟩ := exists_of_isOk hok
  refine ⟨tree, htree, (restoreBindingRoot_contained_iff _ _ _ tree htree).mpr
    fun p n target hl cs hcs => ?_⟩
  rintro ⟨pre, n, mid, post, _, _, rfl, -⟩
  -- there is a parent after a name in neither target
  rcases twoLinks_targets hl with rfl | rfl
  · have hup : follow (text "..") = some [.up] := by decide
    rw [hup] at hcs
    cases pre with
    | nil => cases hcs
    | cons c pre => simp at hcs
  · have hup : Component.up ∉ (follow (text "./d")).getD [] := by decide
    simp [hcs] at hup

/-- A link through the link to the root and up from there: both targets pass the
check, and the walk leaves the tree. -/
theorem restored_link_escapes :
    letI := spelledSecret
    ∃ tree, restoreBindingRoot plainSystem (twoLinks "d/l/..") empty = .ok tree ∧
      Reaches tree.way follow (.inside [] [.name ⟨text "m", name_m⟩]) .outside := by
  let _ := spelledSecret
  have hwalk : (restoreBindingRoot plainSystem (twoLinks "d/l/..") empty).map (fun tree =>
      advance tree.way follow 5 (.inside [] [.name ⟨text "m", name_m⟩])) = .ok .outside := by
        decide +kernel
  obtain ⟨tree, htree, hout⟩ := map_eq_ok.mp hwalk
  exact ⟨tree, htree, hout ▸ reaches_advance 5 _⟩

end bindings

end MaltClient.EncryptedUnixFs
