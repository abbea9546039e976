import MaltClient.EncryptedFileReads

/-! The encrypted tree of a directory: every file of it is found under its path
and read back as the plaintext, whole and in ranges. -/

namespace MaltClient.EncryptedUnixFs

open GoText Checked Payloads Slices
open StagedPath (PathName parsePath_join)

section entries

theorem pathName_of_entryName {name : GoString} (h : validateEntryName name = .ok ()) :
    PathName name := by
  have hname := reject_eq_ok.mp h
  push Not at hname
  obtain ⟨hvalid, hne, hdot, hdotDot, hat, hslash, hback, hnul⟩ := hname
  have hrune {r : Rune} (hr : r ∉ name) : ∀ x ∈ name, ¬ x = r := fun x hx he => hr (he ▸ hx)
  refine ⟨?_, by simpa using hat⟩
  simp only [StagedPath.isPortableSegment, Bool.and_eq_true, decide_eq_true_eq,
    List.all_eq_true, ne_eq]
  exact ⟨⟨⟨⟨hne, hdot⟩, hdotDot⟩, by simpa using hvalid⟩,
    fun r hr => ⟨⟨hrune hnul r hr, hrune hslash r hr⟩, hrune hback r hr⟩⟩

theorem lookup_of_mem {α : Type} {l : List (GoString × α)} (hnodup : (l.map Prod.fst).Nodup)
    {name : GoString} {a : α} (h : (name, a) ∈ l) : l.lookup name = some a := by
  induction l with
  | nil => cases h
  | cons x l ih =>
    rw [List.map_cons, List.nodup_cons] at hnodup
    rcases List.mem_cons.mp h with rfl | h
    · simp
    · have hne : (name == x.1) = false := by
        rw [beq_eq_false_iff_ne]
        exact fun heq => hnodup.1 (heq ▸ List.mem_map.mpr ⟨_, h, rfl⟩)
      rw [List.lookup_cons, hne]
      exact ih hnodup.2 h

theorem findDirectoryEntry_of_mem {entries : List DirectoryEntry}
    (hnodup : (entries.map DirectoryEntry.name).Nodup)
    {entry : DirectoryEntry} (h : entry ∈ entries) :
    Reader.findDirectoryEntry entries entry.name = some entry := by
  induction entries with
  | nil => cases h
  | cons e entries ih =>
    rw [List.map_cons, List.nodup_cons] at hnodup
    rw [Reader.findDirectoryEntry, List.find?_cons]
    rcases List.mem_cons.mp h with rfl | h
    · simp
    · have hne : decide (e.name = entry.name) = false := by
        rw [decide_eq_false_iff_not]
        exact fun heq => hnodup.1 (heq ▸ List.mem_map.mpr ⟨_, h, rfl⟩)
      rw [hne]
      exact ih hnodup.2 h

end entries

section reads

variable {Key : Type} [Cipher Key] [CidFormat] [PayloadHash] [ChunkJson] [ManifestJson]
  {host : Host} {ctx : BuildContext Key} {b : Builder}

section built

omit [ChunkJson] in
theorem buildSymlink_eq_ok (hinj : Function.Injective rawCid) {relative target : GoString}
    {mode : UInt32}
    {s s' : Build} {root : Target} (h : buildSymlink host ctx relative mode target s =
      .ok (root, s')) :
    Keeps s.blocks s'.blocks ∧ ∃ portable d, validateSymlinkTarget relative target = .ok portable ∧
      validateFileManifest (linkManifest mode portable) = .ok () ∧
      root = .map [(payloadLabel, .block (rawCid d))] ∧
      IsSealed ctx (ctx.ids.file relative)
        (ManifestJson.encodeFile (linkManifest mode portable)) d ∧
      Holds s'.blocks d := by
  simp only [buildSymlink, ok_iff] at h
  obtain ⟨portable, hportable, _, haccepted, ⟨key, s₁⟩, hstore, root', hroot, heq⟩ := h
  cases heq
  obtain ⟨hkeeps, d, hd, rfl, hheld⟩ := storeFileManifest_eq_ok hinj hstore
  simp only [createStagedRoot, ok_iff] at hroot
  obtain ⟨_, -, rfl⟩ := hroot
  exact ⟨hkeeps, portable, d, hportable, haccepted, rfl, hd, hheld⟩

def directoryManifest (mode : UInt32) (entries : List DirectoryEntry) : DirectoryManifest :=
  { profile := profileID, version := profileVersion, kind := .directory, mode := mode
    entries := sortOn DirectoryEntry.name entries }

omit [ChunkJson] in
theorem storeDirectory_eq_ok (hinj : Function.Injective rawCid) {relativePath : GoString}
    {mode : UInt32} {listing : Listing} {s s' : Build} {root : Target}
    (h : storeDirectory host ctx mode relativePath listing s = .ok (root, s')) :
    Keeps s.blocks s'.blocks ∧ validateDirectoryManifest (directoryManifest mode listing.entries) =
      .ok () ∧ ∃ d, root = .map ((payloadLabel, .block (rawCid d)) :: listing.bindings) ∧
        IsSealed ctx (ctx.ids.directory relativePath)
          (ManifestJson.encodeDirectory (directoryManifest mode listing.entries)) d ∧
            Holds s'.blocks d := by
  simp only [storeDirectory, ok_iff] at h
  obtain ⟨_, haccepted, ⟨d, s₁⟩, hseal, ⟨key, s₂⟩, hput, root', hroot, heq⟩ := h
  cases heq
  obtain ⟨hd, hblocks⟩ := sealNext_eq_ok hseal
  obtain ⟨rfl, hheld, hkeeps⟩ := putVerified_eq_ok hinj hput
  simp only [createStagedRoot, ok_iff] at hroot
  obtain ⟨_, -, rfl⟩ := hroot
  rw [hblocks] at hkeeps
  exact ⟨hkeeps, haccepted, d, rfl, hd, hheld⟩

omit [ChunkJson] [ManifestJson] in
theorem keeps_buildChildren {children : List (GoString × Child Build)} {relativePath : GoString}
    {s s' : Build} {listing : Listing}
    (hchild : ∀ c ∈ children, ∀ relative s type root s', c.2 relative s = .ok (type, root, s') →
      Keeps s.blocks s'.blocks)
    (h : buildChildren ctx relativePath children s = .ok (listing, s')) :
    Keeps s.blocks s'.blocks := by
  induction children generalizing s listing with
  | nil =>
    rw [buildChildren, pure_eq_ok] at h
    rw [(Prod.mk.inj h).2]
    exact Keeps.refl _
  | cons c children ih =>
    simp only [buildChildren, ok_iff] at h
    obtain ⟨_, -, ⟨type, target, s₁⟩, hobject, ⟨listing', s₂⟩, hrest, heq⟩ := h
    cases heq
    exact (hchild c (by simp) _ _ _ _ _ hobject).trans
      (ih (fun c hc => hchild c (by simp [hc])) hrest)

mutual

theorem keeps_buildObject (hinj : Function.Injective rawCid) (hcipher : Cipher.Correct Key) :
    ∀ {source : Source} {relative : GoString} {s s' : Build} {type : EntryType} {root : Target},
      buildObject host ctx b source relative s = .ok (type, root, s') → Keeps s.blocks s'.blocks
  | .file f, relative, s, s', type, root, h => by
    simp only [buildObject, ok_iff] at h
    obtain ⟨⟨root', s₁⟩, hfile, heq⟩ := h
    obtain ⟨-, hrest⟩ := Prod.mk.inj heq
    cases hrest
    exact (buildFile_eq_ok hinj hcipher hfile).1
  | .symlink mode target, relative, s, s', type, root, h => by
    simp only [buildObject, ok_iff] at h
    obtain ⟨⟨root', s₁⟩, hlink, heq⟩ := h
    obtain ⟨-, hrest⟩ := Prod.mk.inj heq
    cases hrest
    exact (buildSymlink_eq_ok hinj hlink).1
  | .directory mode children, relative, s, s', type, root, h => by
    simp only [buildObject, ok_iff] at h
    obtain ⟨⟨listing, s₁⟩, hchildren, ⟨root', s₂⟩, hstore, heq⟩ := h
    obtain ⟨-, hrest⟩ := Prod.mk.inj heq
    cases hrest
    have hkept :=
      keeps_buildChildren (fun c hc => keeps_buildersOf hinj hcipher c
        ((sortOn_perm _ _).subset hc)) hchildren
    exact hkept.trans (storeDirectory_eq_ok hinj hstore).1
  | .unreadable, relative, s, s', type, root, h => by
    rw [buildObject] at h
    exact absurd h throw_ne_ok
  | .other, relative, s, s', type, root, h => by
    rw [buildObject] at h
    exact absurd h throw_ne_ok

theorem keeps_buildersOf (hinj : Function.Injective rawCid) (hcipher : Cipher.Correct Key) :
    ∀ {children : List (GoString × Source)}, ∀ c ∈ buildersOf host ctx b children,
      ∀ relative s type root s', c.2 relative s = .ok (type, root, s') → Keeps s.blocks s'.blocks
  | [], c, hc => by
    rw [buildersOf] at hc
    cases hc
  | (name, child) :: children, c, hc => by
    rw [buildersOf] at hc
    rcases List.mem_cons.mp hc with rfl | hc
    · exact fun _ _ _ _ _ h => keeps_buildObject hinj hcipher h
    · exact keeps_buildersOf hinj hcipher c hc

end

structure BuiltChild (host : Host) (ctx : BuildContext Key) (b : Builder) (relativePath : GoString)
    (blocks : Blocks)
    (name : GoString) (child : Source) (type : EntryType) (target : Target) : Prop where
  name_ok : validateEntryName name = .ok ()
  built : ∃ s s', buildObject host ctx b child (childPath relativePath name) s =
    .ok (type, target, s') ∧ Keeps s'.blocks blocks

inductive Lists (host : Host) (ctx : BuildContext Key) (b : Builder) (relativePath : GoString)
    (blocks : Blocks) : List (GoString × Source) → Listing → Prop
  | nil : Lists host ctx b relativePath blocks [] ⟨[], []⟩
  | cons {name : GoString} {child : Source} {children : List (GoString × Source)} {type : EntryType}
      {target : Target} {listing : Listing}
      (hchild : BuiltChild host ctx b relativePath blocks name child type target)
      (hrest : Lists host ctx b relativePath blocks children listing) :
      Lists host ctx b relativePath blocks ((name, child) :: children)
        ⟨⟨name, type, ctx.ids.entryToken relativePath ctx.indexKey name⟩ :: listing.entries,
          (ctx.ids.entryToken relativePath ctx.indexKey name, target) :: listing.bindings⟩

theorem lists_of_buildChildren (hinj : Function.Injective rawCid) (hcipher : Cipher.Correct Key)
    {children : List (GoString × Source)} {relativePath : GoString} {s s' : Build}
    {listing : Listing} {blocks : Blocks}
    (h : buildChildren ctx relativePath (children.map fun c => (c.1, buildObject host ctx b c.2))
      s = .ok (listing, s'))
    (hkeeps : Keeps s'.blocks blocks) : Lists host ctx b relativePath blocks children listing := by
  induction children generalizing s listing with
  | nil =>
    rw [List.map_nil, buildChildren, pure_eq_ok] at h
    cases h
    exact .nil
  | cons head children ih =>
    obtain ⟨name, child⟩ := head
    simp only [List.map_cons, buildChildren, ok_iff] at h
    obtain ⟨_, hname, ⟨type, target, s₁⟩, hobject, ⟨listing', s₂⟩, hrest, heq⟩ := h
    cases heq
    have hkept := keeps_buildChildren (fun c hc => by
      obtain ⟨c', -, rfl⟩ := List.mem_map.mp hc
      exact fun _ _ _ _ _ h => keeps_buildObject hinj hcipher h) hrest
    exact .cons ⟨hname, _, _, hobject, hkept.trans hkeeps⟩ (ih hrest)

variable {relativePath : GoString} {blocks : Blocks} {children : List (GoString × Source)}
  {listing : Listing}

theorem Lists.tokens (h : Lists host ctx b relativePath blocks children listing) :
    listing.entries.map DirectoryEntry.token = listing.bindings.map Prod.fst ∧
      ∀ entry ∈ listing.entries, entry.token = ctx.ids.entryToken relativePath ctx.indexKey
        entry.name := by
  induction h with
  | nil => simp
  | cons _ _ ih =>
    refine ⟨by rw [List.map_cons, List.map_cons, ih.1], fun entry he => ?_⟩
    rcases List.mem_cons.mp he with rfl | he
    · rfl
    · exact ih.2 entry he

theorem Lists.child (h : Lists host ctx b relativePath blocks children listing) {name : GoString}
    {child : Source} (hmem : (name, child) ∈ children) :
    ∃ type target, BuiltChild host ctx b relativePath blocks name child type target ∧
      (⟨name, type, ctx.ids.entryToken relativePath ctx.indexKey name⟩ : DirectoryEntry) ∈
        listing.entries ∧
      (ctx.ids.entryToken relativePath ctx.indexKey name, target) ∈ listing.bindings := by
  induction h with
  | nil => cases hmem
  | cons hchild _ ih =>
    rcases List.mem_cons.mp hmem with heq | hmem
    · cases heq
      exact ⟨_, _, hchild, List.mem_cons_self, List.mem_cons_self⟩
    · obtain ⟨type, target, hbuilt, hentry, hbinding⟩ := ih hmem
      exact ⟨type, target, hbuilt, List.mem_cons_of_mem _ hentry, List.mem_cons_of_mem _ hbinding⟩

end built

section directories

variable {blocks : Blocks} {keys : UInt32 → Except RestoreError Key} {relativePath : GoString}

structure Opens (host : Host) (ctx : BuildContext Key) (b : Builder) (blocks : Blocks)
    (keys : UInt32 → Except RestoreError Key) (relativePath : GoString) (mode : UInt32)
    (children : List (GoString × Source)) (root : Target) (view : Reader.DirectoryView) : Prop where
  opened : Reader.openDirectoryAt blocks keys ctx.ids relativePath root = .ok view
  root_eq : view.root = root
  mode_eq : view.manifest.mode = mode
  child : ∀ name child, (name, child) ∈ children → ∃ type target,
    Reader.findDirectoryEntry view.manifest.entries name =
        some ⟨name, type, ctx.ids.entryToken relativePath ctx.indexKey name⟩ ∧
      Reader.resolve root (ctx.ids.entryToken relativePath ctx.indexKey name) = .ok target ∧
      BuiltChild host ctx b relativePath blocks name child type target

omit [CidFormat] [PayloadHash] [ChunkJson] [ManifestJson] in
theorem entryToken_ne_payloadLabel (ids : BindingIds) (relativePath : GoString) (indexKey : Key)
    (name : GoString) : ids.entryToken relativePath indexKey name ≠ payloadLabel := by
  intro h
  have htoken : (ids.entryToken relativePath indexKey name).head? = some (.char 'e') := rfl
  rw [h] at htoken
  exact absurd htoken (by decide)

omit [PayloadHash] [ChunkJson] [ManifestJson] in
theorem resolve_first (label : GoString) (target : Target) (bindings : List (GoString × Target)) :
    Reader.resolve (.map ((label, target) :: bindings)) label = .ok target := by
  simp [Reader.resolve]

theorem opens_of_stored (hcipher : Cipher.Correct Key) (hkeys : keys ctx.epoch = .ok ctx.bucketKey)
    (hindex : keys Reader.namespaceKeyEpoch = .ok ctx.indexKey) {mode : UInt32}
    {children : List (GoString × Source)} {listing : Listing}
    (hlists : Lists host ctx b relativePath blocks (sortOn Prod.fst children) listing)
    (haccepted : validateDirectoryManifest (directoryManifest mode listing.entries) = .ok ())
    {d : List UInt8} (hd : IsSealed ctx (ctx.ids.directory relativePath)
      (ManifestJson.encodeDirectory (directoryManifest mode listing.entries)) d)
      (hheld : Holds blocks d) :
    ∃ view, Opens host ctx b blocks keys relativePath mode children
      (.map ((payloadLabel, .block (rawCid d)) :: listing.bindings)) view := by
  obtain ⟨htokens, hderived⟩ := hlists.tokens
  have hperm := sortOn_perm DirectoryEntry.name listing.entries
  have hvalid := haccepted
  simp only [validateDirectoryManifest, bind_eq_ok] at hvalid
  obtain ⟨_, -, hentries⟩ := hvalid
  obtain ⟨-, hnames, hnodup⟩ := validateEntries_eq_ok hentries
  have hbindings : (listing.bindings.map Prod.fst).Nodup := by
    rw [← htokens]
    exact (hperm.map DirectoryEntry.token).nodup_iff.mp hnodup
  have hboth : Reader.withNamespace keys ctx.epoch = .ok ctx.bucketKey :=
    bind_eq_ok.mpr ⟨_, hkeys, bind_eq_ok.mpr ⟨_, hindex, rfl⟩⟩
  have hopen := hd.openAt hcipher hboth (show ∀ e ∈ none, e = ctx.epoch by simp)
  refine ⟨⟨_, directoryManifest mode listing.entries⟩, ?_, rfl, rfl, fun name child hmem => ?_⟩
  · refine bind_eq_ok.mpr ⟨_, mapError_eq_ok.mpr (resolve_first _ _ _), ?_⟩
    refine bind_eq_ok.mpr ⟨d, mapError_eq_ok.mpr (getBoundBlock_of_holds hheld),
      bind_eq_ok.mpr ⟨_, hopen, ?_⟩⟩
    refine bind_eq_ok.mpr ⟨_, required_eq_ok.mpr (ManifestJson.decode_directory _ haccepted), ?_⟩
    refine bind_eq_ok.mpr ⟨(), haccepted, bind_eq_ok.mpr ⟨_, hindex, bind_eq_ok.mpr ⟨(), ?_, rfl⟩⟩⟩
    rw [forM_eq_ok]
    intro entry he
    exact reject_eq_ok.mpr (not_not.mpr (hderived entry (hperm.mem_iff.mp he)))
  · obtain ⟨type, target, hbuilt, hentry, hbinding⟩ :=
      hlists.child ((sortOn_perm _ _).mem_iff.mpr hmem)
    refine ⟨type, target, findDirectoryEntry_of_mem hnames (hperm.mem_iff.mpr hentry), ?_, hbuilt⟩
    have hne : (ctx.ids.entryToken relativePath ctx.indexKey name == payloadLabel) = false := by
      rw [beq_eq_false_iff_ne]
      exact entryToken_ne_payloadLabel _ _ _ _
    refine required_eq_ok.mpr ?_
    rw [List.lookup_cons, hne]
    exact lookup_of_mem hbindings hbinding

theorem opens_of_build (hinj : Function.Injective rawCid) (hcipher : Cipher.Correct Key)
    (hkeys : keys ctx.epoch = .ok ctx.bucketKey)
    (hindex : keys Reader.namespaceKeyEpoch = .ok ctx.indexKey)
    {mode : UInt32} {children : List (GoString × Source)} {s s' : Build} {type : EntryType}
    {root : Target}
    (h : buildObject host ctx b (.directory mode children) relativePath s = .ok (type, root, s'))
    (hkeeps : Keeps s'.blocks blocks) :
    type = .directory ∧ ∃ view, Opens host ctx b blocks keys relativePath mode children
      root view := by
  simp only [buildObject, sortOn_buildersOf, ok_iff] at h
  obtain ⟨⟨listing, s₁⟩, hchildren, ⟨root', s₂⟩, hstore, heq⟩ := h
  obtain ⟨rfl, hrest⟩ := Prod.mk.inj heq
  cases hrest
  obtain ⟨hkept, haccepted, d, rfl, hd, hheld⟩ := storeDirectory_eq_ok hinj hstore
  have hlists := lists_of_buildChildren hinj hcipher hchildren (hkept.trans hkeeps)
  exact ⟨rfl, opens_of_stored hcipher hkeys hindex hlists haccepted hd (hkeeps d hheld)⟩

end directories

section paths

inductive Source.Has : Source → List GoString → Source → Prop
  | here (source : Source) : Source.Has source [] source
  | inside {mode : UInt32} {children : List (GoString × Source)} {name : GoString}
      {child source : Source} {names : List GoString} (hmem : (name, child) ∈ children)
      (h : Source.Has child names source) :
      Source.Has (.directory mode children) (name :: names) source

omit [Cipher Key] [CidFormat] [PayloadHash] [ChunkJson] [ManifestJson] in
theorem Source.Has.directory {source : Source} {names : List GoString} {mode : UInt32}
    {children : List (GoString × Source)} (h : source.Has names (.directory mode children)) :
    ∃ mode' children', source = .directory mode' children' := by
  cases h with
  | here => exact ⟨mode, children, rfl⟩
  | inside _ _ => exact ⟨_, _, rfl⟩

omit [Cipher Key] [CidFormat] [PayloadHash] [ChunkJson] [ManifestJson] in
theorem childPath_join {ps : List GoString} (hps : ∀ p ∈ ps, Name p) {name : GoString}
    (hname : Name name) : childPath (join ps) name = join (ps ++ [name]) := by
  rw [childPath]
  split_ifs with hnil
  · have hempty : ps = [] := by
      by_contra hne
      exact join_ne_nil hne (fun p hp => (hps p hp).plain) hnil
    subst hempty
    rfl
  · exact pathJoin_name hps hname

variable {blocks : Blocks} {keys : UInt32 → Except RestoreError Key}

theorem walkDirectories_of_build (hinj : Function.Injective rawCid) (hcipher : Cipher.Correct Key)
    (hkeys : keys ctx.epoch = .ok ctx.bucketKey)
    (hindex : keys Reader.namespaceKeyEpoch = .ok ctx.indexKey)
    {names ps : List GoString} (hps : ∀ p ∈ ps, PathName p) {source : Source} {s s' : Build}
    {type : EntryType} {root : Target}
    (h : buildObject host ctx b source (join ps) s = .ok (type, root, s'))
    (hkeeps : Keeps s'.blocks blocks) {mode : UInt32} {children : List (GoString × Source)}
    (hhas : source.Has names (.directory mode children)) : (∀ p ∈ names, PathName p) ∧ ∃ root' view,
      Reader.walkDirectories blocks keys ctx.ids names (join ps) root = .ok view ∧
        Opens host ctx b blocks keys (join (ps ++ names)) mode children root' view := by
  induction names generalizing ps source s s' type root with
  | nil =>
    cases hhas with
    | here =>
      obtain ⟨-, view, hview⟩ := opens_of_build hinj hcipher hkeys hindex h hkeeps
      rw [List.append_nil]
      exact ⟨by simp, root, view, hview.opened, hview⟩
  | cons name names ih =>
    cases hhas with
    | @inside mode' children' _ child _ _ hmem hbelow =>
      obtain ⟨-, view, hview⟩ := opens_of_build hinj hcipher hkeys hindex h hkeeps
      obtain ⟨type', target, hfind, hresolve, hchild⟩ := hview.child name child hmem
      have hname := pathName_of_entryName hchild.name_ok
      obtain ⟨s₁, s₂, hbuilt, hkept⟩ := hchild.built
      have hps' : ∀ p ∈ ps, Name p := fun p hp => (hps p hp).name
      rw [childPath_join hps' hname.name] at hbuilt
      have hall : ∀ p ∈ ps ++ [name], PathName p := by
        intro p hp
        rcases List.mem_append.mp hp with hp | hp
        · exact hps p hp
        · rw [List.mem_singleton.mp hp]
          exact hname
      obtain ⟨hrest, root', view', hwalk, hopens⟩ := ih hall hbuilt hkept hbelow
      obtain ⟨mode₁, children₁, rfl⟩ := hbelow.directory
      obtain ⟨rfl, -⟩ := opens_of_build hinj hcipher hkeys hindex hbuilt hkept
      rw [List.append_assoc, List.singleton_append] at hopens
      refine ⟨by simpa using ⟨hname, hrest⟩, root', view', ?_, hopens⟩
      refine bind_eq_ok.mpr ⟨view, hview.opened, bind_eq_ok.mpr ⟨_, required_eq_ok.mpr hfind, ?_⟩⟩
      refine bind_eq_ok.mpr ⟨(), reject_eq_ok.mpr (by simp), bind_eq_ok.mpr ⟨target, hresolve, ?_⟩⟩
      rw [pathJoin_name hps' hname.name]
      exact hwalk

omit [Cipher Key] [CidFormat] [PayloadHash] [ChunkJson] [ManifestJson] in
theorem Source.Has.last {source target : Source} {names : List GoString}
    (h : source.Has names target) (hne : names ≠ []) :
    ∃ parents name mode children, names = parents ++ [name] ∧
      source.Has parents (.directory mode children) ∧ (name, target) ∈ children := by
  induction h with
  | here => exact absurd rfl hne
  | @inside mode children name child target names hmem h ih =>
    by_cases hnames : names = []
    · subst hnames
      cases h with
      | here => exact ⟨[], name, mode, children, rfl, .here _, hmem⟩
    · obtain ⟨parents, last, mode', children', rfl, hhas, hlast⟩ := ih hnames
      exact ⟨name :: parents, last, mode', children', rfl, .inside hmem hhas, hlast⟩

omit [Cipher Key] [CidFormat] [PayloadHash] [ChunkJson] [ManifestJson] in
theorem parseRelativePath_join {ps : List GoString} (hps : ∀ p ∈ ps, PathName p) :
    Reader.parseRelativePath (join ps) = .ok ps :=
  bind_eq_ok.mpr ⟨ps, mapError_eq_ok.mpr (parsePath_join hps),
    bind_eq_ok.mpr ⟨(), reject_eq_ok.mpr (by simp), rfl⟩⟩

end paths

section files

variable {blocks : Blocks} {keys : UInt32 → Except RestoreError Key}

omit [ManifestJson] in
theorem StoredFile.keeps {blocks' : Blocks} {relative : GoString} {data : List UInt8}
    {m : FileManifest} {content : Target}
    (h : StoredFile ctx blocks relative data m content) (hkeeps : Keeps blocks blocks') :
    StoredFile ctx blocks' relative data m content := by
  obtain ⟨ds, hsealed, hheld, hcontent⟩ := h.envelopes
  exact { h with envelopes := ⟨ds, hsealed, fun d hd => hkeeps d (hheld d hd),
    hcontent.keeps hkeeps⟩ }

theorem openFileAt_of_build (hinj : Function.Injective rawCid) (hcipher : Cipher.Correct Key)
    (hkeys : keys ctx.epoch = .ok ctx.bucketKey) {f : SourceFile} {relative : GoString}
    {s s' : Build} {type : EntryType}
    {root : Target} (h : buildObject host ctx b (.file f) relative s = .ok (type, root, s'))
    (hkeeps : Keeps s'.blocks blocks) :
    type = .file ∧ ∃ m content, StoredFile ctx blocks relative f.data m content ∧ m.mode = f.mode ∧
      Reader.openFileAt blocks keys ctx.ids relative .file root =
        .ok ⟨some content, ctx.epoch, m, relative⟩ := by
  simp only [buildObject, ok_iff] at h
  obtain ⟨⟨root', s₁⟩, hfile, heq⟩ := h
  obtain ⟨rfl, hrest⟩ := Prod.mk.inj heq
  cases hrest
  obtain ⟨-, -, m, content, d, rfl, hmode, hd, hheld, hstored⟩ := buildFile_eq_ok hinj hcipher hfile
  have hcontent : Reader.openContent m
      (.map [(payloadLabel, .block (rawCid d)), (contentLabel, content)]) = .ok (some content) := by
    have hlookup :
      Reader.resolve (.map [(payloadLabel, .block (rawCid d)), (contentLabel, content)])
        contentLabel = .ok content := by
      have hne : (contentLabel == payloadLabel) = false := by decide
      simp [Reader.resolve, List.lookup_cons, hne]
    have hmatches : Reader.storageMatches m.storage content = true := by
      obtain ⟨ds, -, -, hof⟩ := hstored.envelopes
      generalize m.storage = storage at hof
      cases hof with
      | raw d => exact PayloadHash.isRaw_rawCid d
      | list _ _ _ => rfl
    rw [Reader.openContent, if_pos hstored.kind]
    exact bind_eq_ok.mpr ⟨_, mapError_eq_ok.mpr hlookup,
      bind_eq_ok.mpr ⟨(), reject_eq_ok.mpr (by simp [hmatches]), rfl⟩⟩
  have hopen := hd.openAt hcipher hkeys (show ∀ e ∈ none, e = ctx.epoch by simp)
  refine ⟨rfl, m, content, hstored.keeps hkeeps, hmode, ?_⟩
  refine bind_eq_ok.mpr ⟨_, mapError_eq_ok.mpr (resolve_first _ _ _), ?_⟩
  refine bind_eq_ok.mpr ⟨d, mapError_eq_ok.mpr (getBoundBlock_of_holds (hkeeps d hheld)),
    bind_eq_ok.mpr ⟨_, hopen, ?_⟩⟩
  refine bind_eq_ok.mpr ⟨m, required_eq_ok.mpr (ManifestJson.decode_file m hstored.accepted), ?_⟩
  refine bind_eq_ok.mpr ⟨(), hstored.accepted,
    bind_eq_ok.mpr ⟨(), reject_eq_ok.mpr (by simp [hstored.kind]), ?_⟩⟩
  exact bind_eq_ok.mpr ⟨_, hcontent, rfl⟩

theorem openFile_of_build (hinj : Function.Injective rawCid) (hcipher : Cipher.Correct Key)
    (hkeys : keys ctx.epoch = .ok ctx.bucketKey)
    (hindex : keys Reader.namespaceKeyEpoch = .ok ctx.indexKey)
    {dataset : Reader.DatasetView} (hids : dataset.ids ctx.ids.bindingID = ctx.ids) {mode : UInt32}
    {children : List (GoString × Source)} {s s' : Build} {type : EntryType} {root : Target}
    (h : buildObject host ctx b (.directory mode children) [] s = .ok (type, root, s'))
    (hkeeps : Keeps s'.blocks blocks)
    (hbinding : dataset.bindings.lookup ctx.ids.bindingID = some root) {f : SourceFile}
    {names : List GoString} (hhas : Source.Has (.directory mode children) names (.file f)) :
    ∃ m content, StoredFile ctx blocks (join names) f.data m content ∧
      Reader.openFile blocks keys dataset ctx.ids.bindingID (join names) =
        .ok ⟨some content, ctx.epoch, m, join names⟩ := by
  have hne : names ≠ [] := by
    rintro rfl
    cases hhas
  obtain ⟨parents, name, mode', children', rfl, hparent, hmem⟩ := hhas.last hne
  obtain ⟨hnames, root', view, hwalk, hopens⟩ :=
    @walkDirectories_of_build _ _ _ _ _ _ host ctx b blocks keys hinj hcipher hkeys hindex parents
      [] (by simp) _ _ _ _ _ h hkeeps
      _ _ hparent
  rw [List.nil_append] at hopens
  obtain ⟨type', target, hfind, hresolve, hchild⟩ := hopens.child name (.file f) hmem
  have hname := pathName_of_entryName hchild.name_ok
  obtain ⟨s₁, s₂, hbuilt, hkept⟩ := hchild.built
  rw [childPath_join (fun p hp => (hnames p hp).name) hname.name] at hbuilt
  obtain ⟨rfl, m, content, hstored, -, hopen⟩ := openFileAt_of_build hinj hcipher hkeys hbuilt hkept
  have hall : ∀ p ∈ parents ++ [name], PathName p := by
    intro p hp
    rcases List.mem_append.mp hp with hp | hp
    · exact hnames p hp
    · rw [List.mem_singleton.mp hp]
      exact hname
  have hdirectory :
    Reader.openDirectory blocks keys dataset ctx.ids.bindingID (join parents) = .ok view := by
    refine bind_eq_ok.mpr ⟨root, required_eq_ok.mpr hbinding,
      bind_eq_ok.mpr ⟨parents, parseRelativePath_join hnames, ?_⟩⟩
    rw [hids]
    exact hwalk
  refine ⟨m, content, hstored, bind_eq_ok.mpr ⟨_, parseRelativePath_join hall, ?_⟩⟩
  refine bind_eq_ok.mpr ⟨name, required_eq_ok.mpr (by simp), ?_⟩
  rw [List.dropLast_concat]
  refine bind_eq_ok.mpr ⟨view, hdirectory, bind_eq_ok.mpr ⟨_, required_eq_ok.mpr hfind, ?_⟩⟩
  refine bind_eq_ok.mpr ⟨(), reject_eq_ok.mpr (by simp), bind_eq_ok.mpr ⟨target, hopens.root_eq ▸
    hresolve, ?_⟩⟩
  rw [hids]
  exact hopen

variable [InlineBody]

theorem readFile_of_stored (hinj : Function.Injective rawCid) (hcipher : Cipher.Correct Key)
    (hkeys : keys ctx.epoch = .ok ctx.bucketKey) {dataset : Reader.DatasetView}
    (hids : dataset.ids ctx.ids.bindingID = ctx.ids) {path : GoString} {data : List UInt8}
    (hdata : data.length < 2 ^ 63)
    {m : FileManifest} {content : Target} (hstored : StoredFile ctx blocks path data m content)
    (hopen : Reader.openFile blocks keys dataset ctx.ids.bindingID path =
      .ok ⟨some content, ctx.epoch, m, path⟩) :
    Reader.readFile blocks keys dataset ctx.ids.bindingID path = .ok data := by
  have hm := regularFile_of_accepted hstored.accepted hstored.kind
  have hread := hstored.readChunks hinj hcipher hkeys (Nat.zero_add m.chunkCount.toNat)
  rw [List.drop_zero, flatten_plainParts hm.width] at hread
  have hsize := hstored.size
  have hsame : UInt64.ofNat data.length = m.size := by rw [← hsize, UInt64.ofNat_toNat]
  refine bind_eq_ok.mpr ⟨_, hopen,
    bind_eq_ok.mpr ⟨(), reject_eq_ok.mpr (by simp [hstored.kind]), ?_⟩⟩
  refine bind_eq_ok.mpr ⟨(), reject_eq_ok.mpr (by rw [hsize]; omega), ?_⟩
  rw [hids]
  exact bind_eq_ok.mpr ⟨data, hread, bind_eq_ok.mpr ⟨(), reject_eq_ok.mpr (not_not.mpr hsame), rfl⟩⟩

omit [Cipher Key] [CidFormat] [PayloadHash] [ChunkJson] [ManifestJson] [InlineBody] in
theorem range_accepted_iff {m : FileManifest} {size : Nat} (hkind : m.kind = .file)
    (hsize : m.size.toNat = size) (offset length : UInt64) :
    (m.kind ≠ .file ∨ offset > m.size ∨ length > m.size - offset) ↔ size < offset.toNat +
      length.toNat := by
  by_cases hoffset : offset > m.size
  · have hover := hoffset
    rw [gt_iff_lt, UInt64.lt_iff_toNat_lt, hsize] at hover
    exact iff_of_true (.inr (.inl hoffset)) (by omega)
  · have hbelow := hoffset
    rw [gt_iff_lt, UInt64.lt_iff_toNat_lt, hsize] at hbelow
    have hlength : length > m.size - offset ↔ size < offset.toNat + length.toNat := by
      rw [gt_iff_lt, UInt64.lt_iff_toNat_lt, toNat_sub (by omega), hsize]
      omega
    simp [hkind, hoffset, hlength]

theorem readFileRange_of_stored (hinj : Function.Injective rawCid) (hcipher : Cipher.Correct Key)
    (hkeys : keys ctx.epoch = .ok ctx.bucketKey) {dataset : Reader.DatasetView}
    (hids : dataset.ids ctx.ids.bindingID = ctx.ids) {path : GoString} {data : List UInt8}
    (hdata : data.length < 2 ^ 63)
    {m : FileManifest} {content : Target} (hstored : StoredFile ctx blocks path data m content)
    (hopen : Reader.openFile blocks keys dataset ctx.ids.bindingID path =
      .ok ⟨some content, ctx.epoch, m, path⟩)
    (offset length : UInt64) (hrange : offset.toNat + length.toNat ≤ data.length) :
    Reader.readFileRange blocks keys dataset ctx.ids.bindingID path offset length =
      .ok (slice data offset.toNat (offset.toNat + length.toNat)) := by
  have hm := regularFile_of_accepted hstored.accepted hstored.kind
  have haccepted :=
    (range_accepted_iff hstored.kind hstored.size offset length).not.mpr (not_lt.mpr hrange)
  refine bind_eq_ok.mpr ⟨_, hopen, bind_eq_ok.mpr ⟨(), reject_eq_ok.mpr haccepted, ?_⟩⟩
  by_cases hzero : length = 0
  · rw [if_pos hzero, hzero, UInt64.toNat_zero, Nat.add_zero, slice_self]
    rfl
  · have hlength := pos_of_ne_zero hzero
    have hsum : (offset + length).toNat = offset.toNat + length.toNat := toNat_add (by omega)
    have hlast : ((offset + length - 1) / m.plaintextChunkSize).toNat + 1 =
        lastIndex m.plaintextChunkSize.toNat (offset.toNat + length.toNat) := by
      rw [UInt64.toNat_div, toNat_sub (by rw [hsum, UInt64.toNat_one]; omega), hsum,
        UInt64.toNat_one, lastIndex]
    have hfirst : (offset / m.plaintextChunkSize).toNat ≤
        lastIndex m.plaintextChunkSize.toNat (offset.toNat + length.toNat) := by
      rw [UInt64.toNat_div, lastIndex]
      exact Nat.le_succ_of_le (Nat.div_le_div_right (by omega))
    have hparts := hstored.readParts hinj hcipher hkeys hlength hrange (UInt64.toNat_div _ _).ge
      (Nat.add_sub_cancel' hfirst)
    have hstart :
      max offset.toNat ((offset / m.plaintextChunkSize).toNat * m.plaintextChunkSize.toNat) =
        offset.toNat := by
      have hmul := Nat.div_mul_le_self offset.toNat m.plaintextChunkSize.toNat
      rw [UInt64.toNat_div]
      omega
    rw [hstart, UInt64.ofNat_toNat] at hparts
    rw [if_neg hzero]
    refine bind_eq_ok.mpr ⟨(), reject_eq_ok.mpr (by omega), ?_⟩
    simp only [hlast]
    rw [hids]
    exact hparts

omit [InlineBody] in
theorem built_of_prepareBinding {request : BindingSource Key} {source : Source} {s s' : Build}
    {root : Target} (h : prepareBinding host b request source s = .ok (root, s')) :
    ∃ mode children type, source = .directory mode children ∧
      buildObject host request.toBuildContext b (.directory mode children)
        [] s = .ok (type, root, s') := by
  simp only [prepareBinding, bind_eq_ok] at h
  obtain ⟨_, -, _, -, h⟩ := h
  cases source with
  | directory mode children =>
    simp only [ok_iff] at h
    obtain ⟨⟨type, root', s₁⟩, hbuilt, heq⟩ := h
    cases heq
    exact ⟨mode, children, type, rfl, hbuilt⟩
  | _ => exact absurd h throw_ne_ok

/-- What the builder accepts is read back: a file only if its reads gave as many
bytes as its size says, and then every file of the tree as a whole and in every
range that ends within it, and in no other. -/
theorem readFile_plaintext (hinj : Function.Injective rawCid) (hcipher : Cipher.Correct Key) :
    (∀ (host : Host) (ctx : BuildContext Key) (b : Builder) relative (f : SourceFile) s root s',
      buildFile host ctx b relative f s = .ok (root, s') → f.data.length = f.size) ∧
    ∀ (host : Host) (b : Builder) (request : BindingSource Key) source s root s',
      prepareBinding host b request source s = .ok (root, s') →
      ∀ (blocks : Blocks) (keys : UInt32 → Except RestoreError Key) (dataset : Reader.DatasetView),
        Keeps s'.blocks blocks → keys request.epoch = .ok request.bucketKey →
        keys Reader.namespaceKeyEpoch = .ok request.indexKey → dataset.ids request.ids.bindingID =
          request.ids →
        dataset.bindings.lookup request.ids.bindingID = some root →
        ∀ names f, source.Has names (.file f) →
          Reader.readFile blocks keys dataset request.ids.bindingID (join names) = .ok f.data ∧
          ∀ offset length,
            ((Reader.readFileRange blocks keys dataset request.ids.bindingID (join names) offset
              length).isOk = false ↔ f.data.length < offset.toNat + length.toNat) ∧
            (offset.toNat + length.toNat ≤ f.data.length →
              Reader.readFileRange blocks keys dataset request.ids.bindingID (join names)
                offset length = .ok (slice f.data offset.toNat (offset.toNat + length.toNat))) := by
  constructor
  · intro host ctx b relative f s root s' h
    exact (buildFile_eq_ok hinj hcipher h).2.1
  · intro host b request source s root s' h blocks keys dataset hkeeps hkeys hindex hids
      hbinding names f hhas
    obtain ⟨mode, children, type, rfl, hbuilt⟩ := built_of_prepareBinding h
    obtain ⟨m, content, hstored, hopen⟩ :=
      openFile_of_build hinj hcipher hkeys hindex hids hbuilt hkeeps hbinding hhas
    have hrange := readFileRange_of_stored hinj hcipher hkeys hids f.data_lt hstored hopen
    refine ⟨readFile_of_stored hinj hcipher hkeys hids f.data_lt hstored hopen, fun offset length =>
      ⟨?_, hrange offset length⟩⟩
    constructor
    · intro hfail
      by_contra hfits
      rw [hrange offset length (not_lt.mp hfits)] at hfail
      cases hfail
    · intro hover
      have hrejected := (range_accepted_iff hstored.kind hstored.size offset length).mpr hover
      rw [Reader.readFileRange, hopen]
      simp only [bind, Except.bind, reject, if_pos hrejected]
      rfl

end files

end reads

section sample

@[reducible] def Cipher.padded : Cipher UInt8 where
  hmac _ message := message.foldl (· + ·) 0
  base32 key := List.replicate 51 (.char 'a') ++ [.char (Char.ofNat (97 + key.toNat % 26))]
  sealed _ _ _ plaintext := plaintext ++ List.replicate 16 0
  opened _ _ _ ciphertext := some (ciphertext.take (ciphertext.length - 16))

section

attribute [local instance] CidFormat.verbatim PayloadHash.verbatim ChunkJson.unary Cipher.padded
  InlineBody.never

theorem correct_padded : @Cipher.Correct UInt8 Cipher.padded :=
  ⟨fun _ _ _ _ => by simp [Cipher.opened, Cipher.sealed], fun _ _ _ _ => by simp [Cipher.sealed]⟩

instance countable_char : Countable Char := ⟨Char.toNat, fun _ _ => Char.toNat_inj.mp⟩

deriving instance Countable for Rune, EntryType, Storage, DirectoryEntry,
  DirectoryManifest, FileManifest

/-- Some numbering of the values, with one of them in front. -/
noncomputable def numbered {α : Type} [DecidableEq α] [Countable α] (first a : α) : List UInt8 :=
  if a = first then [] else List.replicate ((exists_injective_nat α).choose a + 1) 0

theorem numbered_injective {α : Type} [DecidableEq α] [Countable α] (first : α) :
    Function.Injective (numbered first) := by
  intro a b h
  have hlength := congrArg List.length h
  by_cases ha : a = first <;> by_cases hb : b = first
  · rw [ha, hb]
  · simp [numbered, ha, hb] at hlength
  · simp [numbered, ha, hb] at hlength
  · simp only [numbered, if_neg ha, if_neg hb, List.length_replicate] at hlength
    exact (exists_injective_nat α).choose_spec (Nat.succ_inj.mp hlength)

@[reducible] noncomputable def ManifestJson.numbered (directory : DirectoryManifest)
    (file : FileManifest) : ManifestJson where
  encodeDirectory := EncryptedUnixFs.numbered directory
  decodeDirectory := Function.partialInv (EncryptedUnixFs.numbered directory)
  encodeFile := EncryptedUnixFs.numbered file
  decodeFile := Function.partialInv (EncryptedUnixFs.numbered file)
  decode_directory m _ := Function.partialInv_left (numbered_injective directory) m
  decode_file m _ := Function.partialInv_left (numbered_injective file) m

def fiveBytes : SourceFile :=
  { mode := 0o644, size := 5, size_lt := by norm_num, data := [1, 2, 3, 4, 5], data_lt := by simp,
    fails := false
    changed := false }

def oneFile : Source := .directory 0o755 [(text "f", .file fiveBytes)]

def twoByteChunks : Builder := ⟨2, by norm_num, by decide⟩

def sampleRequest : BindingSource UInt8 :=
  { ids := ⟨text "d", text "main", text "b"⟩, epoch := 1, bucketKey := 0, indexKey := 0,
    datasetName := text "n"
    bindingName := text "m", pathName := text "p" }

/-- The manifest of files, under their names. -/
def filesManifest (names : List GoString) : DirectoryManifest :=
  directoryManifest 0o755 (names.map fun name => ⟨name, .file, sampleRequest.ids.entryToken [] (0 :
    UInt8) name⟩)

def fiveManifest : FileManifest :=
  { profile := profileID, version := profileVersion, kind := .file, mode := 0o644, size := 5,
    storage := .list
    plaintextChunkSize := 2, ciphertextChunkSize := 2 + envelopeOverhead, ciphertextSize := 5 + 3 *
      envelopeOverhead
    chunkCount := 3, linkTarget := [] }

theorem readFile_plaintext_five :
    letI := ManifestJson.numbered (filesManifest [text "f"]) fiveManifest
    ∃ root s, prepareBinding ⟨fun _ => some zeroNonce, fun _ => false, fun _ _ => false⟩
      twoByteChunks sampleRequest oneFile
        ⟨⟨∅, fun _ => false⟩, 0⟩ = .ok (root, s) ∧
      Reader.readFile s.blocks (fun _ => .ok (0 : UInt8)) ⟨text "d", text "main",
        [(text "b", root)]⟩ (text "b") (text "f") = .ok [1, 2, 3, 4, 5] ∧
      Reader.readFileRange s.blocks (fun _ => .ok (0 : UInt8)) ⟨text "d", text "main",
        [(text "b", root)]⟩ (text "b") (text "f") 1 3 = .ok [2, 3, 4] := by
  let cipher : Cipher UInt8 := Cipher.padded
  let manifests : ManifestJson := ManifestJson.numbered (filesManifest [text "f"]) fiveManifest
  have hbuilt :
    (prepareBinding ⟨fun _ => some zeroNonce, fun _ => false, fun _ _ => false⟩ twoByteChunks
      sampleRequest
      oneFile ⟨⟨∅, fun _ => false⟩, 0⟩).isOk = true := by decide +kernel
  obtain ⟨⟨root, s⟩, hprepared⟩ := exists_of_isOk hbuilt
  obtain ⟨hread, hrange⟩ := (readFile_plaintext rawCid_verbatim_injective correct_padded).2 _ _ _ _
    _ _ _ hprepared s.blocks
    (fun _ => .ok 0) ⟨text "d", text "main", [(text "b", root)]⟩ (Keeps.refl _) rfl rfl rfl rfl
      [text "f"] fiveBytes
    (.inside List.mem_cons_self (.here _))
  exact ⟨root, s, hprepared, hread, (hrange 1 3).2 (by decide)⟩

end

end sample

end MaltClient.EncryptedUnixFs
