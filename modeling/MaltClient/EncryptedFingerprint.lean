import MaltClient.EncryptedTreeReads
import MaltClient.SourceFingerprint

/-! The builder of an encrypted tree with the fingerprint that it streams while it
reads a source that does not change. -/

namespace MaltClient.EncryptedUnixFs

open GoText Checked Payloads SourceFingerprint
open StagedPath (isPortableSegment_iff)

section stream

variable {Key : Type} [Cipher Key] [CidFormat] [PayloadHash] [ChunkJson] [ManifestJson]

/-- The state of a build, and the bytes that are hashed so far. -/
structure Stream [CidFormat] where
  build : Build
  sourceHash : List UInt8

def writeSourceFingerprintField (value : List UInt8) : List UInt8 := ByteFields.field 8 value

def writeSourceFingerprintNode (sourceName relative : GoString) (info : Info) : List UInt8 :=
  writeSourceFingerprintField (utf8 (displayPath sourceName relative)) ++ metadata info

/-- What a file is to the builder while it does not change. -/
def sourceFile (f : SourceFingerprint.RegularFile) : SourceFile :=
  { mode := f.mode &&& 0o777, size := f.content.length, size_lt := f.length_lt, data := f.content,
    data_lt := f.length_lt
    fails := false, changed := false }

mutual

/-- The source of the builder that a tree is. -/
def sourceOf : Node → Source
  | .file f => .file (sourceFile f)
  | .symlink info target => .symlink (info.mode &&& 0o777) target
  | .directory info children => .directory (info.mode &&& 0o777) (sourcesOf children)
  | .other _ => .other

def sourcesOf : List (GoString × Node) → List (GoString × Source)
  | [] => []
  | (name, child) :: children => (name, sourceOf child) :: sourcesOf children

end

omit [CidFormat] [PayloadHash] [ChunkJson] [ManifestJson] in
theorem sortOn_sourcesOf (children : List (GoString × Node)) :
    sortOn Prod.fst (sourcesOf children) = (sortOn Prod.fst children).map fun c =>
      (c.1, sourceOf c.2) := by
  have hmap : sourcesOf children = children.map fun c => (c.1, sourceOf c.2) := by
    induction children with
    | nil => rfl
    | cons c children ih => rw [sourcesOf, ih, List.map_cons]
  rw [hmap]
  exact (map_sortOn (fun _ => rfl) children).symm

variable (host : Host) (ctx : BuildContext Key)

/-- The loop of `buildFile`, which hashes every chunk before it is sealed. -/
def streamChunks (chunkSize : Nat) (relative : GoString) :
    Nat → List UInt8 → FileBuild × List UInt8 → Except RestoreError (FileBuild × List UInt8)
  | 0, _, _ => throw .io
  | rounds + 1, data, (a, written) =>
    if data.length < chunkSize then
      if data ≠ [] ∨ a.index = 0 then do
        let a ← sealChunk host ctx relative data a
        return (a, written ++ data)
      else return (a, written)
    else do
      let a ← sealChunk host ctx relative (data.take chunkSize) a
      streamChunks chunkSize relative rounds (data.drop chunkSize)
        (a, written ++ data.take chunkSize)

def streamFile (b : Builder) (sourceName relative : GoString) (f : SourceFingerprint.RegularFile)
    (t : Stream) : Except RestoreError (Target × Stream) := do
  let written := t.sourceHash ++ writeSourceFingerprintNode sourceName relative f.info
  let (a, written) ← streamChunks host ctx b.chunkSize relative (f.content.length + 1) f.content
    ({ build := t.build, chunks := [], totalCipher := 0, index := 0 }, written)
  let (content, storage, s) ← storeContent host a.totalCipher
    (UInt64.ofNat (b.chunkSize + envelopeOverhead.toNat))
    a.chunks a.build
  let manifest := fileManifest b (sourceFile f) storage a
  validateFileManifest manifest
  let (manifestCID, s) ← storeFileManifest host ctx relative manifest s
  let root ← createStagedRoot host (.message "materialize encrypted UnixFS file root: %w" [])
    [(payloadLabel, .block manifestCID), (contentLabel, content)]
  return (root, ⟨s, written⟩)

def streamSymlink (sourceName relative : GoString) (info : Info) (target : GoString) (t : Stream) :
    Except RestoreError (Target × Stream) := do
  let portableTarget ← validateSymlinkTarget relative target
  let written := t.sourceHash ++ writeSourceFingerprintNode sourceName relative info ++
    writeSourceFingerprintField (utf8 target)
  let manifest := linkManifest (info.mode &&& 0o777) portableTarget
  validateFileManifest manifest
  let (manifestCID, s) ← storeFileManifest host ctx relative manifest t.build
  let root ← createStagedRoot host (.message "materialize encrypted UnixFS symlink root: %w" [])
    [(payloadLabel, .block manifestCID)]
  return (root, ⟨s, written⟩)

/-- The kinds in the order in which the builder asks for them. -/
def byMode {α : Type} (info : Info) (relative : GoString)
    (symlink directory file : Except RestoreError α) : Except RestoreError α :=
  if info.isSymlink = true then symlink
  else if info.isDir = true then directory
  else if info.isRegular = true then file
  else throw (.message "unsupported filesystem object in encrypted UnixFS binding: %s" [relative])

mutual

def streamObject (b : Builder) (sourceName : GoString) : Node → Child Stream
  | .file f, relative, t => byMode f.info relative (throw .io) (throw .io) do
    let (root, t) ← streamFile host ctx b sourceName relative f t
    return (.file, root, t)
  | .symlink info target, relative, t => byMode info relative (do
    let (root, t) ← streamSymlink host ctx sourceName relative info target t
    return (.symlink, root, t)) (throw .io) (throw .io)
  | .directory info children, relative, t => byMode info relative (throw .io) (do
    let written := t.sourceHash ++ writeSourceFingerprintNode sourceName relative info
    let (listing, t) ← buildChildren ctx relative
      (sortOn Prod.fst (streamersOf b sourceName children)) ⟨t.build, written⟩
    let (root, s) ← storeDirectory host ctx (info.mode &&& 0o777) relative listing t.build
    return (.directory, root, ⟨s, t.sourceHash⟩)) (throw .io)
  | .other info, relative, _ => byMode info relative (throw .io) (throw .io) (throw .io)

def streamersOf (b : Builder) (sourceName : GoString) :
    List (GoString × Node) → List (GoString × Child Stream)
  | [] => []
  | (name, child) :: children =>
    (name, streamObject b sourceName child) :: streamersOf b sourceName children

end

theorem sortOn_streamersOf (b : Builder) (sourceName : GoString)
    (children : List (GoString × Node)) :
    sortOn Prod.fst (streamersOf host ctx b sourceName children) =
      (sortOn Prod.fst children).map fun c => (c.1, streamObject host ctx b sourceName c.2) := by
  have hmap : streamersOf host ctx b sourceName children =
      children.map fun c => (c.1, streamObject host ctx b sourceName c.2) := by
    induction children with
    | nil => rfl
    | cons c children ih => rw [streamersOf, ih, List.map_cons]
  rw [hmap]
  exact (map_sortOn (fun _ => rfl) children).symm

/-! ### What is hashed -/

variable {host : Host} {ctx : BuildContext Key}

omit [ChunkJson] [ManifestJson] in
/-- Whatever the chunk size is, the chunks make up the file. -/
theorem streamChunks_eq (c : Nat) (relative : GoString) (rounds : Nat) (data : List UInt8)
    (a : FileBuild) (written : List UInt8) :
    streamChunks host ctx c relative rounds data (a, written) =
      (sealChunks host ctx c relative false rounds data a).map fun a' => (a', written ++ data) := by
  induction rounds generalizing data a written with
  | zero => rfl
  | succ rounds ih =>
    rw [streamChunks, sealChunks]
    by_cases hshort : data.length < c
    · rw [if_pos hshort, if_pos hshort]
      by_cases hlast : data ≠ [] ∨ a.index = 0
      · simp only [if_pos hlast]
        cases sealChunk host ctx relative data a <;> rfl
      · have hnil : data = [] := by_contra fun hne => hlast (.inl hne)
        simp only [if_neg hlast]
        rw [hnil, List.append_nil]
        rfl
    · rw [if_neg hshort, if_neg hshort]
      cases hchunk : sealChunk host ctx relative (data.take c) a with
      | error e => rfl
      | ok a' =>
        have hdata : written ++ data.take c ++ data.drop c = written ++ data := by
          rw [List.append_assoc, List.take_append_drop]
        have hrest := ih (data.drop c) a' (written ++ data.take c)
        rw [hdata] at hrest
        exact hrest

variable {b : Builder} {sourceName relative : GoString} {info : Info} {t t' : Stream}
  {root : Target}

theorem streamFile_eq_ok {f : SourceFingerprint.RegularFile}
    (h : streamFile host ctx b sourceName relative f t = .ok (root, t')) :
    buildFile host ctx b relative (sourceFile f) t.build = .ok (root, t'.build) ∧
      t'.sourceHash = t.sourceHash ++ (writeSourceFingerprintNode sourceName relative f.info ++
        f.content) := by
  simp only [streamFile, streamChunks_eq, bind_eq_ok, map_eq_ok, pure_eq_ok] at h
  obtain ⟨_, ⟨a, hchunks, rfl⟩, ⟨content, storage, s⟩, hcontent, _, hvalid, ⟨manifestCID, s'⟩,
    hmanifest, root', hroot, heq⟩ := h
  cases heq
  constructor
  · simp only [buildFile, bind_eq_ok, pure_eq_ok]
    exact ⟨⟨⟩, rfl, a, hchunks, _, hcontent, ⟨⟩, hvalid, _, hmanifest, _, hroot, rfl⟩
  · exact List.append_assoc _ _ _

omit [ChunkJson] in
theorem streamSymlink_eq_ok {target : GoString}
    (h : streamSymlink host ctx sourceName relative info target t = .ok (root, t')) :
    buildSymlink host ctx relative (info.mode &&& 0o777) target t.build = .ok (root, t'.build) ∧
      t'.sourceHash = t.sourceHash ++
        (writeSourceFingerprintNode sourceName relative info ++
          writeSourceFingerprintField (utf8 target)) := by
  simp only [streamSymlink, ok_iff] at h
  obtain ⟨portable, htarget, _, hvalid, ⟨manifestCID, s'⟩, hmanifest, root', hroot, heq⟩ := h
  cases heq
  constructor
  · simp only [buildSymlink, ok_iff]
    exact ⟨_, htarget, ⟨⟩, hvalid, _, hmanifest, _, hroot, rfl⟩
  · exact List.append_assoc _ _ _

section kinds

variable {α : Type} {r : α} {m : Except RestoreError α}

omit [CidFormat] [PayloadHash] [ChunkJson] [ManifestJson]

theorem byMode_file (h : byMode info relative (throw .io) (throw .io) m = .ok r) :
    info.isSymlink = false ∧ info.isRegular = true ∧ m = .ok r := by
  unfold byMode at h
  split_ifs at h with hlink hdir hregular
  exact ⟨Bool.eq_false_iff.mpr hlink, hregular, h⟩

theorem byMode_symlink (h : byMode info relative m (throw .io) (throw .io) = .ok r) :
    info.isSymlink = true ∧ m = .ok r := by
  unfold byMode at h
  split_ifs at h with hlink
  exact ⟨hlink, h⟩

theorem isRegular_of_isDir (h : info.isDir = true) : info.isRegular = false := by
  rw [Info.isDir, bne_iff_ne] at h
  rw [Info.isRegular, beq_eq_false_iff_ne]
  intro hregular
  have hsub : modeType &&& modeDir = modeDir := by decide
  apply h
  rw [← hsub, ← UInt32.and_assoc, hregular, UInt32.zero_and]

theorem byMode_directory (h : byMode info relative (throw .io) m (throw .io) = .ok r) :
    (info.isSymlink = false ∧ info.isRegular = false ∧ info.isDir = true) ∧ m = .ok r := by
  unfold byMode at h
  split_ifs at h with hlink hdir
  exact ⟨⟨Bool.eq_false_iff.mpr hlink, isRegular_of_isDir hdir, hdir⟩, h⟩

theorem byMode_other : byMode info relative (throw .io) (throw .io) (throw .io) ≠ .ok r := by
  intro h
  have hfile := (byMode_file h).2.2
  cases hfile

end kinds

/-- The builder hashes what a walk writes, and builds what it builds without. -/
def Streams (host : Host) (ctx : BuildContext Key) (b : Builder) (sourceName : GoString)
    (node : Node) : Prop :=
  ∀ {relative : GoString} {t : Stream} {type : EntryType} {root : Target} {t' : Stream},
    streamObject host ctx b sourceName node relative t = .ok (type, root, t') →
      Named node ∧ buildObject host ctx b (sourceOf node) relative t.build =
        .ok (type, root, t'.build) ∧
        ∃ w, walk sourceName node relative = .ok w ∧ t'.sourceHash = t.sourceHash ++ w

theorem streamChildren_eq_ok {l : List (GoString × Node)}
    (hstreams : ∀ c ∈ l, Streams host ctx b sourceName c.2)
    {relativePath : GoString} {t t' : Stream} {listing : Listing}
    (h : buildChildren ctx relativePath (l.map fun c =>
      (c.1, streamObject host ctx b sourceName c.2)) t = .ok (listing, t')) :
    (∀ c ∈ l, validateEntryName c.1 = .ok () ∧ Named c.2) ∧
      listing.entries.map DirectoryEntry.name = l.map Prod.fst ∧
      buildChildren ctx relativePath ((l.map fun c => (c.1, sourceOf c.2)).map
        fun c => (c.1, buildObject host ctx b c.2)) t.build = .ok (listing, t'.build) ∧
      ∃ w, writeAll (l.map fun c => (c.1, walk sourceName c.2 (entryPath relativePath c.1))) =
        .ok w ∧ t'.sourceHash = t.sourceHash ++ w := by
  induction l generalizing t listing with
  | nil =>
    rw [List.map_nil, buildChildren, pure_eq_ok] at h
    cases h
    exact ⟨by simp, rfl, rfl, [], rfl, (List.append_nil _).symm⟩
  | cons c l ih =>
    simp only [List.map_cons, buildChildren, ok_iff] at h
    obtain ⟨_, hname, ⟨type, target, t₁⟩, hchild, ⟨rest, t₂⟩, hrest, heq⟩ := h
    cases heq
    obtain ⟨hnamed, hbuilt, w, hwalk, hhash⟩ := hstreams c (by simp) hchild
    obtain ⟨hall, hnames, hbuilt', w', hwalk', hhash'⟩ := ih (fun c hc =>
      hstreams c (by simp [hc])) hrest
    refine ⟨List.forall_mem_cons.mpr ⟨⟨hname, hnamed⟩, hall⟩, by simp [hnames], ?_, w ++ w', ?_, ?_⟩
    · simp only [List.map_cons, buildChildren, ok_iff]
      exact ⟨⟨⟩, hname, _, hbuilt, _, hbuilt', rfl⟩
    · simp only [List.map_cons, writeAll, ok_iff]
      exact ⟨w, hwalk, w', hwalk', rfl⟩
    · rw [hhash', hhash, List.append_assoc]

omit [ChunkJson] in
theorem nodup_of_storeDirectory {mode : UInt32} {relativePath : GoString} {listing : Listing}
    {s s' : Build} (h : storeDirectory host ctx mode relativePath listing s = .ok (root, s')) :
    (listing.entries.map DirectoryEntry.name).Nodup := by
  simp only [storeDirectory, validateDirectoryManifest, ok_iff] at h
  obtain ⟨_, ⟨_, -, hentries⟩, -⟩ := h
  exact ((sortOn_perm _ _).map _).nodup_iff.mp (validateEntries_eq_ok hentries).2.1

mutual

theorem streamObject_eq_ok (node : Node) : Streams host ctx b sourceName node := by
  intro relative t type root t' h
  cases node with
  | file f =>
    rw [streamObject] at h
    obtain ⟨hlink, hregular, h⟩ := byMode_file h
    simp only [ok_iff] at h
    obtain ⟨⟨root', t₁⟩, hfile, heq⟩ := h
    cases heq
    obtain ⟨hbuilt, hhash⟩ := streamFile_eq_ok hfile
    refine ⟨.file f, ?_, _, ?_, hhash⟩
    · simp only [sourceOf, buildObject, hbuilt]
      rfl
    · rw [walk, writeNode_eq_ok]
      exact ⟨_, byKind_file.mpr ⟨hlink, hregular, rfl⟩, rfl⟩
  | symlink info target =>
    rw [streamObject] at h
    obtain ⟨hlink, h⟩ := byMode_symlink h
    simp only [ok_iff] at h
    obtain ⟨⟨root', t₁⟩, hsymlink, heq⟩ := h
    cases heq
    obtain ⟨hbuilt, hhash⟩ := streamSymlink_eq_ok hsymlink
    refine ⟨.symlink info target, ?_, _, ?_, hhash⟩
    · simp only [sourceOf, buildObject, hbuilt]
      rfl
    · rw [walk, writeNode_eq_ok]
      exact ⟨_, byKind_symlink.mpr ⟨hlink, rfl⟩, rfl⟩
  | directory info children =>
    rw [streamObject] at h
    obtain ⟨hdir, h⟩ := byMode_directory h
    simp only [sortOn_streamersOf, ok_iff] at h
    obtain ⟨⟨listing, t₁⟩, hchildren, ⟨root', s⟩, hstored, heq⟩ := h
    cases heq
    have hperm := sortOn_perm Prod.fst children
    obtain ⟨hall, hnames, hbuilt, w, hwalk, hhash⟩ := streamChildren_eq_ok
      (fun c hc => streamObjects_eq_ok children c (hperm.subset hc)) hchildren
    refine ⟨.directory ?_ ?_ ?_, ?_, _, ?_, hhash.trans (List.append_assoc _ _ _)⟩
    · rw [← (hperm.map Prod.fst).nodup_iff, ← hnames]
      exact nodup_of_storeDirectory hstored
    · exact fun c hc =>
        (isPortableSegment_iff.mp
          (pathName_of_entryName (hall c (hperm.mem_iff.mpr hc)).1).portable).2.1
    · exact fun c hc => (hall c (hperm.mem_iff.mpr hc)).2
    · simp only [sourceOf, buildObject, sortOn_buildersOf, sortOn_sourcesOf, hbuilt, ok_iff]
      exact ⟨_, rfl, _, hstored, rfl⟩
    · rw [walk, writeNode_eq_ok, sortOn_walksOf]
      exact ⟨w, byKind_directory.mpr ⟨hdir, hwalk⟩, rfl⟩
  | other info =>
    rw [streamObject] at h
    exact absurd h byMode_other

theorem streamObjects_eq_ok (children : List (GoString × Node)) :
    ∀ c ∈ children, Streams host ctx b sourceName c.2 := by
  cases children with
  | nil => simp
  | cons c children =>
    exact List.forall_mem_cons.mpr ⟨streamObject_eq_ok c.2, streamObjects_eq_ok children⟩

end

/-- The build of a binding, from the directory at a path and with a new hash. -/
def streamSource (host : Host) (ctx : BuildContext Key) (b : Builder) (absSource : GoString)
    (source : Node) (s : Build) : Except RestoreError (EntryType × Target × Stream) :=
  streamObject host ctx b (base absSource) source [] ⟨s, []⟩

/-- The fingerprint of the source and the one that is streamed agree, for every
chunk size and whatever the order in which the two list a directory. -/
theorem streamSource_fingerprint (b : Builder) (absSource : GoString) (source source' : Node)
    (hsame : Relisted source source') (s : Build) (type : EntryType) (root : Target) (t : Stream)
    (h : streamSource host ctx b absSource source s = .ok (type, root, t)) :
    fingerprintPinnedSource (base absSource) source' = .ok t.sourceHash ∧
      buildObject host ctx b (sourceOf source) [] s = .ok (type, root, t.build) := by
  obtain ⟨hnamed, hbuilt, w, hwalk, hhash⟩ := streamObject_eq_ok source h
  rw [(hsame.walk_eq hnamed).2] at hwalk
  rw [fingerprintPinnedSource, if_neg (base_ne_nil absSource), hwalk, hhash]
  exact ⟨rfl, hbuilt⟩

end stream

/-- Two files that one listing returns in their order, and the other one not. -/
def twoFiles : List (GoString × Node) :=
  let file : Node := .file ⟨0o644, 8, [7], length_oneByte 7⟩
  [(text "b", file), (text "a", file)]

def oneByteManifest : FileManifest :=
  { profile := profileID, version := profileVersion, kind := .file, mode := 0o644, size := 1,
    storage := .raw
    plaintextChunkSize := 2, ciphertextChunkSize := 2 + envelopeOverhead, ciphertextSize := 1 +
      envelopeOverhead
    chunkCount := 1, linkTarget := [] }

section

attribute [local instance] CidFormat.verbatim PayloadHash.verbatim ChunkJson.unary Cipher.padded

theorem streamSource_fingerprint_twoFiles :
    letI := ManifestJson.numbered (filesManifest [text "a", text "b"]) oneByteManifest
    ∃ type root t, streamSource ⟨fun _ => some zeroNonce, fun _ => false, fun _ _ => false⟩
      sampleRequest.toBuildContext
        twoByteChunks (text "/h") (.directory ⟨modeDir ||| 0o755, 4096, 7⟩ twoFiles)
          ⟨⟨∅, fun _ => false⟩, 0⟩ = .ok (type, root, t) ∧
      fingerprintPinnedSource (text "h")
        (.directory ⟨modeDir ||| 0o755, 4096, 7⟩ twoFiles.reverse) = .ok t.sourceHash := by
  let cipher : Cipher UInt8 := Cipher.padded
  let manifests : ManifestJson :=
    ManifestJson.numbered (filesManifest [text "a", text "b"]) oneByteManifest
  have hbuilt : (streamSource ⟨fun _ => some zeroNonce, fun _ => false, fun _ _ => false⟩
      sampleRequest.toBuildContext
      twoByteChunks (text "/h") (.directory ⟨modeDir ||| 0o755, 4096, 7⟩ twoFiles)
        ⟨⟨∅, fun _ => false⟩, 0⟩).isOk = true := by
    decide +kernel
  obtain ⟨⟨type, root, t⟩, hstream⟩ := exists_of_isOk hbuilt
  have hsame := Relisted.perm ⟨modeDir ||| 0o755, 4096, 7⟩ twoFiles.reverse_perm.symm
  exact ⟨type, root, t, hstream, (streamSource_fingerprint _ _ _ _ hsame _ _ _ _ hstream).1⟩

end

end MaltClient.EncryptedUnixFs
