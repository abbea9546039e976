import MaltClient.EncryptedEnvelope
import MaltClient.PlaintextMerge

/-! The fingerprint of a backup source: what is hashed for a tree that does not
change, and for the nodes of a scanned tree. Both streams can be read back, so
that different trees are hashed differently. -/

namespace MaltClient.SourceFingerprint

open GoText ByteFields Checked

/-- `fs.FileInfo`, as far as it is hashed. -/
structure Info where
  mode : UInt32
  size : Int64
  modTime : Int64
  deriving DecidableEq

def modeDir : UInt32 := (1 : UInt32) <<< 31

def modeSymlink : UInt32 := (1 : UInt32) <<< 27

/-- `fs.ModeType`: directories, links, devices, pipes, sockets, and the rest. -/
def modeType : UInt32 :=
  modeDir ||| modeSymlink ||| (1 : UInt32) <<< 26 ||| (1 : UInt32) <<< 25 ||| (1 :
    UInt32) <<< 24 |||
    (1 : UInt32) <<< 21 ||| (1 : UInt32) <<< 19

namespace Info

variable (info : Info)

def isSymlink : Bool := info.mode &&& modeSymlink != 0

def isRegular : Bool := info.mode &&& modeType == 0

def isDir : Bool := info.mode &&& modeDir != 0

end Info

structure RegularFile where
  mode : UInt32
  modTime : Int64
  content : List UInt8
  length_lt : content.length < 2 ^ 63

def RegularFile.info (f : RegularFile) : Info := ⟨f.mode, Int64.ofNat f.content.length, f.modTime⟩

/-- A tree that does not change. The children of a directory stand in the order in
which `ReadDir` returns them. -/
inductive Node where
  | file (f : RegularFile)
  | symlink (info : Info) (target : GoString)
  | directory (info : Info) (children : List (GoString × Node))
  | other (info : Info)

inductive FingerprintError where
  | incomplete
  | io
  | unsupported (path : GoString)
  deriving DecidableEq

/-- `writeFingerprintField` -/
def writeFingerprintField (value : List UInt8) : List UInt8 := field 8 value

def metadata (info : Info) : List UInt8 :=
  bigEndian 8 info.mode.toNat ++ bigEndian 8 info.size.toUInt64.toNat ++
    bigEndian 8 info.modTime.toUInt64.toNat

def displayPath (displayName relative : GoString) : GoString :=
  if relative = [] then displayName else pathJoin [displayName, relative]

def entryPath (relative name : GoString) : GoString :=
  if relative = [] then name else pathJoin [relative, name]

def byKind (path : GoString) (info : Info) (target : Except FingerprintError GoString)
    (content children : Except FingerprintError (List UInt8)) :
    Except FingerprintError (List UInt8) :=
  if info.isSymlink = true then target.map fun t => writeFingerprintField (utf8 t)
  else if info.isRegular = true then content
  else if info.isDir = true then children
  else .error (.unsupported path)

def writeNode (displayName relative : GoString) (info : Info)
    (target : Except FingerprintError GoString)
    (content children : Except FingerprintError (List UInt8)) :
    Except FingerprintError (List UInt8) := do
  let path := displayPath displayName relative
  let rest ← byKind path info target content children
  return writeFingerprintField (utf8 path) ++ metadata info ++ rest

/-- One walk after another. -/
def writeAll :
    List (GoString × Except FingerprintError (List UInt8)) → Except FingerprintError (List UInt8)
  | [] => return []
  | (_, walked) :: rest => do
    let first ← walked
    let others ← writeAll rest
    return first ++ others

mutual

def walk (displayName : GoString) : Node → GoString → Except FingerprintError (List UInt8)
  | .file f, relative =>
    writeNode displayName relative f.info (.error .io) (.ok f.content) (.error .io)
  | .symlink info target, relative =>
    writeNode displayName relative info (.ok target) (.error .io) (.error .io)
  | .directory info children, relative =>
    writeNode displayName relative info (.error .io) (.error .io)
      (writeAll (sortOn Prod.fst (walksOf displayName children relative)))
  | .other info, relative =>
    writeNode displayName relative info (.error .io) (.error .io) (.error .io)

def walksOf (displayName : GoString) :
    List (GoString × Node) → GoString → List (GoString × Except FingerprintError (List UInt8))
  | [], _ => []
  | (name, child) :: rest, relative =>
    (name, walk displayName child (entryPath relative name)) :: walksOf displayName rest relative

end

/-- `fingerprintPinnedSource`, up to the hash of what is written. -/
def fingerprintPinnedSource (displayName : GoString) (root : Node) :
    Except FingerprintError (List UInt8) :=
  if displayName = [] then .error .incomplete else walk displayName root []

/-! ### The objects of a tree -/

inductive Body where
  | content (bytes : List UInt8)
  | target (target : GoString)
  | children
  | unsupported
  deriving DecidableEq

structure Found where
  path : List GoString
  info : Info
  body : Body
  deriving DecidableEq

mutual

/-- The objects of a tree, those of a directory in the order of their names. -/
def objects : Node → List GoString → List Found
  | .file f, path => [⟨path, f.info, .content f.content⟩]
  | .symlink info target, path => [⟨path, info, .target target⟩]
  | .directory info children, path =>
    ⟨path, info, .children⟩ :: (sortOn Prod.fst (objectsOf children path)).flatMap Prod.snd
  | .other info, path => [⟨path, info, .unsupported⟩]

def objectsOf : List (GoString × Node) → List GoString → List (GoString × List Found)
  | [], _ => []
  | (name, child) :: rest, path => (name, objects child (path ++ [name])) :: objectsOf rest path

end

def Body.bytes : Body → List UInt8
  | .content bytes => bytes
  | .target link => writeFingerprintField (utf8 link)
  | .children => []
  | .unsupported => []

def Found.record (displayName : GoString) (o : Found) : List UInt8 :=
  writeFingerprintField (utf8 (displayPath displayName (join o.path))) ++
    metadata o.info ++ o.body.bytes

/-- The mode tells which kind of bytes stands in a record, and the size how many. -/
def Found.Kinded (o : Found) : Prop :=
  match o.body with
  | .content bytes => o.info.isSymlink = false ∧ o.info.isRegular = true ∧ bytes.length < 2 ^ 63 ∧
      o.info.size = Int64.ofNat bytes.length
  | .target _ => o.info.isSymlink = true
  | .children => o.info.isSymlink = false ∧ o.info.isRegular = false ∧ o.info.isDir = true
  | .unsupported => False

/-! ### What a walk writes -/

section walk

variable {displayName path : GoString} {info : Info} {rest s : List UInt8}

theorem byKind_file {content : List UInt8} :
    byKind path info (.error .io) (.ok content) (.error .io) = .ok rest ↔
      info.isSymlink = false ∧ info.isRegular = true ∧ content = rest := by
  rw [byKind]
  cases info.isSymlink <;> cases info.isRegular <;> cases info.isDir <;> simp [Except.map]

theorem byKind_symlink {target : GoString} :
    byKind path info (.ok target) (.error .io) (.error .io) = .ok rest ↔
      info.isSymlink = true ∧ writeFingerprintField (utf8 target) = rest := by
  rw [byKind]
  cases info.isSymlink <;> cases info.isRegular <;> cases info.isDir <;> simp [Except.map]

variable {children : Except FingerprintError (List UInt8)}

theorem byKind_directory :
    byKind path info (.error .io) (.error .io) children = .ok rest ↔
      (info.isSymlink = false ∧ info.isRegular = false ∧ info.isDir = true) ∧
        children = .ok rest := by
  rw [byKind]
  cases info.isSymlink <;> cases info.isRegular <;> cases info.isDir <;> simp [Except.map]

theorem byKind_other : byKind path info (.error .io) (.error .io) (.error .io) ≠ .ok rest := by
  rw [byKind]
  cases info.isSymlink <;> cases info.isRegular <;> cases info.isDir <;> simp [Except.map]

theorem writeNode_eq_ok {relative : GoString} {target : Except FingerprintError GoString}
    {content : Except FingerprintError (List UInt8)} :
    writeNode displayName relative info target content children = .ok s ↔
      ∃ rest, byKind (displayPath displayName relative) info target content children = .ok rest ∧
        writeFingerprintField (utf8 (displayPath displayName relative)) ++ metadata info ++
          rest = s := by
  simp only [writeNode, ok_iff]

theorem entryPath_join {ps : List GoString} {name : GoString} (hps : ∀ p ∈ ps ++ [name], Name p) :
    entryPath (join ps) name = join (ps ++ [name]) := by
  have hfront : ∀ p ∈ ps, Name p := fun p hp => hps p (List.mem_append_left _ hp)
  by_cases hnil : ps = []
  · subst hnil
    rfl
  · have hjoin : join ps ≠ [] := join_ne_nil hnil fun p hp => (hfront p hp).plain
    rw [entryPath, if_neg hjoin]
    exact pathJoin_name hfront (hps name (by simp))

theorem exists_mem_objects (node : Node) (ps : List GoString) :
    ∃ o ∈ objects node ps, o.path = ps := by
  cases node <;> rw [objects] <;> exact ⟨_, List.mem_cons_self, rfl⟩

theorem walksOf_eq_map (displayName : GoString) (children : List (GoString × Node))
    (relative : GoString) : walksOf displayName children relative =
      children.map fun c => (c.1, walk displayName c.2 (entryPath relative c.1)) := by
  induction children with
  | nil => rfl
  | cons c children ih => rw [walksOf, ih, List.map_cons]

theorem sortOn_walksOf (displayName : GoString) (children : List (GoString × Node))
    (relative : GoString) : sortOn Prod.fst (walksOf displayName children relative) =
      (sortOn Prod.fst children).map fun c =>
        (c.1, walk displayName c.2 (entryPath relative c.1)) := by
  rw [walksOf_eq_map]
  exact (map_sortOn (fun _ => rfl) children).symm

theorem objects_directory (info : Info) (children : List (GoString × Node)) (path : List GoString) :
    objects (.directory info children) path =
      ⟨path, info, .children⟩ :: (sortOn Prod.fst children).flatMap fun c =>
        objects c.2 (path ++ [c.1]) := by
  have hmap :
    objectsOf children path = children.map fun c => (c.1, objects c.2 (path ++ [c.1])) := by
    induction children with
    | nil => rfl
    | cons c children ih => rw [objectsOf, ih, List.map_cons]
  rw [objects, hmap, ← map_sortOn (fun _ => rfl) children, List.flatMap_map]

def Writes (displayName : GoString) (node : Node) (ps : List GoString) : Prop :=
  ∀ s, walk displayName node (join ps) = .ok s ↔
    (∀ o ∈ objects node ps, o.Kinded) ∧ (objects node ps).flatMap (Found.record displayName) = s

theorem writeAll_eq_ok {l : List (GoString × Node)} {ps : List GoString}
    (hnames : ∀ c ∈ l, entryPath (join ps) c.1 = join (ps ++ [c.1]))
    (hwrites : ∀ c ∈ l, Writes displayName c.2 (ps ++ [c.1])) (s : List UInt8) :
    writeAll (l.map fun c => (c.1, walk displayName c.2 (entryPath (join ps) c.1))) = .ok s ↔
      (∀ o ∈ l.flatMap fun c => objects c.2 (ps ++ [c.1]), o.Kinded) ∧
        (l.flatMap fun c => objects c.2 (ps ++ [c.1])).flatMap (Found.record displayName) = s := by
  induction l generalizing s with
  | nil => simp [writeAll, pure, Except.pure]
  | cons c rest ih =>
    have hwalk := hwrites c (by simp)
    have hrest := ih (fun c hc => hnames c (by simp [hc])) (fun c hc => hwrites c (by simp [hc]))
    rw [List.map_cons, writeAll, hnames c (by simp), bind_eq_ok, List.flatMap_cons]
    simp only [ok_iff, hwalk _, hrest, List.forall_mem_append, List.flatMap_append]
    exact ⟨fun ⟨_, ⟨hk, rfl⟩, _, ⟨hk', rfl⟩, h⟩ => ⟨⟨hk, hk'⟩, h⟩,
      fun ⟨⟨hk, hk'⟩, h⟩ => ⟨_, ⟨hk, rfl⟩, _, ⟨hk', rfl⟩, h⟩⟩

mutual

theorem walk_eq_ok (node : Node) (ps : List GoString)
    (hnames : ∀ o ∈ objects node ps, ∀ p ∈ o.path, Name p) : Writes displayName node ps := by
  intro s
  cases node with
  | file f =>
    have hkinded :
      (∀ o ∈ objects (.file f) ps, o.Kinded) ↔ f.info.isSymlink = false ∧
        f.info.isRegular = true := by
      rw [objects, List.forall_mem_singleton]
      exact ⟨fun h => ⟨h.1, h.2.1⟩, fun h => ⟨h.1, h.2, f.length_lt, rfl⟩⟩
    rw [walk, writeNode_eq_ok, hkinded, objects]
    simp only [byKind_file, List.flatMap_cons, List.flatMap_nil, List.append_nil,
      Found.record, Body.bytes]
    exact ⟨fun ⟨_, ⟨hlink, hregular, rfl⟩, h⟩ => ⟨⟨hlink, hregular⟩, h⟩,
      fun ⟨⟨hlink, hregular⟩, h⟩ => ⟨_, ⟨hlink, hregular, rfl⟩, h⟩⟩
  | symlink info target =>
    rw [walk, writeNode_eq_ok, objects]
    simp only [byKind_symlink, List.flatMap_cons, List.flatMap_nil, List.append_nil,
      Found.record, Body.bytes, List.forall_mem_singleton, Found.Kinded]
    exact ⟨fun ⟨_, ⟨hlink, rfl⟩, h⟩ => ⟨hlink, h⟩, fun ⟨hlink, h⟩ => ⟨_, ⟨hlink, rfl⟩, h⟩⟩
  | directory info children =>
    rw [objects_directory] at hnames
    have hbelow :
      ∀ c ∈ sortOn Prod.fst children, ∀ o ∈ objects c.2 (ps ++ [c.1]), ∀ p ∈ o.path, Name p :=
      fun c hc o ho => hnames o (List.mem_cons_of_mem _ (List.mem_flatMap.mpr ⟨c, hc, ho⟩))
    have hentry : ∀ c ∈ sortOn Prod.fst children, entryPath (join ps) c.1 = join (ps ++ [c.1]) := by
      intro c hc
      obtain ⟨o, ho, hpath⟩ := exists_mem_objects c.2 (ps ++ [c.1])
      exact entryPath_join (hpath ▸ hbelow c hc o ho)
    have hwrites : ∀ c ∈ sortOn Prod.fst children, Writes displayName c.2 (ps ++ [c.1]) :=
      fun c hc => walks_eq_ok children c ((sortOn_perm _ _).subset hc) _ (hbelow c hc)
    have hchildren := writeAll_eq_ok hentry hwrites
    rw [walk, writeNode_eq_ok, objects_directory, sortOn_walksOf]
    simp only [byKind_directory, hchildren, List.flatMap_cons, Found.record, Body.bytes,
      List.append_nil, List.forall_mem_cons, Found.Kinded]
    exact ⟨fun ⟨_, ⟨hdir, hrest, rfl⟩, h⟩ => ⟨⟨hdir, hrest⟩, h⟩, fun ⟨⟨hdir, hrest⟩, h⟩ =>
      ⟨_, ⟨hdir, hrest, rfl⟩, h⟩⟩
  | other info =>
    rw [walk, writeNode_eq_ok, objects]
    simp [byKind_other, Found.Kinded]

theorem walks_eq_ok (children : List (GoString × Node)) : ∀ c ∈ children, ∀ ps,
    (∀ o ∈ objects c.2 ps, ∀ p ∈ o.path, Name p) → Writes displayName c.2 ps := by
  cases children with
  | nil => simp
  | cons c rest => exact List.forall_mem_cons.mpr ⟨walk_eq_ok c.2, walks_eq_ok rest⟩

end

end walk

/-! ### The order of a listing -/

/-- The same tree, where calls of `ReadDir` have returned the entries of the
directories in another order. -/
inductive Relisted : Node → Node → Prop
  | refl (node : Node) : Relisted node node
  | perm (info : Info) {children children' : List (GoString × Node)} (h : children.Perm children') :
      Relisted (.directory info children) (.directory info children')
  | child (info : Info) {before after : List (GoString × Node)} {name : GoString}
      {node node' : Node} (h : Relisted node node') :
      Relisted (.directory info (before ++ (name, node) :: after))
        (.directory info (before ++ (name, node') :: after))
  | trans {node node' node'' : Node} (h : Relisted node node') (h' : Relisted node' node'') :
      Relisted node node''

/-- The entries of every directory have different names, in valid UTF-8. -/
inductive Named : Node → Prop
  | file (f : RegularFile) : Named (.file f)
  | symlink (info : Info) (target : GoString) : Named (.symlink info target)
  | directory {info : Info} {children : List (GoString × Node)}
      (hnodup : (children.map Prod.fst).Nodup)
      (hvalid : ∀ c ∈ children, validString c.1 = true) (hchildren : ∀ c ∈ children, Named c.2) :
      Named (.directory info children)
  | other (info : Info) : Named (.other info)

theorem Relisted.walk_eq {node node' : Node} (h : Relisted node node') (hnamed : Named node) :
    Named node' ∧ ∀ displayName relative, walk displayName node relative =
      walk displayName node' relative := by
  induction h with
  | refl node => exact ⟨hnamed, fun _ _ => rfl⟩
  | perm info h =>
    cases hnamed with
    | directory hnodup hvalid hchildren =>
      refine ⟨.directory ((h.map _).nodup_iff.mp hnodup) (fun c hc => hvalid c (h.mem_iff.mpr hc))
        (fun c hc => hchildren c (h.mem_iff.mpr hc)), fun displayName relative => ?_⟩
      rw [walk, walk, sortOn_walksOf, sortOn_walksOf, sortOn_eq_of_perm h hvalid hnodup]
  | child info h ih =>
    cases hnamed with
    | directory hnodup hvalid hchildren =>
      rw [List.forall_mem_append, List.forall_mem_cons] at hchildren
      obtain ⟨hbefore, hnode, hafter⟩ := hchildren
      obtain ⟨hnamed, hwalk⟩ := ih hnode
      refine ⟨.directory (by simpa using hnodup) ?_ ?_, fun displayName relative => ?_⟩
      · rw [List.forall_mem_append, List.forall_mem_cons] at hvalid ⊢
        exact hvalid
      · rw [List.forall_mem_append, List.forall_mem_cons]
        exact ⟨hbefore, hnamed, hafter⟩
      · rw [walk, walk, walksOf_eq_map, walksOf_eq_map, List.map_append, List.map_append,
          List.map_cons, List.map_cons, hwalk]
  | trans _ _ ih ih' =>
    obtain ⟨hmiddle, hwalk⟩ := ih hnamed
    obtain ⟨hlast, hwalk'⟩ := ih' hmiddle
    exact ⟨hlast, fun displayName relative => (hwalk displayName relative).trans
      (hwalk' displayName relative)⟩

/-! ### Reading a stream back -/

variable {displayName displayName' : GoString} {o o' : Found} {info info' : Info}

theorem int64_of_toUInt64 {a b : Int64} (h : a.toUInt64 = b.toUInt64) : a = b := by
  cases a
  cases b
  cases h
  rfl

theorem metadata_injective (h : metadata info = metadata info') : info = info' := by
  obtain ⟨hfront, htime⟩ := List.append_inj h (by simp)
  obtain ⟨hmode, hsize⟩ := List.append_inj hfront (by simp)
  have hmode' := bigEndian_injective (lt_trans info.mode.toNat_lt (by norm_num))
    (lt_trans info'.mode.toNat_lt (by norm_num)) hmode
  have hsize' := bigEndian_injective (lt_of_lt_of_eq info.size.toUInt64.toNat_lt (by norm_num))
    (lt_of_lt_of_eq info'.size.toUInt64.toNat_lt (by norm_num)) hsize
  have htime' := bigEndian_injective (lt_of_lt_of_eq info.modTime.toUInt64.toNat_lt (by norm_num))
    (lt_of_lt_of_eq info'.modTime.toUInt64.toNat_lt (by norm_num)) htime
  obtain ⟨mode, size, modTime⟩ := info
  obtain ⟨mode', size', modTime'⟩ := info'
  rw [Info.mk.injEq]
  exact ⟨UInt32.toNat_inj.mp hmode', int64_of_toUInt64 (UInt64.toNat_inj.mp hsize'),
    int64_of_toUInt64 (UInt64.toNat_inj.mp htime')⟩

@[simp] theorem length_metadata (info : Info) : (metadata info).length = 24 := by simp [metadata]

def GoBytes (s : GoString) : Prop := Bytewise s ∧ (utf8 s).length < 2 ^ 63

variable {t : GoString} {r r' : List UInt8} {root : Node}

theorem utf8_injective_of_bytewise {s : GoString} (hs : Bytewise s) (ht : Bytewise t)
    (h : utf8 s = utf8 t) : s = t := by
  refine bytes_injective_of_bytewise hs ht ?_
  have hmap := congrArg (List.map UInt8.toNat) h
  rwa [EncryptedUnixFs.map_toNat_utf8, EncryptedUnixFs.map_toNat_utf8] at hmap

theorem field_split {s : GoString} (hs : GoBytes s) (ht : GoBytes t)
    (h : writeFingerprintField (utf8 s) ++ r = writeFingerprintField (utf8 t) ++ r') :
    s = t ∧ r = r' := by
  obtain ⟨hbytes, hrest⟩ := field_append_injective (lt_trans hs.2 (by norm_num))
    (lt_trans ht.2 (by norm_num)) h
  exact ⟨utf8_injective_of_bytewise hs.1 ht.1 hbytes, hrest⟩

structure Found.Readable (displayName : GoString) (o : Found) : Prop where
  path : GoBytes (displayPath displayName (join o.path))
  target : ∀ t, o.body = .target t → GoBytes t
  kinded : o.Kinded

theorem length_of_size {m n : Nat} (hm : m < 2 ^ 63) (hn : n < 2 ^ 63)
    (h : Int64.ofNat m = Int64.ofNat n) : m = n := by
  have hback := congrArg Int64.toInt h
  rw [Int64.toInt_ofNat_of_lt hm, Int64.toInt_ofNat_of_lt hn] at hback
  exact_mod_cast hback

theorem body_split (ho : o.Readable displayName) (ho' : o'.Readable displayName')
    (hinfo : o.info = o'.info) (h : o.body.bytes ++ r = o'.body.bytes ++ r') :
    o.body = o'.body ∧ r = r' := by
  have hk := ho.kinded
  have hk' := ho'.kinded
  have ht := ho.target
  have ht' := ho'.target
  obtain ⟨path, info, body⟩ := o
  obtain ⟨path', info', body'⟩ := o'
  change info = info' at hinfo
  subst hinfo
  cases body with
  | content bytes =>
    cases body' with
    | content bytes' =>
      obtain ⟨-, -, hlength, hsize⟩ := hk
      obtain ⟨-, -, hlength', hsize'⟩ := hk'
      obtain ⟨rfl, hrest⟩ := List.append_inj h (length_of_size hlength hlength'
        (hsize.symm.trans hsize'))
      exact ⟨rfl, hrest⟩
    | target link => exact absurd (hk.1.symm.trans hk') (by simp)
    | children => exact absurd (hk.2.1.symm.trans hk'.2.1) (by simp)
    | unsupported => exact hk'.elim
  | target link =>
    cases body' with
    | content bytes' => exact absurd (hk.symm.trans hk'.1) (by simp)
    | target link' =>
      obtain ⟨rfl, hrest⟩ := field_split (ht link rfl) (ht' link' rfl) h
      exact ⟨rfl, hrest⟩
    | children => exact absurd (hk.symm.trans hk'.1) (by simp)
    | unsupported => exact hk'.elim
  | children =>
    cases body' with
    | content bytes' => exact absurd (hk.2.1.symm.trans hk'.2.1) (by simp)
    | target link' => exact absurd (hk.1.symm.trans hk') (by simp)
    | children => exact ⟨rfl, h⟩
    | unsupported => exact hk'.elim
  | unsupported => exact hk.elim

theorem record_split (ho : o.Readable displayName) (ho' : o'.Readable displayName')
    (h : o.record displayName ++ r = o'.record displayName' ++ r') :
    displayPath displayName (join o.path) = displayPath displayName' (join o'.path) ∧
      o.info = o'.info ∧ o.body = o'.body ∧ r = r' := by
  simp only [Found.record, List.append_assoc] at h
  obtain ⟨hpath, h⟩ := field_split ho.path ho'.path h
  obtain ⟨hmetadata, h⟩ := List.append_inj h (by simp)
  have hinfo := metadata_injective hmetadata
  exact ⟨hpath, hinfo, body_split ho ho' hinfo h⟩

theorem record_ne_nil (o : Found) : o.record displayName ≠ [] := by
  rw [Found.record, List.append_assoc]
  exact List.append_ne_nil_of_left_ne_nil (field_ne_nil (by decide) _) _

structure Found.Below (displayName : GoString) (o : Found) :
    Prop extends o.Readable displayName where
  below : o.path ≠ []
  names : ∀ p ∈ o.path, Name p

theorem Found.eq_of_displayPath (hd : displayName ≠ []) (ho : o.Below displayName)
    (ho' : o'.Below displayName)
    (hpath : displayPath displayName (join o.path) = displayPath displayName (join o'.path))
    (hinfo : o.info = o'.info) (hbody : o.body = o'.body) : o = o' := by
  have hjoin {o : Found} (ho : o.Below displayName) : join o.path ≠ [] :=
    join_ne_nil ho.below fun p hp => (ho.names p hp).plain
  rw [displayPath, if_neg (hjoin ho), displayPath, if_neg (hjoin ho')] at hpath
  have hnames := pathJoin_names_injective hd ho.below ho'.below ho.names ho'.names hpath
  cases o
  cases o'
  simp_all

theorem records_injective (hd : displayName ≠ []) {l m : List Found}
    (hl : ∀ o ∈ l, o.Below displayName) (hm : ∀ o ∈ m, o.Below displayName)
    (h : l.flatMap (Found.record displayName) = m.flatMap (Found.record displayName)) : l = m := by
  refine flatMap_injective record_ne_nil ?_ hl hm h
  intro o o' r r' ho ho' heq
  obtain ⟨hpath, hinfo, hbody, hrest⟩ := record_split ho.toReadable ho'.toReadable heq
  exact ⟨Found.eq_of_displayPath hd ho ho' hpath hinfo hbody, hrest⟩

/-- A tree whose names are those of a file system, and whose strings are strings of Go. -/
structure Static (displayName : GoString) (root : Node) : Prop where
  names : ∀ o ∈ objects root [], ∀ p ∈ o.path, Name p
  paths : ∀ o ∈ objects root [], GoBytes (displayPath displayName (join o.path))
  targets : ∀ o ∈ objects root [], ∀ t, o.body = .target t → GoBytes t

mutual

theorem path_objects (node : Node) (ps : List GoString) : ∀ o ∈ objects node ps, ps <+: o.path := by
  cases node with
  | directory info children =>
    rw [objects_directory]
    refine List.forall_mem_cons.mpr ⟨List.prefix_refl ps, fun o ho => ?_⟩
    obtain ⟨c, hc, ho⟩ := List.mem_flatMap.mp ho
    have hlonger := path_objectsOf children c ((sortOn_perm _ _).subset hc) _ o ho
    exact (List.prefix_append ps [c.1]).trans hlonger
  | _ =>
    rw [objects]
    exact List.forall_mem_singleton.mpr (List.prefix_refl ps)

theorem path_objectsOf (children : List (GoString × Node)) :
    ∀ c ∈ children, ∀ ps, ∀ o ∈ objects c.2 ps, ps <+: o.path := by
  cases children with
  | nil => simp
  | cons c rest => exact List.forall_mem_cons.mpr ⟨path_objects c.2, path_objectsOf rest⟩

end

theorem objects_root (root : Node) :
    ∃ o rest, objects root [] = o :: rest ∧ o.path = [] ∧ ∀ o' ∈ rest, o'.path ≠ [] := by
  cases root with
  | directory info children =>
    refine ⟨_, _, objects_directory info children [], rfl, fun o ho hnil => ?_⟩
    obtain ⟨c, -, ho⟩ := List.mem_flatMap.mp ho
    have hlonger := (path_objects c.2 [c.1] o ho).length_le
    simp [hnil] at hlonger
  | _ => exact ⟨_, _, rfl, rfl, by simp⟩

theorem Static.readable (hstatic : Static displayName root)
    (hkinded : ∀ o ∈ objects root [], o.Kinded)
    (ho : o ∈ objects root []) : o.Readable displayName :=
  ⟨hstatic.paths o ho, hstatic.targets o ho, hkinded o ho⟩

theorem fingerprintPinnedSource_eq_ok (hstatic : Static displayName root) {s : List UInt8} :
    fingerprintPinnedSource displayName root = .ok s ↔
      displayName ≠ [] ∧ (∀ o ∈ objects root [], o.Kinded) ∧
        (objects root []).flatMap (Found.record displayName) = s := by
  have hwalk : walk displayName root [] = .ok s ↔
      (∀ o ∈ objects root [], o.Kinded) ∧
        (objects root []).flatMap (Found.record displayName) = s :=
    walk_eq_ok root [] hstatic.names s
  rw [fingerprintPinnedSource]
  by_cases hd : displayName = []
  · simp [hd]
  · rw [if_neg hd]
    simpa [hd] using hwalk

theorem Static.below (hstatic : Static displayName root) (hkinded : ∀ o ∈ objects root [], o.Kinded)
    {first : Found} {rest : List Found} (hobjects : objects root [] = first :: rest)
    (hrest : ∀ o ∈ rest, o.path ≠ []) : ∀ o ∈ rest, o.Below displayName := by
  intro o ho
  have hmem : o ∈ objects root [] := hobjects ▸ List.mem_cons_of_mem first ho
  exact ⟨hstatic.readable hkinded hmem, hrest o ho, hstatic.names o hmem⟩

theorem eq_of_same_stream {root' : Node} {s : List UInt8} (hstatic : Static displayName root)
    (hstatic' : Static displayName' root') (h : fingerprintPinnedSource displayName root = .ok s)
    (h' : fingerprintPinnedSource displayName' root' = .ok s) :
    displayName = displayName' ∧ objects root [] = objects root' [] := by
  obtain ⟨hd, hkinded, hstream⟩ := (fingerprintPinnedSource_eq_ok hstatic).mp h
  obtain ⟨-, hkinded', hstream'⟩ := (fingerprintPinnedSource_eq_ok hstatic').mp h'
  obtain ⟨first, rest, hobjects, hpath, hrest⟩ := objects_root root
  obtain ⟨first', rest', hobjects', hpath', hrest'⟩ := objects_root root'
  have hfirst := hstatic.readable hkinded (hobjects ▸ List.mem_cons_self)
  have hfirst' := hstatic'.readable hkinded' (hobjects' ▸ List.mem_cons_self)
  have hsame := hstream.trans hstream'.symm
  rw [hobjects, hobjects', List.flatMap_cons, List.flatMap_cons] at hsame
  -- The record of the root has the display name as its path.
  obtain ⟨hname, hinfo, hbody, htail⟩ := record_split hfirst hfirst' hsame
  rw [hpath, hpath'] at hname
  change displayName = displayName' at hname
  subst hname
  have hbelow := hstatic.below hkinded hobjects hrest
  have hbelow' := hstatic'.below hkinded' hobjects' hrest'
  have hroot : first = first' := by
    cases first
    cases first'
    simp_all
  rw [hobjects, hobjects', hroot, records_injective hd hbelow hbelow' htail]
  exact ⟨rfl, rfl⟩

/-! ### The nodes of a scanned tree -/

section nodes

open Backup

variable {nodes nodes' : Nodes} {e e' : Sigma fun _ : GoString => TreeNode}

/-- `writeMergeField` -/
def writeMergeField (value : List UInt8) : List UInt8 := field 8 value

def kindText : Kind → GoString
  | .dir => text "dir"
  | .file => text "file"
  | .symlink => text "symlink"

def nodeRecord (path : GoString) (node : TreeNode) : List UInt8 :=
  writeMergeField (utf8 path) ++ (writeMergeField (utf8 (kindText node.kind)) ++
    (bigEndian 4 (perm node.mode).toNat ++
    (writeMergeField (utf8 node.digest) ++ writeMergeField (utf8 node.link))))

/-- `plaintextNodeFingerprint`, up to the hash of what is written. -/
def plaintextNodeFingerprint (nodes : Nodes) : List UInt8 :=
  (sortOn Sigma.fst nodes.entries).flatMap fun e => nodeRecord e.1 e.2

def kindWidth : Kind → Nat
  | .dir => 3
  | .file => 4
  | .symlink => 7

theorem length_kindText (kind : Kind) : (utf8 (kindText kind)).length = kindWidth kind := by
  cases kind <;> rfl

variable {r r' : List UInt8}

theorem kindText_split {kind kind' : Kind}
    (h : writeMergeField (utf8 (kindText kind)) ++ r =
      writeMergeField (utf8 (kindText kind')) ++ r') :
    kind = kind' ∧ r = r' := by
  have hshort (k : Kind) : (utf8 (kindText k)).length < 256 ^ 8 := by
    rw [length_kindText]
    cases k <;> norm_num [kindWidth]
  obtain ⟨htext, hrest⟩ := field_append_injective (hshort kind) (hshort kind') h
  have hwidth := congrArg List.length htext
  rw [length_kindText, length_kindText] at hwidth
  refine ⟨?_, hrest⟩
  cases kind <;> cases kind' <;> first | rfl | cases hwidth

structure Scanned (e : Sigma fun _ : GoString => TreeNode) : Prop where
  path : GoBytes e.1
  digest : GoBytes e.2.digest
  link : GoBytes e.2.link

def hashed (e : Sigma fun _ : GoString => TreeNode) :
    GoString × Kind × UInt32 × GoString × GoString :=
  (e.1, e.2.kind, perm e.2.mode, e.2.digest, e.2.link)

theorem nodeRecord_split (he : Scanned e) (he' : Scanned e')
    (h : nodeRecord e.1 e.2 ++ r = nodeRecord e'.1 e'.2 ++ r') : hashed e = hashed e' ∧ r = r' := by
  simp only [nodeRecord, List.append_assoc] at h
  obtain ⟨hpath, h⟩ := field_split he.path he'.path h
  obtain ⟨hkind, h⟩ := kindText_split h
  obtain ⟨hmode, h⟩ := List.append_inj h (by simp)
  obtain ⟨hdigest, h⟩ := field_split he.digest he'.digest h
  obtain ⟨hlink, h⟩ := field_split he.link he'.link h
  have hperm :=
    UInt32.toNat_inj.mp (bigEndian_injective (UInt32.toNat_lt _) (UInt32.toNat_lt _) hmode)
  rw [hashed, hashed, hpath, hkind, hperm, hdigest, hlink]
  exact ⟨rfl, h⟩

theorem hashed_eq_of_same_stream (hscanned : ∀ e ∈ nodes.entries, Scanned e)
    (hscanned' : ∀ e ∈ nodes'.entries, Scanned e)
    (h : plaintextNodeFingerprint nodes = plaintextNodeFingerprint nodes') :
    (sortOn Sigma.fst nodes.entries).map hashed = (sortOn Sigma.fst nodes'.entries).map hashed := by
  refine map_eq_of_flatMap_eq ?_ nodeRecord_split ?_ ?_ h
  · exact fun e => List.append_ne_nil_of_left_ne_nil (field_ne_nil (by decide) _) _
  · exact fun e he => hscanned e ((sortOn_perm _ _).subset he)
  · exact fun e he => hscanned' e ((sortOn_perm _ _).subset he)

theorem lookup_hashed {view : Kind × UInt32 × GoString × GoString} {path : GoString} :
    (path, view) ∈ (sortOn Sigma.fst nodes.entries).map hashed ↔
      ∃ node, nodes.lookup path = some node ∧ hashed ⟨path, node⟩ = (path, view) := by
  rw [List.mem_map]
  constructor
  · rintro ⟨⟨path', node⟩, hmem, heq⟩
    obtain rfl : path' = path := congrArg Prod.fst heq
    exact ⟨node, AList.mem_lookup_iff.mpr ((sortOn_perm _ _).subset hmem), heq⟩
  · rintro ⟨node, hlookup, heq⟩
    exact ⟨⟨path, node⟩, (sortOn_perm _ _).mem_iff.mpr (AList.mem_lookup_iff.mp hlookup), heq⟩

theorem sameTreeNode_of_same_stream (hscanned : ∀ e ∈ nodes.entries, Scanned e)
    (hscanned' : ∀ e ∈ nodes'.entries, Scanned e)
    (h : plaintextNodeFingerprint nodes = plaintextNodeFingerprint nodes') (path : GoString) :
    sameTreeNode (nodes.lookup path) (nodes'.lookup path) = true := by
  have hlists := hashed_eq_of_same_stream hscanned hscanned' h
  have hviews (view : Kind × UInt32 × GoString × GoString) :
      (∃ node, nodes.lookup path = some node ∧ hashed ⟨path, node⟩ = (path, view)) ↔
        ∃ node, nodes'.lookup path = some node ∧ hashed ⟨path, node⟩ = (path, view) := by
    rw [← lookup_hashed, ← lookup_hashed, hlists]
  cases hleft : nodes.lookup path with
  | some node =>
    obtain ⟨node', hright, heq⟩ := (hviews _).mp ⟨node, hleft, rfl⟩
    simp only [hashed, Prod.mk.injEq] at heq
    simp [hright, sameTreeNode, heq]
  | none =>
    cases hright : nodes'.lookup path with
    | none => rfl
    | some node' =>
      obtain ⟨node, hfound, -⟩ := (hviews _).mpr ⟨node', hright, rfl⟩
      rw [hleft] at hfound
      cases hfound

end nodes

/-- What is hashed for a tree that does not change tells the name it is shown
under, and every path, kind, mode, size, time, content and link in it. What is
hashed for the nodes of a scanned tree tells what `sameTreeNode` compares. -/
theorem fingerprint_separates :
    (∀ (displayName displayName' : GoString) (root root' : Node) (s : List UInt8),
      Static displayName root →
        Static displayName' root' → fingerprintPinnedSource displayName root = .ok s →
        fingerprintPinnedSource displayName' root' = .ok s →
        displayName = displayName' ∧ objects root [] = objects root' []) ∧
      ∀ nodes nodes' :
        Backup.Nodes, (∀ e ∈ nodes.entries, Scanned e) → (∀ e ∈ nodes'.entries, Scanned e) →
        plaintextNodeFingerprint nodes = plaintextNodeFingerprint nodes' →
        ∀ path, Backup.sameTreeNode (nodes.lookup path) (nodes'.lookup path) = true :=
  ⟨fun _ _ _ _ _ hstatic hstatic' h h' => eq_of_same_stream hstatic hstatic' h h',
    fun _ _ hscanned hscanned' h => sameTreeNode_of_same_stream hscanned hscanned' h⟩

theorem length_oneByte (b : UInt8) : [b].length < 2 ^ 63 := Nat.one_lt_two_pow (Nat.succ_ne_zero 62)

def oneByte (b : UInt8) : Node :=
  .directory ⟨modeDir ||| 0o755, 4096, 7⟩ [(text "a", .file ⟨0o644, 8, [b], length_oneByte b⟩)]

theorem objects_oneByte (b : UInt8) : objects (oneByte b) [] =
    [⟨[], ⟨modeDir ||| 0o755, 4096, 7⟩, .children⟩,
      ⟨[text "a"], ⟨0o644, 1, 8⟩, .content [b]⟩] := rfl

theorem goBytes_home : GoBytes (text "h") ∧ GoBytes (displayPath (text "h") (join [text "a"])) := by
  have hname : (utf8 (text "h")).length = 1 := rfl
  have hpath : (utf8 (displayPath (text "h") (join [text "a"]))).length = 3 := rfl
  exact ⟨⟨by decide, by norm_num [hname]⟩, ⟨by decide, by norm_num [hpath]⟩⟩

theorem static_oneByte (b : UInt8) : Static (text "h") (oneByte b) := by
  refine ⟨?_, ?_, ?_⟩
  · simp [objects_oneByte, Name, Plain, text, dot, dotDot]
    decide
  · simp only [objects_oneByte, List.forall_mem_cons, List.not_mem_nil, false_imp_iff,
      implies_true, and_true]
    exact goBytes_home
  · simp [objects_oneByte]

theorem fingerprint_separates_oneByte :
    (∃ s, fingerprintPinnedSource (text "h") (oneByte 1) = .ok s) ∧
      ∀ s, fingerprintPinnedSource (text "h") (oneByte 1) = .ok s →
        fingerprintPinnedSource (text "h") (oneByte 2) ≠ .ok s := by
  refine ⟨⟨_, rfl⟩, fun s h h' => ?_⟩
  have hobjects := (fingerprint_separates.1 _ _ _ _ s (static_oneByte 1) (static_oneByte 2) h h').2
  simp [objects_oneByte] at hobjects

end MaltClient.SourceFingerprint
