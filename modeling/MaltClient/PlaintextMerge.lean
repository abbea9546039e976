import MaltClient.FileTree
import MaltClient.FileNames

/-! The three-way merge of plaintext trees. The destination is new or empty, and
what a merge that fails has written of it is left out. -/

namespace MaltClient.Backup

open GoText Checked AssocMap FileTree

abbrev PlainTree := Tree FileName UInt32 (List UInt8) GoString

def perm (mode : UInt32) : UInt32 := mode &&& 0o777

inductive Kind where
  | dir
  | file
  | symlink
  deriving DecidableEq, Repr

/-- A node of a scanned tree, with the bytes that its source has. -/
structure TreeNode where
  kind : Kind
  mode : UInt32
  digest : GoString
  link : GoString
  source : List UInt8
  deriving DecidableEq, Repr

class Sha256 where
  hexSum : List UInt8 → GoString

inductive MergeError where
  | io
  | message (format : String)
  deriving DecidableEq, Repr

/-- What stands at the path of a tree to be scanned. -/
inductive Snapshot where
  | absent
  | unsafeRoot
  | unreadable
  | tree (t : PlainTree)

abbrev Nodes := AList fun _ : GoString => TreeNode

/-- A node that is selected may be absent. -/
abbrev Selected := AList fun _ : GoString => Option TreeNode

/-- An order in which a `range` loop visits the keys of a map. -/
structure Visit where
  keys : List GoString → List GoString
  perm : ∀ l, (keys l).Perm l

def Visit.listed : Visit := ⟨id, fun _ => .rfl⟩

/-- The system that runs a merge: the permission bits that it takes from new
directories and files, those that it gives to new links, what fails, and the
orders in which the loops over the paths and over the selected nodes run. -/
structure System where
  umask : UInt32
  linkMode : UInt32
  mkdirAllFails : Bool
  fails : GoString → Bool
  first : Visit
  second : Visit

section scan

variable [Sha256]

def scanObject : Object UInt32 (List UInt8) GoString → Except MergeError TreeNode
  | .dir mode => return { kind := .dir, mode := mode, digest := [], link := [], source := [] }
  | .file mode body =>
    return { kind := .file, mode := mode, digest := Sha256.hexSum body, link := [], source := body }
  | .link mode target =>
    return { kind := .symlink, mode := mode, digest := [], link := target, source := [] }
  | .special _ => throw (.message "unsupported filesystem object in merge: %s")

def scanPlaintextTree : Snapshot → Except MergeError Nodes
  | .absent => return ∅
  | .unsafeRoot => throw (.message "merge snapshot root is not a safe directory")
  | .unreadable => throw .io
  | .tree t => do
    let nodes ← t.objects.entries.mapM fun e => do
      let node ← scanObject e.2
      return (relative e.1, node)
    return insertAll ∅ nodes

end scan

def sameTreeNode : Option TreeNode → Option TreeNode → Bool
  | none, none => true
  | some left, some right =>
    left.kind = right.kind && perm left.mode = perm right.mode && left.digest = right.digest &&
      left.link = right.link
  | _, _ => false

section select

/-- The node that a merge takes, unless the path is in conflict. -/
def choose (baseNode localNode remoteNode : Option TreeNode) : Option (Option TreeNode) :=
  if sameTreeNode localNode remoteNode = true then some localNode
  else if sameTreeNode localNode baseNode = true then some remoteNode
  else if sameTreeNode remoteNode baseNode = true then some localNode
  else none

structure Selection where
  selected : Selected
  conflicts : List GoString

def selectPath (baseNodes localNodes remoteNodes : Nodes) (s : Selection) (path : GoString) :
    Selection :=
  match choose (baseNodes.lookup path) (localNodes.lookup path) (remoteNodes.lookup path) with
  | some node => { s with selected := s.selected.insert path node }
  | none => { s with conflicts := s.conflicts ++ [path] }

def selectPaths (visit : Visit) (baseNodes localNodes remoteNodes : Nodes) : Selection :=
  let paths := (baseNodes.keys ++ localNodes.keys ++ remoteNodes.keys).dedup
  (visit.keys paths).foldl (selectPath baseNodes localNodes remoteNodes)
  { selected := ∅, conflicts := [] }

/-- Each directory above a path is selected as one. A round takes one name off
the path. -/
def parentsSelected (selected : Selected) : Nat → GoString → Bool
  | 0, _ => true
  | rounds + 1, parent =>
    if parent = dot then true
    else
      match selected.lookup parent with
      | some (some node) => node.kind = .dir && parentsSelected selected rounds (dir parent)
      | _ => false

def orphaned (selected : Selected) (path : GoString) : Bool :=
  (selected.lookup path).join.isSome && !parentsSelected selected (split path).length (dir path)

end select

section write

def depth (path : GoString) : Nat := path.count slash

def order (left right : GoString) : Prop :=
  if depth left ≠ depth right then depth left < depth right else leBytes (bytes left)
    (bytes right) = true

instance : DecidableRel order := fun _ _ => inferInstanceAs (Decidable (ite _ _ _))

def ordered (selected : Selected) : List GoString :=
  ((selected.entries.filter fun e => e.2.isSome).map Sigma.fst).insertionSort order

/-- What `os.Mkdir`, `os.OpenFile` and `os.Symlink` make of a node. -/
def System.made (os : System) (node : TreeNode) : Object UInt32 (List UInt8) GoString :=
  match node.kind with
  | .dir => .dir (perm node.mode &&& ~~~ os.umask)
  | .file => .file (perm node.mode &&& ~~~ os.umask) node.source
  | .symlink => .link os.linkMode node.link

def writeNode (os : System) (selected : Selected) (destination : PlainTree) (path : GoString) :
    Except MergeError PlainTree := do
  reject (os.fails path = true) .io
  let node ← required .io (selected.lookup path).join
  let target ← required .io (components path)
  match destination.create target (os.made node) with
  | some destination => return destination
  | none =>
    -- an existing directory may stay
    reject (node.kind ≠ .dir ∨ destination.lookup target = none) .io
    return destination

end write

/-- The conflicts of a merge, and the destination if there are none. -/
def mergePlaintextTrees [Sha256] (os : System) (base localTree remote : Snapshot) :
    Except MergeError (List GoString × PlainTree) := do
  let baseNodes ← scanPlaintextTree base
  let localNodes ← scanPlaintextTree localTree
  let remoteNodes ← scanPlaintextTree remote
  let selection := selectPaths os.first baseNodes localNodes remoteNodes
  if selection.conflicts ≠ [] then return (sortOn id selection.conflicts, empty)
  else
    match (os.second.keys selection.selected.keys).find? (orphaned selection.selected) with
    | some path => return ([path], empty)
    | none =>
      reject (os.mkdirAllFails = true) .io
      let destination ← (ordered selection.selected).foldlM (writeNode os selection.selected) empty
      return ([], destination)

end MaltClient.Backup
