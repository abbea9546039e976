import MaltClient.BucketSync

/-! The store of backup plans. A plan is one history on a branch of a Bucket,
with a binding for each local directory that it backs up. -/

namespace MaltClient.BackupPlans

open GoText Checked LockedFile
open BucketBranch (normalizeSelector mainBranch)
open BucketSync (encodeToString)

structure Binding where
  id : GoString
  name : GoString
  source : GoString
  pathName : GoString
  /-- Nanoseconds since Go's zero time. -/
  createdAt : Int
  deriving DecidableEq, Repr

structure Plan where
  id : GoString
  name : GoString
  bucketID : GoString
  bucketName : GoString
  branch : GoString
  bindings : List Binding
  every : Int
  enabled : Bool
  message : GoString
  createdAt : Int
  updatedAt : Int
  deriving DecidableEq, Repr

abbrev Plans := AList fun _ : GoString => Plan

inductive PlanError where
  | io
  | decode
  | branch (raw : GoString)
  | message (format : String) (args : List GoString)
  | wrapped (format : String) (args : List GoString) (cause : PlanError)
  deriving DecidableEq, Repr

section json

def Binding.json (b : Binding) : Binding :=
  { b with id := jsonText b.id, name := jsonText b.name, source := jsonText b.source,
           pathName := jsonText b.pathName }

def Plan.json (p : Plan) : Plan :=
  { p with
    id := jsonText p.id
    name := jsonText p.name
    bucketID := jsonText p.bucketID
    bucketName := jsonText p.bucketName
    branch := jsonText p.branch
    bindings := p.bindings.map Binding.json
    message := jsonText p.message }

def Binding.texts (b : Binding) : List GoString := [b.id, b.name, b.source, b.pathName]

def Plan.texts (p : Plan) : List GoString :=
  [p.id, p.name, p.bucketID, p.bucketName, p.branch] ++ p.bindings.flatMap Binding.texts ++
    [p.message]

def Plan.times (p : Plan) : List Int :=
  p.bindings.map Binding.createdAt ++ [p.createdAt, p.updatedAt]

end json

section paths

inductive EvalError where
  | notExist
  | other
  deriving DecidableEq, Repr

/-- The file system as the store sees it: the working directory, the resolution
of symbolic links, and the paths that are directories. -/
structure Host where
  cwd : Option GoString
  cwd_abs : ∀ d ∈ cwd, isAbs d = true
  evalSymlinks : GoString → Except EvalError GoString
  isDir : GoString → Except PlanError Bool

/-- `filepath.Abs`. -/
def Host.abs (host : Host) (path : GoString) : Except PlanError GoString :=
  if isAbs path then return clean path
  else do
    let cwd ← required .io host.cwd
    return pathJoin [cwd, path]

def names (path : GoString) : List GoString := (split path).filter fun n => n ≠ []

def common : List GoString → List GoString → Nat
  | a :: s, b :: t => if a = b then common s t + 1 else 0
  | _, _ => 0

/-- `filepath.Rel` of two absolute clean paths. -/
def rel (root target : GoString) : GoString :=
  let shared := common (names root) (names target)
  let parts := List.replicate ((names root).length - shared) dotDot ++ (names target).drop shared
  if parts = [] then dot else join parts

def pathWithin (host : Host) (root target : GoString) : Except PlanError Bool := do
  reject (root = [] ∨ target = []) (.message "filesystem containment paths must not be empty" [])
  let absRoot ← host.abs root
  let absTarget ← host.abs target
  let relative := rel absRoot absTarget
  return relative = dot || (relative ≠ dotDot && !hasPrefix relative (dotDot ++ [slash]))

/-- The longest part of a path that exists, resolved, and the names after it. A
round takes one name off the path. -/
def resolveAncestors (host : Host) : Nat → GoString → List GoString → Except PlanError GoString
  | 0, _, _ => throw .io
  | rounds + 1, current, suffix =>
    match host.evalSymlinks current with
    | .ok resolved => return suffix.foldl (fun path name => pathJoin [path, name]) resolved
    | .error .other => throw .io
    | .error .notExist =>
      if dir current = current then throw .io
      else resolveAncestors host rounds (dir current) (base current :: suffix)

def resolveExistingAncestors (host : Host) (value : GoString) : Except PlanError GoString := do
  reject (value = []) (.message "filesystem path must not be empty" [])
  let current ← host.abs value
  resolveAncestors host (current.length + 1) current []

def resolvedPathWithin (host : Host) (root target : GoString) : Except PlanError Bool := do
  let resolvedRoot ← resolveExistingAncestors host root
  let resolvedTarget ← resolveExistingAncestors host target
  pathWithin host resolvedRoot resolvedTarget

def bindingSourcesOverlap (host : Host) (left right : GoString) : Except PlanError Bool :=
  if left = right then return true
  else do
    let leftInsideRight ← resolvedPathWithin host right left
    let rightInsideLeft ← resolvedPathWithin host left right
    return leftInsideRight || rightInsideLeft

end paths

section validation

def containsAny (s : GoString) (chars : List Char) : Bool := chars.any (containsRune s)

def validateOpaqueID (value : GoString) (kind : GoString) : Except PlanError Unit :=
  reject (validString value = false ∨ trimSpace value ≠ value ∨ value = [] ∨
    128 < (bytes value).length ∨
      containsAny value ['/', '\\'] = true ∨ containsAny value [' ', '\t', '\r', '\n', nul] = true)
    (.message "invalid backup %s ID" [kind])

def normalizePlanBranch (raw : GoString) : Except PlanError GoString :=
  (normalizeSelector raw).mapError fun e => .branch e.raw

def validateDisplayName (value kind : GoString) : Except PlanError Unit :=
  reject (validString value = false ∨ trimSpace value = [] ∨
    128 < (bytes (trimSpace value)).length ∨ containsAny (trimSpace value) ['\r', '\n', nul] = true)
    (.message "invalid backup %s name" [kind])

def validatePathName (value : GoString) : Except PlanError Unit :=
  reject (validString value = false ∨ value = [] ∨ 128 < (bytes value).length ∨ value = dot ∨
    value = dotDot ∨ hasPrefix value (text "@") = true ∨ containsAny value ['/', '\\', nul] = true)
    (.message "backup path name must be one portable path segment" [])

/-- The bindings that a plan has before this one. -/
def validateBinding (seen : List Binding) (binding : Binding) :
    Except PlanError (List Binding) := do
  reject (binding.id = [] ∨ binding.name = [] ∨ binding.source = [] ∨ binding.pathName = [] ∨
    binding.createdAt = 0)
    (.message "binding is incomplete" [])
  validateOpaqueID binding.id (text "binding")
  reject (binding.name ∈ seen.map Binding.name)
    (.message "duplicate binding name %q" [binding.name])
  reject (binding.source ∈ seen.map Binding.source)
    (.message "duplicate binding source %q" [binding.source])
  reject (binding.pathName ∈ seen.map Binding.pathName)
    (.message "duplicate backup path name %q" [binding.pathName])
  return binding :: seen

def validateApart (host : Host) (left right : Binding) : Except PlanError Unit := do
  let leftInsideRight ← resolvedPathWithin host right.source left.source
  let rightInsideLeft ← resolvedPathWithin host left.source right.source
  reject (leftInsideRight = true ∨ rightInsideLeft = true)
    (.message "binding sources %q and %q overlap" [left.source, right.source])

/-- A check of each pair of a list. -/
def forPairs {α : Type} (check : α → α → Except PlanError Unit) : List α → Except PlanError Unit
  | [] => return ()
  | a :: rest => do
    forM rest (check a)
    forPairs check rest

def validatePlan (host : Host) (plan : Plan) : Except PlanError Unit := do
  reject (plan.id = [] ∨ plan.bucketID = [] ∨ plan.name = [] ∨ plan.branch = [] ∨
    plan.createdAt = 0)
    (.message "record is incomplete" [])
  validateOpaqueID plan.id (text "plan")
  let _ ← normalizePlanBranch plan.branch
  let _ ← plan.bindings.foldlM validateBinding []
  forPairs (validateApart host) plan.bindings

end validation

section load

def targetOf (plan : Plan) : GoString := plan.bucketID ++ .char nul :: plan.branch

def reserveTarget (seen : List Plan) (plan : Plan) : Except PlanError (List Plan) := do
  reject (targetOf plan ∈ seen.map targetOf)
    (.message "backup plans %s and %s target the same Bucket %s branch %s" [plan.id, plan.bucketID,
      plan.branch])
  return plan :: seen

/-- No binding of a plan overlaps one of a later plan. -/
def checkApart (host : Host) : List Plan → Except PlanError Unit
  | [] => return ()
  | plan :: rest => do
    forM plan.bindings fun left => forM rest fun other => forM other.bindings fun right => do
      let overlap ← bindingSourcesOverlap host left.source right.source
      reject (overlap = true)
        (.message "backup plans %s and %s have overlapping binding sources %q and %q"
          [plan.id, other.id, left.source, right.source])
    checkApart host rest

def validateEntry (host : Host) (e : Σ _ : GoString, Plan) : Except PlanError Unit := do
  reject (e.1 ≠ e.2.id) (.message "backup plan key does not match record" [])
  (validatePlan host e.2).mapError (.wrapped "backup plan %s: %w" [e.1])

abbrev File := List (Σ _ : GoString, Plan)

def load (host : Host) : Option File → Except PlanError Plans
  | none => return ∅
  | some file => do
    let value ← required .decode (JsonObject.decode file)
    forM value.entries (validateEntry host)
    let _ ← (value.entries.map Sigma.snd).foldlM reserveTarget []
    checkApart host (value.entries.map Sigma.snd)
    return value

def write (plans : Plans) : Except PlanError File := do
  JsonObject.marshalTimes (.message JsonObject.yearRange [])
    (plans.entries.flatMap fun e => e.2.times)
  return JsonObject.encode Plan.json plans

def store (host : Host) : Store File Plans PlanError where
  read := load host
  write := write
  io := .io

end load

section methods

structure BindRequest where
  planName : GoString
  bucketID : GoString
  bucketName : GoString
  branch : GoString
  bindingName : GoString
  source : GoString
  pathName : GoString
  merge : Bool

/-- The time of a call, which is never Go's zero time. -/
abbrev Now := { t : Int // t ≠ 0 }

abbrev Random := Fin 16 → UInt8

def randomPlanID (kind : GoString) (raw : Random) : GoString :=
  kind ++ .char '_' :: encodeToString ((List.ofFn raw).map UInt8.toNat)

/-- What `Bind` makes of its request before it opens the file. -/
structure Bound where
  planName : GoString
  bucketID : GoString
  bucketName : GoString
  branch : GoString
  bindingName : GoString
  source : GoString
  pathName : GoString

def prepareBind (host : Host) (request : BindRequest) : Except PlanError Bound := do
  let branch ← normalizePlanBranch request.branch
  reject (trimSpace request.bucketID = []) (.message "backup binding Bucket ID is empty" [])
  reject (request.source = []) (.message "backup binding source is empty" [])
  let source ← (host.abs request.source).mapError (.wrapped "resolve backup binding source: %w" [])
  let isDir ← (host.isDir source).mapError (.wrapped "stat backup binding source: %w" [])
  reject (isDir = false) (.message "backup binding source must be a directory" [])
  let bindingName :=
    if trimSpace request.bindingName = [] then base source else trimSpace request.bindingName
  let pathName := if request.pathName = [] then bindingName else request.pathName
  validateDisplayName bindingName (text "binding")
  validatePathName pathName
  return {
    planName := trimSpace request.planName, bucketID := trimSpace request.bucketID
    bucketName := trimSpace request.bucketName, branch := branch, bindingName := bindingName,
    source := source, pathName := pathName }

def checkFree (host : Host) (source : GoString) (plan : Plan) : Except PlanError Unit :=
  forM plan.bindings fun existing => do
    let overlap ← bindingSourcesOverlap host existing.source source
    reject (overlap = true)
      (.message
        "local directory %s overlaps binding %s in plan %s at %s; binding sources must be globally disjoint"
        [source, existing.name, plan.name, existing.source])

def newPlan (bound : Bound) (raw : Random) (now : Now) : Except PlanError Plan := do
  let name :=
    if bound.planName = [] then
      if bound.branch = mainBranch then bound.bucketName else bound.bucketName ++
        slash :: bound.branch
    else bound.planName
  validateDisplayName name (text "plan")
  return {
    id := randomPlanID (text "plan") raw, name := name, bucketID := bound.bucketID,
      bucketName := bound.bucketName
    branch := bound.branch, bindings := [], every := 0, enabled := true, message := [],
      createdAt := now.1
    updatedAt := 0 }

def findTarget (value : Plans) (bucketID branch : GoString) : Option Plan :=
  (value.entries.map Sigma.snd).find? fun plan => plan.bucketID = bucketID ∧ plan.branch = branch

/-- The plan of the branch, or a new one. -/
def targetPlan (value : Plans) (bound : Bound) (merge : Bool) (raw : Random) (now : Now) :
    Except PlanError Plan :=
  match findTarget value bound.bucketID bound.branch with
  | some plan => do
    reject (plan.bindings ≠ [] ∧ merge = false)
      (.message
        "Bucket %s branch %s already has bindings; choose another branch or explicitly merge"
        [bound.bucketID, bound.branch])
    return plan
  | none => newPlan bound raw now

def Bound.binding (bound : Bound) (raw : Random) (now : Now) : Binding :=
  { id := randomPlanID (text "binding") raw, name := bound.bindingName, source := bound.source
    pathName := bound.pathName, createdAt := now.1 }

def Plan.withBinding (plan : Plan) (binding : Binding) (now : Now) : Plan :=
  { plan with bindings := sortOn Binding.name (plan.bindings ++ [binding]), updatedAt := now.1 }

def addBinding (plan : Plan) (binding : Binding) (now : Now) : Except PlanError Plan := do
  forM plan.bindings fun existing => do
    reject (existing.name = binding.name)
      (.message "backup binding name %q is already used in this plan" [binding.name])
    reject (existing.pathName = binding.pathName)
      (.message "backup path name %q is already used in this plan" [binding.pathName])
  return plan.withBinding binding now

def bind (host : Host) (request : BindRequest) (planRaw bindingRaw : Random) (now : Now)
    (value : Plans) : Except PlanError Plans := do
  let bound ← prepareBind host request
  forM (value.entries.map Sigma.snd) (checkFree host bound.source)
  let plan ← targetPlan value bound request.merge planRaw now
  let plan ← addBinding plan (bound.binding bindingRaw now) now
  return value.insert plan.id plan

def selectPlan (value : Plans) (selector : GoString) : Except PlanError (GoString × Plan) :=
  let selector := trimSpace selector
  match value.lookup selector with
  | some plan => return (selector, plan)
  | none =>
    match value.entries.filter fun e => e.2.name = selector with
    | [] => throw (.message "backup plan %q was not found" [selector])
    | [e] => return (e.1, e.2)
    | _ => throw (.message "backup plan name %q is ambiguous" [selector])

def reschedule (selector : GoString) (change : Plan → Plan) (value : Plans) :
    Except PlanError Plans := do
  let selected ← selectPlan value selector
  return value.insert selected.1 (change selected.2)

def setSchedule (selector : GoString) (every : Int) (enabled : Bool) (message : GoString)
    (now : Now) (value : Plans) : Except PlanError Plans := do
  reject (every ≤ 0) (.message "backup schedule interval must be positive" [])
  reschedule selector
    (fun plan => { plan with
        every := every, enabled := enabled, message := trimSpace message, updatedAt := now.1 })
    value

def clearSchedule (selector : GoString) (now : Now) (value : Plans) : Except PlanError Plans :=
  reschedule selector (fun plan =>
    { plan with every := 0, enabled := false, message := [], updatedAt := now.1 }) value

def checkRestored (host : Host) (plan existingPlan : Plan) : Except PlanError Unit := do
  reject (existingPlan.bucketID = plan.bucketID ∧ existingPlan.branch = plan.branch)
    (.message "Bucket %s branch %s already has local plan %s" [plan.bucketID, plan.branch,
      existingPlan.name])
  forM existingPlan.bindings fun existing => forM plan.bindings fun binding => do
    let overlap ← bindingSourcesOverlap host existing.source binding.source
    reject (overlap = true)
      (.message "restored binding %s overlaps binding %s in plan %s"
        [binding.source, existing.source, existingPlan.name])

def importRestored (host : Host) (plan : Plan) (value : Plans) : Except PlanError Plans := do
  validatePlan host plan
  reject (plan.bindings = []) (.message "restored backup plan has no bindings" [])
  reject (plan.id ∈ value) (.message "backup plan %s already exists" [plan.id])
  forM (value.entries.map Sigma.snd) (checkRestored host plan)
  return value.insert plan.id plan

end methods

inductive Call where
  | bind (request : BindRequest) (planRaw bindingRaw : Random) (now : Now)
  | setSchedule (selector : GoString) (every : Int) (enabled : Bool)
      (message : GoString) (now : Now)
  | clearSchedule (selector : GoString) (now : Now)
  | importRestored (plan : Plan)

def Call.edit (host : Host) : Call → Plans → Except PlanError Plans
  | .bind request planRaw bindingRaw now => BackupPlans.bind host request planRaw bindingRaw now
  | .setSchedule selector every enabled message now =>
    BackupPlans.setSchedule selector every enabled message now
  | .clearSchedule selector now => BackupPlans.clearSchedule selector now
  | .importRestored plan => BackupPlans.importRestored host plan

def mutate (host : Host) (call : Call) (fault : Fault) (disk : Option File) :
    Option File × Except PlanError Unit :=
  (store host).update fault (fun value => do
    let value ← call.edit host value
    return (value, ())) disk

/-- The file after some calls, of which each may fail. -/
def run (host : Host) (calls : List (Call × Fault)) : Option File :=
  calls.foldl (fun disk c => (mutate host c.1 c.2 disk).1) none

end MaltClient.BackupPlans
