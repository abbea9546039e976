import MaltClient.BucketSync

/-! Interleavings of the locked steps of any number of Services on one
workspace file, and what they keep of the heads of a workspace. -/

namespace MaltClient.BucketSync

open GoText Checked LockedFile NodeApi
open JsonObject (Now)

/-- A `Push` between its locked steps. -/
structure Push where
  service : Service
  stash : Stash
  pulled : Bool
  finished : Bool

structure System where
  file : Option File
  pushes : List Push

section

variable [CidFormat]

/-- One locked step, with the reply that it acts on. A `Push` is its `freeze`,
which starts it, its `pushPull` and its `settle`. -/
inductive Event where
  | pull (service : Service) (head : ObservedHead) (env : Env)
  | stage (service : Service) (candidateRoot : Option Cid) (base : Head) (changeSet : Option Cid)
      (message id : GoString) (env : Env)
  | restorePending (service : Service) (stash : Stash) (env : Env)
  | freeze (service : Service) (candidateRoot : Cid) (changeSet : Option Cid)
      (message : GoString) (env : Env)
  | pushPull (index : Nat) (head : ObservedHead) (env : Env)
  | settle (index : Nat) (result : ApplyResult) (env : Env)
  | resolveBranched (service : Service) (stashID candidateRoot : GoString) (env : Env)

def System.freeze (system : System) (service : Service) (candidateRoot : Cid)
    (changeSet : Option Cid) (message : GoString) (env : Env) : System :=
  match store.update env.fault (freezeLocked service candidateRoot changeSet message env.stashedAt
    env.now) system.file with
  | (file, .ok stash) =>
    let push : Push := { service := service, stash := stash, pulled := false, finished := false }
    { file := file, pushes := system.pushes ++ [push] }
  | (file, .error _) => { system with file := file }

def System.pushPull (system : System) (index : Nat) (head : ObservedHead) (env : Env) : System :=
  match system.pushes[index]? with
  | none => system
  | some push =>
    if push.pulled || push.finished then system
    else
      let (file, result) := pull push.service head env system.file
      { file := file,
        pushes := system.pushes.set index { push with pulled := true, finished := !result.isOk } }

def validReply (push : Push) (result : ApplyResult) : Bool :=
  match applyRequest push.service push.stash with
  | .error _ => false
  | .ok request => (validateApplyResult push.service.bucketID request result).isOk

def System.settle (system : System) (index : Nat) (result : ApplyResult) (env : Env) : System :=
  match system.pushes[index]? with
  | none => system
  | some push =>
    if !push.pulled || push.finished then system
    else
      let file := if validReply push result
        then (store.update env.fault
          (settleLocked push.service push.stash.id result env.stashedAt env.now) system.file).1
        else system.file
      { file := file, pushes := system.pushes.set index { push with finished := true } }

def Event.exec (event : Event) (system : System) : System :=
  match event with
  | .pull service head env =>
    { system with file := (BucketSync.pull service head env system.file).1 }
  | .stage service candidateRoot base changeSet message id env =>
    { system with file := (BucketSync.stage service candidateRoot base changeSet message id env
      system.file).1 }
  | .restorePending service stash env =>
    { system with file := (BucketSync.restorePending service stash env system.file).1 }
  | .freeze service candidateRoot changeSet message env =>
    system.freeze service candidateRoot changeSet message env
  | .pushPull index head env => system.pushPull index head env
  | .settle index result env => system.settle index result env
  | .resolveBranched service stashID candidateRoot env =>
    { system with file := (BucketSync.resolveBranched service stashID candidateRoot env
      system.file).1 }

def run (events : List Event) (system : System) : System :=
  events.foldl (fun system event => event.exec system) system

end

section heads

/-- The heads of a workspace: the base does not run ahead of the remote head,
and is that head while nothing is stashed. -/
structure Ordered (w : Workspace) : Prop where
  le : w.base.revision ≤ w.remote.revision
  eq : w.base.revision = w.remote.revision → w.base = w.remote
  settled : w.initialized = true → w.stashes = [] → w.base = w.remote

structure Later (w w' : Workspace) : Prop where
  remote : w'.remote = w.remote ∨ w.remote.revision < w'.remote.revision
  base : w'.base = w.base ∨ w'.base = w.remote ∨ w.remote.revision < w'.base.revision

theorem Later.refl (w : Workspace) : Later w w := ⟨.inl rfl, .inl rfl⟩

variable {w w' : Workspace} {incoming head remote base : Head} {stashes : List Stash}
  {id root : GoString}

theorem Later.remote_le (h : Later w w') : w.remote.revision ≤ w'.remote.revision := by
  rcases h.remote with he | hlt
  · rw [he]
    exact UInt64.le_refl _
  · exact UInt64.le_of_lt hlt

theorem Later.trans {w'' : Workspace} (h : Later w w') (h' : Later w' w'') : Later w w'' := by
  have hle := h.remote_le
  constructor
  · rcases h'.remote with he | hlt
    · rw [he]
      exact h.remote
    · exact .inr (UInt64.lt_of_le_of_lt hle hlt)
  · rcases h'.base with he | he | hlt
    · rw [he]
      exact h.base
    · rw [he]
      exact .inr h.remote
    · exact .inr (.inr (UInt64.lt_of_le_of_lt hle hlt))

theorem Later.base_le (h : Later w w') (hw : Ordered w) : w.base.revision ≤ w'.base.revision := by
  rcases h.base with he | he | hlt
  · rw [he]
    exact UInt64.le_refl _
  · rw [he]
    exact hw.le
  · exact UInt64.le_of_lt (UInt64.lt_of_le_of_lt hw.le hlt)

theorem Later.head_eq (h : Later w w') (hw : Ordered w) {a b : Head}
    (ha : a = w.base ∨ a = w.remote) (hb : b = w'.base ∨ b = w'.remote)
    (he : a.revision = b.revision) : a = b := by
  have hle : a.revision ≤ w.remote.revision := by
    rcases ha with rfl | rfl
    · exact hw.le
    · exact UInt64.le_refl _
  have hremote (heq : a.revision = w.remote.revision) : a = w.remote := by
    rcases ha with rfl | rfl
    · exact hw.eq heq
    · rfl
  have hnot : ¬ w.remote.revision < b.revision := UInt64.not_lt.mpr (he ▸ hle)
  rcases hb with rfl | rfl
  · rcases h.base with hbase | hbase | hlt
    · rw [hbase] at he ⊢
      rcases ha with rfl | rfl
      · rfl
      · exact (hw.eq he.symm).symm
    · rw [hbase] at he ⊢
      exact hremote he
    · exact absurd hlt hnot
  · rcases h.remote with hrem | hlt
    · rw [hrem] at he ⊢
      exact hremote he
    · exact absurd hlt hnot

theorem monotonicHead_eq_ok {current : Head} (h : monotonicHead current incoming = .ok head) :
    (head = current ∧ (incoming.revision < current.revision ∨ incoming = current)) ∨
      (head = incoming ∧ current.revision < incoming.revision) := by
  unfold monotonicHead at h
  split_ifs at h with hlt hgt
  · exact .inl ⟨(pure_eq_ok.mp h).symm, .inl hlt⟩
  · exact .inr ⟨(pure_eq_ok.mp h).symm, hgt⟩
  · simp only [ok_iff, not_not, exists_const] at h
    exact .inl ⟨h.2.symm, .inr h.1.symm⟩

def Follows (w : Workspace) (remote : Head) : Prop :=
  remote = w.remote ∨ w.remote.revision < remote.revision

theorem follows_monotonicHead (h : monotonicHead w.remote incoming = .ok head) :
    Follows w head := by
  rcases monotonicHead_eq_ok h with ⟨rfl, -⟩ | ⟨rfl, hlt⟩
  · exact .inl rfl
  · exact .inr hlt

theorem Follows.ordered (h : Follows w remote) (hw : Ordered w) :
    w.base.revision ≤ remote.revision ∧ (w.base.revision = remote.revision → w.base = remote) := by
  rcases h with rfl | hlt
  · exact ⟨hw.le, hw.eq⟩
  · have hbase := UInt64.lt_of_le_of_lt hw.le hlt
    refine ⟨UInt64.le_of_lt hbase, fun he => ?_⟩
    rw [he] at hbase
    exact absurd hbase (UInt64.lt_irrefl _)

theorem hasPending_iff (h : ∀ s ∈ stashes, s.status.isPending = true) :
    hasPending stashes = true ↔ stashes ≠ [] := by
  cases stashes with
  | nil => simp [hasPending]
  | cons s stashes => simp [hasPending, h s (by simp)]

theorem advanceBase_eq_ok {format : String} (hw : Ordered w)
    (hf : Follows w remote) (hp : ∀ s ∈ stashes, s.status.isPending = true)
    (h : advanceBase format remote { w with stashes := stashes } = .ok base) :
    (stashes ≠ [] ∧ base = w.base) ∨ (stashes = [] ∧ base = remote) := by
  unfold advanceBase at h
  split_ifs at h with hpend
  · exact .inl ⟨(hasPending_iff hp).mp hpend, (pure_eq_ok.mp h).symm⟩
  · refine .inr ⟨not_not.mp fun hne => hpend ((hasPending_iff hp).mpr hne), ?_⟩
    rw [mapError_eq_ok] at h
    obtain ⟨hle, heq⟩ := hf.ordered hw
    rcases monotonicHead_eq_ok h with ⟨rfl, hlt | hsame⟩ | ⟨rfl, -⟩
    · exact absurd hlt (UInt64.not_lt.mpr hle)
    · exact hsame.symm
    · rfl

structure Moves (w w' : Workspace) : Prop where
  ordered : Ordered w'
  later : Later w w'
  stashed : w'.stashes ≠ [] → w'.base = w.base

theorem moves_advance {initialized : Bool} {now : Int} (hw : Ordered w)
    (hf : Follows w remote) (hb : (stashes ≠ [] ∧ base = w.base) ∨ (stashes = [] ∧ base = remote)) :
    Moves w
      { w with initialized := initialized, remote := remote, base := base, stashes := stashes,
               updatedAt := now } := by
  obtain ⟨hle, heq⟩ := hf.ordered hw
  rcases hb with ⟨hne, rfl⟩ | ⟨rfl, rfl⟩
  · exact ⟨⟨hle, heq, fun _ h => absurd h hne⟩, ⟨hf, .inl rfl⟩, fun _ => rfl⟩
  · exact ⟨⟨UInt64.le_refl _, fun _ => rfl, fun _ _ => rfl⟩, ⟨hf, .inr hf⟩, fun h => absurd rfl h⟩

theorem moves_stashes {now : Int} (hw : Ordered w) (hne : stashes ≠ []) :
    Moves w { w with stashes := stashes, updatedAt := now } :=
  ⟨⟨hw.le, hw.eq, fun _ h => absurd h hne⟩, ⟨.inl rfl, .inl rfl⟩, fun _ => rfl⟩

/-- A locked step leaves the state alone, or moves the workspace of its Service. -/
def Keeps {α : Type} (service : Service) (edit : Edit Workspaces SyncError α) : Prop :=
  ∀ state state' a, Ordered (service.workspace state) →
    (∀ s ∈ (service.workspace state).stashes, s.status.isPending = true) → edit state =
      .ok (state', a) →
    state' = state ∨ ∃ w, state' = state.insert service.stateKey w ∧
      Moves (service.workspace state) w

theorem settleFirst_pending {result : ApplyResult} {now : Now}
    (h : ∀ s ∈ stashes, s.status.isPending = true) :
    ∀ s ∈ settleFirst id result now stashes, s.status.isPending = true := by
  induction stashes with
  | nil => simp [settleFirst]
  | cons t stashes ih =>
    have hrest : ∀ s ∈ stashes, s.status.isPending = true :=
      fun s hs => h s (List.mem_cons_of_mem _ hs)
    unfold settleFirst
    split_ifs
    · intro s hs
      rcases List.mem_cons.mp hs with rfl | hs
      · rfl
      · exact hrest s hs
    · exact hrest
    · intro s hs
      rcases List.mem_cons.mp hs with rfl | hs
      · exact h s List.mem_cons_self
      · exact ih hrest s hs

theorem resolveFirst_subset {rest : List Stash} (h : resolveFirst id root stashes = .ok rest) :
    rest ⊆ stashes := by
  induction stashes generalizing rest with
  | nil => simp [resolveFirst] at h
  | cons t stashes ih =>
    unfold resolveFirst at h
    split_ifs at h
    · simp only [ok_iff] at h
      obtain ⟨-, -, rfl⟩ := h
      exact List.subset_cons_self _ _
    · simp only [ok_iff] at h
      obtain ⟨rest', hrest, rfl⟩ := h
      exact List.cons_subset_cons _ (ih hrest)

theorem freezeFirst_ne_nil [CidFormat] {message : GoString} {changeSet : Option Cid} {now : Now}
    {p : List Stash × Stash} (h : freezeFirst root changeSet message now stashes = .ok p) :
    p.1 ≠ [] := by
  cases stashes with
  | nil => simp [freezeFirst] at h
  | cons t stashes =>
    unfold freezeFirst at h
    split_ifs at h
    · simp only [ok_iff] at h
      obtain ⟨t', -, rfl⟩ := h
      exact List.cons_ne_nil _ _
    · simp only [ok_iff, Prod.exists] at h
      obtain ⟨rest, f, -, rfl⟩ := h
      exact List.cons_ne_nil _ _

variable [CidFormat]

omit [CidFormat] in
theorem keeps_pullLocked (service : Service) (remote : Head) (now : Now) :
    Keeps service (pullLocked service remote now) := by
  intro state state' a hw hp h
  simp only [pullLocked, ok_iff, Prod.mk.injEq] at h
  obtain ⟨remote', hremote, base, hbase, rfl, -⟩ := h
  have hf := follows_monotonicHead hremote
  exact .inr ⟨_, rfl, moves_advance hw hf (advanceBase_eq_ok hw hf hp hbase)⟩

theorem keeps_stageLocked (service : Service) (root : Cid) (base : Head) (changeSet : Option Cid)
    (message id : GoString) (now : Now) :
    Keeps service (stageLocked service root base changeSet message id now) := by
  intro state state' a hw _ h
  simp only [stageLocked, bind_eq_ok] at h
  obtain ⟨-, -, h⟩ := h
  split at h
  · simp only [ok_iff, Prod.mk.injEq] at h
    obtain ⟨-, -, rfl, -⟩ := h
    exact .inl rfl
  · cases h
    exact .inr ⟨_, rfl, moves_stashes hw (by simp)⟩

omit [CidFormat] in
theorem keeps_restoreLocked (service : Service) (stash : Stash) (now : Now) :
    Keeps service (restoreLocked service stash now) := by
  intro state state' a hw _ h
  simp only [restoreLocked, bind_eq_ok] at h
  obtain ⟨-, -, found, -, h⟩ := h
  cases found with
  | some existing =>
    cases h
    exact .inl rfl
  | none =>
    cases h
    exact .inr ⟨_, rfl, moves_stashes hw (by simp)⟩

theorem keeps_freezeLocked (service : Service) (root : Cid) (changeSet : Option Cid)
    (message : GoString) (stashedAt now : Now) :
    Keeps service (freezeLocked service root changeSet message stashedAt now) := by
  intro state state' a hw _ h
  simp only [freezeLocked, ok_iff, Prod.mk.injEq, Prod.exists] at h
  obtain ⟨-, -, stashes, stash, hfreeze, rfl, -⟩ := h
  exact .inr ⟨_, rfl, moves_stashes hw (freezeFirst_ne_nil hfreeze)⟩

theorem keeps_settleLocked (service : Service) (id : GoString) (result :
    ApplyResult) (stashedAt now : Now) :
    Keeps service (settleLocked service id result stashedAt now) := by
  intro state state' a hw hp h
  simp only [settleLocked, ok_iff, Prod.mk.injEq] at h
  obtain ⟨head, -, remote, hremote, base, hbase, rfl, -⟩ := h
  have hf : Follows (service.workspace state) remote := follows_monotonicHead hremote
  exact .inr ⟨_, rfl, moves_advance hw hf (advanceBase_eq_ok hw hf (settleFirst_pending hp) hbase)⟩

omit [CidFormat] in
theorem keeps_resolveLocked (service : Service) (id root : GoString) (now : Now) :
    Keeps service (resolveLocked service id root now) := by
  intro state state' a hw hp h
  simp only [resolveLocked, ok_iff, Prod.mk.injEq] at h
  obtain ⟨stashes, hstashes, base, hbase, rfl, -⟩ := h
  have hsub : ∀ s ∈ stashes, s.status.isPending = true :=
    fun s hs => hp s (resolveFirst_subset hstashes hs)
  exact .inr ⟨_, rfl, moves_advance hw (.inl rfl) (advanceBase_eq_ok hw (.inl rfl) hsub hbase)⟩

end heads

section files

variable [CidFormat]

variable {state state' : Workspaces} {disk disk' : Option File} {w : Workspace} {service : Service}
  {fault : Fault} {e : SyncError} {system : System} {events : List Event}

theorem reload_eq_ok (h : reload disk = .ok state) :
    (disk = none ∧ state = ∅) ∨ ∃ file, disk = some file ∧ JsonObject.decode file = some state ∧
      (∀ t ∈ times state, JsonObject.marshalable t) ∧ ∀ e ∈ state.entries,
        validateWorkspace e = .ok () := by
  cases disk with
  | none => exact .inl ⟨rfl, (pure_eq_ok.mp h).symm⟩
  | some file =>
    simp only [reload, JsonObject.marshalTimes, ok_iff, not_not, forM_eq_ok] at h
    obtain ⟨state', hdecode, -, htimes, -, hvalid, rfl⟩ := h
    exact .inr ⟨file, rfl, hdecode, htimes, hvalid⟩

theorem isPending_of_reload (h : reload disk = .ok state) (service : Service) :
    ∀ s ∈ (service.workspace state).stashes, s.status.isPending = true := by
  intro s hs
  cases hl : state.lookup service.stateKey with
  | none => simp [Service.workspace, hl, Workspace.zero] at hs
  | some w =>
    have hmem : s ∈ w.stashes := by simpa [Service.workspace, hl] using hs
    rcases reload_eq_ok h with ⟨-, rfl⟩ | ⟨file, -, -, -, hvalid⟩
    · simp at hl
    · have := hvalid ⟨_, w⟩ (AssocMap.mem_entries_iff.mpr hl)
      simp only [validateWorkspace, bind_eq_ok, forM_eq_ok] at this
      obtain ⟨-, -, -, -, -, -, -, -, hstashes⟩ := this
      have hstash := hstashes s hmem
      simp only [validateStash, ok_iff, not_or, not_and_or, not_not] at hstash
      obtain ⟨-, ⟨-, -, hpend | hbranched⟩, -⟩ := hstash
      · rw [hpend]; rfl
      · rw [hbranched]; rfl

def workspaceAt (state : Workspaces) (key : GoString) : Workspace := (state.lookup key).getD .zero

omit [CidFormat] in
theorem ordered_zero : Ordered .zero := ⟨UInt64.le_refl _, fun _ => rfl, fun _ _ => rfl⟩

structure Kept (state : Workspaces) : Prop where
  normal : JsonObject.Normal Workspace.json state
  ordered : ∀ key, Ordered (workspaceAt state key)

omit [CidFormat] in
theorem Kept.empty : Kept ∅ :=
  ⟨fun k w h => by simp at h, fun key => by simpa [workspaceAt] using ordered_zero⟩

omit [CidFormat] in
theorem Ordered.json (h : Ordered w) : Ordered w.json := by
  refine ⟨h.le, fun he => ?_, fun hi hs => ?_⟩
  · exact congrArg Head.json (h.eq he)
  · have hnil : w.stashes = [] := List.map_eq_nil_iff.mp hs
    exact congrArg Head.json (h.settled hi hnil)

structure Stepped (state state' : Workspaces) : Prop where
  later : ∀ key, Later (workspaceAt state key) (workspaceAt state' key)
  stashed : ∀ key, (workspaceAt state' key).stashes ≠ [] → (workspaceAt state' key).base =
    (workspaceAt state key).base

omit [CidFormat] in
theorem Stepped.refl (state : Workspaces) : Stepped state state :=
  ⟨fun _ => .refl _, fun _ _ => rfl⟩

omit [CidFormat] in
theorem Later.json {w' : Workspace} (h : Later w w') (hw : w.json = w) : Later w w'.json := by
  have hbase : w.base.json = w.base := congrArg Workspace.base hw
  have hremote : w.remote.json = w.remote := congrArg Workspace.remote hw
  constructor
  · rcases h.remote with he | hlt
    · exact .inl ((congrArg Head.json he).trans hremote)
    · exact .inr hlt
  · rcases h.base with he | he | hlt
    · exact .inl ((congrArg Head.json he).trans hbase)
    · exact .inr (.inl ((congrArg Head.json he).trans hremote))
    · exact .inr (.inr hlt)

omit [CidFormat] in
theorem Kept.json_workspaceAt (h : Kept state) (key : GoString) :
    (workspaceAt state key).json = workspaceAt state key := by
  cases hl : state.lookup key with
  | none => simp only [workspaceAt, hl, Option.getD_none]; rfl
  | some w => simpa [workspaceAt, hl] using (h.normal key w hl).2

omit [CidFormat] in
theorem stepped_insert (hkept : Kept state) (hw : Moves (service.workspace state) w)
    (h : JsonObject.decode (JsonObject.encode Workspace.json (state.insert service.stateKey w)) =
      some state') :
    Kept state' ∧ Stepped state state' := by
  obtain ⟨hsame, hlookup⟩ := JsonObject.lookup_insert_of_decode hkept.normal h
  have hat (key : GoString) : workspaceAt state' key =
      if key = jsonText service.stateKey then w.json else workspaceAt state key := by
    rw [workspaceAt, hlookup]
    split_ifs <;> rfl
  have hold :
    workspaceAt state (jsonText service.stateKey) = workspaceAt state service.stateKey := by
    rw [workspaceAt, hsame, workspaceAt]
  have hlater : Later (workspaceAt state service.stateKey) w := ⟨hw.later.remote, hw.later.base⟩
  refine ⟨⟨JsonObject.normal_of_decode Workspace.json_json h, fun key => ?_⟩, fun key => ?_,
    fun key => ?_⟩ <;> rw [hat]
  · split_ifs
    · exact hw.ordered.json
    · exact hkept.ordered key
  · split_ifs with hk
    · rw [hk, hold]
      exact hlater.json (hkept.json_workspaceAt _)
    · exact .refl _
  · split_ifs with hk
    · intro hne
      have hne' : w.stashes ≠ [] := fun hnil => hne (by simp [Workspace.json, hnil])
      rw [hk, hold]
      have hbase : w.base = (workspaceAt state service.stateKey).base := hw.stashed hne'
      exact (congrArg Head.json hbase).trans (congrArg Workspace.base (hkept.json_workspaceAt _))
    · exact fun _ => rfl

/-- What a written state is read back as. -/
theorem decode_of_persist {file : File} (hwrite : store.write state = .ok file)
    (h : reload (some file) = .ok state') :
    JsonObject.decode (JsonObject.encode Workspace.json state) = some state' := by
  have hpersist : persist state = .ok file := hwrite
  simp only [persist, ok_iff] at hpersist
  obtain ⟨-, -, rfl⟩ := hpersist
  rcases reload_eq_ok h with ⟨hnone, -⟩ | ⟨file, hfile, hdecode, -⟩
  · cases hnone
  · rwa [← Option.some.inj hfile] at hdecode

theorem stepped_update {α : Type}
    {edit : Edit Workspaces SyncError α} (hk : Keeps service edit) (hs : reload disk = .ok state)
    (hkept : Kept state) (hs' : reload (store.update fault edit disk).1 = .ok state') :
    Kept state' ∧ Stepped state state' := by
  rcases store.update_cases fault edit disk with ⟨hsame, -⟩ | ⟨s, t, content, a, hr, hedit,
    hwrite, hdisk, -⟩
  · rw [hsame, hs] at hs'
    cases hs'
    exact ⟨hkept, .refl _⟩
  · obtain rfl : state = s := Except.ok.inj (hs.symm.trans hr)
    have hdecode := decode_of_persist hwrite (hdisk ▸ hs')
    have hordered : Ordered (service.workspace state) :=
      ⟨(hkept.ordered service.stateKey).le, (hkept.ordered service.stateKey).eq,
        (hkept.ordered service.stateKey).settled⟩
    rcases hk state t a hordered (isPending_of_reload hs service) hedit with rfl | ⟨w, rfl, hw⟩
    · rw [JsonObject.decode_encode_of_normal hkept.normal] at hdecode
      cases hdecode
      exact ⟨hkept, .refl _⟩
    · exact stepped_insert hkept hw hdecode

theorem update_unreadable {α : Type} {edit : Edit Workspaces SyncError α}
    (h : reload disk = .error e) : (store.update fault edit disk).1 = disk := by
  rcases store.update_cases fault edit disk with ⟨hsame, -⟩ | ⟨s, t, content, a, hr, -⟩
  · exact hsame
  · rw [show store.read disk = reload disk from rfl, h] at hr
    simp at hr

def Touches (disk disk' : Option File) : Prop :=
  disk' = disk ∨ ∃ (α : Type) (service : Service) (edit : Edit Workspaces SyncError α)
    (fault : Fault), Keeps service edit ∧ disk' = (store.update fault edit disk).1

theorem touches_update {α : Type} {edit : Edit Workspaces SyncError α} (h : Keeps service edit)
    (fault : Fault) (disk : Option File) : Touches disk (store.update fault edit disk).1 :=
  .inr ⟨α, service, edit, fault, h, rfl⟩

theorem touches_pull (service : Service) (head : ObservedHead) (env : Env) (disk : Option File) :
    Touches disk (pull service head env disk).1 := by
  simp only [pull]
  split
  · exact .inl rfl
  · exact touches_update (keeps_pullLocked service _ _) env.fault disk

theorem touches_exec (event : Event) (system : System) :
    Touches system.file (event.exec system).file := by
  cases event with
  | pull service head env => exact touches_pull service head env system.file
  | stage service root base changeSet message id env =>
    simp only [Event.exec, stage]
    split
    · exact .inl rfl
    · exact touches_update (keeps_stageLocked service _ base changeSet message id env.now)
        env.fault system.file
  | restorePending service stash env =>
    simp only [Event.exec, restorePending]
    split
    · exact .inl rfl
    · exact touches_update (keeps_restoreLocked service _ _) env.fault system.file
  | freeze service root changeSet message env =>
    have htouch :=
      touches_update (keeps_freezeLocked service root changeSet message env.stashedAt env.now)
        env.fault system.file
    simp only [Event.exec, System.freeze]
    split <;> rename_i hr <;> rwa [hr] at htouch
  | pushPull index head env =>
    simp only [Event.exec, System.pushPull]
    split
    · exact .inl rfl
    · split_ifs
      · exact .inl rfl
      · exact touches_pull _ head env system.file
  | settle index result env =>
    simp only [Event.exec, System.settle]
    split
    · exact .inl rfl
    · split_ifs
      · exact .inl rfl
      · exact touches_update (keeps_settleLocked _ _ result _ _) env.fault system.file
      · exact .inl rfl
  | resolveBranched service id root env =>
    simp only [Event.exec, resolveBranched]
    split
    · exact .inl rfl
    · exact touches_update (keeps_resolveLocked service _ _ _) env.fault system.file

theorem touches_unreadable (h : reload disk = .error e) (ht : Touches disk disk') :
    disk' = disk := by
  rcases ht with hsame | ⟨α, service, edit, fault, -, hdisk⟩
  · exact hsame
  · rw [hdisk, update_unreadable h]

theorem stepped_touches (ht : Touches disk disk')
    (hs : reload disk = .ok state) (hkept : Kept state) (hs' : reload disk' = .ok state') :
    Kept state' ∧ Stepped state state' := by
  rcases ht with rfl | ⟨α, service, edit, fault, hk, rfl⟩
  · obtain rfl : state = state' := Except.ok.inj (hs.symm.trans hs')
    exact ⟨hkept, .refl _⟩
  · exact stepped_update hk hs hkept hs'

theorem run_unreadable (h : reload system.file = .error e) :
    (run events system).file = system.file := by
  induction events generalizing system with
  | nil => rfl
  | cons event events ih =>
    have hsame := touches_unreadable h (touches_exec event system)
    exact (ih (by rw [hsame]; exact h)).trans hsame

theorem later_run
    (hs : reload system.file = .ok state) (hkept : Kept state)
    (hs' : reload (run events system).file = .ok state') :
    Kept state' ∧ ∀ key, Later (workspaceAt state key) (workspaceAt state' key) := by
  induction events generalizing system state with
  | nil =>
    obtain rfl : state = state' := Except.ok.inj (hs.symm.trans hs')
    exact ⟨hkept, fun _ => .refl _⟩
  | cons event events ih =>
    cases hmid : reload (event.exec system).file with
    | error e =>
      have hstuck : (run events (event.exec system)).file = (event.exec system).file :=
        run_unreadable hmid
      rw [show run (event :: events) system = run events (event.exec system) from rfl,
        hstuck, hmid] at hs'
      simp at hs'
    | ok mid =>
      obtain ⟨hkept', hstep⟩ := stepped_touches (touches_exec event system) hs hkept hmid
      obtain ⟨hfinal, hlater⟩ := ih hmid hkept' hs'
      exact ⟨hfinal, fun key => (hstep.later key).trans (hlater key)⟩

/-- In every interleaving of locked steps, from the absent file: revisions of
a workspace's heads never decrease and each names one head, the base is not
ahead of the remote head and equals it while an initialised workspace has no
stash, and the base does not move in a step that leaves a stash behind. -/
theorem workspace_heads (before more : List Event) (key : GoString) (state state' : Workspaces)
    (hs : reload (run before ⟨none, []⟩).file = .ok state)
    (hs' : reload (run more (run before ⟨none, []⟩)).file = .ok state') :
    let w := workspaceAt state key
    let w' := workspaceAt state' key
    (w.remote.revision ≤ w'.remote.revision ∧ w.base.revision ≤ w'.base.revision) ∧
    (∀ a b, (a = w.base ∨ a = w.remote) → (b = w'.base ∨ b = w'.remote) →
      a.revision = b.revision → a = b) ∧
    (w.base.revision ≤ w.remote.revision ∧ (w.base.revision = w.remote.revision →
      w.base = w.remote)) ∧
    (w.initialized = true → w.stashes = [] → w.base = w.remote) ∧
    (more.length = 1 → w'.stashes ≠ [] → w'.base = w.base) := by
  intro w w'
  have hempty : reload (⟨none, []⟩ : System).file = .ok ∅ := rfl
  obtain ⟨hkept, -⟩ := later_run hempty .empty hs
  obtain ⟨-, hlater⟩ := later_run hs hkept hs'
  have hw : Ordered w := hkept.ordered key
  refine ⟨⟨(hlater key).remote_le, (hlater key).base_le hw⟩, fun a b ha hb he =>
    (hlater key).head_eq hw ha hb he, ⟨hw.le, hw.eq⟩, hw.settled, fun hone => ?_⟩
  obtain ⟨event, rfl⟩ := List.length_eq_one_iff.mp hone
  exact (stepped_touches (touches_exec event _) hs hkept hs').2.stashed key

end files

section sample

def sampleService : Service where
  bucketID := text "bucket"
  branch := BucketBranch.mainBranch
  bucketID_trimmed := by decide
  bucketID_ne := by decide
  branch_normal := rfl

def calm : Env := { fault := .none, stashedAt := ⟨1, by decide⟩, now := ⟨1, by decide⟩ }

def sampleHead (commit : String) (revision : UInt64) : ObservedHead :=
  { datasetID := text "bucket", name := BucketBranch.mainBranch, kind := .main, state := .opened
    commitID := text commit, root := text ("root-" ++ commit), revision := revision
    createdBy := [], createdAt := 1, updatedAt := 1 }

def stagedEvents : List (@Event CidFormat.verbatim) :=
  letI := CidFormat.verbatim
  [.pull sampleService (sampleHead "c1" 1) calm,
    .stage sampleService (some ⟨text "candidate", by decide⟩) ⟨text "c1", text "root-c1", 1⟩ none []
      (text "id") calm]

def pushEvents : List (@Event CidFormat.verbatim) :=
  letI := CidFormat.verbatim
  let candidate : Commit :=
    { id := text "c2", datasetID := text "bucket", root := text "candidate", parents := [text "c1"]
      baseRoot := text "root-c1", author := [], credential := [], changeSetCID := [], message := [],
        createdAt := 1 }
  let head : ObservedHead := { sampleHead "c2" 2 with root := text "candidate" }
  [.freeze sampleService ⟨text "candidate", by decide⟩ none [] calm,
    .pushPull 0 (sampleHead "c1" 1) calm, .pull sampleService head calm, .settle 0
      { status := .fastForward, head := head, candidate := candidate, commit := candidate,
        branch := none
        mergeBase := [], conflicts := [] } calm]

theorem workspace_heads_pushed : letI := CidFormat.verbatim
    ∃ state state', reload (run stagedEvents ⟨none, []⟩).file = .ok state ∧
      reload (run pushEvents (run stagedEvents ⟨none, []⟩)).file = .ok state' ∧
      (workspaceAt state' sampleService.stateKey).base.revision = 2 ∧
      (workspaceAt state sampleService.stateKey).base.revision ≤
        (workspaceAt state' sampleService.stateKey).base.revision := by
  let format : CidFormat := CidFormat.verbatim
  have hread : (reload (run stagedEvents ⟨none, []⟩).file).isOk = true := by decide +kernel
  have hread' : ((reload (run pushEvents (run stagedEvents ⟨none, []⟩)).file).map
      fun state => (workspaceAt state sampleService.stateKey).base.revision).toOption = some 2 := by
        decide +kernel
  obtain ⟨state, hs⟩ := exists_of_isOk hread
  cases hs' : reload (run pushEvents (run stagedEvents ⟨none, []⟩)).file with
  | error e => simp [hs', Except.map, Except.toOption] at hread'
  | ok state' =>
    have hheads :=
      workspace_heads stagedEvents pushEvents sampleService.stateKey state state' hs hs'
    exact ⟨state, state', hs, rfl, by simpa [hs', Except.map, Except.toOption] using hread',
      hheads.1.2⟩

end sample

end MaltClient.BucketSync
