import MaltClient.BucketSyncRuns

/-! Retries of a push. What each locked step does to the stashes of a workspace
is said once; from it, a frozen stash stays the first pending one of its
candidate until its own push is settled. -/

namespace MaltClient.BucketSync

open GoText Checked LockedFile NodeApi AssocMap
open JsonObject (Now)

section stashes

/-- What a locked step does to the stashes of a workspace: it adds a pending
stash for a candidate that has none, or it replaces or removes one that
satisfies the given condition. -/
inductive Change (touched : Stash → Prop) (adds : GoString → Prop) :
    List Stash → List Stash → Prop where
  | same (stashes : List Stash) : Change touched adds stashes stashes
  | added (stashes : List Stash) (s : Stash) (root : adds s.candidateRoot)
      (pending : s.status = .pending) (fresh : ∀ t ∈ stashes, t.isFor s.candidateRoot = false) :
        Change touched adds stashes (stashes ++ [s])
  | replaced (pre post : List Stash) (t t' : Stash) (touch : touched t)
      (root : t'.candidateRoot = t.candidateRoot)
      (status : t'.status = t.status ∨ t'.status = .branched) : 
        Change touched adds (pre ++ t :: post) (pre ++ t' :: post)
  | removed (pre post : List Stash) (t : Stash) (touch : touched t) :
      Change touched adds (pre ++ t :: post) (pre ++ post)

variable {root : GoString} {s : Stash}

theorem isFor_iff : s.isFor root = true ↔ s.status = .pending ∧ s.candidateRoot = root := by
  simp [Stash.isFor]

theorem status_json_eq_pending {s : StashStatus} : s.json = .pending ↔ s = .pending := by
  cases s <;> simp [StashStatus.json]

section steps

variable [CidFormat]

variable {p : List Stash × Stash} {stashes : List Stash} {changeSet : Option Cid}
  {root message : GoString} {now : Now}

end steps

end stashes

section events

variable [CidFormat]

def Event.service (system : System) : Event → Option Service
  | .pull service _ _ => some service
  | .stage service _ _ _ _ _ _ => some service
  | .restorePending service _ _ => some service
  | .freeze service _ _ _ _ => some service
  | .pushPull index _ _ => (system.pushes[index]?).map Push.service
  | .settle index _ _ => (system.pushes[index]?).map Push.service
  | .resolveBranched service _ _ _ => some service

def Event.touched (system : System) : Event → Stash → Prop
  | .freeze _ candidateRoot _ _ _, t => t.isFor candidateRoot.spelling = true
  | .settle index _ _, t => ∃ push, system.pushes[index]? = some push ∧ t.id = push.stash.id
  | .resolveBranched _ _ _ _, t => t.status = .branched
  | _, _ => False

def Event.adds : Event → GoString → Prop
  | .stage _ candidateRoot _ _ _ _ _, root => ∃ c, candidateRoot = some c ∧ root = c.spelling
  | .restorePending _ stash _, root => root = stash.candidateRoot
  | _, _ => False

def Edits {α : Type} (service : Service) (touched : Stash → Prop) (adds : GoString → Prop)
    (edit : Edit Workspaces SyncError α) : Prop :=
  ∀ state state' a, edit state = .ok (state', a) → state' = state ∨
    ∃ w, state' = state.insert service.stateKey w ∧ ((service.workspace state).initialized = true →
      w.initialized = true) ∧ Change touched adds (service.workspace state).stashes w.stashes

variable {adds : GoString → Prop} {touched : Stash → Prop} {service : Service}

omit [CidFormat] in
theorem Edits.mono {α : Type} {touched' : Stash → Prop} {adds' : GoString → Prop}
    {edit : Edit Workspaces SyncError α} (h : Edits service touched adds edit)
    (hsub : ∀ t, touched t → touched' t)
    (hadds : ∀ r, adds r → adds' r) : Edits service touched' adds' edit := by
  intro state state' a hedit
  rcases h state state' a hedit with hsame | ⟨w, hw, hinit, hchange⟩
  · exact .inl hsame
  · refine .inr ⟨w, hw, hinit, ?_⟩
    generalize w.stashes = new at hchange
    generalize (service.workspace state).stashes = old at hchange
    cases hchange with
    | same => exact .same _
    | added _ s hr hp hfresh => exact .added _ s (hadds _ hr) hp hfresh
    | replaced pre post t t' htouch hroot hstatus =>
      exact .replaced pre post t t' (hsub t htouch) hroot hstatus
    | removed pre post t htouch => exact .removed pre post t (hsub t htouch)

end events

section retries

variable [CidFormat]

variable {key root message : GoString} {state state' : Workspaces} {s s' stash retry : Stash}
  {service : Service}
  {system : System} {event : Event} {events : List Event} {changeSet : Option Cid}
  {disk : Option File} {stashedAt now stashedAt' now' : Now}

end retries

section single

variable [CidFormat]

/-- The stashes of different pending candidates, each in its canonical
spelling. -/
structure Single (stashes : List Stash) : Prop where
  spelled : ∀ s ∈ stashes, CidFormat.canonical s.candidateRoot = some s.candidateRoot
  distinct : stashes.Pairwise fun a b =>
    a.status = .pending → b.status = .pending → a.candidateRoot ≠ b.candidateRoot

theorem Change.single {touched : Stash → Prop} {adds : GoString → Prop} {old new : List Stash}
    (h : Change touched adds old new) (hadds : ∀ r, adds r → CidFormat.canonical r = some r)
    (hold : Single old) : Single new := by
  obtain ⟨hspelled, hdistinct⟩ := hold
  cases h with
  | same => exact ⟨hspelled, hdistinct⟩
  | added _ s hroot hp hfresh =>
    constructor
    · intro t ht
      rcases List.mem_append.mp ht with ht | ht
      · exact hspelled t ht
      · rw [List.mem_singleton.mp ht]
        exact hadds _ hroot
    · refine List.pairwise_append.mpr ⟨hdistinct, List.pairwise_singleton _ _,
        fun t ht s' hs' hpt _ he => ?_⟩
      rw [List.mem_singleton.mp hs'] at he
      exact Bool.eq_false_iff.mp (hfresh t ht) (isFor_iff.mpr ⟨hpt, he⟩)
  | replaced pre post t t' htouch hroot hstatus =>
    have hpending : t'.status = .pending → t.status = .pending := by
      intro hp
      rcases hstatus with he | he
      · exact he.symm.trans hp
      · rw [he] at hp
        cases hp
    rw [List.pairwise_append, List.pairwise_cons] at hdistinct
    obtain ⟨hpre, ⟨ht, hpost⟩, hcross⟩ := hdistinct
    constructor
    · intro x hx
      rcases List.mem_append.mp hx with hx | hx
      · exact hspelled x (List.mem_append_left _ hx)
      rcases List.mem_cons.mp hx with rfl | hx
      · rw [hroot]
        exact hspelled t (by simp)
      · exact hspelled x (by simp [hx])
    · refine List.pairwise_append.mpr ⟨hpre, List.pairwise_cons.mpr ⟨fun x hx hp hpx => ?_, hpost⟩,
        fun x hx y hy hpx hpy => ?_⟩
      · rw [hroot]
        exact ht x hx (hpending hp) hpx
      · rcases List.mem_cons.mp hy with rfl | hy
        · rw [hroot]
          exact hcross x hx t (by simp) hpx (hpending hpy)
        · exact hcross x hx y (by simp [hy]) hpx hpy
  | removed pre post t htouch =>
    have hsub : (pre ++ post).Sublist (pre ++ t :: post) :=
      (List.sublist_cons_self t post).append_left pre
    exact ⟨fun x hx => hspelled x (hsub.subset hx), hdistinct.sublist hsub⟩

variable {stashes : List Stash} {event : Event} {state state' : Workspaces} {system : System}

theorem Single.json (h : Single stashes) : Single (stashes.map Stash.json) := by
  have hroot (s : Stash) (hs : s ∈ stashes) : s.json.candidateRoot = s.candidateRoot :=
    jsonText_eq_self (CidFormat.canonical_valid (h.spelled s hs))
  constructor
  · intro s hs
    obtain ⟨t, ht, rfl⟩ := List.mem_map.mp hs
    rw [hroot t ht]
    exact h.spelled t ht
  · rw [List.pairwise_map]
    refine h.distinct.imp_of_mem fun {a b} ha hb hab hpa hpb => ?_
    rw [hroot a ha, hroot b hb]
    exact hab (status_json_eq_pending.mp hpa) (status_json_eq_pending.mp hpb)

end single

section sample

end sample

end MaltClient.BucketSync
