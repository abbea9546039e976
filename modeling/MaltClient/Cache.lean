import MaltClient.JournalCalls

/-! The local payload cache as the staging service uses it: entries under their
full binding, with the state and the body of each. -/

namespace MaltClient.Cache

open GoText Checked AssocMap
open LockedFile (Fault)

inductive State where
  | unmaterializedRemote
  | verifiedClean
  | localDirty
  | pendingUpload
  | candidate
  | conflicted
  | offlineOnly
  | stale
  deriving DecidableEq, Repr

inductive CacheError where
  | miss
  | bindingMismatch
  | notVerified
  | corrupt
  | invalidState
  | bodyTooLarge (size limit : Nat)
  | io
  | message (text : String)
  deriving DecidableEq, Repr

def isLocalBodyState : State → Bool
  | .localDirty | .pendingUpload | .candidate | .conflicted | .offlineOnly => true
  | _ => false

def allowedPut (current next : State) : Bool :=
  if current = next then true
  else
    match current with
    | .unmaterializedRemote | .stale =>
      next = .verifiedClean || next = .localDirty || next = .offlineOnly
    | _ => false

def allowedTransition (current next : State) : Bool :=
  if current = next then true
  else
    match current with
    | .verifiedClean | .unmaterializedRemote => next = .stale
    | .localDirty =>
      next = .pendingUpload || next = .offlineOnly || next = .conflicted || next = .stale
    | .offlineOnly =>
      next = .pendingUpload || next = .localDirty || next = .conflicted || next = .stale
    | .pendingUpload => next = .candidate || next = .conflicted || next = .stale
    | .candidate =>
      next = .pendingUpload || next = .localDirty || next = .offlineOnly || next = .conflicted ||
        next = .stale
    | .conflicted => next = .localDirty || next = .offlineOnly || next = .stale
    | .stale => false

def maxInt : Nat := 2 ^ 63 - 1

/-- The metadata of an entry with its body file. -/
structure Entry where
  state : State
  body : Option (List UInt8)
  deriving DecidableEq

def Entry.size (entry : Entry) : Nat := (entry.body.getD []).length

variable [CidFormat]

structure Binding where
  datasetID : GoString
  branch : GoString
  root : Option Cid
  revision : UInt64
  cid : Option Cid
  encryptionEpoch : UInt32
  deriving DecidableEq

abbrev Store := AList fun _ : Binding => Entry

def normalizeBinding (raw : Binding) : Except CacheError Binding := do
  let binding := { raw with datasetID := trimSpace raw.datasetID, branch := trimSpace raw.branch }
  reject (binding.datasetID = [] ∨ binding.branch = [] ∨ ¬ validString binding.datasetID = true ∨
      ¬ validString binding.branch = true ∨ containsRune binding.datasetID nul = true ∨
      containsRune binding.branch nul = true)
    (.message "cache dataset and branch are required")
  reject (binding.root = none ∨ binding.cid = none)
    (.message "cache root and payload CID are required")
  return binding

theorem normalizeBinding_cid {raw b : Binding} (h : normalizeBinding raw = .ok b) :
    b.cid = raw.cid := by
  simp only [normalizeBinding, ok_iff] at h
  obtain ⟨-, -, -, -, rfl⟩ := h
  rfl

theorem normalizeBinding_self {raw b : Binding} (h : normalizeBinding raw = .ok b) :
    normalizeBinding b = .ok b := by
  simp only [normalizeBinding, ok_iff] at h ⊢
  obtain ⟨-, htexts, -, hcids, rfl⟩ := h
  simp only [trimSpace_trimSpace]
  exact ⟨(), htexts, (), hcids, trivial⟩

/-- One atomic replacement of the metadata file. -/
def commit {α : Type} (fault : Fault) (old new : Store) (result : α) :
    Store × Except CacheError α :=
  match fault with
  | .none => (new, .ok result)
  | .aborted => (old, .error .io)
  | .committed => (new, .error .io)

theorem commit_fst {α : Type} (fault : Fault) (old new : Store) (a : α) :
    (commit fault old new a).1 = old ∨ (commit fault old new a).1 = new := by
  cases fault <;> simp [commit]

variable {old new : Store} {fault : Fault}

theorem commit_eq_ok {α : Type} {a b : α}
    (h : (commit fault old new a).2 = .ok b) : (commit fault old new a).1 = new ∧ a = b := by
  cases fault <;> simp_all [commit]

def inspect (store : Store) (binding : Binding) : Except CacheError Entry := do
  let binding ← normalizeBinding binding
  required .miss (store.lookup binding)

def openBoundedLocalBody (entry : Entry) (maxBytes : Nat) : Except CacheError (List UInt8) := do
  reject (isLocalBodyState entry.state = false) .invalidState
  let body ← required .invalidState entry.body
  reject (maxBytes < body.length ∨ maxInt < body.length) (.bodyTooLarge body.length maxBytes)
  return body

variable [PayloadHash]

variable {entry : Entry} {binding key : Binding} {store : Store} {state next : State}
  {body : List UInt8}

def sumsBody (payload : Option Cid) (body : List UInt8) : Bool :=
  payload.any (PayloadHash.sums · body)

/-- `PutLocal` up to the write: the key and the entry that go into the store. -/
def admitLocal (store : Store) (binding : Binding) (body : List UInt8) (state : State) :
    Except CacheError (Binding × Entry) := do
  let binding ← normalizeBinding binding
  reject (state ≠ .localDirty ∧ state ≠ .offlineOnly) .invalidState
  reject (sumsBody binding.cid body = false) (.message "payload CID mismatch: expected %s, got %s")
  reject ((store.lookup binding).any (fun existing => !allowedPut existing.state state) = true)
    .invalidState
  return (binding, { state := state, body := some body })

/-- The body is written first, then the entry. A call that fails may leave one of
them or both, or an entry whose body it has removed again. -/
inductive PutFault where
  | none
  | aborted
  | staged
  | committed
  | orphaned
  deriving DecidableEq, Repr

def putLocal (fault : PutFault) (binding : Binding) (body : List UInt8) (state : State)
    (store : Store) : Store × Except CacheError Entry :=
  match admitLocal store binding body state with
  | .error e => (store, .error e)
  | .ok (binding, entry) =>
    match fault with
    | .none => (store.insert binding entry, .ok entry)
    | .aborted => (store, .error .io)
    | .staged =>
      match store.lookup binding with
      | some existing => (store.insert binding { existing with body := entry.body }, .error .io)
      | none => (store, .error .io)
    | .committed => (store.insert binding entry, .error .io)
    | .orphaned => (store.insert binding { entry with body := none }, .error .io)

def admitTransition (store : Store) (binding : Binding) (next : State) :
    Except CacheError (Binding × Entry) := do
  let binding ← normalizeBinding binding
  let entry ← required .miss (store.lookup binding)
  reject (allowedTransition entry.state next = false) .invalidState
  return (binding, { entry with state := next })

def transition (fault : Fault) (binding : Binding) (next : State) (store : Store) :
    Store × Except CacheError Entry :=
  match admitTransition store binding next with
  | .error e => (store, .error e)
  | .ok (binding, entry) => commit fault store (store.insert binding entry) entry

/-- The entry under a binding with its body, read whole and checked against the
payload identifier. -/
def openVerified (store : Store) (binding : Binding) (maxBytes : Nat) :
    Except CacheError (Entry × List UInt8) := do
  let binding ← normalizeBinding binding
  let entry ← required .miss (store.lookup binding)
  let body ← openBoundedLocalBody entry maxBytes
  reject (sumsBody binding.cid body = false) .corrupt
  return (entry, body)

def readLocalBounded (store : Store) (binding : Binding) (maxBytes : Nat) :
    Except CacheError (List UInt8) :=
  (openVerified store binding maxBytes).map Prod.snd

def verifyLocal (store : Store) (binding : Binding) (maxBytes : Nat) : Except CacheError Entry :=
  (openVerified store binding maxBytes).map Prod.fst

theorem verifyLocal_eq_ok {maxBytes : Nat} :
    verifyLocal store binding maxBytes = .ok entry ↔
      ∃ key body, normalizeBinding binding = .ok key ∧
      store.lookup key = some entry ∧ isLocalBodyState entry.state = true ∧ entry.body = some body ∧
      body.length ≤ maxBytes ∧ body.length ≤ maxInt ∧ sumsBody key.cid body = true := by
  simp only [verifyLocal, openVerified, openBoundedLocalBody, Checked.map_eq_ok, ok_iff,
    Prod.exists, Prod.mk.injEq, not_or, not_lt, Bool.not_eq_false]
  constructor
  · rintro ⟨e, body, ⟨key, hkey, e', hl, body', ⟨-, hlocal, b, hb, -, ⟨hmax, hint⟩, rfl⟩, -, hsum,
      rfl, rfl⟩, rfl⟩
    exact ⟨key, _, hkey, hl, hlocal, hb, hmax, hint, hsum⟩
  · rintro ⟨key, body, hkey, hl, hlocal, hb, hmax, hint, hsum⟩
    exact ⟨entry, body, ⟨key, hkey, entry, hl, body, ⟨(), hlocal, body, hb, (), ⟨hmax, hint⟩, rfl⟩,
      (), hsum, rfl, rfl⟩, rfl⟩

/-- Every body that could be read in the old store can be read in the new one. -/
def Keeps (old new : Store) : Prop :=
  ∀ binding maxBytes entry, verifyLocal old binding maxBytes = .ok entry →
    verifyLocal new binding maxBytes = .ok entry

theorem Keeps.refl (store : Store) : Keeps store store := fun _ _ _ h => h

theorem Keeps.trans {a b c : Store} (h : Keeps a b) (h' : Keeps b c) : Keeps a c :=
  fun binding n entry hv => h' binding n entry (h binding n entry hv)

theorem keeps_insert
    (h : ∀ e, store.lookup key = some e → isLocalBodyState e.state = false) :
    Keeps store (store.insert key entry) := by
  intro binding n e hv
  obtain ⟨k, body, hk, hl, hlocal, hrest⟩ := verifyLocal_eq_ok.mp hv
  have hne : k ≠ key := by
    rintro rfl
    simp [h e hl] at hlocal
  exact verifyLocal_eq_ok.mpr ⟨k, body, hk, by rw [lookup_insert_eq, if_neg hne, hl], hlocal, hrest⟩

theorem keeps_commit {α : Type} {a : α} (h : Keeps old new) :
    Keeps old (commit fault old new a).1 := by
  rcases commit_fst fault old new a with hc | hc <;> rw [hc]
  · exact Keeps.refl old
  · exact h

variable {put : PutFault}

theorem keeps_putLocal (h : ∀ key e, normalizeBinding binding = .ok key →
    store.lookup key = some e → isLocalBodyState e.state = false) :
        Keeps store (putLocal put binding body state store).1 := by
  unfold putLocal
  cases ha : admitLocal store binding body state with
  | error e => exact Keeps.refl store
  | ok p =>
    simp only [admitLocal, ok_iff] at ha
    obtain ⟨key, hkey, -, -, -, -, -, -, rfl⟩ := ha
    have hinsert (entry : Entry) : Keeps store (store.insert key entry) :=
      keeps_insert fun e => h key e hkey
    cases put with
    | aborted => exact Keeps.refl store
    | staged => cases hl : store.lookup key <;> simp only [hl, hinsert, Keeps.refl]
    | _ => exact hinsert _

theorem verifyLocal_putLocal {n : Nat} (h : (putLocal put binding body state store).2 = .ok entry)
    (hn : body.length ≤ n) (hint : body.length ≤ maxInt) :
    verifyLocal (putLocal put binding body state store).1 binding n = .ok entry := by
  unfold putLocal at h ⊢
  cases ha : admitLocal store binding body state with
  | error e => simp [ha] at h
  | ok p =>
    rw [ha] at h
    simp only [admitLocal, ok_iff, Bool.not_eq_false] at ha
    obtain ⟨key, hkey, -, hstate, -, hsum, -, -, rfl⟩ := ha
    cases put with
    | none =>
      obtain rfl := Except.ok.inj h
      refine verifyLocal_eq_ok.mpr ⟨key, body, hkey, by rw [lookup_insert_eq, if_pos rfl], ?_, rfl,
        hn, hint, hsum⟩
      cases state <;> simp_all [isLocalBodyState]
    | staged => cases hl : store.lookup key <;> simp [hl] at h
    | _ => cases h

theorem keeps_transition (h : ∀ key e, normalizeBinding binding = .ok key →
    store.lookup key = some e →
      isLocalBodyState e.state = false) : Keeps store (transition fault binding next store).1 := by
  unfold transition
  cases ha : admitTransition store binding next with
  | error e => exact Keeps.refl store
  | ok p =>
    simp only [admitTransition, ok_iff] at ha
    obtain ⟨key, hkey, -, -, -, -, rfl⟩ := ha
    exact keeps_commit (keeps_insert fun e => h key e hkey)

omit [PayloadHash] in
theorem lookup_transition
    (h : (transition fault binding next store).2 = .ok entry)
    (hk : normalizeBinding binding = .ok key) :
    ∃ e, (transition fault binding next store).1.lookup key = some e ∧ e.state = next := by
  unfold transition at h ⊢
  cases ha : admitTransition store binding next with
  | error e => simp [ha] at h
  | ok p =>
    rw [ha] at h
    simp only [admitTransition, ok_iff] at ha
    obtain ⟨k, hk', e, -, -, -, rfl⟩ := ha
    obtain rfl := Except.ok.inj (hk.symm.trans hk')
    obtain ⟨hstore, -⟩ := commit_eq_ok h
    exact ⟨{ e with state := next }, by rw [hstore, lookup_insert_eq, if_pos rfl], rfl⟩

end MaltClient.Cache
