import MaltClient.BlockPersistence

/-! A store that reads through a cache. The primary store alone decides what is
stored; the cache may only save reads, and what it returns is checked. -/

namespace MaltClient.HybridCas

open Dialogue BlockPersistence

/-- `cid.NewCidV1` of the SHA-256 hash. -/
class BlockHash [CidFormat] where
  cidV1 : Nat → List UInt8 → Option Cid

def rawCodec : Nat := 0x55

/-- `NormalizeCodec` -/
def normalizeCodec (codec : Nat) : Nat := if codec = 0 then rawCodec else codec

section

variable [CidFormat]

inductive CasError where
  | hash
  | undefinedKey
  | undefinedBatchKey (index : Nat)
  | primaryReturned (got : Option Cid) (want : Cid)
  | cacheReturned (got want : Option Cid)
  | bodyMismatch (key : Cid)
  | undefinedResult
  | notCanonical (got want : Cid)
  | resultCount (results blocks : Nat)
  | batchResult (index : Nat) (cause : CasError)
  | unsupportedStatus (index : Nat) (status : PutStatus)
  | hasCount (results keys : Nat)
  /-- An error of the context or of a store, and whether it is `ErrNotFound`. -/
  | external (text : String) (notFound : Bool)
  deriving DecidableEq

/-- `errors.Is(err, ErrNotFound)` -/
def CasError.isNotFound : CasError → Bool
  | .external _ notFound => notFound
  | _ => false

inductive PrimaryCall (κ : Type) where
  | put (ctx : κ) (block : CasBlock)
  | putBatch (ctx : κ) (blocks : List CasBlock)
  | get (ctx : κ) (key : Cid)
  | has (ctx : κ) (key : Cid)
  | hasBatch (ctx : κ) (keys : List Cid)

abbrev PrimaryAnswer {κ : Type} : PrimaryCall κ → Type
  | .put _ _ => Except CasError (Option Cid)
  | .putBatch _ _ => Except CasError (List PutResult)
  | .get _ _ => Except CasError (List UInt8)
  | .has _ _ => Except CasError Bool
  | .hasBatch _ _ => Except CasError (List Bool)

inductive Question (κ : Type) where
  | primary (call : PrimaryCall κ)
  | cacheGet (ctx : κ) (key : Cid)
  | cachePut (ctx : κ) (block : CasBlock)
  | ctxErr (ctx : κ)
  | observeCacheError (err : CasError)

abbrev Answer {κ : Type} : Question κ → Type
  | .primary call => PrimaryAnswer call
  | .cacheGet _ _ => Except CasError (List UInt8)
  | .cachePut _ _ => Except CasError (Option Cid)
  | .ctxErr _ => Option CasError
  | .observeCacheError _ => Unit

abbrev Store (κ : Type) := Prog (@Answer _ κ) CasError

variable {κ : Type}

structure Capabilities where
  putBatch : Bool
  hasBatch : Bool
  deriving DecidableEq

def observeCacheError (err : CasError) : Store κ Unit := .attempt (.observeCacheError err) .ok

/-- What `fill` makes of the answer of the cache. -/
def cacheError (want : Option Cid) : Except CasError (Option Cid) → Option CasError
  | .error err => some err
  | .ok got => if got = want then none else some (.cacheReturned got want)

def observeAny : Option CasError → Store κ Unit
  | none => return ()
  | some err => observeCacheError err

/-- `fill`. A cancelled context leaves the cache alone. -/
def fill (ctx : κ) (want : Option Cid) (block : CasBlock) : Store κ Unit :=
  .ask (.ctxErr ctx) fun
    | some _ => return ()
    | none => .ask (.cachePut ctx block) fun answer => observeAny (cacheError want answer)

variable [BlockHash]

def cidForBlock (block : CasBlock) : Except CasError Cid :=
  Checked.required .hash (BlockHash.cidV1 (normalizeCodec block.codec) block.data)

def checkPut (want : Cid) (answer : Except CasError (Option Cid)) : Except CasError Unit := do
  let got ← answer
  Checked.reject (got ≠ some want) (.primaryReturned got want)

def putWithCodec (ctx : κ) (block : CasBlock) : Store κ Cid := do
  let want ← .stop (cidForBlock block)
  Prog.attempt (.primary (.put ctx block)) (checkPut want)
  fill ctx (some want) block
  return want

def put (ctx : κ) (data : List UInt8) : Store κ Cid := putWithCodec ctx ⟨data, rawCodec⟩

def verifyPutResult (got : Option Cid) (block : CasBlock) : Except CasError Cid := do
  let got ← Checked.required .undefinedResult got
  let want ← cidForBlock block
  Checked.reject (want ≠ got) (.notCanonical got want)
  return got

def verifyEach : Nat → List CasBlock → List PutResult → Except CasError Unit
  | index, block :: blocks, result :: results => do
    let _ ← (verifyPutResult result.cid block).mapError (.batchResult index)
    Checked.reject (result.status.supported = false) (.unsupportedStatus index result.status)
    verifyEach (index + 1) blocks results
  | _, _, _ => return ()

/-- `verifyBatchResults`, on the answer of the batch writer. -/
def verifyBatchResults (blocks : List CasBlock) (answer : Except CasError (List PutResult)) :
    Except CasError (List PutResult) := do
  let results ← answer
  Checked.reject (results.length ≠ blocks.length) (.resultCount results.length blocks.length)
  verifyEach 0 blocks results
  return results

def verifyPut (block : CasBlock) (answer : Except CasError (Option Cid)) :
    Except CasError PutResult := do
  let got ← answer
  let key ← verifyPutResult got block
  return ⟨some key, .stored⟩

def putEach (ctx : κ) : List CasBlock → Store κ (List PutResult)
  | [] => return []
  | block :: rest => do
    let result ← Prog.attempt (.primary (.put ctx ⟨block.data, normalizeCodec block.codec⟩))
      (verifyPut ⟨block.data, normalizeCodec block.codec⟩)
    let results ← putEach ctx rest
    return result :: results

/-- `VerifyingReader.PutBatch` -/
def verifiedPutBatch (caps : Capabilities) (ctx : κ) (blocks : List CasBlock) :
    Store κ (List PutResult) :=
  if caps.putBatch = true then .attempt (.primary (.putBatch ctx blocks))
    (verifyBatchResults blocks)
  else putEach ctx blocks

def fillEach (ctx : κ) : Nat → List PutResult → List CasBlock → Store κ Unit
  | index, result :: results, block :: blocks => do
    Prog.stop (Checked.reject (result.status.supported = false)
      (.unsupportedStatus index result.status))
    fill ctx result.cid block
    fillEach ctx (index + 1) results blocks
  | _, _, _ => return ()

def putBatch (caps : Capabilities) (ctx : κ) (blocks : List CasBlock) : Store κ (List PutResult) :=
  if blocks = [] then return []
  else do
    let results ← verifiedPutBatch caps ctx blocks
    fillEach ctx 0 results blocks
    return results

def has (ctx : κ) (key : Option Cid) : Store κ Bool := do
  let key ← .stop (Checked.required .undefinedKey key)
  Prog.attempt (.primary (.has ctx key)) id

def definedKeys : Nat → List (Option Cid) → Except CasError (List Cid)
  | _, [] => return []
  | index, key :: rest => do
    let key ← Checked.required (.undefinedBatchKey index) key
    let keys ← definedKeys (index + 1) rest
    return key :: keys

def checkHasBatch (keys : List Cid) (answer : Except CasError (List Bool)) :
    Except CasError (List Bool) := do
  let result ← answer
  Checked.reject (result.length ≠ keys.length) (.hasCount result.length keys.length)
  return result

def hasEach (ctx : κ) : List Cid → Store κ (List Bool)
  | [] => return []
  | key :: rest => do
    let present ← Prog.attempt (.primary (.has ctx key)) id
    let result ← hasEach ctx rest
    return present :: result

def hasBatch (caps : Capabilities) (ctx : κ) (keys : List (Option Cid)) : Store κ (List Bool) :=
  if keys = [] then return []
  else do
    let keys ← .stop (definedKeys 0 keys)
    if caps.hasBatch = true then Prog.attempt (.primary (.hasBatch ctx keys)) (checkHasBatch keys)
    else hasEach ctx keys

variable [PayloadHash] [CidCodec]

/-- What `verifiedGet` makes of the answer of its source. -/
def verifyBody (key : Cid) (answer : Except CasError (List UInt8)) :
    Except CasError (List UInt8) := do
  let data ← answer
  Checked.reject (PayloadHash.sums key data = false) (.bodyMismatch key)
  return data

def getPrimary (ctx : κ) (key : Cid) : Store κ (List UInt8) := do
  let data ← Prog.attempt (.primary (.get ctx key)) (verifyBody key)
  fill ctx (some key) ⟨data, CidCodec.codec key⟩
  return data

def getUncached (ctx : κ) (key : Cid) (err : CasError) : Store κ (List UInt8) := do
  observeAny (if err.isNotFound = true then none else some err)
  .ask (.ctxErr ctx) fun
    | some err => .stop (.error err)
    | none => getPrimary ctx key

def get (ctx : κ) (key : Option Cid) : Store κ (List UInt8) := do
  let key ← .stop (Checked.required .undefinedKey key)
  .ask (.cacheGet ctx key) fun answer =>
    match verifyBody key answer with
    | .ok data => return data
    | .error err => getUncached ctx key err

inductive Call (κ : Type) where
  | put (ctx : κ) (data : List UInt8)
  | putWithCodec (ctx : κ) (block : CasBlock)
  | putBatch (ctx : κ) (blocks : List CasBlock)
  | get (ctx : κ) (key : Option Cid)
  | has (ctx : κ) (key : Option Cid)
  | hasBatch (ctx : κ) (keys : List (Option Cid))

inductive Reply where
  | key (key : Cid)
  | results (results : List PutResult)
  | bytes (bytes : List UInt8)
  | present (present : Bool)
  | presents (presents : List Bool)

def Call.run (caps : Capabilities) : Call κ → Store κ Reply
  | .put ctx data => do return .key (← HybridCas.put ctx data)
  | .putWithCodec ctx block => do return .key (← HybridCas.putWithCodec ctx block)
  | .putBatch ctx blocks => do return .results (← HybridCas.putBatch caps ctx blocks)
  | .get ctx key => do return .bytes (← HybridCas.get ctx key)
  | .has ctx key => do return .present (← HybridCas.has ctx key)
  | .hasBatch ctx keys => do return .presents (← HybridCas.hasBatch caps ctx keys)

/-! ### The primary store alone -/

def isPrimary : Question κ → Bool
  | .primary _ => true
  | _ => false

def putAlone (ctx : κ) (block : CasBlock) : Store κ Cid := do
  let want ← .stop (cidForBlock block)
  Prog.attempt (.primary (.put ctx block)) (checkPut want)
  return want

def checkStatuses : Nat → List PutResult → List CasBlock → Except CasError Unit
  | index, result :: results, _ :: blocks => do
    Checked.reject (result.status.supported = false) (.unsupportedStatus index result.status)
    checkStatuses (index + 1) results blocks
  | _, _, _ => return ()

def putBatchAlone (caps : Capabilities) (ctx : κ) (blocks : List CasBlock) :
    Store κ (List PutResult) :=
  if blocks = [] then return []
  else do
    let results ← verifiedPutBatch caps ctx blocks
    Prog.stop (checkStatuses 0 results blocks)
    return results

def Call.alone (caps : Capabilities) : Call κ → Store κ Reply
  | .put ctx data => do return .key (← putAlone ctx ⟨data, rawCodec⟩)
  | .putWithCodec ctx block => do return .key (← putAlone ctx block)
  | .putBatch ctx blocks => do return .results (← putBatchAlone caps ctx blocks)
  | .get ctx key => do
    let key ← .stop (Checked.required .undefinedKey key)
    return .bytes (← Prog.attempt (.primary (.get ctx key)) (verifyBody key))
  | .has ctx key => do return .present (← HybridCas.has ctx key)
  | .hasBatch ctx keys => do return .presents (← HybridCas.hasBatch caps ctx keys)

def Call.isGet : Call κ → Bool
  | .get _ _ => true
  | _ => false

end

section

variable [CidFormat] {κ : Type}

theorem observeAny_hides (err : Option CasError) : Hides isPrimary (observeAny err : Store κ Unit)
    (pure ()) := by
  cases err with
  | none => exact .stop _
  | some err => exact .skip _ _ _ rfl fun _ => .stop _

theorem fill_hides (ctx : κ) (want : Option Cid) (block : CasBlock) :
    Hides isPrimary (fill ctx want block) (pure ()) := by
  refine .skip _ _ _ rfl fun answer => ?_
  cases answer with
  | some err => exact .stop _
  | none => exact .skip _ _ _ rfl fun answer => observeAny_hides _

theorem has_hides (ctx : κ) (key : Option Cid) : Hides isPrimary (has ctx key) (has ctx key) :=
  .bind (.stop _) fun _ => .attempt _ rfl _

theorem hasEach_hides (ctx : κ) (keys : List Cid) :
    Hides isPrimary (hasEach ctx keys) (hasEach ctx keys) := by
  induction keys with
  | nil => exact .stop _
  | cons key rest ih => exact .bind (.attempt _ rfl _) fun present => .bind ih fun result => .stop _

theorem hasBatch_hides (caps : Capabilities) (ctx : κ) (keys : List (Option Cid)) :
    Hides isPrimary (hasBatch caps ctx keys) (hasBatch caps ctx keys) := by
  unfold hasBatch
  split_ifs with hkeys hbatch
  · exact .stop _
  · exact .bind (.stop _) fun _ => .attempt _ rfl _
  · exact .bind (.stop _) fun keys => hasEach_hides ctx keys

theorem fillEach_hides (ctx : κ) (index : Nat) (results : List PutResult) (blocks : List CasBlock) :
    Hides isPrimary (fillEach ctx index results blocks)
      (.stop (checkStatuses index results blocks)) := by
  induction results generalizing index blocks with
  | nil => exact .stop _
  | cons result results ih =>
    cases blocks with
    | nil => exact .stop _
    | cons block blocks =>
      rw [checkStatuses, Prog.stop_bind]
      refine .bind (.stop _) fun _ => ?_
      exact .bind (n := pure ()) (fill_hides ctx result.cid block) fun _ => ih (index + 1) blocks

section

variable [PayloadHash]

variable {key : Cid}

theorem verifyBody_eq_ok {answer : Except CasError (List UInt8)} {data : List UInt8} :
    verifyBody key answer = .ok data ↔ answer = .ok data ∧ PayloadHash.sums key data = true := by
  simp only [verifyBody, Checked.ok_iff]
  constructor
  · rintro ⟨_, rfl, -, hs, rfl⟩
    exact ⟨rfl, by simpa using hs⟩
  · rintro ⟨rfl, hs⟩
    exact ⟨data, rfl, (), by simp [hs], rfl⟩

variable [CidCodec]

theorem getPrimary_hides (ctx : κ) (key : Cid) :
    Hides isPrimary (getPrimary ctx key)
      (Prog.attempt (.primary (.get ctx key)) (verifyBody key)) := by
  refine .ask _ _ _ rfl fun answer => ?_
  show Hides isPrimary (Prog.stop (verifyBody key answer) >>= _) (.stop (verifyBody key answer))
  cases verifyBody key answer with
  | error err => exact .stop _
  | ok data => exact .bind (n := pure ()) (fill_hides ctx (some key) _) fun _ => .stop _

theorem getUncached_runs {ctx : κ} {err : CasError} {trace : List (Exchange Answer)}
    {result : Except CasError (List UInt8)} (h : Runs (getUncached ctx key err) trace result) :
    (seenBy isPrimary trace = [] ∧ ∃ err, ⟨.ctxErr ctx, some err⟩ ∈ trace ∧ result = .error err) ∨
    ∃ answer, seenBy isPrimary trace = [⟨.primary (.get ctx key), answer⟩] ∧
      result = verifyBody key answer := by
  rcases runs_bind.mp h with ⟨e, he, -⟩ | ⟨_, first, rest, rfl, hfirst, hr⟩
  · have hobserved := (observeAny_hides _).runs he
    cases (runs_pure.mp hobserved).2
  · have hobserved := (runs_pure.mp ((observeAny_hides _).runs hfirst)).1
    obtain ⟨answer, rest, rfl, hnext⟩ := runs_ask.mp hr
    cases answer with
    | some err =>
      obtain ⟨rfl, rfl⟩ := runs_stop.mp hnext
      refine .inl ⟨by rw [seenBy_append, hobserved]; rfl, err, by simp, rfl⟩
    | none =>
      obtain ⟨answer, htrace, rfl⟩ := runs_attempt.mp ((getPrimary_hides ctx key).runs hnext)
      refine .inr ⟨answer, ?_, rfl⟩
      rw [seenBy_append, hobserved]
      exact htrace

theorem get_runs {ctx : κ} {trace : List (Exchange Answer)} {result : Except CasError (List UInt8)}
    (h : Runs (get ctx (some key)) trace result) :
    (seenBy isPrimary trace = [] ∧ ∃ data, result = .ok data ∧ PayloadHash.sums key data = true) ∨
    (seenBy isPrimary trace = [] ∧ ∃ err, ⟨.ctxErr ctx, some err⟩ ∈ trace ∧ result = .error err) ∨
    ∃ answer, seenBy isPrimary trace = [⟨.primary (.get ctx key), answer⟩] ∧
      result = verifyBody key answer := by
  obtain ⟨answer, rest, rfl, hr⟩ := runs_ask.mp h
  have hseen : seenBy isPrimary (⟨.cacheGet ctx key, answer⟩ :: rest) = seenBy isPrimary rest := rfl
  rw [hseen]
  cases hbody : verifyBody key answer with
  | ok data =>
    rw [hbody] at hr
    obtain ⟨rfl, rfl⟩ := runs_pure.mp hr
    exact .inl ⟨rfl, data, rfl, (verifyBody_eq_ok.mp hbody).2⟩
  | error err =>
    rw [hbody] at hr
    rcases getUncached_runs hr with ⟨htrace, err, hmem, hresult⟩ | hasked
    · exact .inr (.inl ⟨htrace, err, List.mem_cons_of_mem _ hmem, hresult⟩)
    · exact .inr (.inr hasked)

end

variable [BlockHash]

theorem putWithCodec_hides (ctx : κ) (block : CasBlock) :
    Hides isPrimary (putWithCodec ctx block) (putAlone ctx block) := by
  refine .bind (.stop _) fun want => .bind (.attempt _ rfl _) fun _ => ?_
  exact .bind (n := pure ()) (fill_hides ctx (some want) block) fun _ => .stop _

theorem putEach_hides (ctx : κ) (blocks : List CasBlock) :
    Hides isPrimary (putEach ctx blocks) (putEach ctx blocks) := by
  induction blocks with
  | nil => exact .stop _
  | cons block rest ih =>
    exact .bind (.attempt _ rfl _) fun result => .bind ih fun results => .stop _

theorem verifiedPutBatch_hides (caps : Capabilities) (ctx : κ) (blocks : List CasBlock) :
    Hides isPrimary (verifiedPutBatch caps ctx blocks) (verifiedPutBatch caps ctx blocks) := by
  unfold verifiedPutBatch
  split_ifs
  · exact .attempt _ rfl _
  · exact putEach_hides ctx blocks

theorem putBatch_hides (caps : Capabilities) (ctx : κ) (blocks : List CasBlock) :
    Hides isPrimary (putBatch caps ctx blocks) (putBatchAlone caps ctx blocks) := by
  unfold putBatch putBatchAlone
  split_ifs
  · exact .stop _
  · refine .bind (verifiedPutBatch_hides caps ctx blocks) fun results => ?_
    exact .bind (fillEach_hides ctx 0 results blocks) fun _ => .stop _

variable [PayloadHash] [CidCodec]

theorem run_hides (caps : Capabilities) (call : Call κ) (h : call.isGet = false) :
    Hides isPrimary (call.run caps) (call.alone caps) := by
  cases call with
  | put ctx data => exact .bind (putWithCodec_hides ctx _) fun _ => .stop _
  | putWithCodec ctx block => exact .bind (putWithCodec_hides ctx block) fun _ => .stop _
  | putBatch ctx blocks => exact .bind (putBatch_hides caps ctx blocks) fun _ => .stop _
  | get ctx key => cases h
  | has ctx key => exact .bind (has_hides ctx key) fun _ => .stop _
  | hasBatch ctx keys => exact .bind (hasBatch_hides caps ctx keys) fun _ => .stop _

/-! ### Histories -/

abbrev Primary (κ σ : Type) := σ → (call : PrimaryCall κ) → PrimaryAnswer call × σ

variable {σ : Type}

/-- The primary store among all that the hybrid store asks. It answers its own calls only. -/
def Primary.machine (primary : Primary κ σ) : Machine (@Answer _ κ) σ
  | s, .primary call => primary s call
  | s, .cacheGet _ _ => (.error .hash, s)
  | s, .cachePut _ _ => (.ok none, s)
  | s, .ctxErr _ => (none, s)
  | s, .observeCacheError _ => ((), s)

structure Entry (κ σ : Type) where
  call : Call κ
  state : σ
  trace : List (Exchange (@Answer _ κ))
  result : Except CasError Reply

/-- The calls are made one after the other. The primary store keeps its state
between them; the cache and the contexts answer anything. -/
inductive Histories (caps : Capabilities) (primary : Primary κ σ) :
    σ → List (Call κ) → List (Entry κ σ) → Prop where
  | nil (s : σ) : Histories caps primary s [] []
  | cons (s s' : σ) (call : Call κ) (calls : List (Call κ)) (trace : List (Exchange Answer))
      (result : Except CasError Reply) (entries : List (Entry κ σ)) :
      Runs (call.run caps) trace result → Follows primary.machine s (seenBy isPrimary trace) s' →
      Histories caps primary s' calls entries →
      Histories caps primary s (call :: calls) (⟨call, s, trace, result⟩ :: entries)

def ReadsVerified (e : Entry κ σ) : Prop :=
  ∀ ctx key data, e.call = .get ctx key → e.result = .ok (.bytes data) →
    ∃ k, key = some k ∧ PayloadHash.sums k data = true

/-- A read succeeds if the primary store has the bytes and the context is not cancelled. -/
def ReadsServed (primary : Primary κ σ) (e : Entry κ σ) : Prop :=
  ∀ ctx key data, e.call = .get ctx (some key) → (primary e.state (.get ctx key)).1 = .ok data →
    PayloadHash.sums key data = true → (∀ err, ⟨.ctxErr ctx, some err⟩ ∉ e.trace) →
    ∃ bytes, e.result = .ok (.bytes bytes)

structure Agree (primary : Primary κ σ) (e e' : Entry κ σ) : Prop where
  call : e.call = e'.call
  state : e.state = e'.state
  result : e.call.isGet = false → e.result = e'.result
  asked : e.call.isGet = false → seenBy isPrimary e.trace = seenBy isPrimary e'.trace
  verified : ReadsVerified e ∧ ReadsVerified e'
  served : ReadsServed primary e ∧ ReadsServed primary e'

variable {caps : Capabilities} {primary : Primary κ σ} {s s' : σ} {call : Call κ}
  {trace : List (Exchange (@Answer _ κ))} {result : Except CasError Reply}

theorem readsVerified_of_runs (h : Runs (call.run caps) trace result) :
    ReadsVerified ⟨call, s, trace, result⟩ := by
  rintro ctx key data rfl hok
  obtain ⟨r, hr, hmap⟩ := runs_map.mp h
  have hr' : r = .ok data := by
    obtain ⟨data', hdata, heq⟩ := Checked.map_eq_ok.mp (hmap.symm.trans hok)
    cases heq
    exact hdata
  subst hr'
  cases key with
  | none => cases (runs_stop.mp hr).2
  | some k =>
    refine ⟨k, rfl, ?_⟩
    rcases get_runs hr with ⟨-, d, hd, hs⟩ | ⟨-, err, -, herr⟩ | ⟨answer, -, hanswer⟩
    · cases hd
      exact hs
    · cases herr
    · exact (verifyBody_eq_ok.mp hanswer.symm).2

theorem readsServed_of_runs (h : Runs (call.run caps) trace result)
    (hf : Follows primary.machine s (seenBy isPrimary trace) s') :
    ReadsServed primary ⟨call, s, trace, result⟩ := by
  rintro ctx key data rfl hp hs hctx
  obtain ⟨r, hr, rfl⟩ := runs_map.mp h
  rcases get_runs hr with ⟨-, d, rfl, -⟩ | ⟨-, err, hmem, -⟩ | ⟨answer, htrace, rfl⟩
  · exact ⟨d, rfl⟩
  · exact absurd hmem (hctx err)
  · have hanswer : answer = .ok data := by
      rw [htrace] at hf
      exact hf.1.trans hp
    refine ⟨data, ?_⟩
    show (verifyBody key answer).map Reply.bytes = _
    rw [verifyBody_eq_ok.mpr ⟨hanswer, hs⟩]
    rfl

theorem get_keeps {ctx : κ} {key : Option Cid}
    (hreads : ∀ s ctx key, (primary s (.get ctx key)).2 = s)
    (h : Runs ((Call.get ctx key).run caps) trace result)
    (hf : Follows primary.machine s (seenBy isPrimary trace) s') : s' = s := by
  obtain ⟨r, hr, -⟩ := runs_map.mp h
  cases key with
  | none =>
    obtain ⟨rfl, -⟩ := runs_stop.mp hr
    exact hf
  | some key =>
    rcases get_runs hr with ⟨htrace, -⟩ | ⟨htrace, -⟩ | ⟨answer, htrace, -⟩
    · rw [htrace] at hf
      exact hf
    · rw [htrace] at hf
      exact hf
    · rw [htrace] at hf
      exact hf.2.trans (hreads s ctx key)

theorem agree_of_runs (hreads : ∀ s ctx key, (primary s (.get ctx key)).2 = s)
    {trace' : List (Exchange (@Answer _ κ))}
    {result' : Except CasError Reply} {s'' : σ} (h : Runs (call.run caps) trace result)
    (h' : Runs (call.run caps) trace' result')
    (hf : Follows primary.machine s (seenBy isPrimary trace) s')
    (hf' : Follows primary.machine s (seenBy isPrimary trace') s'') :
    Agree primary ⟨call, s, trace, result⟩ ⟨call, s, trace', result'⟩ ∧ s' = s'' := by
  have hsame (hget : call.isGet = false) := (run_hides caps call hget).unique h h' hf hf'
  refine ⟨⟨rfl, rfl, fun hget => (hsame hget).2.1, fun hget => (hsame hget).1,
    ⟨readsVerified_of_runs h, readsVerified_of_runs h'⟩, readsServed_of_runs h hf,
      readsServed_of_runs h' hf'⟩, ?_⟩
  cases hget : call.isGet with
  | false => exact (hsame hget).2.2
  | true =>
    cases call with
    | get ctx key => rw [get_keeps hreads h hf, get_keeps hreads h' hf']
    | _ => cases hget

/-- The cache has no authority: whatever it answers, writes and presence checks
return the same and ask the primary store the same, reads return what the CID
stands for, and a read that the primary store can answer succeeds. -/
theorem cache_has_no_authority (caps : Capabilities) (primary : Primary κ σ)
    (hreads : ∀ s ctx key, (primary s (.get ctx key)).2 = s) (s : σ) (calls : List (Call κ))
    (entries entries' : List (Entry κ σ)) (h : Histories caps primary s calls entries)
    (h' : Histories caps primary s calls entries') :
    List.Forall₂ (Agree primary) entries entries' ∧
      ((∀ key a b, PayloadHash.sums key a = true → PayloadHash.sums key b = true → a = b) →
        List.Forall₂ (fun e e' => ∀ ctx key a b, e.call = .get ctx key → e.result = .ok (.bytes a) →
          e'.result = .ok (.bytes b) → a = b) entries entries') := by
  have hagree : List.Forall₂ (Agree primary) entries entries' := by
    induction h generalizing entries' with
    | nil s =>
      cases h'
      exact .nil
    | cons s s' call calls trace result entries hr hf _ ih =>
      cases h' with
      | cons _ s'' _ _ trace' result' entries' hr' hf' hrest =>
        obtain ⟨hstep, rfl⟩ := agree_of_runs hreads hr hr' hf hf'
        exact .cons hstep (ih entries' hrest)
  refine ⟨hagree, fun hhash => hagree.imp fun e e' hstep => ?_⟩
  intro ctx key a b hcall ha hb
  obtain ⟨k, rfl, hka⟩ := hstep.verified.1 ctx key a hcall ha
  obtain ⟨k', hk, hkb⟩ := hstep.verified.2 ctx (some k) b (hstep.call ▸ hcall) hb
  cases hk
  exact hhash k a b hka hkb

end

section sample

attribute [local instance] CidFormat.verbatim PayloadHash.verbatim CidCodec.raw

@[reducible] def BlockHash.verbatim : BlockHash :=
  { cidV1 := fun _ data => some (rawCid data) }

attribute [local instance] BlockHash.verbatim

def oneBody : Primary Unit Nat :=
  fun s call => match call with
  | .put _ block => (.ok (BlockHash.cidV1 block.codec block.data), s + 1)
  | .putBatch _ _ => (.error .hash, s)
  | .get _ _ => (.ok [7], s)
  | .has _ _ => (.ok true, s)
  | .hasBatch _ _ => (.error .hash, s)

def answering (cached : List UInt8) : Nat → (q : Question Unit) → Answer q :=
  fun _ q => match q with
  | .primary call => (oneBody 0 call).1
  | .cacheGet _ _ => .ok cached
  | .cachePut _ _ => .error .hash
  | .ctxErr _ => none
  | .observeCacheError _ => ()

def sampleEntry (cached : List UInt8) : Nat → Call Unit → Entry Unit Nat :=
  fun s call => ⟨call, s, ((call.run ⟨false, false⟩).exec (answering cached) 0).1,
    ((call.run ⟨false, false⟩).exec (answering cached) 0).2⟩

theorem cache_has_no_authority_forged :
    List.Forall₂ (Agree oneBody)
      [sampleEntry [7] 0 (.put () [7]), sampleEntry [7] 1 (.get () (some (rawCid [7])))]
      [sampleEntry [8] 0 (.put () [7]), sampleEntry [8] 1 (.get () (some (rawCid [7])))] ∧
    (sampleEntry [8] 1 (.get () (some (rawCid [7])))).result = .ok (.bytes [7]) := by
  let calls : List (Call Unit) := [.put () [7], .get () (some (rawCid [7]))]
  have hcached : Histories ⟨false, false⟩ oneBody 0 calls
      [sampleEntry [7] 0 (.put () [7]), sampleEntry [7] 1 (.get () (some (rawCid [7])))] :=
    .cons 0 1 _ _ _ _ _ (runs_exec _ 0) ⟨rfl, rfl⟩ (.cons 1 1 _ _ _ _ _ (runs_exec _ 0)
      rfl (.nil 1))
  -- The second cache is found out, and the primary store is asked.
  have hforged : Histories ⟨false, false⟩ oneBody 0 calls
      [sampleEntry [8] 0 (.put () [7]), sampleEntry [8] 1 (.get () (some (rawCid [7])))] :=
    .cons 0 1 _ _ _ _ _ (runs_exec _ 0) ⟨rfl, rfl⟩ (.cons 1 1 _ _ _ _ _ (runs_exec _ 0) ⟨rfl,
      rfl⟩ (.nil 1))
  exact ⟨(cache_has_no_authority ⟨false, false⟩ oneBody (fun _ _ _ => rfl) 0 calls _ _ hcached
    hforged).1, rfl⟩

end sample

end MaltClient.HybridCas
