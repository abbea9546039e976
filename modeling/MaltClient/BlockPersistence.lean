import MaltClient.Cid
import MaltClient.Dialogue

/-! How a write plan sends its blocks. Every local body is checked before the
first remote call; then the bodies are read again and sent in order, in batches
where the writer takes them, and each acknowledgement is checked. -/

namespace MaltClient.BlockPersistence

open Dialogue GoText

/-- `Prefix().Codec` -/
class CidCodec [CidFormat] where
  codec : Cid → Nat

inductive PutStatus where
  | stored
  | alreadyPresent
  | duplicate
  | newlyPersisted
  | duplicateInRequest
  | other (text : String)
  deriving DecidableEq, Repr

def PutStatus.supported : PutStatus → Bool
  | .other _ => false
  | _ => true

section

variable [CidFormat]

/-- `cas.Block` -/
structure CasBlock where
  data : List UInt8
  codec : Nat
  deriving DecidableEq

structure PutResult where
  cid : Option Cid
  status : PutStatus
  deriving DecidableEq

inductive PersistError where
  | requiresWriter
  | differs (planned : Cid)
  | resultCount (results planned : Nat)
  | substituted (planned : Cid) (got : Option Cid)
  | unsupportedStatus (status : PutStatus)
  /-- An error of the context, of a reader or of the writer. -/
  | external (text : String)
  deriving DecidableEq

inductive Question where
  | read (block : Cid)
  | put (block : CasBlock)
  | putBatch (blocks : List CasBlock)

abbrev Answer : Question → Type
  | .read _ => Except PersistError (List UInt8)
  | .put _ => Except PersistError (Option Cid)
  | .putBatch _ => Except PersistError (List PutResult)

abbrev Persist := Prog Answer PersistError

def maxBatchBlocks : Nat := 4096

def maxBatchBytes : Nat := 8 <<< 20

/-- What `readBlock` makes of the answer of `block.Read`. -/
def checkBody [PayloadHash] (block : Cid) (answer : Except PersistError (List UInt8)) :
    Except PersistError (List UInt8) := do
  let body ← answer
  Checked.reject (PayloadHash.sums block body = false) (.differs block)
  return body

def readBlock [PayloadHash] (block : Cid) : Persist (List UInt8) :=
  .attempt (.read block) (checkBody block)

def checkBlocks [PayloadHash] : List Cid → Persist Unit
  | [] => return ()
  | block :: rest => do
    let _ ← readBlock block
    checkBlocks rest

structure Pending where
  pending : List CasBlock
  expected : List Cid
  bytes : Nat

def Pending.empty : Pending := ⟨[], [], 0⟩

def Pending.add [CidCodec] (s : Pending) (block : Cid) (body : List UInt8) : Pending where
  pending := s.pending ++ [⟨body, CidCodec.codec block⟩]
  expected := s.expected ++ [block]
  bytes := s.bytes + body.length

def checkResults : List Cid → List PutResult → Except PersistError Unit
  | planned :: expected, result :: results => do
    Checked.reject (result.cid ≠ some planned) (.substituted planned result.cid)
    Checked.reject (result.status.supported = false) (.unsupportedStatus result.status)
    checkResults expected results
  | _, _ => return ()

def checkBatch (expected : List Cid) (answer : Except PersistError (List PutResult)) :
    Except PersistError Unit := do
  let results ← answer
  Checked.reject (results.length ≠ expected.length) (.resultCount results.length expected.length)
  checkResults expected results

def flush (s : Pending) : Persist Unit :=
  if s.pending = [] then return ()
  else .attempt (.putBatch s.pending) (checkBatch s.expected)

def checkPut (block : Cid) (answer : Except PersistError (Option Cid)) :
    Except PersistError Unit := do
  let got ← answer
  Checked.reject (got ≠ some block) (.substituted block got)

def putSingle [CidCodec] (block : Cid) (body : List UInt8) : Persist Unit :=
  .attempt (.put ⟨body, CidCodec.codec block⟩) (checkPut block)

/-- The second loop of `persistBlocks`, with the final flush. -/
def sendBlocks [PayloadHash] [CidCodec] (batching : Bool) : List Cid → Pending → Persist Unit
  | [], s => flush s
  | block :: rest, s => do
    let body ← readBlock block
    if batching = false ∨ maxBatchBytes < body.length then
      flush s
      putSingle block body
      sendBlocks batching rest .empty
    else if s.pending.length = maxBatchBlocks ∨ maxBatchBytes - s.bytes < body.length then
      flush s
      sendBlocks batching rest (Pending.empty.add block body)
    else
      sendBlocks batching rest (s.add block body)

/-- `persistBlocks`. A writer may be missing; `batching` says whether it is also
a batch writer. -/
def persistBlocks [PayloadHash] [CidCodec] (writer : Option Bool) (blocks : List Cid) :
    Persist Unit :=
  if blocks ≠ [] ∧ writer = none then .stop (.error .requiresWriter)
  else do
    checkBlocks blocks
    sendBlocks (writer.getD false) blocks .empty

/-! ### Reads and acknowledgements -/

def isRemote : Question → Bool
  | .read _ => false
  | _ => true

def Acknowledges (blocks : List Cid) : (q : Question) → Answer q → Prop
  | .read _, _ => False
  | .put _, answer => ∃ got, answer = .ok got ∧ blocks.map some = [got]
  | .putBatch _, answer =>
    ∃ results, answer = .ok results ∧ results.map PutResult.cid = blocks.map some ∧
      ∀ result ∈ results, result.status.supported = true

variable {batching : Bool} {blocks more : List Cid} {trace rest : List (Exchange Answer)}
  {complete : Bool}

variable {expected : List Cid}

theorem checkResults_eq_ok {results : List PutResult} (hl : results.length = expected.length)
    (h : checkResults expected results = .ok ()) :
    results.map PutResult.cid = expected.map some ∧ ∀ result ∈ results, result.status.supported =
      true := by
  induction expected generalizing results with
  | nil => simp [List.length_eq_zero_iff.mp hl]
  | cons planned expected ih =>
    cases results with
    | nil => simp at hl
    | cons result results =>
      simp only [checkResults, Checked.ok_iff] at h
      obtain ⟨-, hcid, -, hstatus, h⟩ := h
      obtain ⟨hm, hs⟩ := ih (by simpa using hl) h
      refine ⟨by simp [hm, not_not.mp hcid], ?_⟩
      intro r hr
      rcases List.mem_cons.mp hr with rfl | hr
      · simpa using hstatus
      · exact hs r hr

theorem checkBatch_acknowledges {sent : List CasBlock} {answer : Answer (.putBatch sent)}
    (h : checkBatch expected answer = .ok ()) : Acknowledges expected (.putBatch sent) answer := by
  simp only [checkBatch, Checked.ok_iff] at h
  obtain ⟨results, ha, -, hl, hr⟩ := h
  exact ⟨results, ha, checkResults_eq_ok (not_not.mp hl) hr⟩

variable [PayloadHash]

variable {body : List UInt8} {block : Cid} {result : Except PersistError Unit}

theorem checkBody_eq_ok {answer : Except PersistError (List UInt8)} :
    checkBody block answer = .ok body ↔ answer = .ok body ∧ PayloadHash.sums block body = true := by
  simp only [checkBody, Checked.ok_iff]
  constructor
  · rintro ⟨_, rfl, -, hs, rfl⟩
    exact ⟨rfl, by simpa using hs⟩
  · rintro ⟨rfl, hs⟩
    exact ⟨body, rfl, (), by simp [hs], rfl⟩

theorem readBlock_runs {result : Except PersistError (List UInt8)}
    (h : Runs (readBlock block) trace result) : (∀ e ∈ trace, isRemote e.question = false) ∧
      ∀ body, result = .ok body → ⟨.read block, .ok body⟩ ∈ trace ∧
        PayloadHash.sums block body = true := by
  obtain ⟨answer, rfl, rfl⟩ := runs_attempt.mp h
  refine ⟨by simp [isRemote], fun body hb => ?_⟩
  obtain ⟨rfl, hs⟩ := checkBody_eq_ok.mp hb
  exact ⟨by simp, hs⟩

theorem checkBlocks_runs (h : Runs (checkBlocks blocks) trace result) :
    (∀ e ∈ trace, isRemote e.question = false) ∧
      (result = .ok () → ∀ block ∈ blocks, ∃ body, ⟨.read block, .ok body⟩ ∈ trace ∧
        PayloadHash.sums block body = true) := by
  induction blocks generalizing trace with
  | nil =>
    obtain ⟨rfl, -⟩ := runs_pure.mp h
    simp
  | cons block rest ih =>
    rcases runs_bind.mp h with ⟨e, he, rfl⟩ | ⟨body, first, after, rfl, ha, hr⟩
    · exact ⟨(readBlock_runs he).1, by simp⟩
    · obtain ⟨hlocal, hread⟩ := readBlock_runs ha
      obtain ⟨hlocal', hrest⟩ := ih hr
      refine ⟨fun e he => (List.mem_append.mp he).elim (hlocal e) (hlocal' e), fun hok => ?_⟩
      intro b hb
      rcases List.mem_cons.mp hb with rfl | hb
      · obtain ⟨hmem, hs⟩ := hread body rfl
        exact ⟨body, List.mem_append_left _ hmem, hs⟩
      · obtain ⟨other, hmem, hs⟩ := hrest hok b hb
        exact ⟨other, List.mem_append_right _ hmem, hs⟩

def ReadsFirst (blocks : List Cid) (trace : List (Exchange Answer)) : Prop :=
  ∀ before e after, trace = before ++ e :: after → isRemote e.question = true →
    ∀ block ∈ blocks, ∃ body, ⟨.read block, .ok body⟩ ∈ before ∧ PayloadHash.sums block body = true

theorem readsFirst_of_reads (h : ∀ e ∈ trace, isRemote e.question = false) :
    ReadsFirst blocks trace := by
  rintro before e after rfl hr
  rw [h e (by simp)] at hr
  cases hr

theorem readsFirst_append (h : ∀ e ∈ trace, isRemote e.question = false)
    (hread : ∀ block ∈ blocks, ∃ body, ⟨.read block, .ok body⟩ ∈ trace ∧
      PayloadHash.sums block body = true) :
    ReadsFirst blocks (trace ++ rest) := by
  intro before e after heq hr block hb
  obtain ⟨body, hmem, hs⟩ := hread block hb
  refine ⟨body, ?_, hs⟩
  rcases List.append_eq_append_iff.mp heq with ⟨tail, rfl, -⟩ | ⟨tail, rfl, htail⟩
  · exact List.mem_append_left _ hmem
  · cases tail with
    | nil => simpa using hmem
    | cons first tail =>
      obtain ⟨rfl, -⟩ := List.cons_eq_cons.mp htail
      rw [h e (by simp)] at hr
      cases hr

variable [CidCodec]

variable {held : List Cid} {s : Pending}

/-! ### What is sent -/

def Matches (block : Cid) (sent : CasBlock) : Prop :=
  PayloadHash.sums block sent.data = true ∧ sent.codec = CidCodec.codec block

def Carries (blocks : List Cid) : Question → Prop
  | .read _ => False
  | .put sent => List.Forall₂ Matches blocks [sent]
  | .putBatch sent => List.Forall₂ Matches blocks sent

/-- What the executor holds in memory for one call. A batch writer gets single
blocks only when they do not fit into a batch. -/
def Bounded (batching : Bool) : Question → Prop
  | .read _ => True
  | .put sent => batching = true → maxBatchBytes < sent.data.length
  | .putBatch sent => batching = true ∧ sent ≠ [] ∧ sent.length ≤ maxBatchBlocks ∧
      (sent.map fun block => block.data.length).sum ≤ maxBatchBytes

/-- The remote calls of a trace send the blocks in order, each once, from the
first one on. Every call but the last is acknowledged. If `complete` then all the
blocks are sent and acknowledged. -/
def Delivers (batching : Bool) (blocks : List Cid) (trace : List (Exchange Answer))
    (complete : Bool) : Prop :=
  (∀ e ∈ trace, Bounded batching e.question) ∧
  ∃ sent : List (List Cid × Exchange Answer),
    sent.map Prod.snd = seenBy isRemote trace ∧
    (∀ s ∈ sent, Carries s.1 s.2.question) ∧
    sent.flatMap Prod.fst <+: blocks ∧
    (∀ s ∈ sent.dropLast, Acknowledges s.1 s.2.question s.2.answer) ∧
    (complete = true → sent.flatMap Prod.fst = blocks ∧
      ∀ s ∈ sent, Acknowledges s.1 s.2.question s.2.answer)

theorem Delivers.cut (h : Delivers batching blocks trace false) :
    Delivers batching (blocks ++ more) trace false := by
  obtain ⟨hb, sent, hs, hc, hp, ha, -⟩ := h
  exact ⟨hb, sent, hs, hc, hp.trans (List.prefix_append _ _), ha, by simp⟩

theorem Delivers.append (h : Delivers batching blocks trace true)
    (h' : Delivers batching more rest complete) :
    Delivers batching (blocks ++ more) (trace ++ rest) complete := by
  obtain ⟨hb, sent, hs, hc, -, -, hd⟩ := h
  obtain ⟨hb', sent', hs', hc', hp', ha', hd'⟩ := h'
  obtain ⟨hall, hack⟩ := hd rfl
  refine ⟨?_, sent ++ sent', by simp [hs, hs'], ?_, ?_, ?_, ?_⟩
  · intro e he
    exact (List.mem_append.mp he).elim (hb e) (hb' e)
  · intro s hs
    exact (List.mem_append.mp hs).elim (hc s) (hc' s)
  · rw [List.flatMap_append, hall]
    exact (List.prefix_append_right_inj blocks).mpr hp'
  · intro s hs
    by_cases hn : sent' = []
    · rw [hn, List.append_nil] at hs
      exact hack s (List.dropLast_subset _ hs)
    · rw [List.dropLast_append_of_ne_nil hn] at hs
      exact (List.mem_append.mp hs).elim (hack s) (ha' s)
  · intro hok
    obtain ⟨hall', hack'⟩ := hd' hok
    refine ⟨by rw [List.flatMap_append, hall, hall'], fun s hs => ?_⟩
    exact (List.mem_append.mp hs).elim (hack s) (hack' s)

theorem Delivers.reads (h : ∀ e ∈ trace, isRemote e.question = false) :
    Delivers batching [] trace complete := by
  refine ⟨fun e he => ?_, [], ?_, by simp, by simp, by simp, by simp⟩
  · obtain ⟨q, answer⟩ := e
    cases q with
    | read block => trivial
    | put sent => exact absurd (h _ he) (by simp [isRemote])
    | putBatch sent => exact absurd (h _ he) (by simp [isRemote])
  · symm
    simpa [seenBy, List.filter_eq_nil_iff] using h

theorem Delivers.single {q : Question} {answer : Answer q} (hr : isRemote q = true)
    (hb : Bounded batching q)
    (hc : Carries blocks q) (ha : complete = true → Acknowledges blocks q answer) :
    Delivers batching blocks [⟨q, answer⟩] complete := by
  refine ⟨by simpa using hb, [(blocks, ⟨q, answer⟩)], by simp [seenBy, hr], by simpa using hc,
    by simp, by simp, fun h => ?_⟩
  simpa using ha h

structure Holds (batching : Bool) (s : Pending) (held : List Cid) : Prop where
  matched : List.Forall₂ Matches held s.pending
  expected : s.expected = held
  bytes : s.bytes = (s.pending.map fun block => block.data.length).sum
  batch : s.pending ≠ [] → batching = true
  count : s.pending.length ≤ maxBatchBlocks
  size : s.bytes ≤ maxBatchBytes

theorem holds_empty : Holds batching .empty [] := by
  refine ⟨.nil, rfl, rfl, fun h => absurd rfl h, Nat.zero_le _, Nat.zero_le _⟩

theorem Holds.add (h : Holds batching s held)
    (hbatch : batching = true) (hs : PayloadHash.sums block body = true)
    (hc : s.pending.length < maxBatchBlocks) (hn : s.bytes + body.length ≤ maxBatchBytes) :
    Holds batching (s.add block body) (held ++ [block]) where
  matched := List.rel_append h.matched (.cons ⟨hs, rfl⟩ .nil)
  expected := by simp [Pending.add, h.expected]
  bytes := by simp [Pending.add, h.bytes]
  batch _ := hbatch
  count := by simpa [Pending.add] using hc
  size := hn

theorem flush_runs (h : Holds batching s held)
    (hr : Runs (flush s) trace result) : Delivers batching held trace result.isOk := by
  unfold flush at hr
  split_ifs at hr with hn
  · obtain ⟨rfl, rfl⟩ := runs_pure.mp hr
    have hh : held = [] := by
      have hm := h.matched
      rw [hn] at hm
      exact List.forall₂_nil_right_iff.mp hm
    rw [hh]
    exact Delivers.reads (by simp)
  · obtain ⟨answer, rfl, rfl⟩ := runs_attempt.mp hr
    have hsize : (s.pending.map fun block => block.data.length).sum ≤ maxBatchBytes :=
      h.bytes ▸ h.size
    refine Delivers.single rfl ⟨h.batch hn, hn, h.count, hsize⟩ h.matched fun hok => ?_
    obtain ⟨u, hu⟩ := Checked.exists_of_isOk hok
    rw [h.expected] at hu
    exact checkBatch_acknowledges hu

theorem putSingle_runs (hs : PayloadHash.sums block body = true)
    (hb : batching = false ∨ maxBatchBytes < body.length)
    (hr : Runs (putSingle block body) trace result) :
    Delivers batching [block] trace result.isOk := by
  obtain ⟨answer, rfl, rfl⟩ := runs_attempt.mp hr
  refine Delivers.single rfl ?_ (.cons ⟨hs, rfl⟩ .nil) fun hok => ?_
  · intro hbatch
    rcases hb with hb | hb
    · rw [hb] at hbatch
      cases hbatch
    · exact hb
  · obtain ⟨u, hu⟩ := Checked.exists_of_isOk hok
    simp only [checkPut, Checked.ok_iff] at hu
    obtain ⟨got, rfl, hg⟩ := hu
    exact ⟨got, rfl, by simp [not_not.mp hg]⟩

theorem Delivers.bind {α : Type} {first : Persist α} {next : α → Persist Unit}
    (hfirst : ∀ trace r, Runs first trace r → Delivers batching blocks trace r.isOk)
    (hnext : ∀ a trace, (∃ before, Runs first before (.ok a)) → Runs (next a) trace result →
      Delivers batching more trace result.isOk)
    (h : Runs (first >>= next) trace result) :
    Delivers batching (blocks ++ more) trace result.isOk := by
  rcases runs_bind.mp h with ⟨e, he, rfl⟩ | ⟨a, before, after, rfl, ha, hr⟩
  · exact (hfirst _ _ he).cut
  · exact (hfirst _ _ ha).append (hnext a after ⟨before, ha⟩ hr)

theorem sendBlocks_runs (h : Holds batching s held)
    (hr : Runs (sendBlocks batching blocks s) trace result) :
    Delivers batching (held ++ blocks) trace result.isOk := by
  induction blocks generalizing s held trace with
  | nil =>
    rw [List.append_nil]
    exact flush_runs h hr
  | cons block rest ih =>
    rw [← List.nil_append (held ++ block :: rest)]
    refine Delivers.bind (fun _ _ h => Delivers.reads (readBlock_runs h).1)
      (fun body trace hbody hr => ?_) hr
    obtain ⟨before, hbefore⟩ := hbody
    have hs := ((readBlock_runs hbefore).2 body rfl).2
    split_ifs at hr with hsingle hfull
    · refine Delivers.bind (fun _ _ => flush_runs h) (fun _ trace _ hr => ?_) hr
      exact Delivers.bind (fun _ _ => putSingle_runs hs hsingle)
        (fun _ trace _ => ih holds_empty) hr
    · have hfits : Holds batching (Pending.empty.add block body) ([] ++ [block]) := by
        push Not at hsingle
        have hempty : Pending.empty.pending.length < maxBatchBlocks := by
          show 0 < 4096
          omega
        exact holds_empty.add (by simpa using hsingle.1) hs hempty (by simpa [Pending.empty]
          using hsingle.2)
      exact Delivers.bind (fun _ _ => flush_runs h) (fun _ trace _ => ih hfits) hr
    · have hadd : Holds batching (s.add block body) (held ++ [block]) := by
        push Not at hsingle hfull
        have hlt := lt_of_le_of_ne h.count hfull.1
        have hle := h.size
        exact h.add (by simpa using hsingle.1) hs hlt (by omega)
      have hrest := ih hadd hr
      rwa [List.append_assoc] at hrest

/-- Whatever the readers and the writer answer: the blocks are sent in order, each
once, under their own codec; no call is larger than a batch may be, unless it is
for a single block; after an answer that does not acknowledge its blocks nothing
is sent; a successful run has sent all blocks, and each call has been
acknowledged for its own CIDs. -/
theorem persistBlocks_delivers {writer : Option Bool} {result : Except PersistError Unit}
    (h : Runs (persistBlocks writer blocks) trace result) :
    Delivers (writer.getD false) blocks trace result.isOk ∧ ReadsFirst blocks trace := by
  unfold persistBlocks at h
  split_ifs at h with hw
  · obtain ⟨rfl, rfl⟩ := runs_stop.mp h
    exact ⟨(Delivers.reads (by simp)).cut, readsFirst_of_reads (by simp)⟩
  · refine ⟨?_, ?_⟩
    · exact Delivers.bind (fun _ _ h => Delivers.reads (checkBlocks_runs h).1)
        (fun _ trace _ hr => sendBlocks_runs holds_empty hr) h
    · rcases runs_bind.mp h with ⟨e, he, rfl⟩ | ⟨_, first, after, rfl, ha, hr⟩
      · exact readsFirst_of_reads (checkBlocks_runs he).1
      · obtain ⟨hlocal, hread⟩ := checkBlocks_runs ha
        exact readsFirst_append hlocal (hread rfl)

end

section

attribute [local instance] CidFormat.verbatim PayloadHash.verbatim

@[reducible] def CidCodec.raw : CidCodec := ⟨fun _ => 0x55⟩

attribute [local instance] CidCodec.raw

def storing : Nat → (q : Question) → Answer q :=
  fun _ q => match q with
  | .read _ => .ok [7]
  | .put sent => .ok (some (rawCid sent.data))
  | .putBatch sent => .ok (sent.map fun block => ⟨some (rawCid block.data), .stored⟩)

theorem persistBlocks_delivers_pair :
    ((persistBlocks (some true) [rawCid [7], rawCid [7]]).exec storing 0).2 = .ok () ∧
      Delivers true [rawCid [7], rawCid [7]]
        ((persistBlocks (some true) [rawCid [7], rawCid [7]]).exec storing 0).1 true := by
  let blocks : List Cid := [rawCid [7], rawCid [7]]
  have hok : ((persistBlocks (some true) blocks).exec storing 0).2 = .ok () := rfl
  obtain ⟨hdelivers, -⟩ := persistBlocks_delivers
    (runs_exec (m := persistBlocks (some true) blocks) storing 0)
  rw [hok] at hdelivers
  exact ⟨hok, hdelivers⟩

end

end MaltClient.BlockPersistence
