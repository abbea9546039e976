import MaltClient.PlannerPrepare

/-! The planner's writer cache as it is kept in memory: a map to the elements of
a recency list, and a running total of their sizes. -/

namespace MaltClient.Planner.Writers

open GoText Checked AssocMap

variable [CidFormat] {W : Type}

/-- What the cache reads of a candidate. Strings are given by their bytes. -/
structure Candidate where
  root : GoString
  payloadCID : List UInt8
  entries : List (List UInt8 × List UInt8)
  nodes : List (List UInt8 × List (List UInt8))

/-- The candidate source and the engine, as one call finds them. -/
structure Source (W : Type) where
  rootBytes : Cid → List UInt8
  authenticationCandidate : Cid → Except PlanError (Option Candidate)
  newWriter : Candidate → Except PlanError W

structure CachedWriter (W : Type) where
  root : Cid
  writer : W
  bytes : UInt64

/-- An element of the recency list, told from others by its address. -/
structure Element (W : Type) where
  address : Nat
  value : CachedWriter W

/-- The list has the most recently used element first. -/
structure Cache (W : Type) where
  roots : AList fun _ : Cid => Element W
  lru : List (Element W)
  bytes : UInt64
  nextAddress : Nat

/-- Vectors and retained bookkeeping, summed up as the code does, modulo 2^64. -/
def charge (root : List UInt8) (candidate : Candidate) : UInt64 :=
  let size := UInt64.ofNat (1024 + root.length + candidate.payloadCID.length)
  let size := candidate.entries.foldl (fun size entry =>
    size + UInt64.ofNat (512 + entry.1.length + entry.2.length)) size
  candidate.nodes.foldl (fun size node =>
    node.2.foldl (fun size cell => size + UInt64.ofNat cell.length)
      (size + UInt64.ofNat (512 + node.1.length + 48 * node.2.length))) size

namespace Cache

def empty : Cache W := { roots := ∅, lru := [], bytes := 0, nextAddress := 0 }

def moveToFront (c : Cache W) (item : Element W) : Cache W :=
  { c with lru := item :: c.lru.eraseP (·.address = item.address) }

def Full (c : Cache W) (size : UInt64) : Prop :=
  UInt64.ofNat writerCacheBytes < c.bytes + size ∨ writerCacheRoots ≤ c.lru.length

instance (c : Cache W) (size : UInt64) : Decidable (c.Full size) :=
  inferInstanceAs (Decidable (_ ∨ _))

def drop (c : Cache W) (item : Element W) : Cache W :=
  { c with roots := c.roots.erase item.value.root, bytes := c.bytes -
    item.value.bytes, lru := c.lru.dropLast }

/-- The eviction loop. There is no result if it inspects an empty list. -/
def evict (size : UInt64) (c : Cache W) : Option (Cache W) :=
  if c.Full size then
    if h : c.lru = [] then none else evict size (c.drop (c.lru.getLast h))
  else some c
termination_by c.lru.length
decreasing_by
  have hpos := List.length_pos_of_ne_nil h
  simp only [drop, List.length_dropLast]
  omega

def pushFront (c : Cache W) (value : CachedWriter W) : Cache W :=
  { roots := c.roots.insert value.root ⟨c.nextAddress, value⟩
    lru := ⟨c.nextAddress, value⟩ :: c.lru
    bytes := c.bytes + value.bytes
    nextAddress := c.nextAddress + 1 }

end Cache

/-- What `loadWriter` imports for a Root that is not resident. -/
def importWriter (p : Source W) (root : Cid) : Except PlanError (CachedWriter W) := do
  let candidate ← p.authenticationCandidate root
  let candidate ← required (.message "directory source substituted selected Root" []) candidate
  reject (candidate.root ≠ root.spelling) (.message "directory source substituted selected Root" [])
  reject (65536 < candidate.entries.length) (.message "directory entry bound exceeded" [])
  let writer ← p.newWriter candidate
  return { root := root, writer := writer, bytes := charge (p.rootBytes root) candidate }

def loadWriter (p : Source W) (root : Cid) (c : Cache W) : Option (Cache W × Except PlanError W) :=
  match c.roots.lookup root with
  | some item => some (c.moveToFront item, .ok item.value.writer)
  | none =>
    match importWriter p root with
    | .error e => some (c, .error e)
    | .ok value =>
      if value.bytes ≤ UInt64.ofNat writerCacheBytes then
        (c.evict value.bytes).map fun c => (c.pushFront value, .ok value.writer)
      else some (c, .ok value.writer)

structure Call (W : Type) where
  source : Source W
  root : Cid

def run (calls : List (Call W)) : Option (Cache W) :=
  calls.foldlM (fun c call => (loadWriter call.source call.root c).map Prod.fst) Cache.empty

/-- One of the calls has imported the writer for the Root. -/
def Imported (calls : List (Call W)) (root : Cid) (writer : W) : Prop :=
  ∃ call ∈ calls, call.root = root ∧ ∃ candidate, call.source.authenticationCandidate root =
    .ok (some candidate) ∧
    candidate.root = root.spelling ∧ call.source.newWriter candidate = .ok writer

/-- The map and the list have the same elements, and the total is theirs. -/
structure Accounted (c : Cache W) : Prop where
  bytes : c.bytes.toNat = (c.lru.map (·.value.bytes.toNat)).sum
  limit : c.bytes.toNat ≤ writerCacheBytes
  count : c.lru.length ≤ writerCacheRoots
  same : ∀ root item, c.roots.lookup root = some item ↔ item ∈ c.lru ∧ item.value.root = root
  nodup : (c.lru.map Element.address).Nodup
  fresh : ∀ item ∈ c.lru, item.address < c.nextAddress

variable {c c' : Cache W} {item : Element W} {size : UInt64} {root : Cid}

theorem Accounted.perm {l : List (Element W)} (h : Accounted c) (hl : l.Perm c.lru) :
    Accounted { c with lru := l } where
  bytes := h.bytes.trans (hl.map _).sum_eq.symm
  limit := h.limit
  count := hl.length_eq ▸ h.count
  same root item := by rw [h.same, hl.mem_iff]
  nodup := (hl.map _).nodup_iff.mpr h.nodup
  fresh item hitem := h.fresh item (hl.subset hitem)

theorem Accounted.split (h : Accounted c) (hitem : item ∈ c.lru) :
    ∃ l₁ l₂, c.lru = l₁ ++ item :: l₂ ∧ c.lru.eraseP (·.address = item.address) = l₁ ++ l₂ := by
  obtain ⟨other, l₁, l₂, -, haddress, hl, herase⟩ :=
    List.exists_of_eraseP hitem (p := (·.address = item.address)) (by simp)
  have hother : other ∈ c.lru := by simp [hl]
  obtain rfl : other = item :=
    List.inj_on_of_nodup_map h.nodup hother hitem (by simpa using haddress)
  exact ⟨l₁, l₂, hl, herase⟩

theorem Accounted.moveToFront (h : Accounted c) (hitem : item ∈ c.lru) :
    Accounted (c.moveToFront item) := by
  obtain ⟨l₁, l₂, hl, herase⟩ := h.split hitem
  refine h.perm ?_
  rw [herase, hl]
  exact List.perm_middle.symm

theorem Accounted.toNat_sub (h : Accounted c) (hitem : item ∈ c.lru) :
    (c.bytes - item.value.bytes).toNat = c.bytes.toNat - item.value.bytes.toNat := by
  refine UInt64.toNat_sub_of_le _ _ (UInt64.le_iff_toNat_le.mpr ?_)
  rw [h.bytes]
  exact List.single_le_sum (fun _ _ => Nat.zero_le _) _ (List.mem_map_of_mem hitem)

theorem Accounted.drop (h : Accounted c) {l : List (Element W)} (hl : c.lru = l ++ [item]) :
    Accounted (c.drop item) := by
  have hsub := h.toNat_sub (by rw [hl]; exact List.mem_concat_self : item ∈ c.lru)
  obtain ⟨hbytes, hlimit, hcount, hsame, hnodup, hfresh⟩ := h
  rw [hl] at hbytes hcount hnodup hfresh
  simp only [hl] at hsame
  rw [List.map_append, List.sum_append, List.map_singleton, List.sum_singleton] at hbytes
  have hlru : (c.drop item).lru = l := by rw [Cache.drop, hl, List.dropLast_concat]
  rw [List.length_append] at hcount
  rw [List.map_append, List.nodup_append] at hnodup
  refine ⟨?_, ?_, by rw [hlru]; omega, fun root other => ?_, by rw [hlru]; exact hnodup.1, ?_⟩
  · rw [hlru]
    exact hsub.trans (by omega)
  · exact hsub.trans_le (by omega)
  · rw [hlru, Cache.drop, lookup_erase_eq]
    have hlast : ∀ x ∈ l, x ≠ item := fun x hx he =>
      hnodup.2.2 item.address (List.mem_map.mpr ⟨x, hx, by rw [he]⟩) item.address (by simp) rfl
    split_ifs with hroot
    · simp only [false_iff, not_and]
      intro hmem hroot'
      have hother := (hsame root other).mpr ⟨List.mem_append_left _ hmem, hroot'⟩
      have hself := (hsame root item).mpr ⟨by simp, hroot.symm⟩
      exact hlast other hmem (Option.some.inj (hother.symm.trans hself))
    · rw [hsame, List.mem_append, List.mem_singleton]
      constructor
      · rintro ⟨hmem | rfl, hroot'⟩
        · exact ⟨hmem, hroot'⟩
        · exact absurd hroot'.symm hroot
      · exact fun hmem => ⟨.inl hmem.1, hmem.2⟩
  · rw [hlru]
    exact fun other hother => hfresh other (List.mem_append_left _ hother)

omit [CidFormat] in
theorem toNat_add {a b : UInt64} (h : a.toNat + b.toNat ≤ 2 * writerCacheBytes) :
    (a + b).toNat = a.toNat + b.toNat := by
  rw [writerCacheBytes] at h
  rw [UInt64.toNat_add, Nat.mod_eq_of_lt (by omega)]

theorem Accounted.full_iff (h : Accounted c) (hsize : size.toNat ≤ writerCacheBytes) :
    c.Full size ↔ writerCacheBytes < c.bytes.toNat + size.toNat ∨ writerCacheRoots ≤
      c.lru.length := by
  have hlimit := h.limit
  have hadd := toNat_add (show c.bytes.toNat + size.toNat ≤ 2 * writerCacheBytes by omega)
  rw [Cache.Full, UInt64.lt_iff_toNat_lt, hadd]
  rfl

/-- With an empty list the total is zero, so that the size test made before the
loop ends it. -/
theorem Accounted.evict (h : Accounted c) (hsize : size.toNat ≤ writerCacheBytes) :
    ∃ c', c.evict size = some c' ∧ Accounted c' ∧ c'.bytes.toNat + size.toNat ≤ writerCacheBytes ∧
      c'.lru.length < writerCacheRoots ∧ c'.lru ⊆ c.lru := by
  induction hn : c.lru.length generalizing c with
  | zero =>
    have hnil : c.lru = [] := List.length_eq_zero_iff.mp hn
    have hzero := h.bytes
    rw [hnil, List.map_nil, List.sum_nil] at hzero
    have hroom : ¬ c.Full size := by
      rw [h.full_iff hsize, hn, hzero, writerCacheRoots]
      omega
    exact ⟨c, by rw [Cache.evict, if_neg hroom], h, by omega, by rw [hn]; decide,
      List.Subset.refl _⟩
  | succ n ih =>
    rw [Cache.evict]
    by_cases hcond : c.Full size
    · have hne : c.lru ≠ [] := List.ne_nil_of_length_pos (by omega)
      have hlru := (List.dropLast_append_getLast hne).symm
      obtain ⟨c', hc', hinv, hbytes, hcount, hsub⟩ :=
        ih (h.drop hlru) (by rw [Cache.drop, List.length_dropLast, hn, Nat.add_sub_cancel])
      rw [if_pos hcond, dif_neg hne]
      exact ⟨c', hc', hinv, hbytes, hcount, List.Subset.trans hsub (List.dropLast_subset _)⟩
    · rw [if_neg hcond]
      rw [h.full_iff hsize] at hcond
      exact ⟨c, rfl, h, by omega, by omega, List.Subset.refl _⟩

theorem Accounted.pushFront {value : CachedWriter W} (h : Accounted c)
    (habsent : c.roots.lookup value.root = none)
    (hsize : c.bytes.toNat + value.bytes.toNat ≤ writerCacheBytes)
    (hcount : c.lru.length < writerCacheRoots) : Accounted (c.pushFront value) := by
  have hadd := toNat_add (hsize.trans (Nat.le_mul_of_pos_left _ Nat.two_pos))
  refine ⟨?_, hadd.trans_le hsize, hcount, fun root item => ?_, ?_, ?_⟩
  · rw [Cache.pushFront, List.map_cons, List.sum_cons, hadd, h.bytes, Nat.add_comm]
  · rw [Cache.pushFront, lookup_insert_eq, List.mem_cons]
    split_ifs with hroot
    · subst hroot
      have hold : ¬ (item ∈ c.lru ∧ item.value.root = value.root) := fun hmem => by
        rw [← h.same, habsent] at hmem
        cases hmem
      constructor
      · intro he
        obtain rfl := Option.some.inj he
        exact ⟨.inl rfl, rfl⟩
      · rintro ⟨rfl | hmem, hroot⟩
        · rfl
        · exact absurd ⟨hmem, hroot⟩ hold
    · rw [h.same]
      constructor
      · exact fun hmem => ⟨.inr hmem.1, hmem.2⟩
      · rintro ⟨rfl | hmem, hroot'⟩
        · exact absurd hroot'.symm hroot
        · exact ⟨hmem, hroot'⟩
  · refine List.nodup_cons.mpr ⟨fun hmem => ?_, h.nodup⟩
    obtain ⟨item, hitem, haddress⟩ := List.mem_map.mp hmem
    exact absurd haddress (h.fresh item hitem).ne
  · refine List.forall_mem_cons.mpr ⟨Nat.lt_succ_self _, fun item hitem => ?_⟩
    exact (h.fresh item hitem).trans (Nat.lt_succ_self _)

theorem importWriter_eq_ok {p : Source W} {value : CachedWriter W}
    (h : importWriter p root = .ok value) :
    value.root = root ∧ ∃ candidate, p.authenticationCandidate root = .ok (some candidate) ∧
      candidate.root = root.spelling ∧ p.newWriter candidate = .ok value.writer := by
  simp only [importWriter, bind_eq_ok, required_eq_ok, reject_eq_ok, not_not, pure_eq_ok] at h
  obtain ⟨_, hanswer, candidate, rfl, -, hroot, -, -, writer, hwriter, rfl⟩ := h
  exact ⟨rfl, candidate, hanswer, hroot, hwriter⟩

theorem Imported.mono {calls calls' : List (Call W)} {writer : W} (h : Imported calls root writer)
    (hsub : calls ⊆ calls') : Imported calls' root writer := by
  obtain ⟨call, hcall, h⟩ := h
  exact ⟨call, hsub hcall, h⟩

theorem loadWriter_accounted {calls : List (Call W)} (call : Call W) (h : Accounted c)
    (himported : ∀ item ∈ c.lru, Imported calls item.value.root item.value.writer) :
    ∃ c' result, loadWriter call.source call.root c = some (c', result) ∧ Accounted c' ∧
      (∀ item ∈ c'.lru, Imported (calls ++ [call]) item.value.root item.value.writer) ∧
      ∀ writer, result = .ok writer → Imported (calls ++ [call]) call.root writer := by
  have hold : ∀ item ∈ c.lru, Imported (calls ++ [call]) item.value.root item.value.writer :=
    fun item hitem =>
    (himported item hitem).mono (List.subset_append_left _ _)
  unfold loadWriter
  cases hlookup : c.roots.lookup call.root with
  | some item =>
    obtain ⟨hitem, hroot⟩ := (h.same call.root item).mp hlookup
    refine ⟨_, _, rfl, h.moveToFront hitem, fun other hother => hold other ?_, fun writer hw => ?_⟩
    · rcases List.mem_cons.mp hother with rfl | hother
      · exact hitem
      · exact List.mem_of_mem_eraseP hother
    · obtain rfl := Except.ok.inj hw
      exact hroot ▸ hold item hitem
  | none =>
    cases himport : importWriter call.source call.root with
    | error e => exact ⟨c, _, rfl, h, hold, fun writer hw => by cases hw⟩
    | ok value =>
      obtain ⟨hroot, hcandidate⟩ := importWriter_eq_ok himport
      have hnew : Imported (calls ++ [call]) call.root value.writer :=
        ⟨call, by simp, rfl, hcandidate⟩
      by_cases hsize : value.bytes ≤ UInt64.ofNat writerCacheBytes
      · obtain ⟨c', hc', hinv, hbytes, hcount, hsub⟩ := h.evict (UInt64.le_iff_toNat_le.mp hsize)
        have habsent : c'.roots.lookup value.root = none := by
          rw [Option.eq_none_iff_forall_ne_some]
          intro item hitem
          obtain ⟨hmem, hitem⟩ := (hinv.same _ _).mp hitem
          have hin := (h.same call.root item).mpr ⟨hsub hmem, hitem.trans hroot⟩
          rw [hlookup] at hin
          cases hin
        simp only [if_pos hsize, hc', Option.map_some]
        refine ⟨_, _, rfl, hinv.pushFront habsent hbytes hcount, ?_, fun writer hw => ?_⟩
        · exact List.forall_mem_cons.mpr ⟨hroot ▸ hnew, fun item hitem => hold item (hsub hitem)⟩
        · exact Except.ok.inj hw ▸ hnew
      · simp only [if_neg hsize]
        exact ⟨c, _, rfl, h, hold, fun writer hw => Except.ok.inj hw ▸ hnew⟩

theorem run_accounted (calls : List (Call W)) : ∃ c, run calls = some c ∧ Accounted c ∧
    ∀ item ∈ c.lru, Imported calls item.value.root item.value.writer := by
  induction calls using List.reverseRecOn with
  | nil =>
    refine ⟨Cache.empty, rfl, ⟨rfl, Nat.zero_le _, Nat.zero_le _, ?_, List.nodup_nil, ?_⟩, ?_⟩ <;>
      simp [Cache.empty]
  | append_singleton calls call ih =>
    obtain ⟨c, hrun, h, himported⟩ := ih
    obtain ⟨c', result, hload, h', himported', -⟩ := loadWriter_accounted call h himported
    refine ⟨c', ?_, h', himported'⟩
    rw [run] at hrun
    rw [run, List.foldlM_append, hrun, Option.bind_eq_bind, Option.bind_some,
      List.foldlM_cons, hload]
    rfl

/-- After every sequence of calls the cache accounts for its writers, and the next
call neither inspects an empty list nor returns a writer for another Root. -/
theorem writers_accounted (calls : List (Call W)) (call : Call W) :
    ∃ c c' result, run calls = some c ∧ Accounted c ∧ loadWriter call.source call.root c =
      some (c', result) ∧
      ∀ writer, result = .ok writer → Imported (calls ++ [call]) call.root writer := by
  obtain ⟨c, hrun, h, himported⟩ := run_accounted calls
  obtain ⟨c', result, hload, -, -, hresult⟩ := loadWriter_accounted call h himported
  exact ⟨c, c', result, hrun, h, hload, hresult⟩

section view

variable [ManifestHash] [Engine] {c c' : Cache Writer} {p : Source Writer}
  {q : Capabilities} {root : Cid}

def CachedWriter.view (value : CachedWriter Writer) : Planner.CachedWriter :=
  ⟨value.root, value.writer, value.bytes.toNat⟩

/-- The cache as a plan sees it. -/
def Cache.view (c : Cache Writer) : WriterCache :=
  ⟨(c.lru.map fun item => item.value.view).reverse, c.bytes.toNat⟩

/-- The source and the engine offer for the Root what the capabilities of a
planner do. -/
structure Offers (p : Source Writer) (q : Capabilities) (root : Cid) : Prop where
  absent : q.remote root = none → p.authenticationCandidate root =
    .error (.message "directory source failed" [])
  present : ∀ candidate, q.remote root = some candidate → ∃ raw,
    p.authenticationCandidate root = .ok (some raw) ∧ raw.root = candidate.root ∧
    raw.entries.length = candidate.state.entries.entries.length ∧
    (charge (p.rootBytes root) raw).toNat = candidate.size ∧ p.newWriter raw = newWriter candidate

theorem evict_view (h : Accounted c) {size : UInt64} (hsize : size.toNat ≤ writerCacheBytes)
    (hc : c.evict size = some c') : Planner.evict size.toNat c.view.lru c.view.bytes = c'.view := by
  induction hn : c.lru.length generalizing c with
  | zero =>
    have hnil : c.lru = [] := List.length_eq_zero_iff.mp hn
    have hsame : c = c' := by
      rw [Cache.evict] at hc
      split_ifs at hc with hfull
      exact Option.some.inj hc
    rw [← hsame, Cache.view, hnil]
    rfl
  | succ n ih =>
    have hne : c.lru ≠ [] := List.ne_nil_of_length_pos (by omega)
    have hlru := (List.dropLast_append_getLast hne).symm
    have hview :
      c.view.lru = (c.lru.getLast hne).value.view :: (c.drop (c.lru.getLast hne)).view.lru := by
      simp only [Cache.view, Cache.drop]
      nth_rewrite 1 [hlru]
      rw [List.map_append, List.reverse_append]
      rfl
    have hlength : (c.drop (c.lru.getLast hne)).lru.length = n := by
      rw [Cache.drop, List.length_dropLast, hn, Nat.add_sub_cancel]
    have hfull : c.Full size ↔ c.view.bytes + size.toNat > writerCacheBytes ∨
        (c.drop (c.lru.getLast hne)).view.lru.length + 1 ≥ writerCacheRoots := by
      rw [h.full_iff hsize, hn]
      simp only [Cache.view, List.length_reverse, List.length_map, hlength]
    rw [Cache.evict, dif_neg hne] at hc
    rw [hview, Planner.evict]
    split_ifs at hc with hcond
    · rw [if_pos (hfull.mp hcond), ← ih (h.drop hlru) hc hlength]
      exact congrArg _ (h.toNat_sub (List.getLast_mem hne)).symm
    · obtain rfl := Option.some.inj hc
      rw [if_neg fun he => hcond (hfull.mpr he), ← hview]

theorem importWriter_view (h : Offers p q root) :
    Planner.importWriter q root = (importWriter p root).map CachedWriter.view := by
  unfold Planner.importWriter importWriter
  cases hremote : q.remote root with
  | none =>
    rw [h.absent hremote]
    rfl
  | some candidate =>
    obtain ⟨raw, hraw, hroot, hlength, hsize, hwriter⟩ := h.present candidate hremote
    rw [hraw]
    simp only [required, reject, bind, Except.bind, pure, Except.pure, hroot, hlength, hwriter,
      gt_iff_lt, ← hsize]
    split_ifs
    any_goals rfl
    cases newWriter candidate <;> rfl

theorem Accounted.find?_view (h : Accounted c) :
    c.view.lru.find? (fun item => item.root = root) = (c.roots.lookup root).map fun item =>
      item.value.view := by
  cases hlookup : c.roots.lookup root with
  | none =>
    rw [Option.map_none, List.find?_eq_none]
    intro value hvalue
    obtain ⟨item, hitem, rfl⟩ := List.mem_map.mp (List.mem_reverse.mp hvalue)
    intro hroot
    have hsome := (h.same root item).mpr ⟨hitem, of_decide_eq_true hroot⟩
    rw [hlookup] at hsome
    cases hsome
  | some item =>
    obtain ⟨hitem, hroot⟩ := (h.same root item).mp hlookup
    cases hfind : c.view.lru.find? fun item => item.root = root with
    | none =>
      have hmem : item.value.view ∈ c.view.lru := List.mem_reverse.mpr (List.mem_map_of_mem hitem)
      exact absurd (decide_eq_true hroot) (List.find?_eq_none.mp hfind _ hmem)
    | some value =>
      obtain ⟨other, hother, rfl⟩ := List.mem_map.mp
        (List.mem_reverse.mp (List.mem_of_find?_eq_some hfind))
      have hroot' := List.find?_some hfind
      have hsome := (h.same root other).mpr ⟨hother, of_decide_eq_true hroot'⟩
      rw [hlookup] at hsome
      rw [Option.some.inj hsome]
      rfl

theorem Accounted.filter_view (h : Accounted c) {item : Element Writer} (hitem : item ∈ c.lru) :
    c.view.lru.filter (fun other => other.root ≠ item.value.root) ++ [item.value.view] =
      (c.moveToFront item).view.lru := by
  obtain ⟨l₁, l₂, hl, herase⟩ := h.split hitem
  have hkept : ∀ other ∈ l₁ ++ l₂, other.value.root ≠ item.value.root := by
    intro other hother hroot
    have hmem : other ∈ c.lru := hl ▸ List.perm_middle.mem_iff.mpr (List.mem_cons_of_mem _ hother)
    have hsame := ((h.same _ other).mpr ⟨hmem, hroot⟩).symm.trans ((h.same _ item).mpr ⟨hitem, rfl⟩)
    obtain rfl := Option.some.inj hsame
    have hnodup := h.nodup.of_map
    rw [hl, List.perm_middle.nodup_iff] at hnodup
    exact (List.nodup_cons.mp hnodup).1 hother
  have hfilter : c.lru.filter (fun other => other.value.root ≠ item.value.root) = l₁ ++ l₂ := by
    rw [hl, List.filter_append, List.filter_cons_of_neg (by simp), ← List.filter_append,
      List.filter_eq_self]
    exact fun other hother => decide_eq_true (hkept other hother)
  simp only [Cache.view, Cache.moveToFront, herase, List.filter_reverse, List.filter_map,
    List.map_cons, List.reverse_cons]
  exact congrArg (fun l => (l.map fun item => item.value.view).reverse ++ [item.value.view]) hfilter

/-- The planner's cache is the cache of `writers.go` with its list the other way
round: a call on either gives the same writer, or the same error, and the caches
still agree. -/
theorem loadWriter_view (h : Accounted c) (hoffers : Offers p q root)
    {result : Except PlanError Writer} (hload : loadWriter p root c = some (c', result)) :
    Planner.loadWriter q root c.view = result.map (fun w => (c'.view, w)) ∧ ∀ e, result =
      .error e → c' = c := by
  unfold loadWriter at hload
  unfold Planner.loadWriter
  rw [h.find?_view, importWriter_view hoffers]
  cases hlookup : c.roots.lookup root with
  | some item =>
    obtain ⟨hitem, rfl⟩ := (h.same root item).mp hlookup
    rw [hlookup] at hload
    cases hload
    refine ⟨?_, fun e he => by cases he⟩
    rw [Option.map_some]
    exact congrArg (fun l => Except.ok (WriterCache.mk l c.bytes.toNat, item.value.writer))
      (h.filter_view hitem)
  | none =>
    rw [hlookup] at hload
    rw [Option.map_none]
    cases himport : importWriter p root with
    | error e =>
      rw [himport] at hload
      cases hload
      exact ⟨rfl, fun _ _ => rfl⟩
    | ok value =>
      simp only [himport] at hload
      have hlimit :
        value.bytes ≤ UInt64.ofNat writerCacheBytes ↔ value.bytes.toNat ≤ writerCacheBytes :=
        UInt64.le_iff_toNat_le
      split_ifs at hload with hsize
      · obtain ⟨evicted, hevict, he⟩ := Option.map_eq_some_iff.mp hload
        cases he
        obtain ⟨_, hevict', -, hroom, -⟩ := h.evict (hlimit.mp hsize)
        obtain rfl := Option.some.inj (hevict.symm.trans hevict')
        have hview : (evicted.pushFront value).view =
            ⟨evicted.view.lru ++ [value.view], evicted.view.bytes + value.bytes.toNat⟩ := by
          simp only [Cache.view, Cache.pushFront, List.map_cons, List.reverse_cons]
          rw [toNat_add (hroom.trans (Nat.le_mul_of_pos_left _ Nat.two_pos))]
        refine ⟨?_, fun e he => by cases he⟩
        rw [hview, ← evict_view h (hlimit.mp hsize) hevict]
        exact if_pos (hlimit.mp hsize)
      · cases hload
        exact ⟨if_neg fun hle => hsize (hlimit.mpr hle), fun e he => by cases he⟩

/-- Over a whole run the planner's cache is the one that the calls leave. -/
theorem run_view {calls : List (Call Writer)}
    (hoffers : ∀ call ∈ calls, Offers call.source q call.root) (hrun : run calls = some c) :
    c.view =
      calls.foldl (fun v call => ((Planner.loadWriter q call.root v).toOption.map Prod.fst).getD v)
        ⟨[], 0⟩ := by
  induction calls using List.reverseRecOn generalizing c with
  | nil =>
    cases hrun
    rfl
  | append_singleton calls call ih =>
    obtain ⟨before, hbefore, h, himported⟩ := run_accounted calls
    obtain ⟨after, result, hload, -⟩ := loadWriter_accounted call h himported
    rw [run] at hrun hbefore
    rw [List.foldlM_append, hbefore, Option.bind_eq_bind, Option.bind_some, List.foldlM_cons, hload]
      at hrun
    obtain rfl : after = c := Option.some.inj hrun
    obtain ⟨hview, hkept⟩ := loadWriter_view h (hoffers call (by simp)) hload
    rw [List.foldl_append, ← ih (fun call hcall => hoffers call (List.mem_append_left _ hcall))
      hbefore, List.foldl_cons, List.foldl_nil, hview]
    cases result with
    | ok w => rfl
    | error e =>
      rw [hkept e rfl]
      rfl

end view

end MaltClient.Planner.Writers
