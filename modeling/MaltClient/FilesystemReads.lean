import MaltClient.ChunkedReads
import MaltClient.FilesystemService
import MaltClient.PayloadCacheEffects

/-! Reads of the mounted file system do not depend on the payload cache. -/

namespace MaltClient.Filesystem

open GoText Checked FaultyIO FaultyIO.Prog Slices
open Cache (Binding sumsBody)
open PayloadCache (BindingHash)
open Staging (View baseName)
open Unixfs (LayoutKind)

section ranges

theorem toNat_saturatingAdd (a b : UInt64) : (saturatingAdd a b).toNat = min (a.toNat + b.toNat)
    (2 ^ 64 - 1) :=
  Payloads.toNat_saturatingAdd a b

def rangeEnd (size offset : Nat) (length : Option Nat) : Nat :=
  length.elim size fun n => min (offset + n) size

theorem toNat_clampEnd (size offset : UInt64) (length : Option UInt64) :
    (clampEnd size offset length).toNat =
      rangeEnd size.toNat offset.toNat (length.map UInt64.toNat) := by
  cases length with
  | none => rfl
  | some n =>
    have hsum := toNat_saturatingAdd offset n
    have hsize := size.toNat_lt
    rw [rangeEnd, Option.map_some, Option.elim_some, clampEnd]
    by_cases h : size < saturatingAdd offset n
    · rw [if_pos h]
      rw [UInt64.lt_iff_toNat_lt, hsum] at h
      omega
    · rw [if_neg h, hsum]
      rw [UInt64.lt_iff_toNat_lt, hsum] at h
      omega

theorem rangeEnd_le (size offset : Nat) (length : Option Nat) :
    rangeEnd size offset length ≤ size := by
  cases length with
  | none => exact le_refl _
  | some n => exact Nat.min_le_right _ _

theorem sliceRange_eq {body : List UInt8} (hbody : body.length < 2 ^ 64) (offset : UInt64)
    (length : Option UInt64) : sliceRange body offset length =
      slice body offset.toNat (rangeEnd body.length offset.toNat (length.map UInt64.toNat)) := by
  have hsize : (UInt64.ofNat body.length).toNat = body.length := Payloads.toNat_ofNat (by omega)
  unfold sliceRange
  by_cases hempty : UInt64.ofNat body.length ≤ offset ∨ length = some 0
  · rw [if_pos hempty]
    have hnone : rangeEnd body.length offset.toNat (length.map UInt64.toNat) ≤ offset.toNat := by
      rcases hempty with hpast | hzero
      · rw [UInt64.le_iff_toNat_le, hsize] at hpast
        exact (rangeEnd_le _ _ _).trans hpast
      · rw [hzero]
        simp [rangeEnd]
    rw [slice, Nat.sub_eq_zero_of_le hnone, List.take_zero]
  · rw [if_neg hempty, toNat_clampEnd, hsize]

end ranges

section answers

variable [CidFormat] [PayloadHash]

structure Node where
  kind : Kind
  nodeRoot : Cid
  payload : Cid
  payloadKind : PayloadKind
  body : List UInt8
  known : kind = .file ∨ kind = .directory
  stored : kind = .file → payloadKind = .raw ∨ payloadKind = .positional
  sums : kind = .file → payloadKind = .raw → PayloadHash.sums payload body = true
  empty : kind = .directory → body = []
  short : body.length < 2 ^ 64

def Node.info (node : Node) (canonical : GoString) : Info :=
  { path := canonical, name := baseName canonical, kind := node.kind,
    nodeRoot := some node.nodeRoot, payload := some node.payload, storageKind := node.payloadKind,
      size := UInt64.ofNat node.body.length }

structure Returns (node : Node) (offset : UInt64) (length : Option UInt64) (r : ReadResult) :
    Prop where
  target : r.target = some node.payload
  starts : r.offset = offset
  total : r.totalSize = UInt64.ofNat node.body.length
  ends : r.stop.toNat =
    max offset.toNat (rangeEnd node.body.length offset.toNat (length.map UInt64.toNat))
  bytes : r.body = slice node.body offset.toNat (rangeEnd node.body.length offset.toNat
    (length.map UInt64.toNat))

variable [Protocol]

structure Proves (layout : LayoutKind) (root : Cid) (segments : List GoString) (payload : Bool)
    (target : Cid) (r : Resolution) : Prop where
  reaches : r.target = some target
  query : ∃ wire, r.authentication = some wire ∧ Protocol.validate wire.request = true ∧
    wire.request = { profile := Protocol.pathProfile, root := root.spelling,
                     steps := expectedSteps layout segments payload, operation := text "resolve",
                       label := none,
                     start := none, stop := none } ∧
    wire.result.resolved = target.spelling ∧ wire.result.absentStep = none

structure Describes (layout : LayoutKind) (root : Cid) (segments : List GoString) (node : Node)
    (s : Stat) : Prop where
  kind : s.kind = node.kind
  nodeRoot : s.nodeRoot = some node.nodeRoot
  payload : s.payload = some node.payload
  payloadKind : s.payloadKind = node.payloadKind
  resolution : Proves layout root segments false node.nodeRoot s.resolution
  bound : ∀ r, s.payloadBinding = some r → Proves layout root segments true node.payload r
  unbound : s.payloadBinding = none → node.payload = node.nodeRoot
  entries : node.kind = .file → s.entries = []
  size : node.kind = .directory → s.size = 0

structure Authentic (layout : LayoutKind) (root : Cid) (canonical : GoString)
    (segments : List GoString) (node : Node) (reader : Reader) : Prop where
  parses : Protocol.parseRoot root = true
  lookup : ∃ s, reader.lookup root canonical = .ok (some s) ∧ Describes layout root segments node s
  stat : ∃ s, reader.stat root canonical = .ok (some s) ∧ Describes layout root segments node s ∧
    s.size = UInt64.ofNat node.body.length
  readFile :
    node.kind = .file → ∃ r, reader.readFile root canonical = .ok (some r) ∧ Returns node 0 none r
  readFileRange : node.kind = .file → ∀ offset length,
    ∃ r, reader.readFileRange root canonical offset length = .ok (some r) ∧
      Returns node offset (some length) r

variable {layout : LayoutKind} {root : Cid} {canonical : GoString} {segments : List GoString}
  {node : Node}

omit [PayloadHash] in
theorem validateResolution_of_proves {payload : Bool} {target : Cid} {r : Resolution}
    (hroot : Protocol.parseRoot root = true) (h : Proves layout root segments payload target r) :
    validateResolution layout root segments payload r (some target) = .ok () := by
  obtain ⟨wire, hwire, hvalid, hrequest, hresolved, habsent⟩ := h.query
  simp only [validateResolution, ok_iff]
  refine ⟨wire, hwire, (), ?_, (), by simp [hroot], (), ?_, ?_⟩
  · rw [hrequest] at hvalid ⊢
    simp [hvalid, hresolved, habsent, h.reaches]
  · rw [hrequest]
    simp
  · rw [hrequest]
    simp

variable {s : Stat}

theorem validateBinding_of_describes (hroot : Protocol.parseRoot root = true)
    (h : Describes layout root segments node s) :
    validateBinding layout root segments s = .ok () := by
  unfold validateBinding
  cases hb : s.payloadBinding with
  | some binding =>
    have hbound := validateResolution_of_proves hroot (h.bound binding hb)
    rwa [← h.payload] at hbound
  | none => simp [h.payload, h.nodeRoot, h.unbound hb]

theorem validateShape_of_describes (h : Describes layout root segments node s) :
    validateShape s = .ok () := by
  unfold validateShape
  rcases node.known with hk | hk
  · have hstored : ¬ (s.payloadKind ≠ .raw ∧ s.payloadKind ≠ .positional) := by
      rw [h.payloadKind]
      rcases node.stored hk with hp | hp <;> simp [hp]
    rw [if_pos (h.kind.trans hk)]
    exact bind_eq_ok.mpr ⟨(), reject_eq_ok.mpr hstored, reject_eq_ok.mpr (by simp [h.entries hk])⟩
  · rw [if_neg (by simp [h.kind, hk])]
    exact reject_eq_ok.mpr (by simp [h.size hk])

theorem validateStat_of_describes (hroot : Protocol.parseRoot root = true)
    (h : Describes layout root segments node s) :
    validateStat layout root segments (some s) = .ok s := by
  have hresolution := validateResolution_of_proves hroot h.resolution
  rw [← h.nodeRoot] at hresolution
  have hkind : ¬ (s.kind ≠ .file ∧ s.kind ≠ .directory) := by
    rw [h.kind]
    rcases node.known with hk | hk <;> simp [hk]
  have hidentity : ¬ (s.nodeRoot = none ∨ s.payload = none ∨ s.resolution.target ≠ s.nodeRoot) := by
    simp [h.nodeRoot, h.payload, h.resolution.reaches]
  exact bind_eq_ok.mpr ⟨s, rfl, bind_eq_ok.mpr ⟨(), reject_eq_ok.mpr hkind, bind_eq_ok.mpr ⟨(),
    reject_eq_ok.mpr hidentity, bind_eq_ok.mpr ⟨(), hresolution,
      bind_eq_ok.mpr ⟨(), validateBinding_of_describes hroot h,
      bind_eq_ok.mpr ⟨(), validateShape_of_describes h, rfl⟩⟩⟩⟩⟩⟩

theorem infoFromStat_of_describes (h : Describes layout root segments node s) :
    infoFromStat canonical { s with size := UInt64.ofNat node.body.length } =
      node.info canonical := by
  simp [infoFromStat, Node.info, h.kind, h.nodeRoot, h.payload, h.payloadKind]

theorem validateReadResult_of_returns (h : Describes layout root segments node s)
    (hsize : s.size = UInt64.ofNat node.body.length) {offset : UInt64} {length : Option UInt64}
    (hoffset : offset.toNat ≤ rangeEnd node.body.length offset.toNat (length.map UInt64.toNat))
    {r : ReadResult}
    (hr : Returns node offset length r) : validateReadResult s offset length (some r) = .ok r := by
  have hsize' : s.size.toNat = node.body.length := by rw [hsize, Payloads.toNat_ofNat node.short]
  have hstop := hr.ends.trans (Nat.max_eq_right hoffset)
  have hexpected : clampEnd s.size offset length = r.stop := by
    apply UInt64.toNat_inj.mp
    rw [toNat_clampEnd, hstop, hsize']
  have hlength : UInt64.ofNat r.body.length = r.stop - offset := by
    apply UInt64.toNat_inj.mp
    have hle : offset ≤ r.stop := by rw [UInt64.le_iff_toNat_le, hstop]; exact hoffset
    rw [UInt64.toNat_sub_of_le _ _ hle, hstop, hr.bytes, length_slice (rangeEnd_le _ _ _),
      Payloads.toNat_ofNat]
    have hshort := node.short
    have hend := rangeEnd_le node.body.length offset.toNat (length.map UInt64.toNat)
    omega
  refine bind_eq_ok.mpr ⟨r, rfl, bind_eq_ok.mpr ⟨(), reject_eq_ok.mpr ?_,
    bind_eq_ok.mpr ⟨(), reject_eq_ok.mpr ?_, rfl⟩⟩⟩
  · simp [hr.target, h.payload, hr.total, hsize, hr.starts]
  · rw [hexpected]
    simp [hlength]

theorem validateRawReadResult_of_returns (h : Describes layout root segments node s)
    {r : ReadResult} (hr : Returns node 0 none r) :
    validateRawReadResult s (some r) = .ok r ∧ r.body = node.body := by
  have hbody : r.body = node.body := by
    rw [hr.bytes]
    simp [slice, rangeEnd]
  have hstop : r.stop = r.totalSize := by
    apply UInt64.toNat_inj.mp
    rw [hr.ends, hr.total, Payloads.toNat_ofNat node.short]
    simp [rangeEnd]
  refine ⟨bind_eq_ok.mpr ⟨r, rfl, bind_eq_ok.mpr ⟨(), reject_eq_ok.mpr ?_, rfl⟩⟩, hbody⟩
  simp [hr.target, h.payload, hr.starts, hstop, hr.total, hbody]

end answers

section service

variable [CidFormat] [PayloadHash] [Protocol] [EvidenceJson] [BindingHash]

def CollisionFree : Prop :=
  ∀ c a b, PayloadHash.sums c a = true → PayloadHash.sums c b = true → a = b

variable {s : Service} {view : View} {root : Cid} {canonical : GoString} {segments : List GoString}
  {node : Node} {stat : Stat} {d : PayloadCache.Disk}

omit [PayloadHash] [Protocol] [EvidenceJson] [BindingHash] in
theorem wp_readerCall {α : Type} {x : Except GoString α} {a : α} {Q : α → PayloadCache.Disk → Prop}
    {E : ServiceError → PayloadCache.Disk → Prop} {C : PayloadCache.Disk → Prop} (h : x = .ok a) :
    wp (Service.readerCall x) Q E C d ↔ Q a d :=
  wp_checked_of_ok (mapError_eq_ok.mpr h)

theorem wp_readCached {binding : Binding}
    (hstat : ∃ wire, (payloadResolution stat).authentication = some wire) :
    wp (s.readCached binding canonical stat) (fun hit _ => ∀ body, hit = some body →
      sumsBody binding.cid body = true)
      (fun _ _ => False) (fun _ => True) d := by
  unfold Service.readCached
  by_cases hcached : s.cached = true
  · obtain ⟨wire, hwire⟩ := hstat
    have hverifier :
      newCacheProofVerifier canonical stat = .ok (acceptsEvidence wire canonical) := by
      simp [newCacheProofVerifier, hwire, required]
    rw [if_pos hcached, hverifier, wp_bind, wp_checked]
    refine ⟨fun verifier hv => ?_, fun e he => by cases he⟩
    rw [wp_bind, wp_orNone]
    refine wp.mono (PayloadCache.leaves_readVerified s.now binding verifier) ?_ ?_
      (fun _ _ => trivial)
    · rintro ⟨body, entry⟩ t ⟨-, b, m, evidence, hb, -, -, -, -, -, hsum, -⟩
      rw [wp_pure]
      intro body' hbody'
      cases hbody'
      rwa [Cache.normalizeBinding_cid hb] at hsum
    · intro e t _
      rw [wp_pure]
      intro body hbody
      cases hbody
  · rw [if_neg hcached, wp_pure]
    intro body hbody
    cases hbody

omit [PayloadHash] [Protocol] [BindingHash] in
theorem marshalCacheEvidence_eq_ok (view : View) (canonical : GoString) (stat : Stat) :
    ∃ evidence, marshalCacheEvidence view canonical stat = .ok evidence := by
  obtain ⟨evidence, hevidence⟩ := Option.isSome_iff_exists.mp (EvidenceJson.isSome_encode _)
  exact ⟨evidence, required_eq_ok.mpr hevidence⟩

theorem wp_readRaw (hfree : CollisionFree) (hnode : node.kind = .file)
    (hraw : node.payloadKind = .raw)
    (hreader : Authentic s.layout root canonical segments node s.reader)
    (hstat : Describes s.layout root segments node stat) :
    wp (s.readRaw view root canonical stat) (fun body _ => body = node.body) (fun _ _ => False)
      (fun _ => True) d := by
  have hwire : ∃ wire, (payloadResolution stat).authentication = some wire := by
    unfold payloadResolution
    cases hb : stat.payloadBinding with
    | none =>
      obtain ⟨wire, hwire, -⟩ := hstat.resolution.query
      exact ⟨wire, hwire⟩
    | some r =>
      obtain ⟨wire, hwire, -⟩ := (hstat.bound r hb).query
      exact ⟨wire, hwire⟩
  have hsums : ∀ body, sumsBody stat.payload body = true → body = node.body := by
    intro body hbody
    rw [hstat.payload] at hbody
    exact hfree node.payload body node.body hbody (node.sums hnode hraw)
  unfold Service.readRaw
  rw [wp_bind]
  refine wp.mono (wp_readCached hwire) ?_ (fun _ _ h => h) (fun _ h => h)
  intro hit t hhit
  cases hit with
  | some body =>
    rw [wp_pure]
    exact hsums body (hhit body rfl)
  | none =>
    obtain ⟨r, hread, hreturns⟩ := hreader.readFile hnode
    obtain ⟨hvalid, hbody⟩ := validateRawReadResult_of_returns hstat hreturns
    have hsum : sumsBody stat.payload r.body = true := by
      rw [hstat.payload, hbody]
      exact node.sums hnode hraw
    have hsum' : reject (sumsBody stat.payload r.body = false)
        (ServiceError.message "verified UnixFS raw body does not match its authenticated CID") =
          .ok () :=
      reject_eq_ok.mpr (by simp [hsum])
    rw [wp_bind, wp_readerCall hread, wp_bind, wp_checked_of_ok hvalid, wp_bind,
      wp_checked_of_ok hsum']
    by_cases hcached : s.cached = true
    · -- storing the body may fail or succeed
      obtain ⟨evidence, hevidence⟩ := marshalCacheEvidence_eq_ok view canonical stat
      rw [if_pos hcached, wp_bind, wp_checked_of_ok hevidence, wp_bind, wp_orNone]
      refine wp.mono (PayloadCache.leaves_putVerified _ _ _ _) ?_ ?_ fun _ _ => trivial
      · intro _ u _
        exact wp_pure.mpr hbody
      · intro _ u _
        exact wp_pure.mpr hbody
    · rw [if_neg hcached]
      exact wp_pure.mpr hbody

def Service.Answers (s : Service) (view : View) (path : GoString) (node : Node) : Prop :=
  ∀ v root canonical segments, normalizeView view = .ok (v, root) → canonicalPath path =
    .ok (canonical, segments) → Authentic s.layout root canonical segments node s.reader

variable {rawView : View} {rawPath : GoString}

theorem wp_stat (hfree : CollisionFree) (hview : normalizeView rawView = .ok (view, root))
    (hpath : canonicalPath rawPath = .ok (canonical, segments))
    (hreader : Authentic s.layout root canonical segments node s.reader) :
    wp (s.stat rawView rawPath) (fun info _ => info = node.info canonical) (fun _ _ => False)
      (fun _ => True) d := by
  obtain ⟨st, hlookup, hdescribes⟩ := hreader.lookup
  have hinfo :
    infoFromStat canonical { st with size := UInt64.ofNat node.body.length } =
      node.info canonical :=
    infoFromStat_of_describes hdescribes
  unfold Service.stat
  rw [wp_bind, wp_checked_of_ok hview, wp_bind, wp_checked_of_ok hpath, wp_bind,
    wp_readerCall hlookup, wp_bind,
    wp_checked_of_ok (validateStat_of_describes hreader.parses hdescribes)]
  rcases node.known with hk | hk
  · rw [if_neg (by simp [hdescribes.kind, hk])]
    by_cases hraw : st.payloadKind = .raw ∧ s.cached = true
    · rw [if_pos hraw, wp_bind]
      refine wp.mono (wp_readRaw hfree hk (hdescribes.payloadKind ▸ hraw.1) hreader hdescribes) ?_
        (fun _ _ h => h) (fun _ h => h)
      rintro body t rfl
      exact wp_pure.mpr hinfo
    · obtain ⟨st', hstat, hdescribes', hsize⟩ := hreader.stat
      rw [if_neg hraw, wp_bind, wp_readerCall hstat, wp_bind,
        wp_checked_of_ok (validateStat_of_describes hreader.parses hdescribes'), wp_pure,
        ← infoFromStat_of_describes hdescribes', ← hsize]
  · rw [if_pos (hdescribes.kind.trans hk), wp_pure, ← hinfo]
    simp [node.empty hk, hdescribes.size hk, infoFromStat]

def Node.part (node : Node) (canonical : GoString) (offset : UInt64) (length : Option UInt64) :
    List UInt8 × Info :=
  (slice node.body offset.toNat (rangeEnd node.body.length offset.toNat (length.map UInt64.toNat)),
    node.info canonical)

variable {length : Option UInt64} {offset : UInt64} {t : PayloadCache.Disk}

omit [EvidenceJson] [BindingHash] in
theorem wp_readPositional (hnode : node.kind = .file)
    (hreader : Authentic s.layout root canonical segments node s.reader)
    (hwhole : length = none → offset = 0) :
    wp (s.readPositional root canonical segments offset length)
      (fun r _ => r = node.part canonical offset length) (fun _ _ => False) (fun _ => True) d := by
  obtain ⟨st, hstat, hdescribes, hsize⟩ := hreader.stat
  have hinfo : infoFromStat canonical st = node.info canonical := by
    rw [← infoFromStat_of_describes hdescribes, ← hsize]
  have hsize' : st.size.toNat = node.body.length := by rw [hsize, Payloads.toNat_ofNat node.short]
  unfold Service.readPositional
  rw [wp_bind, wp_mapError, wp_bind, wp_readerCall hstat,
    wp_checked_of_ok (validateStat_of_describes hreader.parses hdescribes)]
  by_cases hempty : length.any (fun length => length = 0 ∨ st.size ≤ offset) = true
  · rw [if_pos hempty, wp_pure, hinfo, Node.part]
    have hend :
      rangeEnd node.body.length offset.toNat (length.map UInt64.toNat) ≤ offset.toNat := by
      cases length with
      | none => simp at hempty
      | some n =>
        simp only [Option.any_some, decide_eq_true_eq, UInt64.le_iff_toNat_le, hsize'] at hempty
        rcases hempty with rfl | hpast
        · simp [rangeEnd]
        · exact (rangeEnd_le _ _ _).trans hpast
    rw [slice, Nat.sub_eq_zero_of_le hend, List.take_zero]
  · rw [if_neg hempty, wp_mapError, wp_bind]
    have hoffset :
      offset.toNat ≤ rangeEnd node.body.length offset.toNat (length.map UInt64.toNat) := by
      cases length with
      | none => simp [hwhole rfl]
      | some n =>
        simp only [Option.any_some, decide_eq_true_eq, UInt64.le_iff_toNat_le, hsize', not_or,
          not_le] at hempty
        simp only [rangeEnd, Option.map_some, Option.elim_some]
        omega
    have hanswer : ∃ r, s.reader.readPart root canonical offset length = .ok (some r) ∧
      Returns node offset length r := by
      cases length with
      | none =>
        rw [hwhole rfl]
        exact hreader.readFile hnode
      | some n => exact hreader.readFileRange hnode offset n
    obtain ⟨r, hread, hreturns⟩ := hanswer
    rw [wp_readerCall hread, wp_bind,
      wp_checked_of_ok (validateReadResult_of_returns hdescribes hsize hoffset hreturns),
      wp_pure, hinfo, hreturns.bytes, Node.part]

theorem wp_read (hfree : CollisionFree) (hview : normalizeView rawView = .ok (view, root))
    (hpath : canonicalPath rawPath = .ok (canonical, segments))
    (hreader : Authentic s.layout root canonical segments node s.reader)
    (hwhole : length = none → offset = 0) :
    wp (s.read rawView rawPath offset length)
      (fun r _ => node.kind = .file ∧ r = node.part canonical offset length)
      (fun e _ => node.kind = .directory ∧ e = ⟨some (node.info canonical), .notFile⟩)
      (fun _ => True) d := by
  obtain ⟨st, hlookup, hdescribes⟩ := hreader.lookup
  have hinfo :
    infoFromStat canonical { st with size := UInt64.ofNat node.body.length } =
      node.info canonical :=
    infoFromStat_of_describes hdescribes
  unfold Service.read
  rw [wp_bind, wp_mapError, wp_bind, wp_checked_of_ok hview, wp_bind,
    wp_checked_of_ok hpath, wp_bind, wp_readerCall hlookup, wp_bind,
      wp_checked_of_ok (validateStat_of_describes hreader.parses hdescribes), wp_pure]
  dsimp only
  rcases node.known with hk | hk
  · rw [if_neg (by simp [hdescribes.kind, hk])]
    by_cases hraw : st.payloadKind = .raw
    · rw [if_pos hraw, wp_bind, wp_mapError]
      refine wp.mono (wp_readRaw hfree hk (hdescribes.payloadKind ▸ hraw) hreader hdescribes) ?_
        (fun _ _ h => h.elim) (fun _ h => h)
      rintro body t rfl
      rw [wp_pure, hinfo, sliceRange_eq node.short]
      exact ⟨hk, rfl⟩
    · rw [if_neg hraw]
      exact wp.mono (wp_readPositional hk hreader hwhole) (fun _ _ h => ⟨hk, h⟩)
        (fun _ _ h => h.elim) (fun _ h => h)
  · rw [if_pos (by simp [hdescribes.kind, hk]), wp_fail, ← hinfo]
    refine ⟨hk, ?_⟩
    simp [node.empty hk, hdescribes.size hk, infoFromStat]

def Node.statAnswer (node : Node) (view : View) (path : GoString) : Outcome ServiceError Info :=
  match normalizeView view, canonicalPath path with
  | .error e, _ => .failed e
  | .ok _, .error e => .failed e
  | .ok _, .ok (canonical, _) => .done (node.info canonical)

def Node.readAnswer (node : Node) (view : View) (path : GoString) (offset : UInt64)
    (length : Option UInt64) : Outcome Failure (List UInt8 × Info) :=
  match normalizeView view, canonicalPath path with
  | .error e, _ => .failed ⟨none, e⟩
  | .ok _, .error e => .failed ⟨none, e⟩
  | .ok _, .ok (canonical, _) =>
    if node.kind = .file then .done (node.part canonical offset length)
    else .failed ⟨some (node.info canonical), .notFile⟩

theorem stat_answer (hfree : CollisionFree) (h : s.Answers rawView rawPath node)
    {o : Outcome ServiceError Info}
    (hr : Runs (s.stat rawView rawPath) d o t) (hend : o ≠ .crashed) :
    o = node.statAnswer rawView rawPath := by
  suffices hwp :
    wp (s.stat rawView rawPath) (fun info _ => .done info = node.statAnswer rawView rawPath)
      (fun e _ => .failed e = node.statAnswer rawView rawPath) (fun _ => True) d by
    have hpost := hwp o t hr
    cases o with
    | done info => exact hpost
    | failed e => exact hpost
    | crashed => exact absurd rfl hend
  unfold Node.statAnswer
  cases hview : normalizeView rawView with
  | error e => simp [Service.stat, hview, checked]
  | ok v =>
    cases hpath : canonicalPath rawPath with
    | error e => simp [Service.stat, hview, hpath, checked]
    | ok c =>
      have hreader := h v.1 v.2 c.1 c.2 hview hpath
      refine wp.mono (wp_stat hfree hview hpath hreader) ?_ (fun _ _ h => h.elim) (fun _ h => h)
      rintro info _ rfl
      rfl

theorem read_answer (hfree : CollisionFree) (h : s.Answers rawView rawPath node)
    (hwhole : length = none → offset = 0) {o : Outcome Failure (List UInt8 × Info)}
    (hr : Runs (s.read rawView rawPath offset length) d o t) (hend : o ≠ .crashed) :
    o = node.readAnswer rawView rawPath offset length := by
  suffices hwp : wp (s.read rawView rawPath offset length)
      (fun r _ => .done r = node.readAnswer rawView rawPath offset length)
      (fun e _ => .failed e = node.readAnswer rawView rawPath offset length) (fun _ => True) d by
    have hpost := hwp o t hr
    cases o with
    | done r => exact hpost
    | failed e => exact hpost
    | crashed => exact absurd rfl hend
  unfold Node.readAnswer
  cases hview : normalizeView rawView with
  | error e => simp [Service.read, hview, checked]
  | ok v =>
    cases hpath : canonicalPath rawPath with
    | error e => simp [Service.read, hview, hpath, checked]
    | ok c =>
      have hreader := h v.1 v.2 c.1 c.2 hview hpath
      refine wp.mono (wp_read hfree hview hpath hreader hwhole) ?_ ?_ (fun _ h => h)
      · rintro r _ ⟨hk, rfl⟩
        simp [hk]
      · rintro e _ ⟨hk, rfl⟩
        simp [hk]

def Agree {ε α : Type} (m₁ m₂ : Prog PayloadCache.Disk ε α) (d₁ d₂ : PayloadCache.Disk) : Prop :=
  ∀ o₁ o₂ t₁ t₂, Runs m₁ d₁ o₁ t₁ → Runs m₂ d₂ o₂ t₂ → o₁ ≠ .crashed → o₂ ≠ .crashed → o₁ = o₂

/-- The cache cannot change what is read: two services that read the same
authenticated node, with any caches or none, agree. Unless it is stopped, a call
returns the metadata of the node, and of a file the exact part that was asked
for. -/
theorem reads_ignore_cache (hfree : CollisionFree) (view : View) (path : GoString) (node : Node)
    (s₁ s₂ : Service) (h₁ : s₁.Answers view path node) (h₂ : s₂.Answers view path node)
    (d₁ d₂ : PayloadCache.Disk) (offset length : UInt64) :
    Agree (s₁.stat view path) (s₂.stat view path) d₁ d₂ ∧
    Agree (s₁.readFile view path) (s₂.readFile view path) d₁ d₂ ∧
    Agree (s₁.readFileRange view path offset length)
      (s₂.readFileRange view path offset length) d₁ d₂ ∧
    ∀ v canonical, normalizeView view = .ok v → canonicalPath path = .ok canonical →
      Comes (s₁.stat view path) d₁ (.done (node.info canonical.1)) ∧
      (node.kind = .file →
        Comes (s₁.readFile view path) d₁ (.done (node.body, node.info canonical.1)) ∧
        Comes (s₁.readFileRange view path offset length) d₁
          (.done (slice node.body offset.toNat (min (offset.toNat + length.toNat) node.body.length),
            node.info canonical.1))) ∧
      (node.kind = .directory →
        Comes (s₁.readFile view path) d₁ (.failed ⟨some (node.info canonical.1), .notFile⟩) ∧
        Comes (s₁.readFileRange view path offset length) d₁
          (.failed ⟨some (node.info canonical.1), .notFile⟩)) := by
  have hwhole : some length = none → offset = 0 := fun h => by cases h
  refine ⟨?_, ?_, ?_, fun v canonical hview hpath => ?_⟩
  · intro o₁ o₂ t₁ t₂ hr₁ hr₂ he₁ he₂
    rw [stat_answer hfree h₁ hr₁ he₁, stat_answer hfree h₂ hr₂ he₂]
  · intro o₁ o₂ t₁ t₂ hr₁ hr₂ he₁ he₂
    rw [read_answer hfree h₁ (fun _ => rfl) hr₁ he₁, read_answer hfree h₂ (fun _ => rfl) hr₂ he₂]
  · intro o₁ o₂ t₁ t₂ hr₁ hr₂ he₁ he₂
    rw [read_answer hfree h₁ hwhole hr₁ he₁, read_answer hfree h₂ hwhole hr₂ he₂]
  have hall : Comes (s₁.readFile view path) d₁ (node.readAnswer view path 0 none) :=
    comes_of_forall fun o t hr hend => read_answer hfree h₁ (fun _ => rfl) hr hend
  have hrange :
    Comes (s₁.readFileRange view path offset length) d₁ (node.readAnswer view path offset
      (some length)) :=
    comes_of_forall fun o t hr hend => read_answer hfree h₁ hwhole hr hend
  have hstat : Comes (s₁.stat view path) d₁ (node.statAnswer view path) :=
    comes_of_forall fun o t hr hend => stat_answer hfree h₁ hr hend
  rw [Node.statAnswer, hview, hpath] at hstat
  rw [Node.readAnswer, hview, hpath] at hall hrange
  refine ⟨hstat, fun hk => ?_, fun hk => ?_⟩
  · simp only [hk, if_true, Node.part] at hall hrange
    exact ⟨by simpa [slice, rangeEnd] using hall, hrange⟩
  · simp only [hk, reduceCtorEq, if_false] at hall hrange
    exact ⟨hall, hrange⟩

end service

section sample

@[reducible] def Protocol.accepting [CidFormat] : Protocol where
  pathProfile := text "path"
  validate _ := true
  parseRoot _ := true
  verify _ _ := true

@[reducible] def EvidenceJson.blank [CidFormat] : EvidenceJson where
  encode _ := some []
  decode _ := none
  encodeRequest _ := []
  isSome_encode _ := rfl

@[reducible] def BindingHash.constant [CidFormat] : BindingHash where
  bindingID _ := text "id"

section

attribute [local instance] CidFormat.verbatim PayloadHash.verbatim BindingHash.constant
  EvidenceJson.blank Protocol.accepting

theorem sums_verbatim_collisionFree :
    CollisionFree := by
  intro c a b ha hb
  apply Payloads.rawCid_verbatim_injective
  apply Cid.ext
  exact (of_decide_eq_true ha).symm.trans (of_decide_eq_true hb)

def sampleBody : List UInt8 := [1, 2, 3, 4]

theorem sampleBody_short : sampleBody.length < 2 ^ 64 := by decide

def sampleNode :
    Node :=
  { kind := .file, nodeRoot := rawCid sampleBody, payload := rawCid sampleBody,
    payloadKind := .raw, body := sampleBody, known := .inl rfl, stored := fun _ => .inl rfl,
    sums := fun _ _ => PayloadHash.sums_rawCid _, empty := fun h => Kind.noConfusion h,
      short := sampleBody_short }

def sampleReader : Reader :=
  let target := rawCid sampleBody
  let request (root : Cid) : Request :=
    { profile := text "path", root := root.spelling, steps := [text "f"],
      operation := text "resolve", label := none, start := none, stop := none }
  let stat (root : Cid) : Stat :=
    { kind := .file, nodeRoot := some target, payload := some target, payloadKind := .raw,
      size := 4, entries := [],
      resolution := ⟨some ⟨request root, ⟨target.spelling, none, []⟩⟩, some target⟩,
        payloadBinding := none }
  let part (offset : UInt64) (length : Option UInt64) : ReadResult :=
    let stop := rangeEnd sampleBody.length offset.toNat (length.map UInt64.toNat)
    { body := slice sampleBody offset.toNat stop, target := some target, offset := offset,
      stop := UInt64.ofNat (max offset.toNat stop), totalSize := 4 }
  { lookup := fun root _ => .ok (some (stat root)), stat := fun root _ => .ok (some (stat root)),
    readFile := fun _ _ => .ok (some (part 0 none)),
    readFileRange := fun _ _ offset length => .ok (some (part offset (some length))) }

def sampleService (cached : Bool) : Service :=
  { layout := .rootedV1, reader := sampleReader, cached := cached, now := ⟨1, one_ne_zero⟩,
    verifiedAt := 1 }

def sampleView : View :=
  { datasetID := text "d", branch := text "b", root := some (rawCid [0]), revision := 1,
    encryptionEpoch := 0 }

theorem sampleService_answers (cached : Bool) :
    (sampleService cached).Answers sampleView (text "f") sampleNode := by
  intro v root canonical segments hview hpath
  have hsegments : canonicalPath (text "f") = .ok (text "f", [text "f"]) := by decide
  rw [hsegments] at hpath
  cases hpath
  have hdescribes : ∃ s, sampleReader.lookup root (text "f") = .ok (some s) ∧
      Describes .rootedV1 root [text "f"] sampleNode s ∧ s.size = 4 :=
    ⟨_, rfl, ⟨rfl, rfl, rfl, rfl, ⟨rfl, _, rfl, rfl, rfl, rfl, rfl⟩, fun r hr => (by cases hr),
      fun _ => rfl, fun _ => rfl, fun h => (by cases h)⟩, rfl⟩
  obtain ⟨s, hlookup, hs, hsize⟩ := hdescribes
  refine ⟨rfl, ⟨s, hlookup, hs⟩, ⟨s, hlookup, hs, hsize⟩, fun _ => ⟨_, rfl, rfl, rfl, rfl, ?_, rfl⟩,
    fun _ offset length => ⟨_, rfl, rfl, rfl, rfl, ?_, rfl⟩⟩
  · exact Payloads.toNat_ofNat (by decide)
  · refine Payloads.toNat_ofNat ?_
    have hend := rangeEnd_le sampleBody.length offset.toNat ((some length).map UInt64.toNat)
    exact Nat.max_lt.mpr ⟨offset.toNat_lt, hend.trans_lt sampleBody_short⟩

def spoiltDisk : @PayloadCache.Disk CidFormat.verbatim :=
  { metadata := some .malformed, blobs := ∅, metadataTemps := 0, bodyTemps := 1 }

/-- A spoilt cache does not change the middle bytes of the file. -/
theorem reads_ignore_cache_sample :
    Agree ((sampleService true).readFileRange sampleView (text "f") 1 2)
      ((sampleService false).readFileRange sampleView (text "f") 1 2) spoiltDisk spoiltDisk ∧
    Comes ((sampleService true).stat sampleView (text "f")) spoiltDisk
      (.done (sampleNode.info (text "f"))) ∧
    Comes ((sampleService true).readFile sampleView (text "f")) spoiltDisk
      (.done ([1, 2, 3, 4], sampleNode.info (text "f"))) ∧
    Comes ((sampleService true).readFileRange sampleView (text "f") 1 2) spoiltDisk
      (.done ([2, 3], sampleNode.info (text "f"))) := by
  obtain ⟨-, -, hagree, hcomes⟩ := reads_ignore_cache sums_verbatim_collisionFree sampleView
    (text "f") sampleNode
    (sampleService true) (sampleService false) (sampleService_answers true)
    (sampleService_answers false)
    spoiltDisk spoiltDisk 1 2
  obtain ⟨hstat, hfile, -⟩ := hcomes _ (text "f", [text "f"]) rfl (by decide)
  exact ⟨hagree, hstat, hfile rfl⟩

end

end sample

end MaltClient.Filesystem
