import MaltClient.PayloadCacheCalls

/-! The effects of every call of the cache: which entry it may write, and where
the body file may be left by a call that fails or stops. -/

namespace MaltClient.PayloadCache

open GoText Checked AssocMap FaultyIO FaultyIO.Prog
open Cache (State CacheError Binding normalizeBinding isLocalBodyState maxInt sumsBody)

variable [CidFormat]

section entries

def remoteEntry (now : Stamp) (b : Binding) : Entry :=
  { binding := b, state := some .unmaterializedRemote, verification := none,
    bodyPresent := false, size := 0, updatedAt := now }

def verifiedEntry (now : Stamp) (b : Binding) (body : List UInt8)
    (evidence : VerificationEvidence) : Entry :=
  { binding := b, state := some .verifiedClean,
    verification := some { evidence with profile := trimSpace evidence.profile },
      bodyPresent := true,
    size := body.length, updatedAt := now }

def localEntry (now : Stamp) (b : Binding) (body : List UInt8) (state : State) : Entry :=
  { binding := b, state := some state, verification := none, bodyPresent := true,
    size := body.length, updatedAt := now }

def Entry.stale (now : Stamp) (e : Entry) : Entry :=
  { e with state := some .stale, verification := none, updatedAt := now }

def Entry.moved (now : Stamp) (next : State) (e : Entry) : Entry :=
  { e with
    state := some next
    updatedAt := now
    verification := if next ≠ .verifiedClean then none else e.verification }

def Entry.reconciled (now : Stamp) (next : State) (e : Entry) : Entry :=
  { e with state := some next, verification := none, updatedAt := now }

end entries

/-- The locked sections of the store. `ReadVerified` is a `readSection` that may
be followed by an `invalidate` of what it read. -/
inductive Action where
  | recordRemote (now : Stamp) (raw : Binding)
  | putVerified (now : Stamp) (raw : Binding) (body : List UInt8) (evidence : VerificationEvidence)
  | putLocal (now : Stamp) (raw : Binding) (body : List UInt8) (state : State)
  | readSection (now : Stamp) (raw : Binding)
  | invalidate (now : Stamp) (raw : Binding) (rejected : VerificationEvidence)
  | readLocalBounded (raw : Binding) (maxBytes : UInt64)
  | verifyLocal (raw : Binding) (maxBytes : UInt64)
  | readLocalRange (pieces : Pieces) (raw : Binding) (offset length maxBytes : UInt64)
  | inspect (raw : Binding)
  | list
  | transition (now : Stamp) (raw : Binding) (next : State)
  | reconcileLocalState (now : Stamp) (raw : Binding) (next : State) (maxBytes : UInt64)
  | remove (raw : Binding)

variable [BindingHash] [PayloadHash]

section effects

inductive Edits (m : Metadata) : Action → GoString → Entry → Prop where
  | recorded {now raw b} (hb : normalizeBinding raw = .ok b) (hm : m.lookup (bindingID b) = none) :
    Edits m (.recordRemote now raw) (bindingID b) (remoteEntry now b)
  | corrupted {now raw b e} (hb : normalizeBinding raw = .ok b)
    (hm : m.lookup (bindingID b) = some e) (he : e.state = some .verifiedClean) :
      Edits m (.readSection now raw) (bindingID b) (e.stale now)
  | invalidated {now raw b e rejected} (hb : normalizeBinding raw = .ok b)
    (hm : m.lookup (bindingID b) = some e)
    (he : e.verification = some rejected) : Edits m (.invalidate now raw rejected) (bindingID b)
    (e.stale now)
  | moved {now raw b e next} (hb : normalizeBinding raw = .ok b)
    (hm : m.lookup (bindingID b) = some e)
    (he : allowedTransition e.state next = true) : Edits m (.transition now raw next) (bindingID b)
    (e.moved now next)
  | reconciled {now raw b e next maxBytes} (hb : normalizeBinding raw = .ok b)
    (hm : m.lookup (bindingID b) = some e)
    (he : isLocalBody e.state = true) (hbody : e.bodyPresent = true)
    (hnext : isLocalBodyState next = true) :
    Edits m (.reconcileLocalState now raw next maxBytes) (bindingID b) (e.reconciled now next)

inductive Puts (m : Metadata) : Action → GoString → Entry → List UInt8 → Prop where
  | verified {now raw b body evidence} (hb : normalizeBinding raw = .ok b)
    (hevidence : trimSpace evidence.profile ≠ [] ∧ validString (trimSpace evidence.profile) = true ∧
      evidence.evidence ≠ [] ∧ evidence.verifiedAt ≠ 0)
    (hsum : sumsBody b.cid body = true)
    (hm : ∀ e, m.lookup (bindingID b) = some e → allowedPut e.state .verifiedClean = true) :
    Puts m (.putVerified now raw body evidence) (bindingID b)
      (verifiedEntry now b body evidence) body
  | staged {now raw b body state} (hb : normalizeBinding raw = .ok b)
    (hstate : state = .localDirty ∨ state = .offlineOnly) (hsum : sumsBody b.cid body = true)
    (hm : ∀ e, m.lookup (bindingID b) = some e → allowedPut e.state state = true) :
    Puts m (.putLocal now raw body state) (bindingID b) (localEntry now b body state) body

inductive Change (m : Metadata) (g : Files) : Action → Files → Prop where
  | quiet {c} : Change m g c g
  | rewritten {c} : Change m g c (g.withMetadata m)
  | edited {c id entry} (h : Edits m c id entry) : Change m g c (g.withMetadata (m.insert id entry))
  | staged {c id entry data} (h : Puts m c id entry data) : Change m g c (g.withBody id (some data))
  | put {c id entry data} (h : Puts m c id entry data) :
    Change m g c ((g.withBody id (some data)).withMetadata (m.insert id entry))
  | dropped {c id entry data} (h : Puts m c id entry data) (hnone : referenced m id = false) :
    Change m g c (g.withBody id none)
  | orphaned {c id entry data} (h : Puts m c id entry data) (hnone : referenced m id = false) :
    Change m g c ((g.withBody id none).withMetadata (m.insert id entry))
  | unlinked {raw b} (hb : normalizeBinding raw = .ok b) :
      Change m g (.remove raw) (g.withBody (bindingID b) none)
  | removed {raw b} (hb : normalizeBinding raw = .ok b) :
    Change m g (.remove raw) ((g.withBody (bindingID b) none).withMetadata (m.erase (bindingID b)))

def Changed (c : Action) (f h : Files) : Prop := h = f ∨ ∃ m g, loaded f = .ok m ∧ Collected m f g ∧
    Change m g c h

/-- The call has put a body and its entry. -/
def Stored (c : Action) (f h : Files) : Prop :=
  ∃ m g id entry data, loaded f = .ok m ∧ Collected m f g ∧
  Puts m c id entry data ∧ h = (g.withBody id (some data)).withMetadata (m.insert id entry)

/-- The call has written one entry. -/
def Edited (c : Action) (f h : Files) : Prop := ∃ m g id entry, loaded f = .ok m ∧ Collected m f g ∧
  Edits m c id entry ∧ h = g.withMetadata (m.insert id entry)

/-- The local entry of a binding, with a body that can be read whole. -/
structure Held (f : Files) (b : Binding) (limit : UInt64) (e : Entry) (data : List UInt8) :
    Prop where
  entry : ∃ m, loaded f = .ok m ∧ m.lookup (bindingID b) = some e
  state : isLocalBody e.state = true
  present : e.bodyPresent = true
  body : f.body (bindingID b) = some data
  size : data.length ≤ limit.toNat ∧ data.length ≤ maxInt

theorem changed_of_reloaded {c : Action} {f g : Files} (h : Reloaded f g) : Changed c f g := by
  rcases h with rfl | ⟨m, hm, hg⟩
  · exact .inl rfl
  · exact .inr ⟨m, g, hm, hg, .quiet⟩

end effects

section calls

variable {c : Action} {d : Disk}

theorem leaves_section {α : Type} {write : Bool} {operation : Metadata → Call (Metadata × α)}
    {Q : α → Files → Prop}
    (h : ∀ m u, loaded d.files = .ok m → Collected m d.files u.files → Changed c d.files u.files →
      Leaves (operation m) (Changed c d.files) (Saved write (Changed c d.files) Q) u) :
    Leaves (withState write operation) (Changed c d.files) Q d :=
  leaves_withState (fun _ => changed_of_reloaded) fun m u hm hu =>
    h m u hm hu (.inr ⟨m, _, hm, hu, .quiet⟩)

variable {m : Metadata} {entry : Entry} {id : GoString} {now : Stamp} {raw b : Binding}
  {I : Files → Prop} {body : List UInt8} {state next : State} {maxBytes : UInt64}

theorem changed {g h : Files} (hm : loaded d.files = .ok m) (hg : Collected m d.files g)
    (hc : Change m g c h) : Changed c d.files h := .inr ⟨m, g, hm, hg, hc⟩

theorem leaves_recordRemote :
    Leaves (recordRemote now raw) (Changed (.recordRemote now raw) d.files)
      (fun _ _ => True) d := by
  refine leaves_checked_bind (.inl rfl) fun b hb => leaves_section fun m u hm hu hquiet => ?_
  cases he : m.lookup (bindingID b) with
  | some existing => exact leaves_pure.mpr ⟨hquiet, changed hm hu .rewritten, trivial⟩
  | none => exact leaves_pure.mpr ⟨hquiet, changed hm hu (.edited (.recorded hb he)), trivial⟩

theorem leaves_putWithBody {next : State} {body : List UInt8}
    (h : ∀ m, (∀ e, m.lookup (bindingID entry.binding) = some e → allowedPut e.state next = true) →
      Puts m c (bindingID entry.binding) entry body) :
    Leaves (putWithBody entry next body) (Changed c d.files) (fun _ => Stored c d.files) d := by
  refine leaves_section fun m u hm hu hquiet => ?_
  refine leaves_checked_bind hquiet fun _ hallowed => ?_
  have hputs : Puts m c (bindingID entry.binding) entry body := by
    refine h m fun e he => ?_
    rw [reject_eq_ok, he] at hallowed
    simpa using hallowed
  have hstaged := changed hm hu (.staged hputs)
  have hput := changed hm hu (.put hputs)
  refine leaves_bind (leaves_writeAtomic hquiet hstaged) fun _ v hv hfiles => ?_
  have hmeta : Leaves (writeMetadataLocked (m.insert (bindingID entry.binding) entry))
    (fun g => g = v.files ∨ g = v.files.withMetadata (m.insert (bindingID entry.binding) entry))
      (fun _ g => g = v.files.withMetadata (m.insert (bindingID entry.binding) entry)) v :=
    leaves_writeMetadataLocked (.inl rfl) (.inr rfl)
  have hleft :
    ∀ g, g = v.files ∨ g = v.files.withMetadata (m.insert (bindingID entry.binding) entry) →
      Changed c d.files g := by
    rintro g (rfl | rfl) <;> rw [hfiles]
    · exact hstaged
    · exact hput
  have hdropped : referenced m (bindingID entry.binding) = false → ∀ g, g = v.files ∨
      g = v.files.withMetadata (m.insert (bindingID entry.binding) entry) →
      Changed c d.files (g.withBody (bindingID entry.binding) none) := by
    rintro hnone g (rfl | rfl) <;> rw [hfiles]
    · rw [Target.apply, withBody_withBody]
      exact changed hm hu (.dropped hputs hnone)
    · have hfinal := changed hm hu (.orphaned hputs hnone)
      rwa [← withBody_withBody u.files _ (some body)] at hfinal
  refine leaves_bind (leaves_recover hmeta hleft (fun _ _ _ h => h) fun e t ht => ?_)
    fun _ w hw hfiles' => ?_
  · by_cases hpresent : (m.lookup (bindingID entry.binding)).any Entry.bodyPresent = false
    · rw [if_pos hpresent]
      have hgone := hdropped hpresent _ ht
      rw [← files_removeBlob] at hgone
      exact leaves_bind (leaves_ignoring (leaves_call (hleft _ ht) hgone trivial)) fun _ w hw _ =>
        leaves_fail.mpr hw
    · rw [if_neg hpresent]
      exact leaves_fail.mpr (hleft _ ht)
  · rw [leaves_pure, Saved, if_neg Bool.false_ne_true]
    exact ⟨hw, m, u.files, _, _, _, hm, hu, hputs, hfiles'.trans (by rw [hfiles]; rfl)⟩

theorem leaves_putVerified (now : Stamp) (raw : Binding) (body : List UInt8)
    (evidence : VerificationEvidence) : Leaves (putVerified now raw body evidence)
      (Changed (.putVerified now raw body evidence) d.files)
      (fun _ => Stored (.putVerified now raw body evidence) d.files) d := by
  have hd : Changed (.putVerified now raw body evidence) d.files d.files := .inl rfl
  refine leaves_checked_bind hd fun b hb => leaves_checked_bind hd fun _ hevidence =>
    leaves_checked_bind hd fun _ hsum => ?_
  simp only [reject_eq_ok, not_or, Bool.not_eq_false] at hevidence
  rw [verifyPayloadCID, reject_eq_ok, Bool.not_eq_false] at hsum
  exact leaves_bind (leaves_putWithBody fun m hm => .verified hb hevidence hsum hm)
    fun _ u hu hput =>
    leaves_pure.mpr ⟨hu, hput⟩

theorem leaves_putLocal :
    Leaves (putLocal now raw body state) (Changed (.putLocal now raw body state) d.files)
      (fun _ => Stored (.putLocal now raw body state) d.files) d := by
  have hd : Changed (.putLocal now raw body state) d.files d.files := .inl rfl
  refine leaves_checked_bind hd fun b hb => leaves_checked_bind hd fun _ hstate =>
    leaves_checked_bind hd fun _ hsum => ?_
  have hstate' : state = .localDirty ∨ state = .offlineOnly := by
    simpa [or_iff_not_imp_left] using hstate
  rw [verifyPayloadCID, reject_eq_ok, Bool.not_eq_false] at hsum
  exact leaves_bind (leaves_putWithBody fun m hm => .staged hb hstate' hsum hm) fun _ u hu hput =>
    leaves_pure.mpr ⟨hu, hput⟩

theorem leaves_markCorruptLocked {α : Type}
    {cause : CacheError} {u : Disk} {Q : α → Files → Prop} (hm : loaded d.files = .ok m)
    (hu : Collected m d.files u.files) (h : Edits m c id (entry.stale now)) :
    Leaves (markCorruptLocked now id entry m cause) (Changed c d.files) Q u := by
  have hwrite :=
    leaves_writeMetadataLocked (changed (c := c) hm hu .quiet) (changed hm hu (.edited h))
  exact leaves_bind (leaves_ignoring (hwrite.mono (fun _ h => h) fun _ _ _ _ => trivial))
    fun _ t ht _ =>
    leaves_fail.mpr ht

/-- A body is returned only as it lies in its file, and only if it has the
requested identifier and the evidence of its entry. -/
theorem leaves_readLocked (hb : normalizeBinding raw = .ok b) :
    Leaves (readLocked now b) (Changed (.readSection now raw) d.files)
      (fun r _ => ∃ m, loaded d.files = .ok m ∧
      m.lookup (bindingID b) = some r.2.1 ∧ r.2.1.state = some .verifiedClean ∧
        r.2.1.verification = some r.2.2 ∧
      d.files.body (bindingID b) = some r.1 ∧ sumsBody b.cid r.1 = true) d := by
  refine leaves_section fun m u hm hu hquiet => ?_
  refine leaves_checked_bind hquiet fun entry hentry => leaves_checked_bind hquiet fun _ hstate =>
    leaves_checked_bind hquiet fun evidence hevidence => ?_
  rw [required_eq_ok] at hentry hevidence
  rw [reject_eq_ok, not_not] at hstate
  have hstale : Edits m (.readSection now raw) (bindingID b) (entry.stale now) :=
    .corrupted hb hentry hstate
  by_cases hpresent : entry.bodyPresent = false
  · rw [if_pos hpresent]
    exact leaves_markCorruptLocked hm hu hstale
  rw [if_neg hpresent]
  have hfile : Leaves (readFile (bindingID b)) (Changed (.readSection now raw) d.files)
      (fun file g => g = u.files ∧ (file = u.files.body (bindingID b) ∨ file = none)) u := by
    refine wp_recover.mpr (wp_query.mpr ⟨⟨hquiet, rfl, .inl rfl⟩, ?_, hquiet⟩)
    exact wp_pure.mpr ⟨hquiet, rfl, .inr rfl⟩
  refine leaves_bind hfile fun file v hv hread => ?_
  obtain ⟨hfiles, hbody⟩ := hread
  rw [← hfiles] at hu
  cases file with
  | none => exact leaves_markCorruptLocked hm hu hstale
  | some body =>
    by_cases hsize : (body.length : Int) ≠ entry.size
    · simp only [if_pos hsize]
      exact leaves_markCorruptLocked hm hu hstale
    by_cases hsum : sumsBody b.cid body = false
    · simp only [if_neg hsize, if_pos hsum]
      exact leaves_markCorruptLocked hm hu hstale
    simp only [if_neg hsize, if_neg hsum]
    rw [leaves_pure, Saved, if_neg Bool.false_ne_true]
    refine ⟨hv, m, hm, hentry, hstate, hevidence, ?_, by simpa using hsum⟩
    refine hu.body_eq ?_
    rw [hfiles]
    exact (hbody.resolve_right (by simp)).symm

theorem leaves_invalidate {rejected : VerificationEvidence} (hb : normalizeBinding raw = .ok b) :
    Leaves (invalidate now b rejected) (Changed (.invalidate now raw rejected) d.files)
      (fun _ _ => True) d := by
  refine leaves_section fun m u hm hu hquiet => ?_
  refine leaves_checked_bind hquiet fun entry hentry => ?_
  rw [required_eq_ok] at hentry
  by_cases hrejected : entry.verification ≠ some rejected
  · rw [if_pos hrejected]
    exact leaves_pure.mpr ⟨hquiet, changed hm hu .rewritten, trivial⟩
  · rw [if_neg hrejected]
    have hstale : Edits m (.invalidate now raw rejected) (bindingID b) (entry.stale now) :=
      .invalidated hb hentry (not_not.mp hrejected)
    exact leaves_pure.mpr ⟨hquiet, changed hm hu (.edited hstale), trivial⟩

omit [BindingHash] [PayloadHash] in
theorem leaves_openBoundedLocalBodyLocked {maxBytes : UInt64} (hI : I d.files) :
    Leaves (openBoundedLocalBodyLocked id entry maxBytes) I (fun _ f => f = d.files ∧
      isLocalBody entry.state = true ∧
      entry.bodyPresent = true ∧ entry.size ≤ maxBytes.toNat ∧ entry.size ≤ maxInt ∧
      ∃ data, d.files.body id = some data ∧ (data.length : Int) = entry.size) d := by
  refine leaves_checked_bind hI fun _ hlocal => leaves_checked_bind hI fun _ hlimit =>
    leaves_query_bind hI ?_
  refine leaves_checked_bind hI fun data hdata => leaves_attempt_bind hI
    (leaves_checked hI fun _ hsize => ?_)
  simp only [ok_iff, not_or, Bool.not_eq_false, not_lt, not_not] at hlocal hlimit hdata hsize
  exact ⟨rfl, hlocal.1, hlocal.2.1, hlimit.1, hlimit.2, data, hdata, hsize⟩

omit [BindingHash] [PayloadHash] in
theorem leaves_readOpened (hI : I d.files) :
    Leaves (readOpened id) I (fun data f => f = d.files ∧ d.files.body id = some data) d :=
  leaves_query_bind hI (leaves_checked hI fun _ hdata => ⟨rfl, required_eq_ok.mp hdata⟩)

omit [BindingHash] in
theorem verifyLocalStream_eq_ok {data : List UInt8} {payload : Option Cid} {size : Int} {u : Unit} :
    verifyLocalStream data payload size = .ok u ↔
      (data.length : Int) = size ∧ sumsBody payload (data.take size.toNat) = true := by
  simp only [verifyLocalStream, ok_iff, not_or, Bool.not_eq_false, not_lt]
  constructor
  · rintro ⟨-, ⟨hle, hsum⟩, hge⟩
    exact ⟨le_antisymm hge hle, hsum⟩
  · rintro ⟨rfl, hsum⟩
    exact ⟨(), ⟨le_rfl, hsum⟩, le_rfl⟩

theorem leaves_transition :
    Leaves (transition now raw next) (Changed (.transition now raw next) d.files)
    (fun _ => Edited (.transition now raw next) d.files) d := by
  refine leaves_checked_bind (.inl rfl) fun b hb => leaves_section fun m u hm hu hquiet => ?_
  refine leaves_checked_bind hquiet fun entry hentry => leaves_checked_bind hquiet
    fun _ hallowed => ?_
  rw [required_eq_ok] at hentry
  rw [reject_eq_ok, Bool.not_eq_false] at hallowed
  have hedit : Edits m (.transition now raw next) (bindingID b) (entry.moved now next) :=
    .moved hb hentry hallowed
  exact leaves_pure.mpr ⟨hquiet, changed hm hu (.edited hedit), m, _, _, _, hm, hu, hedit, rfl⟩

theorem leaves_reconcileLocalState :
    Leaves (reconcileLocalStateBounded now raw next maxBytes)
      (Changed (.reconcileLocalState now raw next maxBytes) d.files) (fun _ _ => True) d := by
  have hd : Changed (.reconcileLocalState now raw next maxBytes) d.files d.files := .inl rfl
  refine leaves_checked_bind hd fun b hb => leaves_checked_bind hd fun _ hnext =>
    leaves_section fun m u hm hu hquiet => ?_
  refine leaves_checked_bind hquiet fun entry hentry => leaves_checked_bind hquiet
    fun _ hlocal => ?_
  simp only [ok_iff, not_or, Bool.not_eq_false] at hentry hlocal hnext
  have hedit :
    Edits m (.reconcileLocalState now raw next maxBytes) (bindingID b)
      (entry.reconciled now next) :=
    .reconciled hb hentry hlocal.1 hlocal.2 hnext
  refine leaves_bind (leaves_openBoundedLocalBodyLocked hquiet) fun _ v hv hopen => ?_
  refine leaves_bind (leaves_readOpened hv) fun data w hw hread => leaves_checked_bind hw
    fun _ _ => ?_
  have hfiles : w.files = u.files := hread.1.trans hopen.1
  have hwrite : Changed (.reconcileLocalState now raw next maxBytes) d.files
      (w.files.withMetadata (m.insert (bindingID b) (entry.reconciled now next))) := by
    rw [hfiles]
    exact changed hm hu (.edited hedit)
  exact leaves_bind (leaves_writeMetadataLocked hw hwrite) fun _ x hx _ =>
    leaves_pure.mpr ⟨hx, trivial⟩

theorem leaves_remove :
    Leaves (remove raw) (Changed (.remove raw) d.files) (fun _ _ => True) d := by
  refine leaves_checked_bind (.inl rfl) fun b hb => leaves_section fun m u hm hu hquiet => ?_
  have hunlink : Leaves (call .io (removeBlob (bindingID b))) (Changed (.remove raw) d.files)
      (fun _ f => f = u.files.withBody (bindingID b) none) u := by
    refine leaves_call hquiet ?_ (files_removeBlob _ _)
    rw [files_removeBlob]
    exact changed hm hu (.unlinked hb)
  refine leaves_checked_bind hquiet fun _ _ => leaves_bind hunlink fun _ v hv hfiles => ?_
  have hremoved : Changed (.remove raw) d.files (v.files.withMetadata (m.erase (bindingID b))) := by
    rw [hfiles]
    exact changed hm hu (.removed hb)
  exact leaves_bind (leaves_writeMetadataLocked hv hremoved) fun _ w hw _ =>
    leaves_pure.mpr ⟨hw, trivial⟩

theorem leaves_inspect : Leaves (inspect raw) (Changed (.inspect raw) d.files) (fun e _ => ∃ b m,
    normalizeBinding raw = .ok b ∧ loaded d.files = .ok m ∧ m.lookup (bindingID b) = some e) d := by
  refine leaves_checked_bind (.inl rfl) fun b hb => leaves_section fun m u hm hu hquiet => ?_
  refine leaves_checked_bind hquiet fun _ hentry => leaves_pure.mpr ⟨hquiet, ?_⟩
  exact ⟨b, m, hb, hm, required_eq_ok.mp hentry⟩

theorem leaves_list : Leaves list (Changed .list d.files) (fun _ _ => True) d :=
  leaves_section fun _ _ _ _ hquiet => leaves_pure.mpr ⟨hquiet, trivial⟩

theorem leaves_verifyLocal :
    Leaves (verifyLocal raw maxBytes) (Changed (.verifyLocal raw maxBytes) d.files)
    (fun e _ => ∃ b data, normalizeBinding raw = .ok b ∧ Held d.files b maxBytes e data ∧
      sumsBody e.binding.cid data = true) d := by
  refine leaves_checked_bind (.inl rfl) fun b hb => leaves_section fun m u hm hu hquiet => ?_
  refine leaves_checked_bind hquiet fun entry hentry => ?_
  refine leaves_bind (leaves_openBoundedLocalBodyLocked hquiet) fun _ v hv hopen => ?_
  refine leaves_bind (leaves_readOpened hv) fun data w hw hread => leaves_checked_bind hw
    fun _ hstream => ?_
  obtain ⟨hfiles, hstate, hpresent, hlimit, hint, -⟩ := hopen
  obtain ⟨hsize, hsum⟩ := verifyLocalStream_eq_ok.mp hstream
  rw [← hsize, Int.toNat_natCast, List.take_length] at hsum
  refine leaves_pure.mpr ⟨hw, b, data, hb, ⟨⟨m, hm, required_eq_ok.mp hentry⟩, hstate, hpresent,
    ?_, ?_⟩, hsum⟩
  · exact hu.body_eq (by rw [← hfiles]; exact hread.2)
  · omega

theorem leaves_readLocalBounded :
    Leaves (readLocalBounded raw maxBytes) (Changed (.readLocalBounded raw maxBytes) d.files)
    (fun r _ => ∃ b, normalizeBinding raw = .ok b ∧ Held d.files b maxBytes r.2 r.1 ∧
      sumsBody b.cid r.1 = true) d := by
  refine leaves_checked_bind (.inl rfl) fun b hb => leaves_section fun m u hm hu hquiet => ?_
  refine leaves_checked_bind hquiet fun entry hentry => leaves_checked_bind hquiet fun _ _ => ?_
  refine leaves_bind (leaves_openBoundedLocalBodyLocked hquiet) fun _ v hv hopen => ?_
  refine leaves_bind (leaves_readOpened hv) fun data w hw hread => leaves_checked_bind hw
    fun _ hshort => ?_
  refine leaves_checked_bind hw fun _ hlong => leaves_checked_bind hw fun _ hsum => ?_
  obtain ⟨hfiles, hstate, hpresent, hlimit, hint, -⟩ := hopen
  rw [reject_eq_ok, not_lt] at hshort hlong
  have hnat : entry.size.toNat = data.length := by omega
  rw [hnat, List.take_length, reject_eq_ok, Bool.not_eq_false] at hsum
  rw [hnat, List.take_length]
  refine leaves_pure.mpr ⟨hw, b, hb, ⟨⟨m, hm, required_eq_ok.mp hentry⟩, hstate, hpresent,
    ?_, ?_⟩, hsum⟩
  · exact hu.body_eq (by rw [← hfiles]; exact hread.2)
  · simp only
    omega

theorem leaves_readVerified (now : Stamp) (raw : Binding)
    (verifier : Binding → VerificationEvidence → Bool) :
    Leaves (readVerified now raw verifier) (fun _ => True)
      (fun r _ => ∃ b m evidence, normalizeBinding raw = .ok b ∧
      loaded d.files = .ok m ∧ m.lookup (bindingID b) = some r.2 ∧ r.2.state = some .verifiedClean ∧
      r.2.verification = some evidence ∧ d.files.body (bindingID b) = some r.1 ∧
        sumsBody b.cid r.1 = true ∧
      verifier b evidence = true) d := by
  refine leaves_checked_bind trivial fun b hb => ?_
  refine leaves_bind ((leaves_readLocked hb).mono (fun _ _ => trivial) fun _ _ _ h => h)
    fun r u _ hread => ?_
  obtain ⟨m, hm, hentry, hstate, hevidence, hbody, hsum⟩ := hread
  by_cases hverified : verifier b r.2.2 = true
  · simp only [if_pos hverified]
    exact leaves_pure.mpr ⟨trivial, b, m, r.2.2, hb, hm, hentry, hstate, hevidence, hbody,
      hsum, hverified⟩
  · simp only [if_neg hverified]
    have hinvalid : Leaves (invalidate now b r.2.2) (fun _ => True) (fun _ _ => True) u :=
      (leaves_invalidate hb).mono (fun _ _ => trivial) fun _ _ _ _ => trivial
    exact leaves_bind (leaves_ignoring hinvalid) fun _ _ _ _ => leaves_fail.mpr trivial

end calls

end MaltClient.PayloadCache
