import MaltClient.JournalCalls
import MaltClient.JournalReadable

/-! What each edit of the journal does to a readable state. Everything a reload
demands except the clock and the sequence counter is kept by every edit; those
two are kept exactly under a condition on the clock readings. -/

namespace MaltClient.Journal

open GoText Checked AssocMap

def Refreshable (now : Int) (op : Operation) : Prop := now ≠ 0 ∧ op.createdAt ≤ now

variable {now : Int} {op : Operation} {ids : List GoString}

theorem timed_refresh_iff {op' : Operation} (h : Timed op) (hc : op'.createdAt = op.createdAt)
    (hu : op'.updatedAt = now) : Timed op' ↔ Refreshable now op := by
  constructor
  · intro ht
    exact ⟨hu ▸ ht.updated, by rw [← hc, ← hu]; exact ht.ordered⟩
  · rintro ⟨hn, hle⟩
    exact ⟨hc ▸ h.created, hu ▸ hn, by rw [hc, hu]; exact hle⟩

theorem nodup_of_normalizeOperationIDs {values : List GoString}
    (h : normalizeOperationIDs values = .ok ids) : ids.Nodup ∧ ids = values.map trimSpace := by
  simp only [normalizeOperationIDs, bind_eq_ok] at h
  obtain ⟨-, -, h⟩ := h
  refine foldlM_invariant (fun done ids => ids.Nodup ∧ ids = done.map trimSpace) h ⟨by simp, rfl⟩ ?_
  rintro done v todo ids ids' - ⟨hnd, rfl⟩ hstep
  simp only [ok_iff] at hstep
  obtain ⟨-, -, -, hfresh, rfl⟩ := hstep
  refine ⟨List.nodup_append.mpr ⟨hnd, by simp, ?_⟩, by simp⟩
  intro a ha b hb he
  rw [List.mem_singleton] at hb
  exact hfresh (by rw [← hb, ← he]; exact ha)

variable [CidFormat]

variable {s s' : PersistedState} {f : GoString → Operation → Operation}
  {operations : AList fun _ : GoString => Operation} {next : Status} {c r id : GoString}
  {allow : Operation → Except JournalError Unit} {settle : Operation → Operation}

structure WellFormed (s : PersistedState) (id : GoString) (op : Operation) : Prop where
  intent : op.toIntent.Normal
  sequence : op.sequence ≠ 0
  lifecycle : Lifecycle op
  key : op.operationID = id
  usedOperation : s.usedOperationIDs.lookup id = some true
  usedRetry : s.usedRetryIDs.lookup op.retryID = some true

structure Sound (s : PersistedState) : Prop where
  version : s.version = journalVersion
  record : ∀ id op, s.operations.lookup id = some op → WellFormed s id op
  sequence_inj : ∀ id₁ op₁ id₂ op₂, s.operations.lookup id₁ = some op₁ →
    s.operations.lookup id₂ = some op₂ → op₁.sequence = op₂.sequence → id₁ = id₂
  retry_inj : ∀ id₁ op₁ id₂ op₂, s.operations.lookup id₁ = some op₁ →
    s.operations.lookup id₂ = some op₂ → op₁.retryID = op₂.retryID → id₁ = id₂
  usedOperation : ∀ id used, s.usedOperationIDs.lookup id = some used → used = true ∧ Identity id
  usedRetry : ∀ id used, s.usedRetryIDs.lookup id = some used → used = true ∧ Identity id
  replacement : ∀ id op, s.operations.lookup id = some op → op.status = .superseded →
    ∃ r, ReplacementOk s op r
  inbound :
    ∀ id₁ op₁ id₂ op₂, s.operations.lookup id₁ = some op₁ → s.operations.lookup id₂ = some op₂ →
    op₁.status = .superseded → op₂.status = .superseded →
    op₁.replacementOperationID = op₂.replacementOperationID → id₁ = id₂

structure Punctual (s : PersistedState) : Prop where
  next : s.nextSequence ≠ 0
  timed : ∀ id op, s.operations.lookup id = some op → Timed op
  bound : ∀ id op, s.operations.lookup id = some op → op.sequence < s.nextSequence

theorem readable_iff : Readable s ↔ Sound s ∧ Punctual s := by
  constructor
  · intro h
    refine ⟨⟨h.version, fun id op hl => ?_, h.sequence_inj, h.retry_inj,
      h.usedOperation, h.usedRetry,
      h.replacement, h.inbound⟩, h.next, fun id op hl => (h.record id op hl).normal.timed,
      fun id op hl => (h.record id op hl).sequence⟩
    have hr := h.record id op hl
    exact ⟨hr.normal.intent, hr.normal.sequence, hr.normal.lifecycle, hr.key, hr.usedOperation,
      hr.usedRetry⟩
  · rintro ⟨h, hp⟩
    refine ⟨h.version, hp.next, fun id op hl => ?_, h.sequence_inj, h.retry_inj,
      h.usedOperation, h.usedRetry, h.replacement, h.inbound⟩
    have hr := h.record id op hl
    exact ⟨⟨hr.intent, hr.sequence, hp.timed id op hl, hr.lifecycle⟩, hr.key, hp.bound id op hl,
      hr.usedOperation, hr.usedRetry⟩

theorem reload_eq_of_sound {t : PersistedState} (hs : Sound s) (h : reloadLocked (some s) = .ok t) :
    t = s := by
  simp only [reloadLocked, ok_iff] at h
  obtain ⟨-, -, scan, hscan, -, -, -, -, _, -, rfl⟩ := h
  have hops : scan.operations = s.operations := by
    refine foldlM_invariant (fun _ (scan : ReloadScan) => scan.operations =
      s.operations) hscan rfl ?_
    rintro done e todo scan scan' hl hsame hstep
    obtain ⟨op, hop, -, -, -, rfl⟩ := reloadRecord_eq_ok hstep
    have hmem : s.operations.lookup e.1 = some e.2 := mem_entries_iff.mp (by simp [hl])
    have hw := hs.record e.1 e.2 hmem
    have htimed : Timed e.2 := by
      simp only [normalizeOperation, ok_iff, not_or, not_not] at hop
      obtain ⟨_, -, -, ⟨-, -, hcreated, hupdated, hordered⟩, -⟩ := hop
      exact ⟨hcreated, hupdated, by omega⟩
    have hnormal := normalizeOperation_of_normal ⟨hw.intent, hw.sequence, htimed, hw.lifecycle⟩
    obtain rfl : op = e.2 := Except.ok.inj (hop.symm.trans hnormal)
    change scan.operations.replace e.1 e.2 = s.operations
    rw [hsame, replace_eq_self hmem]
  rw [hops]

theorem Readable.sound (h : Readable s) : Sound s := (readable_iff.mp h).1

theorem Readable.punctual (h : Readable s) : Punctual s := (readable_iff.mp h).2

structure Rewrite (op op' : Operation) : Prop where
  intent : op'.toIntent = op.toIntent
  sequence : op'.sequence = op.sequence
  lifecycle : Lifecycle op'

theorem Sound.rewrite (h : Sound s)
    (hf : ∀ id, operations.lookup id = (s.operations.lookup id).map (f id))
    (hr : ∀ id op, s.operations.lookup id = some op → Rewrite op (f id op))
    (hlink : ∀ id op, s.operations.lookup id = some op → (f id op).status = .superseded →
      ∃ r, s.operations.lookup (f id op).replacementOperationID = some r ∧
        op.sequence < r.sequence ∧ r.datasetID = op.datasetID ∧ r.branch = op.branch)
    (hin : ∀ id₁ op₁ id₂ op₂, s.operations.lookup id₁ = some op₁ →
      s.operations.lookup id₂ = some op₂ →
      (f id₁ op₁).status = .superseded → (f id₂ op₂).status = .superseded →
      (f id₁ op₁).replacementOperationID = (f id₂ op₂).replacementOperationID → id₁ = id₂) :
    Sound { s with operations := operations } := by
  have hback (id : GoString) (op' : Operation) (hl : operations.lookup id = some op') :
      ∃ op, s.operations.lookup id = some op ∧ op' = f id op := by
    rw [hf id] at hl
    obtain ⟨op, hop, rfl⟩ := Option.map_eq_some_iff.mp hl
    exact ⟨op, hop, rfl⟩
  refine ⟨h.version, fun id op' hl => ?_, fun id₁ op₁ id₂ op₂ hl₁ hl₂ he => ?_,
    fun id₁ op₁ id₂ op₂ hl₁ hl₂ he => ?_, h.usedOperation, h.usedRetry, fun id op' hl hs => ?_,
    fun id₁ op₁ id₂ op₂ hl₁ hl₂ hs₁ hs₂ he => ?_⟩
  · obtain ⟨op, hop, rfl⟩ := hback id op' hl
    have hw := h.record id op hop
    have hi := (hr id op hop).intent
    refine ⟨hi ▸ hw.intent, (hr id op hop).sequence ▸ hw.sequence, (hr id op hop).lifecycle, ?_,
      hw.usedOperation, ?_⟩
    · rw [hi, hw.key]
    · rw [hi]
      exact hw.usedRetry
  · obtain ⟨o₁, ho₁, rfl⟩ := hback id₁ op₁ hl₁
    obtain ⟨o₂, ho₂, rfl⟩ := hback id₂ op₂ hl₂
    rw [(hr id₁ o₁ ho₁).sequence, (hr id₂ o₂ ho₂).sequence] at he
    exact h.sequence_inj id₁ o₁ id₂ o₂ ho₁ ho₂ he
  · obtain ⟨o₁, ho₁, rfl⟩ := hback id₁ op₁ hl₁
    obtain ⟨o₂, ho₂, rfl⟩ := hback id₂ op₂ hl₂
    rw [(hr id₁ o₁ ho₁).intent, (hr id₂ o₂ ho₂).intent] at he
    exact h.retry_inj id₁ o₁ id₂ o₂ ho₁ ho₂ he
  · obtain ⟨op, hop, rfl⟩ := hback id op' hl
    obtain ⟨r, hfound, hlater, hd, hb⟩ := hlink id op hop hs
    have hop' := hr id op hop
    have hr' := hr _ r hfound
    refine ⟨f (f id op).replacementOperationID r, ?_, ?_, ?_, ?_⟩
    · rw [hf, hfound]
      rfl
    · rw [hop'.sequence, hr'.sequence]
      exact hlater
    · rw [hr'.intent, hop'.intent, hd]
    · rw [hr'.intent, hop'.intent, hb]
  · obtain ⟨o₁, ho₁, rfl⟩ := hback id₁ op₁ hl₁
    obtain ⟨o₂, ho₂, rfl⟩ := hback id₂ op₂ hl₂
    exact hin id₁ o₁ id₂ o₂ ho₁ ho₂ hs₁ hs₂ he

structure Relabel (op op' : Operation) : Prop extends Rewrite op op' where
  was : op.status ≠ .superseded
  becomes : op'.status ≠ .superseded

theorem punctual_rewrite_iff (h : Punctual s)
    (hf : ∀ id, operations.lookup id = (s.operations.lookup id).map (f id))
    (hr : ∀ id op, s.operations.lookup id = some op → Rewrite op (f id op)) :
    Punctual { s with operations := operations } ↔
      ∀ id op, s.operations.lookup id = some op → Timed (f id op) := by
  have hforth (id : GoString) (op : Operation) (hl : s.operations.lookup id = some op) :
      operations.lookup id = some (f id op) := by
    rw [hf id, hl]
    rfl
  constructor
  · exact fun hp id op hl => hp.timed id _ (hforth id op hl)
  · intro ht
    refine ⟨h.next, fun id op' hl => ?_, fun id op' hl => ?_⟩ <;>
      (rw [hf id] at hl; obtain ⟨op, hop, rfl⟩ := Option.map_eq_some_iff.mp hl)
    · exact ht id op hop
    · rw [(hr id op hop).sequence]
      exact h.bound id op hop

theorem readable_refresh (hs : Readable s) {picked : GoString → Operation → Prop}
    [∀ id op, Decidable (picked id op)] {moved : Operation → Operation} (now : Int)
    (hf : ∀ id, operations.lookup id =
      (s.operations.lookup id).map fun op => if picked id op then moved op else op)
    (hm : ∀ id op, s.operations.lookup id = some op → picked id op → Relabel op (moved op) ∧
      (moved op).createdAt = op.createdAt ∧ (moved op).updatedAt = now) :
    Sound { s with operations := operations } ∧ (Punctual { s with operations := operations } ↔
      ∀ id op, s.operations.lookup id = some op → picked id op → Refreshable now op) := by
  have hrw (id : GoString) (op : Operation) (hl : s.operations.lookup id = some op) :
      Rewrite op (if picked id op then moved op else op) := by
    split_ifs with hp
    · exact (hm id op hl hp).1.toRewrite
    · exact ⟨rfl, rfl, (hs.sound.record id op hl).lifecycle⟩
  have hsame (id : GoString) (op : Operation) (hl : s.operations.lookup id = some op)
      (hsup : (if picked id op then moved op else op).status = .superseded) : ¬ picked id op := by
    intro hp
    rw [if_pos hp] at hsup
    exact (hm id op hl hp).1.becomes hsup
  refine ⟨hs.sound.rewrite hf hrw (fun id op hl hsup => ?_)
    (fun id₁ op₁ id₂ op₂ hl₁ hl₂ hs₁ hs₂ he => ?_),
    (punctual_rewrite_iff hs.punctual hf hrw).trans ?_⟩
  · have hp := hsame id op hl hsup
    rw [if_neg hp] at hsup ⊢
    obtain ⟨r, hfound, hlater, hd, hb⟩ := hs.replacement id op hl hsup
    exact ⟨r, hfound, hlater, hd, hb⟩
  · have hp₁ := hsame id₁ op₁ hl₁ hs₁
    have hp₂ := hsame id₂ op₂ hl₂ hs₂
    rw [if_neg hp₁] at hs₁ he
    rw [if_neg hp₂] at hs₂ he
    exact hs.inbound id₁ op₁ id₂ op₂ hl₁ hl₂ hs₁ hs₂ he
  have htimed (id : GoString) (op : Operation) (hl : s.operations.lookup id = some op)
    (hp : picked id op) : Timed (moved op) ↔ Refreshable now op :=
    timed_refresh_iff (hs.punctual.timed id op hl) (hm id op hl hp).2.1 (hm id op hl hp).2.2
  constructor
  · intro h id op hl hp
    have ht := h id op hl
    rw [if_pos hp] at ht
    exact (htimed id op hl hp).mp ht
  · intro h id op hl
    split_ifs with hp
    · exact (htimed id op hl hp).mpr (h id op hl hp)
    · exact hs.punctual.timed id op hl

/-- The conflict identity and result root that go with the wanted status of a
single transition. -/
def Target (next : Status) (conflictID resultRoot : GoString) : Prop :=
  match next with
  | .pendingUpload | .offlineOnly => conflictID = [] ∧ resultRoot = []
  | .conflicted => Identity conflictID ∧ resultRoot = []
  | .completed => conflictID = [] ∧ CanonicalCid resultRoot
  | _ => False

theorem Lifecycle.open_of_allowed (h : Lifecycle op)
    (ha : allowedStatusTransition op.status next = true) :
    op.status ≠ .superseded ∧ op.conflictID = [] ∧ op.replacementOperationID = [] ∧
      op.resultRoot = [] := by
  unfold Lifecycle at h
  cases hs : op.status <;> simp only [hs, allowedStatusTransition, Bool.false_eq_true] at h ha
  all_goals exact ⟨by simp, h⟩

theorem Target.lifecycle (now : Int) (ht : Target next c r) (hr : op.replacementOperationID = []) :
    Lifecycle { op with status := next, conflictID := c, resultRoot := r, updatedAt := now } ∧
      next ≠ .superseded := by
  cases next <;> simp only [Target] at ht
  all_goals
    refine ⟨?_, by simp⟩
    simp only [Lifecycle]
    exact ⟨ht.1, hr, ht.2⟩

omit [CidFormat] in
theorem transitionLocked_cases {result : Operation}
    (h : transitionLocked id next c r now s = .ok (s', result)) :
    ∃ op, s.operations.lookup id = some op ∧
      ((op.status = next ∧ s' = s) ∨
        (op.status ≠ next ∧ allowedStatusTransition op.status next = true ∧ s' = { s with
          operations := s.operations.insert id { op with
            status := next, conflictID := c, resultRoot := r, updatedAt := now } })) := by
  simp only [transitionLocked, ok_iff] at h
  obtain ⟨op, hop, h⟩ := h
  refine ⟨op, hop, ?_⟩
  by_cases hn : op.status = next
  · simp only [hn, if_true, ok_iff, Prod.mk.injEq] at h
    obtain ⟨-, -, rfl, -⟩ := h
    exact .inl ⟨hn, rfl⟩
  · simp only [hn, if_false, ok_iff, Bool.not_eq_false, Prod.mk.injEq] at h
    obtain ⟨-, hallowed, rfl, -⟩ := h
    exact .inr ⟨hn, hallowed, rfl⟩

omit [CidFormat] in
theorem lookup_insert_edit (f : Operation → Operation) (hop : operations.lookup id = some op)
    (k : GoString) :
    (operations.insert id (f op)).lookup k = (operations.lookup k).map fun o => if k = id
      then f o else o := by
  rw [lookup_insert_eq]
  split_ifs with hk
  · subst hk
    simp [hop]
  · simp

theorem transitionLocked_readable_iff {result : Operation} (hs : Readable s) (ht : Target next c r)
    (h : transitionLocked id next c r now s = .ok (s', result)) : Sound s' ∧ (Punctual s' ↔
      ∀ op, s.operations.lookup id = some op → op.status ≠ next → Refreshable now op) := by
  obtain ⟨op, hop, ⟨hn, rfl⟩ | ⟨hn, hallowed, rfl⟩⟩ := transitionLocked_cases h
  · refine ⟨hs.sound, iff_of_true hs.punctual fun op' hop' hne => ?_⟩
    rw [hop] at hop'
    exact absurd (Option.some.inj hop' ▸ hn) hne
  · obtain ⟨hopen, -, hrep, -⟩ := (hs.sound.record id op hop).lifecycle.open_of_allowed hallowed
    have hf := lookup_insert_edit (fun o => { o with
      status := next, conflictID := c, resultRoot := r, updatedAt := now }) hop
    obtain ⟨hsound, hpunctual⟩ := readable_refresh hs now hf fun k o ho hk => by
      subst hk
      rw [hop] at ho
      cases ho
      have hlife := ht.lifecycle now hrep
      exact ⟨⟨⟨rfl, rfl, hlife.1⟩, hopen, hlife.2⟩, rfl, rfl⟩
    refine ⟨hsound, hpunctual.trans ⟨fun hclock o ho _ => hclock id o ho rfl,
      fun hclock k o ho hk => ?_⟩⟩
    subst hk
    rw [hop] at ho
    cases ho
    exact hclock op hop hn

theorem selected_of_batch {selected : List Operation} (hs : Readable s)
    (h : ids.mapM (selectForBatch s allow) = .ok selected) : selected.map (·.operationID) = ids ∧
      ∀ op ∈ selected, s.operations.lookup op.operationID = some op ∧ allow op = .ok () := by
  have hall := mapM_eq_ok.mp h
  clear h
  induction hall with
  | nil => simp
  | cons hop _ ih =>
    simp only [selectForBatch, ok_iff] at hop
    obtain ⟨o, ho, _, hallow, rfl⟩ := hop
    have hkey := (hs.record _ o ho).key
    refine ⟨by simp [hkey, ih.1], fun op hm => ?_⟩
    rcases List.mem_cons.mp hm with rfl | hm
    · exact ⟨by rw [hkey]; exact ho, hallow⟩
    · exact ih.2 op hm

structure Settles (next : Status) (allow : Operation → Except JournalError Unit)
    (settle : Operation → Operation) : Prop where
  frame : ∀ op, (settle op).toIntent = op.toIntent ∧ (settle op).sequence = op.sequence ∧
    (settle op).createdAt = op.createdAt
  lifecycle :
    ∀ op now, Lifecycle op → allow op = .ok () → op.status ≠ next → op.status ≠ .superseded ∧
    Lifecycle (settled next settle now op)
  status : next ≠ .superseded

theorem batchLocked_cases {result : List Operation} (hs : Readable s) (hnd : ids.Nodup)
    (h : batchLocked next allow settle ids now s = .ok (s', result)) :
    (∀ id ∈ ids, ∃ op, s.operations.lookup id = some op ∧ allow op = .ok ()) ∧
      ∃ operations, s' = { s with operations := operations } ∧
        ∀ id, operations.lookup id = (s.operations.lookup id).map fun op =>
          if id ∈ ids ∧ op.status ≠ next then settled next settle now op else op := by
  simp only [batchLocked, ok_iff, Prod.mk.injEq] at h
  obtain ⟨selected, hsel, rfl, -⟩ := h
  obtain ⟨hids, hstored⟩ := selected_of_batch hs hsel
  have hadmitted : ∀ id ∈ ids, ∃ op, s.operations.lookup id = some op ∧ allow op = .ok () := by
    intro id hin
    rw [← hids] at hin
    obtain ⟨op, hop, rfl⟩ := List.mem_map.mp hin
    exact ⟨op, hstored op hop⟩
  refine ⟨hadmitted, _, rfl, fun id => ?_⟩
  generalize hchanged : (selected.filter fun op => op.status ≠ next).map
    (fun op => (op.operationID, settled next settle now op)) = changed
  have hkeys : (changed.map Prod.fst).Nodup := by
    have hfst :
      changed.map Prod.fst = (selected.filter fun op => op.status ≠ next).map (·.operationID) := by
      simp [← hchanged, Function.comp_def]
    rw [hfst]
    exact (hids ▸ hnd).sublist (List.filter_sublist.map _)
  by_cases hc : id ∈ changed.map Prod.fst
  · obtain ⟨⟨k, v⟩, hm, rfl⟩ := List.mem_map.mp hc
    obtain ⟨op, hop, heq⟩ := List.mem_map.mp (hchanged ▸ hm)
    obtain ⟨hop, hne⟩ := List.mem_filter.mp hop
    cases heq
    have hin : op.operationID ∈ ids := by rw [← hids]; exact List.mem_map_of_mem hop
    rw [lookup_insertAll_of_mem hkeys hm, (hstored op hop).1]
    simp [hin, by simpa using hne]
  · rw [lookup_insertAll_of_notMem hc]
    cases hl : s.operations.lookup id with
    | none => rfl
    | some op =>
      have hnot : ¬ (id ∈ ids ∧ op.status ≠ next) := by
        rintro ⟨hin, hne⟩
        rw [← hids] at hin
        obtain ⟨o, ho, rfl⟩ := List.mem_map.mp hin
        rw [(hstored o ho).1] at hl
        obtain rfl := Option.some.inj hl
        refine hc (List.mem_map.mpr ⟨(o.operationID, settled next settle now o), ?_, rfl⟩)
        rw [← hchanged]
        exact List.mem_map.mpr ⟨o, List.mem_filter.mpr ⟨ho, by simpa using hne⟩, rfl⟩
      simp only [Option.map_some, if_neg hnot]

theorem batchLocked_readable_iff
    {result : List Operation} (hs : Readable s) (hset : Settles next allow settle) (hnd : ids.Nodup)
    (h : batchLocked next allow settle ids now s = .ok (s', result)) : Sound s' ∧ (Punctual s' ↔
      ∀ id ∈ ids, ∀ op, s.operations.lookup id = some op → op.status ≠ next →
        Refreshable now op) := by
  obtain ⟨hadmitted, operations, rfl, hf⟩ := batchLocked_cases hs hnd h
  obtain ⟨hsound, hpunctual⟩ := readable_refresh hs now hf fun id op hl hp => by
    obtain ⟨o, ho, hallow⟩ := hadmitted id hp.1
    rw [ho] at hl
    obtain rfl := Option.some.inj hl
    obtain ⟨hopen, hlife⟩ := hset.lifecycle o now (hs.sound.record id o ho).lifecycle hallow hp.2
    obtain ⟨hi, hq, hc⟩ := hset.frame o
    exact ⟨⟨⟨hi, hq, hlife⟩, hopen, hset.status⟩, hc, rfl⟩
  exact ⟨hsound, hpunctual.trans ⟨fun hclock id hid op hl hne => hclock id op hl ⟨hid, hne⟩,
    fun hclock id op hl hp => hclock id hp.1 op hl hp.2⟩⟩

end MaltClient.Journal
