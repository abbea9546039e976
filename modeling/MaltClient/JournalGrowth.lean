import MaltClient.JournalEdits

/-! The edits that add or remove records: a new intent, a conflicted record
replaced by a new one, and the pruning of finished chains. -/

namespace MaltClient.Journal

open GoText Checked AssocMap

theorem UInt64.lt_add_one_of_ne_zero {n : UInt64} (h : n + 1 ≠ 0) : n < n + 1 := by
  rw [UInt64.lt_iff_toNat_lt]
  have hn := n.toNat_lt
  have hs : (n + 1).toNat = (n.toNat + 1) % 2 ^ 64 := by simp [UInt64.toNat_add]
  have hne : (n + 1).toNat ≠ 0 := fun h0 => h (UInt64.toNat.inj (by simpa using h0))
  omega

variable {op : Operation} {s s' : PersistedState} {initial : Status} {intent : Intent} {now : Int}
  {id : GoString}

theorem appendLocked_cases (h : appendLocked now intent initial s = .ok (s', op)) :
    (s.operations.lookup intent.operationID = some op ∧ op.toIntent = intent ∧ s' = s) ∨
      (s.operations.lookup intent.operationID = none ∧
        s.usedOperationIDs.lookup intent.operationID ≠ some true ∧
        s.usedRetryIDs.lookup intent.retryID ≠ some true ∧
        op = newOperation now intent initial s ∧ s' = s.add op) := by
  unfold appendLocked at h
  split at h
  · rename_i existing hl
    split_ifs at h with hi
    cases h
    exact .inl ⟨hl, not_not.mp hi, rfl⟩
  · rename_i hl
    simp only [ok_iff, not_or, Prod.mk.injEq] at h
    obtain ⟨-, ⟨huo, hur⟩, rfl, rfl⟩ := h
    exact .inr ⟨hl, huo, hur, rfl, rfl⟩

theorem prunedIDs_closed (hop : s.operations.lookup id = some op) (hsup : op.status = .superseded)
    (hr : op.replacementOperationID ∈ prunedIDs s) : id ∈ prunedIDs s := by
  have hfuel : Saturation.missing Sigma.fst s.operations.entries (completedIDs s) <
      s.operations.entries.length + 1 := Nat.lt_succ_of_le List.countP_le_length
  exact Saturation.saturate_closed hfuel ⟨id, op⟩ (mem_entries_iff.mpr hop)
    (by simpa [joinsPruned, hsup, prunedIDs] using hr)

variable [CidFormat]

variable {t : Int} {current r : Operation} {result : Operation × Operation} {replacement : Intent}

structure Fresh (s : PersistedState) (intent : Intent) : Prop where
  normal : intent.Normal
  absent : s.operations.lookup intent.operationID = none
  unusedRetry : s.usedRetryIDs.lookup intent.retryID ≠ some true

theorem lifecycle_newOperation
    (h : initial = .localDirty ∨ initial = .offlineOnly) :
    Lifecycle (newOperation now intent initial s) := by
  rcases h with rfl | rfl <;> exact ⟨rfl, rfl, rfl⟩

theorem Readable.sound_add (hs : Readable s)
    (hfresh : Fresh s intent) (hinit : initial = .localDirty ∨ initial = .offlineOnly) :
    Sound (s.add (newOperation now intent initial s)) := by
  set op := newOperation now intent initial s with hop
  have hlookup (k : GoString) : (s.add op).operations.lookup k =
      if k = intent.operationID then some op else s.operations.lookup k :=
        lookup_insert_eq k _ op s.operations
  have hold (k : GoString) (o : Operation) (ho : s.operations.lookup k = some o) :
    k ≠ intent.operationID := by
    rintro rfl
    rw [hfresh.absent] at ho
    simp at ho
  have hids := hfresh.normal.identity
  have hnew (k : GoString) (o : Operation) (ho : (s.add op).operations.lookup k = some o) :
      (k = intent.operationID ∧ o = op) ∨ s.operations.lookup k = some o := by
    rw [hlookup] at ho
    split_ifs at ho with hk
    · exact .inl ⟨hk, (Option.some.inj ho).symm⟩
    · exact .inr ho
  have hretry (k : GoString) (o : Operation) (ho : s.operations.lookup k = some o) :
      o.retryID ≠ intent.retryID := fun he => hfresh.unusedRetry (he ▸ (hs.record k o ho).usedRetry)
  have hseq (k : GoString) (o : Operation) (ho : s.operations.lookup k = some o) :
      o.sequence ≠ s.nextSequence := fun he => by
    have hlt := (hs.record k o ho).sequence
    rw [he] at hlt
    exact UInt64.lt_irrefl _ hlt
  have hopen : op.status ≠ .superseded := by
    rcases hinit with rfl | rfl <;> simp [hop, newOperation]
  refine ⟨hs.version, fun k o ho => ?_, fun k₁ o₁ k₂ o₂ h₁ h₂ he => ?_,
    fun k₁ o₁ k₂ o₂ h₁ h₂ he => ?_,
    fun id used hu => ?_, fun id used hu => ?_, fun k o ho hsup => ?_,
    fun k₁ o₁ k₂ o₂ h₁ h₂ hs₁ hs₂ he => ?_⟩
  · rcases hnew k o ho with ⟨rfl, rfl⟩ | ho
    · exact ⟨hfresh.normal, hs.next, lifecycle_newOperation hinit, rfl,
        by simp [PersistedState.add, hop, newOperation], by simp [PersistedState.add]⟩
    · have hw := hs.sound.record k o ho
      refine ⟨hw.intent, hw.sequence, hw.lifecycle, hw.key, ?_, ?_⟩
      · simp only [PersistedState.add, lookup_insert_eq]
        split_ifs
        · rfl
        · exact hw.usedOperation
      · simp only [PersistedState.add, lookup_insert_eq]
        split_ifs
        · rfl
        · exact hw.usedRetry
  · rcases hnew k₁ o₁ h₁ with ⟨rfl, rfl⟩ | h₁ <;> rcases hnew k₂ o₂ h₂ with ⟨rfl, rfl⟩ | h₂
    · rfl
    · exact absurd he.symm (hseq k₂ o₂ h₂)
    · exact absurd he (hseq k₁ o₁ h₁)
    · exact hs.sequence_inj k₁ o₁ k₂ o₂ h₁ h₂ he
  · rcases hnew k₁ o₁ h₁ with ⟨rfl, rfl⟩ | h₁ <;> rcases hnew k₂ o₂ h₂ with ⟨rfl, rfl⟩ | h₂
    · rfl
    · exact absurd he.symm (hretry k₂ o₂ h₂)
    · exact absurd he (hretry k₁ o₁ h₁)
    · exact hs.retry_inj k₁ o₁ k₂ o₂ h₁ h₂ he
  · simp only [PersistedState.add, lookup_insert_eq] at hu
    split_ifs at hu with hk
    · exact ⟨(Option.some.inj hu).symm,
        hk ▸ hids _ (by simp [Intent.identities, hop, newOperation])⟩
    · exact hs.usedOperation id used hu
  · simp only [PersistedState.add, lookup_insert_eq] at hu
    split_ifs at hu with hk
    · exact ⟨(Option.some.inj hu).symm,
        hk ▸ hids _ (by simp [Intent.identities, hop, newOperation])⟩
    · exact hs.usedRetry id used hu
  · rcases hnew k o ho with ⟨rfl, rfl⟩ | ho
    · exact absurd hsup hopen
    · obtain ⟨r, hfound, hlater, hd, hb⟩ := hs.replacement k o ho hsup
      exact ⟨r, by rw [hlookup, if_neg (hold _ r hfound), hfound], hlater, hd, hb⟩
  · rcases hnew k₁ o₁ h₁ with ⟨rfl, rfl⟩ | h₁
    · exact absurd hs₁ hopen
    rcases hnew k₂ o₂ h₂ with ⟨rfl, rfl⟩ | h₂
    · exact absurd hs₂ hopen
    exact hs.inbound k₁ o₁ k₂ o₂ h₁ h₂ hs₁ hs₂ he

/-- A new record keeps the clock and counter conditions exactly when its clock
reading is set and the counter does not wrap around. -/
theorem Readable.punctual_add_iff (hs : Readable s) :
    Punctual (s.add (newOperation now intent initial s)) ↔ now ≠ 0 ∧ s.nextSequence + 1 ≠ 0 := by
  set op := newOperation now intent initial s
  have hlookup (k : GoString) : (s.add op).operations.lookup k =
      if k = intent.operationID then some op else s.operations.lookup k :=
        lookup_insert_eq k _ op s.operations
  constructor
  · intro hp
    exact ⟨(hp.timed intent.operationID op (by rw [hlookup, if_pos rfl])).created, hp.next⟩
  · rintro ⟨hnow, hnext⟩
    have hlt := UInt64.lt_add_one_of_ne_zero hnext
    refine ⟨hnext, fun k o ho => ?_, fun k o ho => ?_⟩ <;> rw [hlookup] at ho <;>
      split_ifs at ho with hk
    · cases ho
      exact ⟨hnow, hnow, le_refl now⟩
    · exact hs.punctual.timed k o ho
    · cases ho
      exact hlt
    · exact UInt64.lt_trans (hs.punctual.bound k o ho) hlt

theorem appendLocked_readable_iff (hs : Readable s) (hi : intent.Normal)
    (hinit : initial = .localDirty ∨ initial = .offlineOnly)
    (h : appendLocked now intent initial s = .ok (s', op)) : Sound s' ∧ (Punctual s' ↔
      (s.operations.lookup intent.operationID = none → now ≠ 0 ∧ s.nextSequence + 1 ≠ 0)) := by
  rcases appendLocked_cases h with ⟨hl, -, rfl⟩ | ⟨hl, -, hur, rfl, rfl⟩
  · exact ⟨hs.sound, iff_of_true hs.punctual (by simp [hl])⟩
  · exact ⟨hs.sound_add ⟨hi, hl, hur⟩ hinit, by simpa [hl] using hs.punctual_add_iff⟩

theorem supersede_sound (hs : Readable s) (hr : r = newOperation now intent initial s)
    (hfresh : Fresh s intent) (hinit : initial = .localDirty ∨ initial = .offlineOnly)
    (hcur : s.operations.lookup id = some current) (hconf : current.status = .conflicted)
    (hd : intent.datasetID = current.datasetID) (hb : intent.branch = current.branch) :
    Sound { s.add r with
      operations := (s.add r).operations.insert id (current.supersede r.operationID t) } := by
  have hadd : Sound (s.add r) := hr ▸ hs.sound_add hfresh hinit
  have hrid : r.operationID = intent.operationID := by rw [hr]; rfl
  have hlookup (k : GoString) : (s.add r).operations.lookup k =
      if k = r.operationID then some r else s.operations.lookup k :=
        lookup_insert_eq k _ r s.operations
  have hne : id ≠ r.operationID := by
    rintro rfl
    rw [hrid, hfresh.absent] at hcur
    simp at hcur
  have hcur' : (s.add r).operations.lookup id = some current := by rw [hlookup, if_neg hne, hcur]
  -- No record pointed at the new identity, because every replacement is stored.
  have hnolink (k : GoString) (o : Operation) (ho : (s.add r).operations.lookup k = some o)
      (hsup : o.status = .superseded) : o.replacementOperationID ≠ r.operationID := by
    rw [hlookup] at ho
    split_ifs at ho with hk
    · cases ho
      rcases hinit with rfl | rfl <;> simp [hr, newOperation] at hsup
    · obtain ⟨q, hfound, -⟩ := hs.replacement k o ho hsup
      intro he
      rw [he, hrid, hfresh.absent] at hfound
      simp at hfound
  have hf (k : GoString) :
    ((s.add r).operations.insert id (current.supersede r.operationID t)).lookup k =
      ((s.add r).operations.lookup k).map fun o => if k = id then o.supersede r.operationID t
        else o := by
    rw [lookup_insert_eq]
    split_ifs with hk
    · rw [hk, hcur']
      rfl
    · simp
  have hconflict : Identity current.conflictID ∧ current.resultRoot = [] := by
    have hl := (hs.sound.record id current hcur).lifecycle
    simp only [Lifecycle, hconf] at hl
    exact ⟨hl.1, hl.2.2⟩
  have hridentity : Identity r.operationID := by
    rw [hrid]
    exact hfresh.normal.identity _ (by simp [Intent.identities])
  have hat (o : Operation) (ho : (s.add r).operations.lookup id = some o) : o = current := by
    rw [hcur'] at ho
    exact (Option.some.inj ho).symm
  refine hadd.rewrite hf (fun k o ho => ?_) (fun k o ho hsup => ?_)
    (fun k₁ o₁ k₂ o₂ h₁ h₂ hs₁ hs₂ he => ?_)
  · split_ifs with hk
    · subst hk
      obtain rfl := hat o ho
      exact ⟨rfl, rfl, hconflict.1, hridentity, hconflict.2⟩
    · exact ⟨rfl, rfl, (hadd.record k o ho).lifecycle⟩
  · by_cases hk : k = id
    · subst hk
      obtain rfl := hat o ho
      rw [if_pos rfl]
      refine ⟨r, (hlookup r.operationID).trans (if_pos rfl), ?_, ?_, ?_⟩
      · rw [hr]
        exact hs.punctual.bound k o hcur
      · rw [hr]
        exact hd
      · rw [hr]
        exact hb
    · rw [if_neg hk] at hsup ⊢
      obtain ⟨q, hfound, hlater, hqd, hqb⟩ := hadd.replacement k o ho hsup
      exact ⟨q, hfound, hlater, hqd, hqb⟩
  · split_ifs at hs₁ hs₂ he with hk₁ hk₂ hk₂
    · rw [hk₁, hk₂]
    · exact absurd he.symm (hnolink k₂ o₂ h₂ hs₂)
    · exact absurd he (hnolink k₁ o₁ h₁ hs₁)
    · exact hadd.inbound k₁ o₁ k₂ o₂ h₁ h₂ hs₁ hs₂ he

theorem supersede_punctual_iff (hs : Readable s) (hr : r = newOperation now intent initial s)
    (habs : s.operations.lookup intent.operationID = none)
    (hcur : s.operations.lookup id = some current) : Punctual { s.add r with
      operations := (s.add r).operations.insert id (current.supersede r.operationID t) } ↔
      (now ≠ 0 ∧ s.nextSequence + 1 ≠ 0) ∧ Refreshable t current := by
  have hrid : r.operationID = intent.operationID := by rw [hr]; rfl
  have hne : r.operationID ≠ id := by
    rintro rfl
    rw [hrid, habs] at hcur
    simp at hcur
  have hlookup (k : GoString) :
    ((s.add r).operations.insert id (current.supersede r.operationID t)).lookup k =
      if k = id then some (current.supersede r.operationID t) else (s.add r).operations.lookup k :=
    lookup_insert_eq k id _ _
  have hmoved : Timed (current.supersede r.operationID t) ↔ Refreshable t current :=
    timed_refresh_iff (hs.punctual.timed id current hcur) rfl rfl
  have hrfound : (s.add r).operations.lookup r.operationID = some r :=
    (lookup_insert_eq _ _ r s.operations).trans (if_pos rfl)
  constructor
  · intro hp
    have hrt := hp.timed r.operationID r ((hlookup _).trans ((if_neg hne).trans hrfound))
    refine ⟨⟨?_, hp.next⟩, hmoved.mp (hp.timed id _ ((hlookup id).trans (if_pos rfl)))⟩
    rw [hr] at hrt
    exact hrt.created
  · rintro ⟨hadd, hclock⟩
    have hpa : Punctual (s.add r) := hr ▸ hs.punctual_add_iff.mpr hadd
    have hcur' : (s.add r).operations.lookup id = some current :=
      (lookup_insert_eq _ _ r s.operations).trans ((if_neg hne.symm).trans hcur)
    refine ⟨hpa.next, fun k o ho => ?_, fun k o ho => ?_⟩ <;> simp only [hlookup] at ho <;>
      split_ifs at ho with hk
    · exact Option.some.inj ho ▸ hmoved.mpr hclock
    · exact hpa.timed k o ho
    · cases ho
      exact hpa.bound id current hcur'
    · exact hpa.bound k o ho

omit [CidFormat] in
theorem resolveLocked_cases (h : resolveLocked id replacement initial now t s = .ok (s', result)) :
    ∃ current, s.operations.lookup id = some current ∧
      ((current.status = .superseded ∧ s.operations.lookup replacement.operationID = some result.2 ∧
          result.2.toIntent = replacement ∧ s' = s) ∨
        (current.status = .conflicted ∧ replacement.datasetID = current.datasetID ∧
          replacement.branch = current.branch ∧ s.operations.lookup replacement.operationID = none ∧
          s.usedOperationIDs.lookup replacement.operationID ≠ some true ∧
          s.usedRetryIDs.lookup replacement.retryID ≠ some true ∧
          result.2 = newOperation now replacement initial s ∧
          s' = { s.add result.2 with
            operations :=
              (s.add result.2).operations.insert id (current.supersede result.2.operationID t)
                })) := by
  simp only [resolveLocked, ok_iff] at h
  obtain ⟨current, hcur, h⟩ := h
  refine ⟨current, hcur, ?_⟩
  by_cases hsup : current.status = .superseded
  · simp only [hsup, if_true, ok_iff, not_not, Prod.mk.injEq] at h
    obtain ⟨-, -, existing, hfound, -, hsame, rfl, rfl⟩ := h
    exact .inl ⟨hsup, hfound, hsame, rfl⟩
  · simp only [hsup, if_false, ok_iff, not_not, not_or, Bool.not_eq_true,
      Option.isSome_eq_false_iff, Option.isNone_iff_eq_none, Prod.mk.injEq, Prod.exists] at h
    obtain ⟨-, hconf, -, ⟨hd, hb⟩, -, habs, s₁, r, happ, rfl, rfl⟩ := h
    rcases appendLocked_cases happ with ⟨hfound, -⟩ | ⟨-, hid, hretry, hr, rfl⟩
    · rw [habs] at hfound
      simp at hfound
    · exact .inr ⟨hconf, hd, hb, habs, hid, hretry, hr, rfl⟩

theorem resolveLocked_readable_iff (hs : Readable s) (hi : replacement.Normal)
    (hinit : initial = .localDirty ∨ initial = .offlineOnly)
    (h : resolveLocked id replacement initial now t s = .ok (s', result)) :
    Sound s' ∧ (Punctual s' ↔ ∀ op, s.operations.lookup id = some op → op.status ≠ .superseded →
        (now ≠ 0 ∧ s.nextSequence + 1 ≠ 0) ∧ Refreshable t op) := by
  obtain ⟨current, hcur, ⟨hsup, -, -, rfl⟩ | ⟨hconf, hd, hb, habs, -, hretry, hr, rfl⟩⟩ :=
    resolveLocked_cases h
  · refine ⟨hs.sound, iff_of_true hs.punctual fun op hop hne => ?_⟩
    rw [hcur] at hop
    exact absurd (Option.some.inj hop ▸ hsup) hne
  · refine ⟨supersede_sound hs hr ⟨hi, habs, hretry⟩ hinit hcur hconf hd hb, ?_⟩
    rw [supersede_punctual_iff hs hr habs hcur]
    refine ⟨fun hc op hop _ => ?_, fun hc => hc current hcur (by simp [hconf])⟩
    rw [hcur] at hop
    exact Option.some.inj hop ▸ hc

theorem pruneLocked_readable {n : Nat} (hs : Readable s)
    (h : pruneLocked s = .ok (s', n)) : Sound s' ∧ Punctual s' := by
  cases h
  have hkept (k : GoString) (o : Operation)
      (ho : (eraseAll s.operations (prunedIDs s)).lookup k = some o) :
      s.operations.lookup k = some o ∧ k ∉ prunedIDs s := by
    rw [lookup_eraseAll] at ho
    split_ifs at ho with hk
    exact ⟨ho, hk⟩
  refine ⟨⟨hs.version, fun k o ho => ?_, fun k₁ o₁ k₂ o₂ h₁ h₂ => ?_, fun k₁ o₁ k₂ o₂ h₁ h₂ => ?_,
    hs.usedOperation, hs.usedRetry, fun k o ho hsup => ?_, fun k₁ o₁ k₂ o₂ h₁ h₂ => ?_⟩,
    hs.next, fun k o ho => ?_, fun k o ho => ?_⟩
  · obtain ⟨hi, hq, hl, hk, huo, hur⟩ := hs.sound.record k o (hkept k o ho).1
    exact ⟨hi, hq, hl, hk, huo, hur⟩
  · exact hs.sequence_inj k₁ o₁ k₂ o₂ (hkept k₁ o₁ h₁).1 (hkept k₂ o₂ h₂).1
  · exact hs.retry_inj k₁ o₁ k₂ o₂ (hkept k₁ o₁ h₁).1 (hkept k₂ o₂ h₂).1
  · obtain ⟨ho, hk⟩ := hkept k o ho
    obtain ⟨r, hfound, hlater, hd, hb⟩ := hs.replacement k o ho hsup
    refine ⟨r, ?_, hlater, hd, hb⟩
    rw [lookup_eraseAll, if_neg fun hr => hk (prunedIDs_closed ho hsup hr), hfound]
  · exact hs.inbound k₁ o₁ k₂ o₂ (hkept k₁ o₁ h₁).1 (hkept k₂ o₂ h₂).1
  · exact hs.punctual.timed k o (hkept k o ho).1
  · exact hs.punctual.bound k o (hkept k o ho).1

end MaltClient.Journal
