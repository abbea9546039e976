import MaltClient.JournalRuns

/-! Identities in the journal. What a call can do to the records is said once;
along a run, an identity then keeps denoting the intent it was recorded with. -/

namespace MaltClient.Journal

open GoText Checked AssocMap
open LockedFile (Fault)

def Status.rank : Status → Nat
  | .localDirty | .offlineOnly => 0
  | .pendingUpload => 1
  | .conflicted => 2
  | .completed | .superseded | .other _ => 3

/-- The order in which a record may take on its statuses: only the two local
ones can alternate. -/
def Status.Precedes (a b : Status) : Prop := a = b ∨ a.rank < b.rank ∨ (a.rank = 0 ∧ b.rank = 0)

variable {a b next initial : Status} {s s' : PersistedState} {now : Int} {op : Operation}

theorem Status.Precedes.trans {c : Status} (h : a.Precedes b) (h' : b.Precedes c) :
    a.Precedes c := by
  rcases h with rfl | h
  · exact h'
  · rcases h' with rfl | h'
    · exact .inr h
    · refine .inr ?_
      omega

theorem Status.Precedes.eq_of_rank (h : a.Precedes b) (ha : a.rank = 3) : a = b := by
  have hb : b.rank ≤ 3 := by cases b <;> simp [Status.rank]
  rcases h with rfl | h
  · rfl
  · omega

theorem Status.Precedes.rank_pos (h : a.Precedes b) (ha : 0 < a.rank) : 0 < b.rank := by
  rcases h with rfl | h <;> omega

theorem precedes_of_allowed (h : allowedStatusTransition a b = true) : a.Precedes b := by
  have hrank : a.rank < b.rank ∨ (a.rank = 0 ∧ b.rank = 0) := by
    cases a <;> cases b <;> simp_all [allowedStatusTransition, Status.rank]
  exact .inr hrank

structure Follows (op op' : Operation) : Prop where
  intent : op'.toIntent = op.toIntent
  sequence : op'.sequence = op.sequence
  status : op.status.Precedes op'.status

theorem Follows.refl (op : Operation) : Follows op op := ⟨rfl, rfl, .inl rfl⟩

theorem Follows.trans {a b c : Operation} (h : Follows a b) (h' : Follows b c) : Follows a c :=
  ⟨h'.intent.trans h.intent, h'.sequence.trans h.sequence, h.status.trans h'.status⟩

structure Added (s s' : PersistedState) (op : Operation) : Prop where
  unusedOperation : s.usedOperationIDs.lookup op.operationID ≠ some true
  unusedRetry : s.usedRetryIDs.lookup op.retryID ≠ some true
  sequence : op.sequence = s.nextSequence
  next : s'.nextSequence = s.nextSequence + 1

structure Evolves (s s' : PersistedState) : Prop where
  record : ∀ id op', s'.operations.lookup id = some op' →
    (∃ op, s.operations.lookup id = some op ∧ Follows op op') ∨
      (op'.operationID = id ∧ Added s s' op')
  usedOperation :
    ∀ id, s.usedOperationIDs.lookup id = some true → s'.usedOperationIDs.lookup id = some true
  usedRetry : ∀ id, s.usedRetryIDs.lookup id = some true → s'.usedRetryIDs.lookup id = some true
  next : s'.nextSequence = s.nextSequence ∨ s'.nextSequence = s.nextSequence + 1

def Retains (s s' : PersistedState) : Prop :=
  ∀ id, s.operations.lookup id ≠ none → s'.operations.lookup id ≠ none

theorem Evolves.refl (s : PersistedState) : Evolves s s :=
  ⟨fun _ op h => .inl ⟨op, h, .refl op⟩, fun _ h => h, fun _ h => h, .inl rfl⟩

theorem Evolves.edit {s₁ : PersistedState} (h : Evolves s s₁) (hk : Retains s s₁)
    {operations : AList fun _ : GoString => Operation} {f : GoString → Operation → Operation}
    (hf : ∀ id, operations.lookup id = (s₁.operations.lookup id).map (f id))
    (hr : ∀ id op, s₁.operations.lookup id = some op → Follows op (f id op)) :
    Evolves s { s₁ with operations := operations } ∧
      Retains s { s₁ with operations := operations } := by
  refine ⟨⟨fun id op' hl => ?_, h.usedOperation, h.usedRetry, h.next⟩, fun id hl => ?_⟩
  · obtain ⟨op₁, hop₁, rfl⟩ := Option.map_eq_some_iff.mp ((hf id).symm.trans hl)
    have hfollows := hr id op₁ hop₁
    rcases h.record id op₁ hop₁ with ⟨op, hop, hop'⟩ | ⟨hid, hadded⟩
    · exact .inl ⟨op, hop, hop'.trans hfollows⟩
    · refine .inr ⟨by rw [hfollows.intent, hid], ?_, ?_, hfollows.sequence.trans hadded.sequence,
        hadded.next⟩
      · rw [hfollows.intent]
        exact hadded.unusedOperation
      · rw [hfollows.intent]
        exact hadded.unusedRetry
  · rw [hf id]
    simpa using hk id hl

theorem lookup_add (s : PersistedState) (op : Operation) (k : GoString) :
    (s.add op).operations.lookup k = if k = op.operationID then some op
      else s.operations.lookup k :=
  lookup_insert_eq k op.operationID op s.operations

theorem evolves_add (now : Int) {intent : Intent} (initial : Status)
    (hid : s.usedOperationIDs.lookup intent.operationID ≠ some true)
    (hretry : s.usedRetryIDs.lookup intent.retryID ≠ some true) :
    Evolves s (s.add (newOperation now intent initial s)) ∧
      Retains s (s.add (newOperation now intent initial s)) := by
  refine ⟨⟨fun id op' h => ?_, fun id h => ?_, fun id h => ?_, .inr rfl⟩, fun id h => ?_⟩
  · rw [lookup_add] at h
    split_ifs at h with hk
    · cases h
      exact .inr ⟨hk.symm, hid, hretry, rfl, rfl⟩
    · exact .inl ⟨op', h, .refl op'⟩
  · refine (lookup_insert_eq id _ true s.usedOperationIDs).trans ?_
    split_ifs <;> simp_all
  · refine (lookup_insert_eq id _ true s.usedRetryIDs).trans ?_
    split_ifs <;> simp_all
  · rw [lookup_add]
    split_ifs <;> simp_all

theorem transitionLocked_evolves {id c r : GoString}
    {result : Operation} (h : transitionLocked id next c r now s = .ok (s', result)) :
    Evolves s s' ∧ Retains s s' := by
  obtain ⟨op, hop, ⟨-, rfl⟩ | ⟨-, hallowed, rfl⟩⟩ := transitionLocked_cases h
  · exact ⟨.refl _, fun _ hl => hl⟩
  · refine (Evolves.refl s).edit (fun _ hl => hl) (lookup_insert_edit (fun o => { o with
      status := next, conflictID := c, resultRoot := r, updatedAt := now }) hop) fun k o ho => ?_
    split_ifs with hk
    · subst hk
      rw [hop] at ho
      cases ho
      exact ⟨rfl, rfl, precedes_of_allowed hallowed⟩
    · exact .refl o

theorem appendLocked_evolves {intent : Intent}
    (h : appendLocked now intent initial s = .ok (s', op)) :
    Evolves s s' ∧ Retains s s' ∧ op.toIntent = intent ∧ s'.operations.lookup intent.operationID =
      some op := by
  rcases appendLocked_cases h with ⟨hl, hsame, rfl⟩ | ⟨-, hid, hretry, rfl, rfl⟩
  · exact ⟨.refl _, fun _ h => h, hsame, hl⟩
  · obtain ⟨hadd, hkeep⟩ := evolves_add now initial hid hretry
    exact ⟨hadd, hkeep, rfl, by simp [lookup_add, newOperation]⟩

theorem resolveLocked_evolves {id : GoString} {replacement : Intent} {t : Int}
    {result : Operation × Operation}
    (h : resolveLocked id replacement initial now t s = .ok (s', result)) :
    Evolves s s' ∧ Retains s s' ∧ result.2.toIntent = replacement ∧
      s'.operations.lookup replacement.operationID = some result.2 := by
  obtain ⟨current, hcur, ⟨-, hfound, hsame, rfl⟩ | ⟨hconf, -, -, habs, hid, hretry, hr, rfl⟩⟩ :=
    resolveLocked_cases h
  · exact ⟨.refl _, fun _ h => h, hsame, hfound⟩
  have hrid : result.2.operationID = replacement.operationID := by rw [hr]; rfl
  have hne : id ≠ replacement.operationID := by
    rintro rfl
    simp [hcur] at habs
  have hcur' : (s.add result.2).operations.lookup id = some current := by
    rw [lookup_add, hrid, if_neg hne, hcur]
  obtain ⟨hadd, hkeep⟩ :
    Evolves s (s.add result.2) ∧ Retains s (s.add result.2) :=
      hr ▸ evolves_add now initial hid hretry
  obtain ⟨hevolves, hretains⟩ := hadd.edit hkeep
    (lookup_insert_edit (fun o => o.supersede result.2.operationID t) hcur') fun k o ho => by
      split_ifs with hk
      · subst hk
        rw [hcur'] at ho
        cases ho
        exact ⟨rfl, rfl, .inr (.inl (by rw [hconf]; exact Nat.lt_succ_self 2))⟩
      · exact .refl o
  refine ⟨hevolves, hretains, by rw [hr]; rfl, ?_⟩
  rw [lookup_insert_eq, if_neg hne.symm, lookup_add, hrid, if_pos rfl]

theorem pruneLocked_evolves {n : Nat} (h : pruneLocked s = .ok (s', n)) : Evolves s s' := by
  cases h
  refine ⟨fun id op hl => .inl ?_, fun _ h => h, fun _ h => h, .inl rfl⟩
  rw [lookup_eraseAll] at hl
  split_ifs at hl with hk
  exact ⟨op, hl, .refl op⟩

section

structure Admits (next : Status) (allow : Operation → Except JournalError Unit)
    (settle : Operation → Operation) : Prop where
  frame : ∀ op, (settle op).toIntent = op.toIntent ∧ (settle op).sequence = op.sequence
  precedes : ∀ op, allow op = .ok () → op.status.Precedes next

variable [CidFormat]

theorem batchLocked_evolves {next : Status} {allow : Operation → Except JournalError Unit}
    {settle : Operation → Operation} {values ids : List GoString} {now : Int}
    {s s' : PersistedState}
    {result : List Operation} (hs : Readable s) (ha : Admits next allow settle)
    (hids : normalizeOperationIDs values = .ok ids)
    (h : batchLocked next allow settle ids now s = .ok (s', result)) :
    Evolves s s' ∧ Retains s s' := by
  obtain ⟨hnd, -⟩ := nodup_of_normalizeOperationIDs hids
  obtain ⟨hadmitted, operations, rfl, hf⟩ := batchLocked_cases hs hnd h
  refine (Evolves.refl s).edit (fun _ hl => hl) hf fun id op hop => ?_
  split_ifs with hp
  · obtain ⟨o, ho, hallow⟩ := hadmitted id hp.1
    rw [ho] at hop
    obtain rfl := Option.some.inj hop
    exact ⟨(ha.frame o).1, (ha.frame o).2, ha.precedes o hallow⟩
  · exact .refl op

end

theorem admits_freeze : Admits .pendingUpload admitFreeze id where
  frame _ := ⟨rfl, rfl⟩
  precedes op h := by
    cases hs : op.status <;> simp only [hs, admitFreeze, throw_ne_ok] at h
    all_goals simp [Status.Precedes, Status.rank]

theorem precedes_terminal (hnext : 1 < next.rank)
    (h : op.status = next ∨ op.status = .pendingUpload) : op.status.Precedes next := by
  rcases h with h | h
  · exact .inl h
  · exact .inr (.inl (by rw [h]; exact hnext))

theorem admits_conflict (c : GoString) :
    Admits .conflicted (admitConflict c) (fun op => { op with conflictID := c }) where
  frame _ := ⟨rfl, rfl⟩
  precedes op h := by
    refine precedes_terminal (by decide) ?_
    by_cases hs : op.status = .conflicted
    · exact .inl hs
    · simp only [admitConflict, hs, if_false, reject_eq_ok, not_not] at h
      exact .inr h

theorem admits_complete (root : GoString) :
    Admits .completed (admitComplete root) (fun op => { op with resultRoot := root }) where
  frame _ := ⟨rfl, rfl⟩
  precedes op h := by
    refine precedes_terminal (by decide) ?_
    by_cases hs : op.status = .completed
    · exact .inl hs
    · simp only [admitComplete, hs, if_false, reject_eq_ok, not_not] at h
      exact .inr h

def Reply.record : Reply → Option Operation
  | .one operation => some operation
  | .resolved _ replacement => some replacement
  | _ => none

section

variable [CidFormat]

def Call.intent : Call → Option Intent
  | .append intent _ _ => (normalizeIntent intent).toOption
  | .resolveConflict _ replacement _ _ _ => (normalizeIntent replacement).toOption
  | _ => none

/-- What a call does to a readable state, and the record that it returns for
the intent it carries. -/
structure Performs (call : Call) (s s' : PersistedState) (reply : Reply) : Prop where
  evolves : Evolves s s'
  retains : call ≠ .pruneCompleted → Retains s s'
  returns : ∀ i, call.intent = some i →
    ∃ r, reply.record = some r ∧ r.toIntent = i ∧ s'.operations.lookup i.operationID = some r

variable {s s' : PersistedState} {call : Call} {op : Operation} {disk : Option PersistedState}

theorem prepare_performs {edit : Edit Reply} {reply : Reply}
    (hs : Readable s) (hp : call.prepare = .ok edit) (h : edit s = .ok (s', reply)) :
    Performs call s s' reply := by
  have hplain (he : Evolves s s' ∧ Retains s s') (hi : call.intent = none) :
    Performs call s s' reply :=
    ⟨he.1, fun _ => he.2, fun i hsome => by simp [hi] at hsome⟩
  have htransition {id c r : GoString} {next : Status} {now : Int} {e : Edit Operation}
    {a : Operation}
      (hi : call.intent = none) (he : transition id next c r now = .ok e) (ha : e s = .ok (s', a)) :
      Performs call s s' reply := by
    simp only [transition, ok_iff] at he
    obtain ⟨-, -, rfl⟩ := he
    exact hplain (transitionLocked_evolves ha) hi
  cases call with
  | pruneCompleted =>
    cases hp
    obtain ⟨n, hn, -⟩ := reply_eq_ok.mp h
    exact ⟨pruneLocked_evolves hn, fun hne => absurd rfl hne, fun i hi => by
      simp [Call.intent] at hi⟩
  | append intent initial now =>
    obtain ⟨e, he, rfl⟩ := map_eq_ok.mp hp
    simp only [append, ok_iff] at he
    obtain ⟨i, hi, -, -, rfl⟩ := he
    obtain ⟨op, hop, rfl⟩ := reply_eq_ok.mp h
    obtain ⟨hevolves, hretains, hintent, hfound⟩ := appendLocked_evolves hop
    refine ⟨hevolves, fun _ => hretains, fun j hj => ⟨op, rfl, ?_⟩⟩
    obtain rfl : i = j := by simpa [Call.intent, hi, Except.toOption] using hj
    exact ⟨hintent, hfound⟩
  | resolveConflict id replacement initial appendedAt supersededAt =>
    obtain ⟨e, he, rfl⟩ := map_eq_ok.mp hp
    simp only [resolveConflict, ok_iff] at he
    obtain ⟨-, -, i, hi, -, -, -, -, rfl⟩ := he
    obtain ⟨result, hresult, rfl⟩ := reply_eq_ok.mp h
    obtain ⟨hevolves, hretains, hintent, hfound⟩ := resolveLocked_evolves hresult
    refine ⟨hevolves, fun _ => hretains, fun j hj => ⟨result.2, rfl, ?_⟩⟩
    obtain rfl : i = j := by simpa [Call.intent, hi, Except.toOption] using hj
    exact ⟨hintent, hfound⟩
  | freezeForUpload id now | markOffline id now =>
    obtain ⟨e, a, he, ha⟩ := prepared_reply hp h
    exact htransition rfl he ha
  | markConflicted id conflict now =>
    obtain ⟨e, a, he, ha⟩ := prepared_reply hp h
    simp only [markConflicted, bind_eq_ok] at he
    obtain ⟨_, -, he⟩ := he
    exact htransition rfl he ha
  | complete id root now =>
    obtain ⟨e, a, he, ha⟩ := prepared_reply hp h
    simp only [complete, bind_eq_ok, within_eq_ok] at he
    obtain ⟨_, -, he⟩ := he
    exact htransition rfl he ha
  | freezeBatchForUpload ids now =>
    obtain ⟨e, a, he, ha⟩ := prepared_reply hp h
    simp only [freezeBatchForUpload, ok_iff] at he
    obtain ⟨l, hl, rfl⟩ := he
    exact hplain (batchLocked_evolves hs admits_freeze hl ha) rfl
  | markBatchConflicted ids conflict now =>
    obtain ⟨e, a, he, ha⟩ := prepared_reply hp h
    simp only [markBatchConflicted, ok_iff] at he
    obtain ⟨l, hl, c, -, rfl⟩ := he
    exact hplain (batchLocked_evolves hs (admits_conflict c) hl ha) rfl
  | completeBatch ids root now =>
    obtain ⟨e, a, he, ha⟩ := prepared_reply hp h
    simp only [completeBatch, ok_iff, within_eq_ok] at he
    obtain ⟨l, hl, r, -, rfl⟩ := he
    exact hplain (batchLocked_evolves hs (admits_complete r) hl ha) rfl

def recorded (disk : Option PersistedState) (id : GoString) : Option Operation :=
  disk.bind fun s => s.operations.lookup id

structure Stored (s : PersistedState) : Prop where
  sound : Sound s
  bound : ∀ id op, s.operations.lookup id = some op → op.sequence < s.nextSequence ∨
    s.nextSequence = 0

omit [CidFormat] in
theorem Evolves.bound {n : UInt64} (h : Evolves s s') (hn : n < s.nextSequence) :
    n < s'.nextSequence ∨ s'.nextSequence = 0 := by
  rcases h.next with he | he <;> rw [he]
  · exact .inl hn
  · by_cases hz : s.nextSequence + 1 = 0
    · exact .inr hz
    · exact .inl (UInt64.lt_trans hn (UInt64.lt_add_one_of_ne_zero hz))

theorem Evolves.stored (h : Evolves s s') (hs : Readable s) (hs' : Sound s') : Stored s' := by
  refine ⟨hs', fun id op' hl => ?_⟩
  rcases h.record id op' hl with ⟨op, hop, hf⟩ | ⟨-, hadded⟩
  · rw [hf.sequence]
    exact h.bound (hs.record id op hop).sequence
  · rw [hadded.sequence, hadded.next]
    by_cases hz : s.nextSequence + 1 = 0
    · exact .inr hz
    · exact .inl (UInt64.lt_add_one_of_ne_zero hz)

structure Remembers (op : Operation) (s : PersistedState) : Prop where
  record :
    ∀ id op', s.operations.lookup id = some op' → id = op.operationID ∨ op'.retryID = op.retryID →
    id = op.operationID ∧ Follows op op'
  usedOperation : s.usedOperationIDs.lookup op.operationID = some true
  usedRetry : s.usedRetryIDs.lookup op.retryID = some true
  sequence : op.sequence < s.nextSequence ∨ s.nextSequence = 0

theorem Stored.remembers {id : GoString} (h : Stored s)
    (hop : s.operations.lookup id = some op) : op.operationID = id ∧ Remembers op s := by
  have hw := h.sound.record id op hop
  refine ⟨hw.key, ⟨fun id' op' hl hor => ?_, by rw [hw.key]; exact hw.usedOperation, hw.usedRetry,
    h.bound id op hop⟩⟩
  have hid : id' = id := by
    rcases hor with hid | hretry
    · rw [hid, hw.key]
    · exact h.sound.retry_inj id' op' id op hl hop hretry
  subst hid
  rw [hop] at hl
  exact ⟨hw.key.symm, Option.some.inj hl ▸ .refl op⟩

theorem Remembers.step (h : Remembers op s) (he : Evolves s s') (hs : Readable s) :
    Remembers op s' := by
  refine ⟨fun id op' hl hor => ?_, he.usedOperation _ h.usedOperation, he.usedRetry _ h.usedRetry,
    he.bound (h.sequence.resolve_right hs.next)⟩
  rcases he.record id op' hl with ⟨op₀, hop₀, hf⟩ | ⟨hid, hadded⟩
  · obtain ⟨hid, hf₀⟩ := h.record id op₀ hop₀ (by rwa [hf.intent] at hor)
    exact ⟨hid, hf₀.trans hf⟩
  · rcases hor with heq | heq
    · rw [← hid] at heq
      exact absurd (heq ▸ h.usedOperation) hadded.unusedOperation
    · exact absurd (heq ▸ h.usedRetry) hadded.unusedRetry

theorem exec_performs (call : Call) (fault : Fault) (h : ∀ s, disk = some s → Stored s) :
    ((call.exec fault disk).1 = disk ∧ ∃ e, (call.exec fault disk).2 = .error e) ∨
      ∃ s' reply, Readable (disk.getD emptyState) ∧ Performs call (disk.getD emptyState) s' reply ∧
        Stored s' ∧ (call.exec fault disk).1 = some s' ∧
        ((call.exec fault disk).2 = .ok reply ∨ ∃ e, (call.exec fault disk).2 = .error e) := by
  rcases exec_cases call fault disk with hfail | ⟨edit, s, s', w, reply, hp, hr, hedit, hw,
    hdisk, hreply⟩
  · exact .inl hfail
  · have hs := readable_of_reload hr
    have hstate : disk.getD emptyState = s := by
      cases disk with
      | none => exact pure_eq_ok.mp hr
      | some s₀ => exact (reload_eq_of_sound (h s₀ rfl).sound hr).symm
    have hsound := (prepare_readable_iff hs hp hedit).1
    have hperforms := prepare_performs hs hp hedit
    obtain rfl := writeLocked_of_sound hsound hw
    rw [hstate]
    exact .inr ⟨w, reply, hs, hperforms, hperforms.evolves.stored hs hsound, hdisk, hreply⟩

theorem stored_exec {fault : Fault} (h : ∀ s, disk = some s → Stored s) :
    ∀ s, (call.exec fault disk).1 = some s → Stored s := by
  rcases exec_performs call fault h with ⟨hsame, -⟩ | ⟨s', reply, -, -, hs', hdisk, -⟩
  · rwa [hsame]
  · intro s hs
    rw [hdisk] at hs
    exact Option.some.inj hs ▸ hs'

theorem stored_runCalls (calls : List (Call × Fault))
    (h : ∀ s, disk = some s → Stored s) : ∀ s, runCalls calls disk = some s → Stored s := by
  induction calls generalizing disk with
  | nil => exact h
  | cons c calls ih => exact ih (stored_exec h)

theorem remembers_runCalls (calls : List (Call × Fault)) (hs : Stored s)
    (h : Remembers op s) : ∃ s', runCalls calls (some s) = some s' ∧ Stored s' ∧ Remembers op s' ∧
      ((∀ c ∈ calls, c.1 ≠ .pruneCompleted) → Retains s s') := by
  induction calls generalizing s with
  | nil => exact ⟨s, rfl, hs, h, fun _ _ hl => hl⟩
  | cons c calls ih =>
    have hstored : ∀ t, some s = some t → Stored t := fun t ht => Option.some.inj ht ▸ hs
    rcases exec_performs c.1 c.2 hstored with ⟨hsame, -⟩ | ⟨s₁, reply, hread, hperf, hs₁, hdisk, -⟩
    · obtain ⟨s', hrun, hs', hop, hkeep⟩ := ih hs h
      refine ⟨s', ?_, hs', hop, fun hc => hkeep fun d hd => hc d (List.mem_cons_of_mem _ hd)⟩
      rwa [runCalls, List.foldl_cons, hsame]
    · obtain ⟨s', hrun, hs', hop, hkeep⟩ := ih hs₁ (h.step hperf.evolves hread)
      refine ⟨s', ?_, hs', hop, fun hc id hl => ?_⟩
      · rwa [runCalls, List.foldl_cons, hdisk]
      · exact hkeep (fun d hd => hc d (List.mem_cons_of_mem _ hd)) id
          (hperf.retains (hc c List.mem_cons_self) id hl)

/-- In every run from the empty journal, an identity that was recorded keeps
denoting its intent and sequence number, also after its record is pruned; a
record never moves back to a local status or out of a final one; an append or
a resolution that carries the identity returns that record or fails; and new
records get larger sequence numbers. -/
theorem identities_frozen (before more : List (Call × Fault)) (id : GoString) (op : Operation)
    (hop : recorded (runCalls before none) id = some op) :
    (∀ id' op', recorded (runCalls more (runCalls before none)) id' = some op' →
        id' = id ∨ op'.retryID = op.retryID →
      id' = id ∧ op'.toIntent = op.toIntent ∧ op'.sequence = op.sequence ∧
        (op.status = .pendingUpload → op'.status ≠ .localDirty ∧ op'.status ≠ .offlineOnly) ∧
        (op.status = .completed ∨ op.status = .superseded → op'.status = op.status)) ∧
    ((∀ c ∈ more, c.1 ≠ .pruneCompleted) → recorded (runCalls more (runCalls before none)) id ≠
      none) ∧
    ∀ call fault,
      (∀ i reply, call.intent = some i → i.operationID = id ∨ i.retryID = op.retryID →
        (Call.exec call fault (runCalls more (runCalls before none))).2 = .ok reply →
        i = op.toIntent ∧ ∃ r, reply.record = some r ∧ r.toIntent = op.toIntent ∧ r.sequence =
          op.sequence) ∧
      ∀ id' op', recorded (runCalls more (runCalls before none)) id' = none →
        recorded (Call.exec call fault (runCalls more (runCalls before none))).1 id' = some op' →
        op.sequence < op'.sequence := by
  obtain ⟨s₀, hs₀, hop⟩ := Option.bind_eq_some_iff.mp hop
  have hempty : ∀ t, (none : Option PersistedState) = some t → Stored t := by simp
  have hstored := stored_runCalls before hempty s₀ hs₀
  obtain ⟨rfl, hremembers⟩ := hstored.remembers hop
  rw [hs₀]
  obtain ⟨s, hrun, hs, hmem, hkeep⟩ := remembers_runCalls more hstored hremembers
  rw [hrun]
  have hdiskStored : ∀ t, some s = some t → Stored t := fun t ht => Option.some.inj ht ▸ hs
  refine ⟨fun id' op' hl hor => ?_, fun hc => hkeep hc _ (by simp [hop]),
    fun call fault => ⟨?_, ?_⟩⟩
  · obtain ⟨hid, hf⟩ := hmem.record id' op' hl hor
    refine ⟨hid, hf.intent, hf.sequence, fun hp => ?_, fun hfinal => ?_⟩
    · have hrank := hf.status.rank_pos (by rw [hp]; decide)
      exact ⟨fun h => by simp [h, Status.rank] at hrank, fun h => by simp [h, Status.rank] at hrank⟩
    · refine (hf.status.eq_of_rank ?_).symm
      rcases hfinal with h | h <;> rw [h] <;> rfl
  · intro i reply hi hor hok
    rcases exec_performs call fault hdiskStored with
      ⟨-, e, he⟩ | ⟨s', reply', hread, hperf, -, -, hreply⟩
    · simp [hok] at he
    · obtain rfl : reply = reply' := by
        rcases hreply with hr | ⟨e, he⟩
        · exact Except.ok.inj (hok.symm.trans hr)
        · simp [hok] at he
      obtain ⟨r, hr, rfl, hfound⟩ := hperf.returns i hi
      obtain ⟨-, hf⟩ := (hmem.step hperf.evolves hread).record _ r hfound hor
      exact ⟨hf.intent, r, hr, hf.intent, hf.sequence⟩
  · intro id' op' hnone hsome
    rcases exec_performs call fault hdiskStored with
      ⟨hsame, -⟩ | ⟨s', reply', hread, hperf, -, hdisk, -⟩
    · rw [hsame, hnone] at hsome
      simp at hsome
    · rw [hdisk] at hsome
      rcases hperf.evolves.record id' op' hsome with ⟨op₀, hop₀, -⟩ | ⟨-, hadded⟩
      · exact absurd (hnone.symm.trans hop₀) (by simp)
      · rw [hadded.sequence]
        exact hmem.sequence.resolve_right hread.next

end

def prunedRun : List (Call × Fault) :=
  [(.freezeForUpload (text "op") 63918244800000000000, .none),
    (.complete (text "op") (text "result") 63918244800000000000, .none), (.pruneCompleted, .none)]

theorem identities_frozen_pruned : letI := CidFormat.verbatim
    ∃ op, recorded (runCalls (clockSetBack.take 1) none) (text "op") = some op ∧
      recorded (runCalls prunedRun (runCalls (clockSetBack.take 1) none)) (text "op") = none ∧
      ∀ call fault i reply, call.intent = some i → i.operationID = text "op" →
        (Call.exec call fault (runCalls prunedRun (runCalls (clockSetBack.take 1) none))).2 =
          .ok reply →
        i = op.toIntent := by
  let format : CidFormat := CidFormat.verbatim
  have hsome :
    (recorded (runCalls (clockSetBack.take 1) none) (text "op")).isSome = true := by decide +kernel
  have hnone :
    (recorded (runCalls prunedRun (runCalls (clockSetBack.take 1) none)) (text "op")).isNone =
      true := by
    decide +kernel
  obtain ⟨op, hop⟩ := Option.isSome_iff_exists.mp hsome
  obtain ⟨-, -, hcalls⟩ := identities_frozen (clockSetBack.take 1) prunedRun (text "op") op hop
  refine ⟨op, hop, Option.isNone_iff_eq_none.mp hnone, fun call fault i reply hi hid hok => ?_⟩
  exact ((hcalls call fault).1 i reply hi (.inl hid) hok).1

end MaltClient.Journal
