import MaltClient.JournalGrowth

/-! `PruneCompleted`, whatever order its loops visit the records in: it removes the
chains of replacements that end in a completed record. -/

namespace MaltClient.Journal

open GoText AssocMap

/-- A chain of replacements ends in a completed record. -/
inductive Finished (s : PersistedState) : GoString → Prop
  | completed {id : GoString} {op : Operation} (hop : s.operations.lookup id = some op)
      (hstatus : op.status = .completed) : Finished s id
  | superseded {id : GoString} {op : Operation} (hop : s.operations.lookup id = some op)
      (hstatus : op.status = .superseded) (hnext : Finished s op.replacementOperationID) :
        Finished s id

/-- The orders in which the loops of a call visit the records: the first loop, and
each pass of the second. -/
structure Orders (s : PersistedState) where
  first : List (Sigma fun _ : GoString => Operation)
  pass : Nat → List (Sigma fun _ : GoString => Operation)
  first_perm : first.Perm s.operations.entries
  pass_perm : ∀ i, (pass i).Perm s.operations.entries

/-- `PruneCompleted` on a loaded state. The loop may take any number of passes up to
the given one. -/
def pruneCompleted (s : PersistedState) (orders : Orders s) (passes : Nat) :
    Option (PersistedState × Nat) := do
  let completed := (orders.first.filter fun e => e.2.status = .completed).map Sigma.fst
  let selected ← Saturation.run joinsPruned Sigma.fst orders.pass passes 0 completed
  return ({ s with operations := eraseAll s.operations selected }, selected.length)

/-- The records are visited as they are stored. -/
def Orders.stored (s : PersistedState) : Orders s where
  first := s.operations.entries
  pass _ := s.operations.entries
  first_perm := List.Perm.refl _
  pass_perm _ := List.Perm.refl _

variable {s : PersistedState} {orders : Orders s} {passes : Nat}

theorem exists_selected (s : PersistedState) (orders : Orders s) :
    ∃ selected, (∀ passes, s.operations.entries.length < passes → pruneCompleted s orders passes =
        some ({ s with operations := eraseAll s.operations selected }, selected.length)) ∧
      ∀ id, id ∈ selected ↔ Finished s id := by
  let completed := (orders.first.filter fun e => e.2.status = .completed).map Sigma.fst
  have hcompleted (id : GoString) : id ∈ completed ↔ ∃ op, s.operations.lookup id = some op ∧
    op.status = .completed := by
    simp only [completed, List.mem_map, List.mem_filter, orders.first_perm.mem_iff,
      decide_eq_true_eq]
    constructor
    · rintro ⟨e, ⟨he, hstatus⟩, rfl⟩
      exact ⟨e.2, mem_entries_iff.mp he, hstatus⟩
    · rintro ⟨op, hop, hstatus⟩
      exact ⟨⟨id, op⟩, ⟨mem_entries_iff.mpr hop, hstatus⟩, rfl⟩
  have hstart : ∀ id ∈ completed, Finished s id := by
    intro id hid
    obtain ⟨op, hop, hstatus⟩ := (hcompleted id).mp hid
    exact .completed hop hstatus
  have hstep : ∀ selected :
    List GoString, (∀ id ∈ selected, Finished s id) → ∀ e ∈ s.operations.entries,
      joinsPruned selected e = true → e.1 ∉ selected → ∀ id ∈ e.1 :: selected, Finished s id := by
    intro selected hselected e he hjoins _ id hid
    rcases List.mem_cons.mp hid with rfl | hid
    · simp only [joinsPruned, Bool.and_eq_true, decide_eq_true_eq] at hjoins
      exact .superseded (mem_entries_iff.mp he) hjoins.1 (hselected _ hjoins.2)
    · exact hselected id hid
  obtain ⟨selected, hrun, hsub, hsound, hclosed⟩ := Saturation.exists_run orders.pass_perm hstep 0
    completed hstart
  refine ⟨selected, fun passes hpasses => ?_, fun id => ⟨hsound id, fun hid => ?_⟩⟩
  · have hmissing :
      Saturation.missing Sigma.fst s.operations.entries completed ≤ s.operations.entries.length :=
      List.countP_le_length
    rw [pruneCompleted, hrun passes (by omega)]
    rfl
  · induction hid with
    | completed hop hstatus => exact hsub ((hcompleted _).mpr ⟨_, hop, hstatus⟩)
    | superseded hop hstatus _ ih =>
      exact hclosed ⟨_, _⟩ (mem_entries_iff.mpr hop) (by simp [joinsPruned, hstatus, ih])

/-- In the order of the entries this is the edit of the journal. -/
theorem pruneLocked_eq (s : PersistedState) :
    pruneCompleted s (.stored s) (s.operations.entries.length + 1) = (pruneLocked s).toOption := by
  obtain ⟨_, hprune, -⟩ := exists_selected s (.stored s)
  have hsome := hprune _ (Nat.lt_succ_self _)
  have hstart : ((Orders.stored s).first.filter fun e => e.2.status = .completed).map Sigma.fst =
    completedIDs s := rfl
  rw [pruneCompleted, hstart] at hsome ⊢
  cases hrun :
    Saturation.run joinsPruned Sigma.fst (Orders.stored s).pass (s.operations.entries.length + 1) 0
      (completedIDs s) with
  | none =>
    rw [hrun] at hsome
    cases hsome
  | some selected =>
    have hids : prunedIDs s = selected := Saturation.saturate_of_run hrun
    rw [pruneLocked, hids]
    rfl

/-- Pruning ends, removes the finished chains and nothing else, and leaves no
superseded record whose replacement it has removed. -/
theorem pruneCompleted_exact (s : PersistedState) (orders : Orders s) :
    ∃ s' n, (∀ passes, s.operations.entries.length < passes → pruneCompleted s orders passes =
      some (s', n)) ∧ (∀ id, Finished s id → s'.operations.lookup id = none) ∧
      (∀ id, ¬ Finished s id → s'.operations.lookup id = s.operations.lookup id) ∧
      { s' with operations := s.operations } = s ∧
      ∀ id op, s'.operations.lookup id = some op → op.status = .superseded →
        s'.operations.lookup op.replacementOperationID =
          s.operations.lookup op.replacementOperationID := by
  obtain ⟨selected, hprune, hselected⟩ := exists_selected s orders
  refine ⟨_, _, hprune, fun id hid => ?_, fun id hid => ?_, rfl, fun id op hop hstatus => ?_⟩
  · rw [lookup_eraseAll, if_pos ((hselected id).mpr hid)]
  · rw [lookup_eraseAll, if_neg (mt (hselected id).mp hid)]
  · rw [lookup_eraseAll] at hop ⊢
    split_ifs at hop with hid
    rw [if_neg]
    intro hnext
    exact hid ((hselected id).mpr (.superseded hop hstatus ((hselected _).mp hnext)))

end MaltClient.Journal
