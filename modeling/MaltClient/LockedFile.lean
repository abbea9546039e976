import MaltClient.Checked

/-! State kept in one file that is read, edited and replaced as a whole under a
lock. -/

namespace LockedFile

open Checked

/-- An I/O step may fail while the old file is still in place, or after the new
one has replaced it. -/
inductive Fault where
  | none
  | aborted
  | committed
  deriving DecidableEq, Repr

/-- How a state is read from a file, and the content of the file that is written
for it. -/
structure Store (δ σ ε : Type) where
  read : Option δ → Except ε σ
  write : σ → Except ε δ
  io : ε

variable {δ σ ε α : Type}

abbrev Edit (σ ε α : Type) := σ → Except ε (σ × α)

/-- An edit of the state, which may find that there is nothing to write. -/
abbrev Revision (σ ε α : Type) := σ → Except ε (Option σ × α)

/-- The content that replaces the file, if there is one. -/
def Store.attempt (store : Store δ σ ε) (revision : Revision σ ε α) (disk : Option δ) :
    Except ε (Option δ × α) := do
  let (next, a) ← revision (← store.read disk)
  return (← next.mapM store.write, a)

def Store.revise (store : Store δ σ ε) (fault : Fault) (revision : Revision σ ε α)
    (disk : Option δ) : Option δ × Except ε α :=
  if fault = .aborted then (disk, .error store.io)
  else
    match store.attempt revision disk with
    | .error e => (disk, .error e)
    | .ok (none, a) => (disk, .ok a)
    | .ok (some content, a) => (some content, if fault = .committed then .error store.io else .ok a)

/-- The call leaves the file alone, or replaces it, after which it may still
fail. -/
theorem Store.revise_cases (store : Store δ σ ε) (fault : Fault) (revision : Revision σ ε α)
    (disk : Option δ) : ((store.revise fault revision disk).1 = disk ∧
      ∃ e, (store.revise fault revision disk).2 = .error e) ∨
      (∃ s a, store.read disk = .ok s ∧ revision s = .ok (none, a) ∧
        store.revise fault revision disk = (disk, .ok a)) ∨
      ∃ s s' content a, store.read disk = .ok s ∧ revision s = .ok (some s', a) ∧ store.write s' =
        .ok content ∧ (store.revise fault revision disk).1 = some content ∧
        ((store.revise fault revision disk).2 = .ok a ∨ ∃ e, (store.revise fault revision disk).2 =
          .error e) := by
  by_cases hf : fault = .aborted
  · exact .inl ⟨by simp [revise, hf], store.io, by simp [revise, hf]⟩
  unfold revise
  rw [if_neg hf]
  cases ht : store.attempt revision disk with
  | error e => exact .inl ⟨rfl, e, rfl⟩
  | ok p =>
    simp only [attempt, ok_iff] at ht
    obtain ⟨s, hread, ⟨next, a⟩, hrevision, content, hwrite, rfl⟩ := ht
    cases next with
    | none =>
      cases hwrite
      exact .inr (.inl ⟨s, a, hread, hrevision, rfl⟩)
    | some s' =>
      obtain ⟨content, hcontent, rfl⟩ := map_eq_ok.mp hwrite
      refine .inr (.inr ⟨s, s', content, a, hread, hrevision, hcontent, rfl, ?_⟩)
      by_cases hc : fault = .committed <;> simp [hc]

def Store.update (store : Store δ σ ε) (fault : Fault) (edit : Edit σ ε α) (disk : Option δ) :
    Option δ × Except ε α :=
  store.revise fault (fun s => (edit s).map fun p => (some p.1, p.2)) disk

/-- An update leaves the file alone and fails, or replaces it. -/
theorem Store.update_cases (store : Store δ σ ε) (fault : Fault) (edit : Edit σ ε α)
    (disk : Option δ) :
    ((store.update fault edit disk).1 = disk ∧ ∃ e, (store.update fault edit disk).2 = .error e) ∨
      ∃ s s' content a, store.read disk = .ok s ∧ edit s = .ok (s', a) ∧ store.write s' =
        .ok content ∧ (store.update fault edit disk).1 = some content ∧
        ((store.update fault edit disk).2 = .ok a ∨ ∃ e, (store.update fault edit disk).2 =
          .error e) := by
  rcases store.revise_cases fault (fun s => (edit s).map fun p => (some p.1, p.2)) disk with
    hfail | ⟨s, a, -, hedit, -⟩ | ⟨s, s', content, a, hread, hedit, hwritten⟩
  · exact .inl hfail
  · obtain ⟨p, -, heq⟩ := map_eq_ok.mp hedit
    cases heq
  · obtain ⟨p, hp, heq⟩ := map_eq_ok.mp hedit
    cases heq
    exact .inr ⟨s, _, content, _, hread, hp, hwritten⟩

/-- A successful update read the state, edited it and replaced the file. -/
theorem Store.update_eq_ok {store : Store δ σ ε} {fault : Fault} {edit : Edit σ ε α}
    {disk : Option δ} {a : α}
    (h : (store.update fault edit disk).2 = .ok a) : ∃ s s' content, store.read disk = .ok s ∧
      edit s = .ok (s', a) ∧ store.write s' = .ok content ∧ (store.update fault edit disk).1 =
        some content := by
  rcases store.update_cases fault edit disk with ⟨-, e, he⟩ | ⟨s, s', content, b, hr, hedit, hwrite,
    hdisk, hok | ⟨e, he⟩⟩
  · simp [h] at he
  · rw [h] at hok
    exact ⟨s, s', content, hr, Except.ok.inj hok ▸ hedit, hwrite, hdisk⟩
  · simp [h] at he

/-- An update that is not aborted replaces the file once its steps succeed. -/
theorem Store.update_of_ok (store : Store δ σ ε) {fault : Fault} {edit : Edit σ ε α}
    {disk : Option δ} {s s' : σ}
    {content : δ} {a : α} (hfault : fault ≠ .aborted) (hread : store.read disk = .ok s)
    (hedit : edit s = .ok (s', a)) (hwrite : store.write s' = .ok content) :
    store.update fault edit disk = (some content, if fault = .committed then .error store.io
      else .ok a) := by
  have hattempt : store.attempt (fun s => (edit s).map fun p => (some p.1, p.2)) disk =
      .ok (some content, a) := by
    simp only [attempt, ok_iff]
    exact ⟨s, hread, _, map_eq_ok.mpr ⟨_, hedit, rfl⟩, _, map_eq_ok.mpr ⟨_, hwrite, rfl⟩, rfl⟩
  rw [update, revise, if_neg hfault, hattempt]

theorem Store.update_aborted (store : Store δ σ ε) (edit : Edit σ ε α) (disk : Option δ) :
    store.update .aborted edit disk = (disk, .error store.io) := rfl

end LockedFile
