import Mathlib
import MaltClient.Checked

/-! Finite maps as association lists with distinct keys: the lookups after an
assignment, a deletion, or an update in place. -/

namespace AssocMap

variable {κ υ : Type*} [DecidableEq κ]

theorem lookup_insert_eq (k k' : κ) (v : υ) (m : AList fun _ : κ => υ) :
    (m.insert k' v).lookup k = if k = k' then some v else m.lookup k := by
  split_ifs with h
  · subst h
    exact AList.lookup_insert m
  · exact AList.lookup_insert_ne h

theorem lookup_erase_eq (k k' : κ) (m : AList fun _ : κ => υ) :
    (m.erase k').lookup k = if k = k' then none else m.lookup k := by
  split_ifs with h
  · subst h
    exact AList.lookup_erase k m
  · exact AList.lookup_erase_ne h

theorem mem_entries_iff {k : κ} {v : υ} {m : AList fun _ : κ => υ} :
    (⟨k, v⟩ : Sigma fun _ : κ => υ) ∈ m.entries ↔ m.lookup k = some v :=
  AList.mem_lookup_iff.symm

omit [DecidableEq κ] in
/-- In a walk over the entries, the key at hand has not been visited. -/
theorem notMem_keys_of_entries_eq {m : AList fun _ : κ => υ}
    {done todo : List (Sigma fun _ : κ => υ)}
    {e : Sigma fun _ : κ => υ} (h : m.entries = done ++ e :: todo) : e.1 ∉ done.keys := by
  have hnd : (done ++ e :: todo).NodupKeys := h ▸ m.nodupKeys
  have hk : (done.keys ++ e.1 :: todo.keys).Nodup := by simpa [List.NodupKeys, List.keys] using hnd
  exact fun hm => (List.nodup_append.mp hk).2.2 e.1 hm e.1 (by simp) rfl

theorem replace_eq_self {k : κ} {v : υ} {m : AList fun _ : κ => υ} (h : m.lookup k = some v) :
    m.replace k v = m :=
  AList.ext (List.kreplace_self m.nodupKeys (mem_entries_iff.mpr h))

theorem dlookup_kreplace (k k' : κ) (v : υ) (l : List (Sigma fun _ : κ => υ)) :
    (l.kreplace k' v).dlookup k =
      if k = k' then (l.dlookup k).map fun _ => v else l.dlookup k := by
  induction l with
  | nil => simp [List.kreplace]
  | cons e l ih =>
    obtain ⟨a, b⟩ := e
    by_cases ha : k' = a
    · subst ha
      by_cases hk : k = k'
      · subst hk
        simp [List.kreplace]
      · have hc : List.kreplace k' v (⟨k', b⟩ :: l) = ⟨k', v⟩ :: l := by simp [List.kreplace]
        rw [hc, if_neg hk, List.dlookup_cons_ne l ⟨k', v⟩ hk, List.dlookup_cons_ne l ⟨k', b⟩ hk]
    · have hc : List.kreplace k' v (⟨a, b⟩ :: l) = ⟨a, b⟩ :: List.kreplace k' v l := by
        simp [List.kreplace, ha]
      rw [hc]
      by_cases hk : k = a
      · subst hk
        simp [Ne.symm ha]
      · rw [List.dlookup_cons_ne (List.kreplace k' v l) ⟨a, b⟩ hk,
          List.dlookup_cons_ne l ⟨a, b⟩ hk, ih]

theorem lookup_replace_eq (k k' : κ) (v : υ) (m : AList fun _ : κ => υ) :
    (m.replace k' v).lookup k = if k = k' then (m.lookup k).map fun _ => v else m.lookup k :=
  dlookup_kreplace k k' v m.entries

def insertAll (m : AList fun _ : κ => υ) (l : List (κ × υ)) : AList fun _ : κ => υ :=
  l.foldl (fun m e => m.insert e.1 e.2) m

theorem lookup_insertAll_of_notMem {m : AList fun _ : κ => υ} {l : List (κ × υ)} {k : κ}
    (h : k ∉ l.map Prod.fst) : (insertAll m l).lookup k = m.lookup k := by
  induction l generalizing m with
  | nil => rfl
  | cons e l ih =>
    simp only [List.map_cons, List.mem_cons, not_or] at h
    rw [insertAll, List.foldl_cons, ← insertAll, ih h.2, lookup_insert_eq, if_neg h.1]

theorem lookup_insertAll_of_mem {m : AList fun _ : κ => υ} {l : List (κ × υ)} {k : κ} {v : υ}
    (hnd : (l.map Prod.fst).Nodup) (h : (k, v) ∈ l) : (insertAll m l).lookup k = some v := by
  induction l generalizing m with
  | nil => simp at h
  | cons e l ih =>
    rw [List.map_cons, List.nodup_cons] at hnd
    rw [insertAll, List.foldl_cons, ← insertAll]
    rcases List.mem_cons.mp h with rfl | hm
    · rw [lookup_insertAll_of_notMem hnd.1, lookup_insert_eq, if_pos rfl]
    · exact ih hnd.2 hm

theorem mem_insertAll {m : AList fun _ : κ => υ} {l : List (κ × υ)} {k : κ} :
    k ∈ insertAll m l ↔ k ∈ m ∨ k ∈ l.map Prod.fst := by
  induction l generalizing m with
  | nil => simp [insertAll]
  | cons e l ih =>
    rw [insertAll, List.foldl_cons, ← insertAll, ih, AList.mem_insert, List.map_cons, List.mem_cons]
    tauto

theorem mem_of_lookup_insertAll {m : AList fun _ : κ => υ} {l : List (κ × υ)} {k : κ} {v : υ}
    (h : (insertAll m l).lookup k = some v) : (k, v) ∈ l ∨ m.lookup k = some v := by
  induction l generalizing m with
  | nil => exact .inr h
  | cons e l ih =>
    rw [insertAll, List.foldl_cons, ← insertAll] at h
    rcases ih h with hl | hm
    · exact .inl (List.mem_cons_of_mem _ hl)
    · rw [lookup_insert_eq] at hm
      split_ifs at hm with hk
      · cases hm
        exact .inl (hk ▸ List.mem_cons_self)
      · exact .inr hm

def eraseAll (m : AList fun _ : κ => υ) (ks : List κ) : AList fun _ : κ => υ :=
  ks.foldl (fun m k => m.erase k) m

theorem lookup_eraseAll (m : AList fun _ : κ => υ) (ks : List κ) (k : κ) :
    (eraseAll m ks).lookup k = if k ∈ ks then none else m.lookup k := by
  induction ks generalizing m with
  | nil => simp [eraseAll]
  | cons k' ks ih =>
    rw [eraseAll, List.foldl_cons, ← eraseAll, ih, lookup_erase_eq]
    by_cases hk : k ∈ ks <;> by_cases he : k = k' <;> simp [hk, he]

def mapValues (f : υ → υ) (m : AList fun _ : κ => υ) : AList fun _ : κ => υ :=
  ⟨m.entries.map fun e => ⟨e.1, f e.2⟩, by
    have hk :
      (m.entries.map fun e => (⟨e.1, f e.2⟩ : Sigma fun _ : κ => υ)).keys = m.entries.keys := by
      simp [List.keys, Function.comp_def]
    simpa only [List.NodupKeys, hk] using m.nodupKeys⟩

theorem mapValues_eq_self {f : υ → υ} {m : AList fun _ : κ => υ}
    (h : ∀ k v, m.lookup k = some v → f v = v) : mapValues f m = m := by
  apply AList.ext
  refine (List.map_congr_left fun e he => ?_).trans (List.map_id m.entries)
  obtain ⟨k, v⟩ := e
  rw [h k v (mem_entries_iff.mp he)]
  rfl

theorem foldlM_replace_eq_ok {κ υ ε : Type} [DecidableEq κ] {f : κ → υ → Except ε υ}
    {m m' : AList fun _ : κ => υ} (h : m.entries.foldlM (fun (acc : AList fun _ : κ => υ) e => do
      let v ← f e.1 e.2
      return acc.replace e.1 v) m = .ok m') (k : κ) :
    (m.lookup k = none → m'.lookup k = none) ∧ ∀ v, m.lookup k = some v → ∃ v', f k v = .ok v' ∧
      m'.lookup k = some v' := by
  have hall : ∀ k, (k ∉ m.entries.keys → m'.lookup k = m.lookup k) ∧
      (k ∈ m.entries.keys → ∃ v v', m.lookup k = some v ∧ f k v = .ok v' ∧
        m'.lookup k = some v') := by
    refine Checked.foldlM_invariant (fun done (acc : AList fun _ : κ => υ) => ∀ k,
      (k ∉ done.keys → acc.lookup k = m.lookup k) ∧
        (k ∈ done.keys → ∃ v v', m.lookup k = some v ∧ f k v = .ok v' ∧ acc.lookup k = some v'))
          h (by simp) ?_
    intro done e todo acc acc' hl hacc hstep k
    simp only [Checked.ok_iff] at hstep
    obtain ⟨v', hv', rfl⟩ := hstep
    have hfresh := notMem_keys_of_entries_eq hl
    have hpresent : m.lookup e.1 = some e.2 := mem_entries_iff.mp (by simp [hl])
    have hkeys : (done ++ [e]).keys = done.keys ++ [e.1] := by simp [List.keys]
    rw [hkeys, List.mem_append, List.mem_singleton, lookup_replace_eq]
    constructor
    · intro hk
      rw [not_or] at hk
      rw [if_neg hk.2, (hacc k).1 hk.1]
    · intro hk
      by_cases he : k = e.1
      · subst he
        rw [if_pos rfl, (hacc e.1).1 hfresh, hpresent]
        exact ⟨e.2, v', rfl, hv', rfl⟩
      · rw [if_neg he]
        exact (hacc k).2 (hk.resolve_right he)
  constructor
  · intro hnone
    rw [(hall k).1 (AList.lookup_eq_none.mp hnone), hnone]
  · intro v hv
    have hk : k ∈ m.entries.keys := AList.lookup_isSome.mp (by simp [hv])
    obtain ⟨w, v', hw, hv', hl⟩ := (hall k).2 hk
    rw [hv] at hw
    cases hw
    exact ⟨v', hv', hl⟩

theorem foldlM_replace_of_fixed {κ υ ε : Type} [DecidableEq κ] {f : κ → υ → Except ε υ}
    {m : AList fun _ : κ => υ} (h : ∀ k v, m.lookup k = some v → f k v = .ok v) :
    m.entries.foldlM (fun (acc : AList fun _ : κ => υ) e => do
      let v ← f e.1 e.2
      return acc.replace e.1 v) m = .ok m := by
  suffices H : ∃ t, m.entries.foldlM (fun (acc : AList fun _ : κ => υ) e => do
      let v ← f e.1 e.2
      return acc.replace e.1 v) m = .ok t ∧ t = m by
    obtain ⟨t, ht, rfl⟩ := H
    exact ht
  refine Checked.foldlM_progress (fun _ acc => acc = m) rfl fun done e todo acc hl hacc => ?_
  subst hacc
  have hpresent : acc.lookup e.1 = some e.2 := mem_entries_iff.mp (by simp [hl])
  simp only [Checked.ok_iff]
  exact ⟨acc, ⟨e.2, h e.1 e.2 hpresent, replace_eq_self hpresent⟩, rfl⟩

end AssocMap
