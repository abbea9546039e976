import Mathlib

/-! Closing a set of keys under a rule by passes over a list of items, until a
pass adds nothing. The number of items bounds the number of passes. -/

namespace Saturation

variable {ι κ : Type*} [DecidableEq κ]

section

variable (ready : List κ → ι → Bool) (key : ι → κ)

def visit (acc : List κ × Bool) (item : ι) : List κ × Bool :=
  if ready acc.1 item = true ∧ key item ∉ acc.1 then (key item :: acc.1, true) else acc

def pass (items : List ι) (selected : List κ) : List κ × Bool :=
  items.foldl (visit ready key) (selected, false)

def saturate (items : List ι) : Nat → List κ → List κ
  | 0, selected => selected
  | fuel + 1, selected =>
    let r := pass ready key items selected
    if r.2 then saturate items fuel r.1 else r.1

/-- The passes may visit the items in different orders. The first argument bounds
their number. -/
def run (orders : Nat → List ι) : Nat → Nat → List κ → Option (List κ)
  | 0, _, _ => none
  | fuel + 1, i, selected =>
    let r := pass ready key (orders i) selected
    if r.2 then run orders fuel (i + 1) r.1 else some r.1

def missing (items : List ι) (selected : List κ) : Nat :=
  items.countP fun item => decide (key item ∉ selected)

end

variable {ready : List κ → ι → Bool} {key : ι → κ} {items : List ι}

theorem visit_subset (acc : List κ × Bool) (item : ι) : acc.1 ⊆ (visit ready key acc item).1 := by
  unfold visit
  split_ifs
  · exact List.subset_cons_self _ _
  · exact List.Subset.refl _

theorem foldl_visit_subset (l : List ι) (acc : List κ × Bool) :
    acc.1 ⊆ (l.foldl (visit ready key) acc).1 := by
  induction l generalizing acc with
  | nil => exact List.Subset.refl _
  | cons item l ih => exact List.Subset.trans (visit_subset acc item) (ih _)

theorem pass_subset (selected : List κ) : selected ⊆ (pass ready key items selected).1 :=
  foldl_visit_subset items (selected, false)

theorem foldl_visit_changed (l : List ι) (acc : List κ × Bool) (h : acc.2 = true) :
    (l.foldl (visit ready key) acc).2 = true := by
  induction l generalizing acc with
  | nil => exact h
  | cons item l ih =>
    apply ih
    unfold visit
    split_ifs
    · rfl
    · exact h

theorem foldl_visit_unchanged {l : List ι} {acc : List κ × Bool}
    (h : (l.foldl (visit ready key) acc).2 = false) : l.foldl (visit ready key) acc = acc ∧
      ∀ item ∈ l, ready acc.1 item = true → key item ∈ acc.1 := by
  induction l with
  | nil => simp
  | cons item l ih =>
    rw [List.foldl_cons] at h ⊢
    by_cases hv : ready acc.1 item = true ∧ key item ∉ acc.1
    · have hc : (l.foldl (visit ready key) (visit ready key acc item)).2 = true :=
        foldl_visit_changed l _ (by simp [visit, hv])
      rw [hc] at h
      exact absurd h (by simp)
    · have he : visit ready key acc item = acc := by simp only [visit, if_neg hv]
      rw [he] at h ⊢
      obtain ⟨hacc, hrest⟩ := ih h
      refine ⟨hacc, fun i hi hr => ?_⟩
      rcases List.mem_cons.mp hi with rfl | hi
      · by_contra hn
        exact hv ⟨hr, hn⟩
      · exact hrest i hi hr

theorem missing_antitone {selected larger : List κ} (h : selected ⊆ larger) :
    missing key items larger ≤ missing key items selected := by
  apply List.countP_mono_left
  intro item _ hm
  simp only [decide_eq_true_eq] at hm ⊢
  exact fun hs => hm (h hs)

/-- A pass that changes the set adds the key of an item that was missing. -/
theorem exists_added_of_changed {l : List ι} {acc : List κ × Bool} (hacc : acc.2 = false)
    (h : (l.foldl (visit ready key) acc).2 = true) :
    ∃ item ∈ l, key item ∉ acc.1 ∧ key item ∈ (l.foldl (visit ready key) acc).1 := by
  induction l with
  | nil => simp [hacc] at h
  | cons item l ih =>
    rw [List.foldl_cons] at h ⊢
    by_cases hv : ready acc.1 item = true ∧ key item ∉ acc.1
    · refine ⟨item, by simp, hv.2, foldl_visit_subset l _ ?_⟩
      simp [visit, hv]
    · have he : visit ready key acc item = acc := by simp only [visit, if_neg hv]
      rw [he] at h ⊢
      obtain ⟨i, hi, hn, hm⟩ := ih h
      exact ⟨i, by simp [hi], hn, hm⟩

theorem missing_pass_lt {selected : List κ} (h : (pass ready key items selected).2 = true) :
    missing key items (pass ready key items selected).1 < missing key items selected := by
  obtain ⟨item, hi, hn, hm⟩ := exists_added_of_changed rfl h
  obtain ⟨before, after, rfl⟩ := List.append_of_mem hi
  have hm : key item ∈ (pass ready key (before ++ item :: after) selected).1 := hm
  have hsub : selected ⊆ (pass ready key (before ++ item :: after) selected).1 :=
    pass_subset selected
  generalize (pass ready key (before ++ item :: after) selected).1 = larger at hm hsub
  have hb : missing key before larger ≤ missing key before selected := missing_antitone hsub
  have ha : missing key after larger ≤ missing key after selected := missing_antitone hsub
  simp only [missing] at hb ha hn ⊢
  simp only [List.countP_append, List.countP_cons, hm, hn, not_true_eq_false, not_false_eq_true,
    decide_true, decide_false, if_true, Bool.false_eq_true, if_false]
  omega

/-- What every visit keeps, a pass keeps. -/
theorem foldl_visit_invariant {Q : List κ → Prop} {l : List ι}
    (hstep : ∀ selected, Q selected → ∀ item ∈ l, ready selected item = true → key item ∉ selected →
      Q (key item :: selected))
    {acc : List κ × Bool} (h : Q acc.1) : Q (l.foldl (visit ready key) acc).1 := by
  induction l generalizing acc with
  | nil => exact h
  | cons item l ih =>
    refine ih (fun selected hs other ho => hstep selected hs other
      (List.mem_cons_of_mem item ho)) ?_
    unfold visit
    split_ifs with hv
    · exact hstep acc.1 h item List.mem_cons_self hv.1 hv.2
    · exact h

/-- With one pass for each item that can still be added the passes end, in a set
that is closed under the rule and has what every visit keeps. -/
theorem exists_run {Q : List κ → Prop} {orders : Nat → List ι}
    (horders : ∀ i, (orders i).Perm items)
    (hstep : ∀ selected, Q selected → ∀ item ∈ items, ready selected item = true →
      key item ∉ selected →
      Q (key item :: selected)) (i : Nat) (selected : List κ) (h : Q selected) :
    ∃ result, (∀ fuel, missing key items selected < fuel → run ready key orders fuel i selected =
      some result) ∧ selected ⊆ result ∧ Q result ∧ ∀ item ∈ items, ready result item = true →
        key item ∈ result := by
  induction hn :
    missing key items selected using Nat.strong_induction_on generalizing i selected with
  | _ n ih =>
    subst hn
    have hperm (sel : List κ) : missing key (orders i) sel = missing key items sel :=
      (horders i).countP_eq _
    by_cases hchanged : (pass ready key (orders i) selected).2 = true
    · have hlt := missing_pass_lt hchanged
      rw [hperm, hperm] at hlt
      have hkept : Q (pass ready key (orders i) selected).1 := foldl_visit_invariant
        (fun sel hsel item hitem => hstep sel hsel item ((horders i).subset hitem)) h
      obtain ⟨result, hrun, hsub, hQ, hclosed⟩ := ih _ hlt (i + 1) _ hkept rfl
      refine ⟨result, fun fuel hfuel => ?_, List.Subset.trans (pass_subset selected) hsub, hQ,
        hclosed⟩
      obtain ⟨fuel, rfl⟩ := Nat.exists_eq_succ_of_ne_zero (Nat.ne_zero_of_lt hfuel)
      rw [run, if_pos hchanged]
      exact hrun fuel (by omega)
    · obtain ⟨heq, hclosed⟩ := foldl_visit_unchanged (Bool.eq_false_iff.mpr hchanged)
      have hsame : (pass ready key (orders i) selected).1 = selected := by rw [pass, heq]
      refine ⟨selected, fun fuel hfuel => ?_, List.Subset.refl _, h, fun item hitem =>
        hclosed item ((horders i).symm.subset hitem)⟩
      obtain ⟨fuel, rfl⟩ := Nat.exists_eq_succ_of_ne_zero (Nat.ne_zero_of_lt hfuel)
      rw [run, if_neg hchanged, hsame]

variable {fuel : Nat}

theorem saturate_of_run {i : Nat} {selected result : List κ}
    (h : run ready key (fun _ => items) fuel i selected = some result) :
    saturate ready key items fuel selected = result := by
  induction fuel generalizing i selected with
  | zero => cases h
  | succ fuel ih =>
    rw [run] at h
    rw [saturate]
    split_ifs at h ⊢ with hc
    · exact ih h
    · exact Option.some.inj h

/-- With one round for each item that can still be added, the result is closed
under the rule. -/
theorem saturate_closed {selected : List κ} (hfuel : missing key items selected < fuel) :
    ∀ item ∈ items, ready (saturate ready key items fuel selected) item = true →
      key item ∈ saturate ready key items fuel selected := by
  have horders : ∀ _ : Nat, items.Perm items := fun _ => List.Perm.refl items
  obtain ⟨result, hrun, -, -, hclosed⟩ := exists_run (Q := fun _ => True) horders
    (fun _ _ _ _ _ _ => trivial) 0 selected trivial
  rw [saturate_of_run (hrun fuel hfuel)]
  exact hclosed

end Saturation
