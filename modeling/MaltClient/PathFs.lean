import Mathlib

/-! File systems as partial functions from paths to entries, and the four
operations that change them. An operation has a condition under which it is
enabled, and enabled operations keep the file system well formed. -/

namespace PathFs

inductive Entry (φ : Type*) where
  | dir
  | file (content : φ)
  deriving DecidableEq, Repr

abbrev Fs (ν φ : Type*) := List ν → Option (Entry φ)

inductive Op (ν φ : Type*) where
  | write (path : List ν) (content : φ)
  | mkdir (path : List ν)
  | unlink (path : List ν)
  | rename (source destination : List ν)
  deriving DecidableEq, Repr

variable {ν φ : Type*}

/-- The root is a directory, and so is the parent of everything that exists. -/
structure WellFormed (F : Fs ν φ) : Prop where
  root : F [] = some .dir
  parent : ∀ p n, F (p ++ [n]) ≠ none → F p = some .dir

def HasParent (F : Fs ν φ) (p : List ν) : Prop := ∃ q n, p = q ++ [n] ∧ F q = some .dir

def Childless (F : Fs ν φ) (p : List ν) : Prop := ∀ n, F (p ++ [n]) = none

def Enabled (F : Fs ν φ) : Op ν φ → Prop
  | .write p _ => HasParent F p ∧ F p ≠ some .dir
  | .mkdir p => HasParent F p ∧ F p = none
  | .unlink p => p ≠ [] ∧ F p ≠ none ∧ Childless F p
  | .rename s d => ¬ s <+: d ∧ F s ≠ none ∧ HasParent F d ∧
      (F d ≠ none → (F s = some .dir ↔ F d = some .dir) ∧ Childless F d)

theorem HasParent.ne_nil {F : Fs ν φ} {p : List ν} (h : HasParent F p) : p ≠ [] := by
  obtain ⟨q, n, rfl, -⟩ := h
  simp

theorem WellFormed.dir_above {F : Fs ν φ} (h : WellFormed F) {p r : List ν} (hr : r ≠ [])
    (he : F (p ++ r) ≠ none) : F p = some .dir := by
  induction r using List.reverseRecOn with
  | nil => exact absurd rfl hr
  | append_singleton r n ih =>
    rw [← List.append_assoc] at he
    have hp := h.parent (p ++ r) n he
    by_cases hre : r = []
    · simpa [hre] using hp
    · exact ih hre (by simp [hp])

theorem WellFormed.none_below {F : Fs ν φ} (h : WellFormed F) {p r : List ν} (hr : r ≠ [])
    (hp : F p ≠ some .dir) : F (p ++ r) = none := by
  by_contra hne
  exact hp (h.dir_above hr hne)

theorem WellFormed.none_below_none {F : Fs ν φ} (h : WellFormed F) {p r : List ν} (hr : r ≠ [])
    (hp : F p = none) : F (p ++ r) = none :=
  h.none_below hr (by rw [hp]; simp)

theorem WellFormed.none_below_childless {F : Fs ν φ} (h : WellFormed F) {p r : List ν}
    (hc : Childless F p) (hr : r ≠ []) : F (p ++ r) = none := by
  obtain ⟨n, r, rfl⟩ := List.exists_cons_of_ne_nil hr
  by_cases hre : r = []
  · simpa [hre] using hc n
  · have hn : F (p ++ [n]) ≠ some .dir := by simp [hc n]
    simpa using h.none_below hre hn

theorem HasParent.dir {F : Fs ν φ} {q : List ν} {n : ν} (h : HasParent F (q ++ [n])) :
    F q = some .dir := by
  obtain ⟨q', n', he, hq⟩ := h
  obtain ⟨rfl, -⟩ := List.append_inj' he rfl
  exact hq

theorem exists_tail {p q : List ν} (h : p <+: q) (hne : q ≠ p) : ∃ r, r ≠ [] ∧ q = p ++ r := by
  obtain ⟨r, rfl⟩ := h
  exact ⟨r, fun he => hne (by simp [he]), rfl⟩

theorem prefix_snoc {d p : List ν} {n : ν} : d <+: p ++ [n] ↔ d <+: p ∨ d = p ++ [n] := by
  rw [List.prefix_concat_iff, or_comm]

theorem drop_snoc {d p : List ν} (n : ν) (h : d <+: p) :
    (p ++ [n]).drop d.length = p.drop d.length ++ [n] :=
  List.drop_append_of_le_length h.length_le

variable [DecidableEq ν]

def apply (F : Fs ν φ) : Op ν φ → Fs ν φ
  | .write p c => fun q => if q = p then some (.file c) else F q
  | .mkdir p => fun q => if q = p then some .dir else F q
  | .unlink p => fun q => if q = p then none else F q
  | .rename s d =>
    fun q => if d <+: q then F (s ++ q.drop d.length) else if s <+: q then none else F q

/-- Setting one path whose parent is a directory, and below which nothing can
be left hanging, keeps the file system well formed. -/
theorem WellFormed.set {F : Fs ν φ} (hw : WellFormed F) {p : List ν} {e : Option (Entry φ)}
    (hp : p ≠ []) (hparent : e ≠ none → HasParent F p) (hbelow : e ≠ some .dir → Childless F p) :
    WellFormed fun q => if q = p then e else F q := by
  refine ⟨by simp [hp.symm, hw.root], fun q n hne => ?_⟩
  have hq : F q = some .dir := by
    by_cases hqn : q ++ [n] = p
    · rw [if_pos hqn] at hne
      exact HasParent.dir (hqn ▸ hparent hne)
    · rw [if_neg hqn] at hne
      exact hw.parent q n hne
  by_cases hqp : q = p
  · subst hqp
    rw [if_neg (by simp)] at hne
    by_contra he
    rw [if_pos rfl] at he
    exact hne (hbelow he n)
  · rw [if_neg hqp, hq]

theorem WellFormed.rename {F : Fs ν φ} (hw : WellFormed F) {s d : List ν}
    (h : Enabled F (.rename s d)) : WellFormed (apply F (.rename s d)) := by
  obtain ⟨hnot, hs, hp, -⟩ := h
  have hsnil : s ≠ [] := by
    rintro rfl
    exact hnot List.nil_prefix
  refine ⟨by simp [apply, hp.ne_nil, hsnil, hw.root], fun q n hne => ?_⟩
  simp only [apply] at hne ⊢
  by_cases hd : d <+: q ++ [n]
  · rw [if_pos hd] at hne
    rcases prefix_snoc.mp hd with hdq | rfl
    · rw [drop_snoc n hdq, ← List.append_assoc] at hne
      rw [if_pos hdq]
      exact hw.parent _ n hne
    · have hlong : ¬ q ++ [n] <+: q := fun hpre => by
        have hle := hpre.length_le
        rw [List.length_append, List.length_singleton] at hle
        omega
      have hns : ¬ s <+: q := fun hpre => hnot (hpre.trans (List.prefix_append q [n]))
      rw [if_neg hlong, if_neg hns]
      exact hp.dir
  · rw [if_neg hd] at hne
    by_cases hsq : s <+: q ++ [n]
    · simp [hsq] at hne
    · rw [if_neg hsq] at hne
      rw [if_neg fun hpre => hd (hpre.trans (List.prefix_append q [n])),
        if_neg fun hpre => hsq (hpre.trans (List.prefix_append q [n]))]
      exact hw.parent q n hne

theorem WellFormed.apply {F : Fs ν φ} (hw : WellFormed F) {op : Op ν φ} (h : Enabled F op) :
    WellFormed (apply F op) := by
  cases op with
  | write p c => exact hw.set h.1.ne_nil (fun _ => h.1) fun _ n => hw.none_below (by simp) h.2
  | mkdir p => exact hw.set h.1.ne_nil (fun _ => h.1) fun hne => absurd rfl hne
  | unlink p => exact hw.set h.1 (fun hne => absurd rfl hne) fun _ => h.2.2
  | rename s d => exact hw.rename h

/-- The file system after a list of operations, the newest first. -/
def after (base : Fs ν φ) : List (Op ν φ) → Fs ν φ
  | [] => base
  | op :: older => apply (after base older) op

/-- Each operation was enabled when it was made. -/
def Valid (base : Fs ν φ) : List (Op ν φ) → Prop
  | [] => True
  | op :: older => Valid base older ∧ Enabled (after base older) op

theorem WellFormed.after {base : Fs ν φ} (hw : WellFormed base) {ops : List (Op ν φ)}
    (h : Valid base ops) : WellFormed (after base ops) := by
  induction ops with
  | nil => exact hw
  | cons op older ih => exact (ih h.1).apply h.2

end PathFs
