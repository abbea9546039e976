import MaltClient.PathFs

/-! Trees of named children, with data at each directory and each file. The
file system a tree stands for, and what an edit of one directory does to it. -/

namespace NamedTree

universe u v w

inductive Tree (ν : Type u) (δ : Type v) (φ : Type w) where
  | file (content : φ)
  | dir (data : δ) (children : List (ν × Tree ν δ φ))

variable {ν : Type u} {δ : Type v} {φ : Type w}

def Tree.isDir : Tree ν δ φ → Bool
  | .file _ => false
  | .dir _ _ => true

def Tree.entry : Tree ν δ φ → PathFs.Entry φ
  | .file c => .file c
  | .dir _ _ => .dir

/-- A property of the data of every directory of a tree. -/
inductive AllDirs (P : δ → Prop) : Tree ν δ φ → Prop
  | file (c : φ) : AllDirs P (.file c)
  | dir (d : δ) (cs : List (ν × Tree ν δ φ)) (hd : P d) (hcs : ∀ c ∈ cs, AllDirs P c.2) :
      AllDirs P (.dir d cs)

variable [DecidableEq ν]

def child? (n : ν) : List (ν × Tree ν δ φ) → Option (Tree ν δ φ)
  | [] => none
  | c :: cs => if c.1 = n then some c.2 else child? n cs

def setChild (n : ν) (t : Tree ν δ φ) : List (ν × Tree ν δ φ) → List (ν × Tree ν δ φ)
  | [] => [(n, t)]
  | c :: cs => if c.1 = n then (n, t) :: cs else c :: setChild n t cs

def removeChild (n : ν) (cs : List (ν × Tree ν δ φ)) : List (ν × Tree ν δ φ) :=
  cs.filter fun c => c.1 ≠ n

def get? : List ν → Tree ν δ φ → Option (Tree ν δ φ)
  | [], t => some t
  | _ :: _, .file _ => none
  | n :: p, .dir _ cs => (child? n cs).bind (get? p)

/-- The file system that a tree stands for. -/
def view (t : Tree ν δ φ) : PathFs.Fs ν φ := fun p => (get? p t).map Tree.entry

/-- Edit the directory at a path, and pass through those above it. -/
def updateAt (enter : δ → δ) (edit : δ → List (ν × Tree ν δ φ) → Tree ν δ φ) :
    List ν → Tree ν δ φ → Tree ν δ φ
  | _, .file c => .file c
  | [], .dir d cs => edit d cs
  | n :: p, .dir d cs =>
    match child? n cs with
    | none => .dir d cs
    | some t => .dir (enter d) (setChild n (updateAt enter edit p t) cs)

theorem child?_setChild (n m : ν) (t : Tree ν δ φ) (cs : List (ν × Tree ν δ φ)) :
    child? m (setChild n t cs) = if m = n then some t else child? m cs := by
  induction cs with
  | nil =>
    by_cases h : m = n
    · simp [setChild, child?, h]
    · simp [setChild, child?, h, Ne.symm h]
  | cons c cs ih =>
    by_cases hc : c.1 = n
    · by_cases h : m = n
      · simp [setChild, child?, hc, h]
      · simp [setChild, child?, hc, h, Ne.symm h]
    · by_cases hm : c.1 = m
      · have hmn : m ≠ n := fun e => hc (hm.trans e)
        simp [setChild, child?, hm, hmn]
      · simp [setChild, child?, hc, hm, ih]

theorem child?_removeChild (n m : ν) (cs : List (ν × Tree ν δ φ)) :
    child? m (removeChild n cs) = if m = n then none else child? m cs := by
  induction cs with
  | nil => simp [removeChild, child?]
  | cons c cs ih =>
    simp only [removeChild] at ih ⊢
    by_cases hc : c.1 = n
    · rw [List.filter_cons_of_neg (by simp [hc]), ih]
      by_cases h : m = n
      · simp [h]
      · simp [child?, hc, h, Ne.symm h]
    · rw [List.filter_cons_of_pos (by simp [hc]), child?, ih]
      by_cases hm : c.1 = m
      · have hmn : m ≠ n := fun e => hc (hm.trans e)
        simp [child?, hm, hmn]
      · simp [child?, hm]

theorem setChild_eq_self {n : ν} {t : Tree ν δ φ} {cs : List (ν × Tree ν δ φ)}
    (h : child? n cs = some t) : setChild n t cs = cs := by
  induction cs with
  | nil => simp [child?] at h
  | cons c cs ih =>
    rw [child?] at h
    rw [setChild]
    split_ifs at h ⊢ with hc
    · rw [← hc, ← Option.some.inj h]
    · rw [ih h]

/-- Replacing a child keeps the list of names. -/
theorem map_fst_setChild {n : ν} {t : Tree ν δ φ} {cs : List (ν × Tree ν δ φ)}
    (h : child? n cs ≠ none) : (setChild n t cs).map Prod.fst = cs.map Prod.fst := by
  induction cs with
  | nil => simp [child?] at h
  | cons c cs ih =>
    rw [child?] at h
    rw [setChild]
    split_ifs at h ⊢ with hc
    · simp [hc]
    · simp [ih h]

theorem mem_map_fst_iff {n : ν} {cs : List (ν × Tree ν δ φ)} :
    n ∈ cs.map Prod.fst ↔ child? n cs ≠ none := by
  induction cs with
  | nil => simp [child?]
  | cons c cs ih =>
    by_cases hc : c.1 = n
    · simp [child?, hc]
    · simpa [child?, hc, Ne.symm hc] using ih

theorem child?_eq_none_iff {cs : List (ν × Tree ν δ φ)} : (∀ n, child? n cs = none) ↔ cs = [] := by
  constructor
  · intro h
    cases cs with
    | nil => rfl
    | cons c cs => simpa [child?] using h c.1
  · rintro rfl n
    rfl

@[simp] theorem get?_nil (t : Tree ν δ φ) : get? [] t = some t := by
  cases t <;> rfl

@[simp] theorem get?_cons_file (n : ν) (p : List ν) (c : φ) :
    get? (n :: p) (.file c : Tree ν δ φ) = none := rfl

@[simp] theorem get?_cons_dir (n : ν) (p : List ν) (d : δ) (cs : List (ν × Tree ν δ φ)) :
    get? (n :: p) (.dir d cs) = (child? n cs).bind (get? p) := rfl

theorem get?_append (p q : List ν) (t : Tree ν δ φ) :
    get? (p ++ q) t = (get? p t).bind (get? q) := by
  induction p generalizing t with
  | nil => simp
  | cons n p ih =>
    cases t with
    | file c => simp
    | dir d cs =>
      cases hc : child? n cs with
      | none => simp [hc]
      | some t => simp [hc, ih]

theorem view_cons_dir (n : ν) (p : List ν) (d : δ) (cs : List (ν × Tree ν δ φ)) :
    view (.dir d cs) (n :: p) = (child? n cs).bind fun t => view t p := by
  cases h : child? n cs <;> simp [view, h]

theorem view_eq_dir_iff {t : Tree ν δ φ} {p : List ν} :
    view t p = some .dir ↔ ∃ d cs, get? p t = some (.dir d cs) := by
  unfold view
  cases h : get? p t with
  | none => simp
  | some u => cases u <;> simp [Tree.entry]

theorem view_append {t u : Tree ν δ φ} {p : List ν} (h : get? p t = some u) (r : List ν) :
    view t (p ++ r) = view u r := by
  simp [view, get?_append, h]

/-- A tree whose root is a directory stands for a well-formed file system. -/
theorem wellFormed_view (d : δ) (cs : List (ν × Tree ν δ φ)) :
    PathFs.WellFormed (view (.dir d cs)) := by
  refine ⟨rfl, fun p n hne => ?_⟩
  cases hp : get? p (.dir d cs) with
  | none => simp [view, get?_append, hp] at hne
  | some u =>
    cases u with
    | file c => simp [view, get?_append, hp] at hne
    | dir d' cs' => exact view_eq_dir_iff.mpr ⟨d', cs', hp⟩

theorem childless_iff {t : Tree ν δ φ} {p : List ν} {d : δ} {cs : List (ν × Tree ν δ φ)}
    (h : get? p t = some (.dir d cs)) : PathFs.Childless (view t) p ↔ cs = [] := by
  rw [← child?_eq_none_iff]
  refine forall_congr' fun n => ?_
  rw [view_append h, view_cons_dir]
  cases child? n cs <;> simp [view]

theorem get?_updateAt {enter : δ → δ} {edit : δ → List (ν × Tree ν δ φ) → Tree ν δ φ} {p : List ν}
    {t : Tree ν δ φ} {d : δ} {cs : List (ν × Tree ν δ φ)} (h : get? p t = some (.dir d cs)) :
    get? p (updateAt enter edit p t) = some (edit d cs) := by
  induction p generalizing t with
  | nil =>
    rw [get?_nil, Option.some.injEq] at h
    subst h
    simp [updateAt]
  | cons n p ih =>
    cases t with
    | file c => simp at h
    | dir d' cs' =>
      cases hc : child? n cs' with
      | none => simp [hc] at h
      | some u => simp [updateAt, hc, child?_setChild, ih (t := u) (by simpa [hc] using h)]

/-- What is not on the way to an edited directory is what the edit puts there,
or what was there before. -/
theorem get?_updateAt_apart {enter data : δ → δ} {edit : List (ν × Tree ν δ φ) →
    List (ν × Tree ν δ φ)}
    {x : Option (Tree ν δ φ)} {p q : List ν} {n : ν} {t : Tree ν δ φ} {d : δ}
    {cs : List (ν × Tree ν δ φ)}
    (hedit : ∀ cs m, child? m (edit cs) = if m = n then x else child? m cs)
    (h : get? p t = some (.dir d cs)) (hq : ¬ q <+: p) :
    get? q (updateAt enter (fun d cs => .dir (data d) (edit cs)) p t) =
      if p ++ [n] <+: q then x.bind (get? (q.drop (p ++ [n]).length)) else get? q t := by
  induction p generalizing t q with
  | nil =>
    obtain rfl := Option.some.inj ((get?_nil t).symm.trans h)
    cases q with
    | nil => exact absurd List.nil_prefix hq
    | cons m q =>
      by_cases hm : m = n
      · simp [updateAt, hedit, hm]
      · simp [updateAt, hedit, hm, Ne.symm hm]
  | cons k p ih =>
    cases t with
    | file c => simp at h
    | dir d₀ cs₀ =>
      obtain ⟨u, hu, hp⟩ := Option.bind_eq_some_iff.mp h
      cases q with
      | nil => exact absurd List.nil_prefix hq
      | cons m q =>
        simp only [updateAt, hu, get?_cons_dir, child?_setChild]
        by_cases hm : m = k
        · subst hm
          rw [if_pos rfl, hu, Option.bind_some, Option.bind_some, ih hp fun hpre =>
            hq (by simpa using hpre)]
          simp
        · simp [hm, Ne.symm hm]

/-- The directories on the way to an edited directory only get their marks. -/
theorem get?_updateAt_above {enter data : δ → δ} {edit : List (ν × Tree ν δ φ) →
    List (ν × Tree ν δ φ)}
    {p q : List ν} {t : Tree ν δ φ} {d : δ} {cs : List (ν × Tree ν δ φ)}
    (h : get? p t = some (.dir d cs)) (hq : q <+: p) :
    ∃ d₀ cs₀ d₁ cs₁, get? q t = some (.dir d₀ cs₀) ∧ (d₁ = enter d₀ ∨ d₁ = data d₀) ∧
      get? q (updateAt enter (fun d cs => .dir (data d) (edit cs)) p t) = some (.dir d₁ cs₁) := by
  induction p generalizing t q with
  | nil =>
    obtain rfl := List.prefix_nil.mp hq
    exact ⟨d, cs, data d, edit cs, h, .inr rfl, get?_updateAt h⟩
  | cons k p ih =>
    cases t with
    | file c => simp at h
    | dir d₀ cs₀ =>
      obtain ⟨u, hu, hp⟩ := Option.bind_eq_some_iff.mp h
      cases q with
      | nil => exact ⟨d₀, cs₀, enter d₀, _, rfl, .inl rfl, by rw [updateAt, hu, get?_nil]⟩
      | cons m q =>
        obtain ⟨rfl, hqp⟩ := List.cons_prefix_cons.mp hq
        obtain ⟨d₁, cs₁, d₂, cs₂, hget, hd, hget'⟩ := ih hp hqp
        exact ⟨d₁, cs₁, d₂, cs₂, by simp [hu, hget], hd,
          by simp [updateAt, hu, child?_setChild, hget']⟩

/-- Setting or clearing one name, seen through what neither the children nor
the marks of a directory matter to. -/
theorem map_get?_updateAt {β : Type*} {g : Tree ν δ φ → β} {enter data : δ → δ}
    {edit : List (ν × Tree ν δ φ) → List (ν × Tree ν δ φ)} {x : Option (Tree ν δ φ)}
    {p : List ν} {n : ν} {t : Tree ν δ φ} {d : δ} {cs : List (ν × Tree ν δ φ)}
    (henter : ∀ d cs cs', g (.dir (enter d) cs') = g (.dir d cs))
    (hdata : ∀ d cs cs', g (.dir (data d) cs') = g (.dir d cs))
    (hedit : ∀ cs m, child? m (edit cs) = if m = n then x else child? m cs)
    (h : get? p t = some (.dir d cs)) (q : List ν) :
    (get? q (updateAt enter (fun d cs => .dir (data d) (edit cs)) p t)).map g =
      if p ++ [n] <+: q then x.bind fun u => (get? (q.drop (p ++ [n]).length) u).map g
        else (get? q t).map g := by
  by_cases hq : q <+: p
  · obtain ⟨d₀, cs₀, d₁, cs₁, hget, hd, hget'⟩ := get?_updateAt_above h hq
    have hlong : ¬ p ++ [n] <+: q := fun hpre => by simpa using (hpre.trans hq).length_le
    rw [if_neg hlong, hget', hget, Option.map_some, Option.map_some]
    rcases hd with rfl | rfl
    · rw [henter]
    · rw [hdata]
  · rw [get?_updateAt_apart hedit h hq]
    split_ifs
    · rw [Option.map_bind]
      rfl
    · rfl

theorem view_updateAt {enter data : δ → δ} {edit : List (ν × Tree ν δ φ) → List (ν × Tree ν δ φ)}
    {x : Option (Tree ν δ φ)} {p : List ν} {n : ν} {t : Tree ν δ φ} {d : δ}
    {cs : List (ν × Tree ν δ φ)}
    (hedit : ∀ cs m, child? m (edit cs) = if m = n then x else child? m cs)
    (h : get? p t = some (.dir d cs)) (q : List ν) :
    view (updateAt enter (fun d cs => .dir (data d) (edit cs)) p t) q =
      if p ++ [n] <+: q then x.bind fun u => view u (q.drop (p ++ [n]).length) else view t q :=
  map_get?_updateAt (fun _ _ _ => rfl) (fun _ _ _ => rfl) hedit h q

theorem mem_of_child? {n : ν} {t : Tree ν δ φ} {cs : List (ν × Tree ν δ φ)}
    (h : child? n cs = some t) : (n, t) ∈ cs := by
  induction cs with
  | nil => simp [child?] at h
  | cons c cs ih =>
    rw [child?] at h
    split_ifs at h with hc
    · rw [← hc, ← Option.some.inj h]
      simp
    · exact List.mem_cons_of_mem _ (ih h)

theorem child?_of_mem {n : ν} {t : Tree ν δ φ} {cs : List (ν × Tree ν δ φ)}
    (hnodup : (cs.map Prod.fst).Nodup) (h : (n, t) ∈ cs) : child? n cs = some t := by
  induction cs with
  | nil => simp at h
  | cons c cs ih =>
    rw [List.map_cons, List.nodup_cons] at hnodup
    rw [child?]
    rcases List.mem_cons.mp h with rfl | h
    · rw [if_pos rfl]
    · have hne : c.1 ≠ n := fun he => hnodup.1 (he ▸ List.mem_map.mpr ⟨(n, t), h, rfl⟩)
      rw [if_neg hne, ih hnodup.2 h]

theorem mem_setChild {n : ν} {t : Tree ν δ φ} {cs : List (ν × Tree ν δ φ)} {c : ν × Tree ν δ φ}
    (h : c ∈ setChild n t cs) : c = (n, t) ∨ c ∈ cs := by
  induction cs with
  | nil => exact .inl (by simpa [setChild] using h)
  | cons c' cs ih =>
    rw [setChild] at h
    split_ifs at h
    · rcases List.mem_cons.mp h with h | h
      · exact .inl h
      · exact .inr (by simp [h])
    · rcases List.mem_cons.mp h with rfl | h
      · exact .inr (by simp)
      · rcases ih h with h | h
        · exact .inl h
        · exact .inr (by simp [h])

theorem nodup_setChild {n : ν} {t : Tree ν δ φ} {cs : List (ν × Tree ν δ φ)}
    (h : (cs.map Prod.fst).Nodup) : ((setChild n t cs).map Prod.fst).Nodup := by
  by_cases hn : child? n cs = none
  · have happend : (setChild n t cs).map Prod.fst = cs.map Prod.fst ++ [n] := by
      clear h
      induction cs with
      | nil => rfl
      | cons c cs ih =>
        rw [child?] at hn
        split_ifs at hn with hc
        rw [setChild, if_neg hc, List.map_cons, ih hn]
        rfl
    have hmem : n ∉ cs.map Prod.fst := by rwa [mem_map_fst_iff, not_not]
    rw [happend]
    exact List.nodup_append.mpr ⟨h, by simp, fun a ha b hb => by rintro rfl; simp_all⟩
  · rwa [map_fst_setChild hn]

theorem nodup_removeChild {n : ν} {cs : List (ν × Tree ν δ φ)} (h : (cs.map Prod.fst).Nodup) :
    ((removeChild n cs).map Prod.fst).Nodup :=
  h.sublist (List.filter_sublist.map Prod.fst)

section AllDirs

variable {P : δ → Prop}

omit [DecidableEq ν] in
theorem AllDirs.children {d : δ} {cs : List (ν × Tree ν δ φ)} (h : AllDirs P (.dir d cs)) :
    P d ∧ ∀ c ∈ cs, AllDirs P c.2 := by
  cases h with
  | dir _ _ hd hcs => exact ⟨hd, hcs⟩

theorem AllDirs.get? {p : List ν} {t u : Tree ν δ φ} (h : AllDirs P t) (hp : get? p t = some u) :
    AllDirs P u := by
  induction p generalizing t with
  | nil =>
    rw [get?_nil, Option.some.injEq] at hp
    exact hp ▸ h
  | cons n p ih =>
    cases t with
    | file c => simp at hp
    | dir d cs =>
      obtain ⟨c, hc, hp⟩ := Option.bind_eq_some_iff.mp hp
      exact ih (h.children.2 (n, c) (mem_of_child? hc)) hp

theorem AllDirs.setChild {n : ν} {t : Tree ν δ φ} {cs : List (ν × Tree ν δ φ)}
    (ht : AllDirs P t) (hcs : ∀ c ∈ cs, AllDirs P c.2) : ∀ c ∈ setChild n t cs, AllDirs P c.2 := by
  intro c hc
  rcases mem_setChild hc with rfl | hc
  · exact ht
  · exact hcs c hc

theorem AllDirs.removeChild {n : ν} {cs : List (ν × Tree ν δ φ)} (hcs : ∀ c ∈ cs, AllDirs P c.2) :
    ∀ c ∈ removeChild n cs, AllDirs P c.2 :=
  fun c hc => hcs c (List.mem_filter.mp hc).1

theorem AllDirs.updateAt {enter : δ → δ} {edit : δ → List (ν × Tree ν δ φ) → Tree ν δ φ}
    {p : List ν} {t : Tree ν δ φ} (h : AllDirs P t) (henter : ∀ d, P d → P (enter d))
    (hedit : ∀ d cs, P d → (∀ c ∈ cs, AllDirs P c.2) → AllDirs P (edit d cs)) :
    AllDirs P (updateAt enter edit p t) := by
  induction p generalizing t with
  | nil =>
    cases t with
    | file c => exact h
    | dir d cs => exact hedit d cs h.children.1 h.children.2
  | cons n p ih =>
    cases t with
    | file c => exact h
    | dir d cs =>
      cases hc : child? n cs with
      | none => simpa [NamedTree.updateAt, hc] using h
      | some u =>
        simp only [NamedTree.updateAt, hc]
        have hu := h.children.2 (n, u) (mem_of_child? hc)
        exact .dir _ _ (henter d h.children.1) (AllDirs.setChild (ih hu) h.children.2)

end AllDirs

end NamedTree
