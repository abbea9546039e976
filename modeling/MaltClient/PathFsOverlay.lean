import MaltClient.PathFs

/-! Reading a file system through the log of operations made on a base. A path
is looked up backwards, newest operation first; a path of the base or of an
operation is followed forwards to where later operations have moved it. -/

namespace PathFs

variable {ν φ : Type*} [DecidableEq ν]

/-- What a backward lookup ends at: a write, a directory made by the operation
with this count of operations up to it, or a path of the base. -/
inductive Found (ν φ : Type*) where
  | written (content : φ)
  | made (createdAt : Nat)
  | based (path : List ν)
  deriving DecidableEq, Repr

inductive Miss where
  | notFound
  | notDirectory
  deriving DecidableEq, Repr

def resolve : List (Op ν φ) → List ν → Except Miss (Found ν φ)
  | [], q => .ok (.based q)
  | .write p c :: older, q =>
    if q = p then .ok (.written c) else if p <+: q then .error .notDirectory else resolve older q
  | .mkdir p :: older, q =>
    if q = p then .ok (.made (older.length + 1)) else if p <+: q then .error .notFound
      else resolve older q
  | .unlink p :: older, q => if p <+: q then .error .notFound else resolve older q
  | .rename s d :: older, q =>
    if d <+: q then resolve older (s ++ q.drop d.length)
    else if s <+: q then .error .notFound
    else resolve older q

/-- The entry that a lookup stands for. -/
def Found.entry (base : Fs ν φ) : Except Miss (Found ν φ) → Option (Entry φ)
  | .ok (.written c) => some (.file c)
  | .ok (.made _) => some .dir
  | .ok (.based p) => base p
  | .error _ => none

/-- Looking a path up backwards through the log gives its entry in the file
system that the operations produce. -/
theorem entry_resolve {base : Fs ν φ} (hw : WellFormed base) {ops : List (Op ν φ)}
    (h : Valid base ops) (q : List ν) : Found.entry base (resolve ops q) = after base ops q := by
  induction ops generalizing q with
  | nil => rfl
  | cons op older ih =>
    obtain ⟨hv, he⟩ := h
    have hwo := hw.after hv
    cases op with
    | write p c =>
      simp only [resolve, after, apply]
      split_ifs with hq hpre
      · rfl
      · obtain ⟨r, hr, rfl⟩ := exists_tail hpre hq
        exact (hwo.none_below hr he.2).symm
      · exact ih hv q
    | mkdir p =>
      simp only [resolve, after, apply]
      split_ifs with hq hpre
      · rfl
      · obtain ⟨r, hr, rfl⟩ := exists_tail hpre hq
        exact (hwo.none_below_none hr he.2).symm
      · exact ih hv q
    | unlink p =>
      simp only [resolve, after, apply]
      by_cases hq : q = p
      · subst hq
        simp [Found.entry]
      by_cases hpre : p <+: q
      · obtain ⟨r, hr, rfl⟩ := exists_tail hpre hq
        simp only [hpre, hq, if_true, if_false, Found.entry]
        exact (hwo.none_below_childless he.2.2 hr).symm
      · simp only [hpre, hq, if_false]
        exact ih hv q
    | rename s d =>
      simp only [resolve, after, apply]
      split_ifs
      · exact ih hv _
      · rfl
      · exact ih hv q

/-- Below a directory the lookup fails only by not finding the name, or ends at
a base path that exists or whose parent in the base is a directory. -/
theorem resolve_child {base : Fs ν φ} (hw : WellFormed base) {ops : List (Op ν φ)}
    (h : Valid base ops) {d : List ν} (n : ν) (hd : after base ops d = some .dir) :
    match resolve ops (d ++ [n]) with
    | .error e => e = .notFound
    | .ok (.based p) => base p ≠ none ∨ ∃ q, p = q ++ [n] ∧ base q = some .dir
    | .ok _ => True := by
  induction ops generalizing d with
  | nil => exact .inr ⟨d, rfl, hd⟩
  | cons op older ih =>
    obtain ⟨hv, he⟩ := h
    have hwo := hw.after hv
    cases op with
    | write p c =>
      have hdp : d ≠ p := by
        rintro rfl
        simp [after, apply] at hd
      simp only [after, apply, if_neg hdp] at hd
      simp only [resolve]
      split_ifs with hq hpre
      · trivial
      · rcases prefix_snoc.mp hpre with hpd | rfl
        · obtain ⟨r, hr, rfl⟩ := exists_tail hpd hdp
          rw [hwo.none_below hr he.2] at hd
          simp at hd
        · exact absurd rfl hq
      · exact ih hv hd
    | mkdir p =>
      simp only [resolve]
      split_ifs with hq hpre
      · trivial
      · rfl
      · have hdp : d ≠ p := by
          rintro rfl
          exact hpre (List.prefix_append _ _)
        simp only [after, apply, if_neg hdp] at hd
        exact ih hv hd
    | unlink p =>
      simp only [resolve]
      split_ifs with hpre
      · rfl
      · have hdp : d ≠ p := by
          rintro rfl
          exact hpre (List.prefix_append _ _)
        simp only [after, apply, if_neg hdp] at hd
        exact ih hv hd
    | rename s t =>
      simp only [resolve]
      split_ifs with htq hsq
      · rcases prefix_snoc.mp htq with htd | rfl
        · simp only [after, apply, if_pos htd] at hd
          rw [drop_snoc n htd, ← List.append_assoc]
          exact ih hv hd
        · -- The name itself was moved here, so its source exists.
          have hs : Found.entry base (resolve older s) ≠ none := by
            rw [entry_resolve hw hv]
            exact he.2.1
          simp only [List.drop_length, List.append_nil]
          cases hr : resolve older s with
          | error e => simp [hr, Found.entry] at hs
          | ok f =>
            cases f with
            | written c => trivial
            | made k => trivial
            | based p => exact .inl (by simpa [hr, Found.entry] using hs)
      · rfl
      · have htd : ¬ t <+: d := fun hpre => htq (hpre.trans (List.prefix_append _ _))
        have hsd : ¬ s <+: d := fun hpre => hsq (hpre.trans (List.prefix_append _ _))
        simp only [after, apply, if_neg htd, if_neg hsd] at hd
        exact ih hv hd

/-- Where one later operation leaves a path that existed before it. -/
def step : Op ν φ → List ν → Option (List ν)
  | .write p _, q => if p <+: q ∧ q ≠ p then none else some q
  | .mkdir _, q => some q
  | .unlink p, q => if p <+: q then none else some q
  | .rename s d, q =>
    if s <+: q then some (d ++ q.drop s.length) else if d <+: q then none else some q

/-- Where a list of later operations, the oldest first, leaves a path. -/
def forward : List (Op ν φ) → List ν → Option (List ν)
  | [], q => some q
  | op :: newer, q => (step op q).bind (forward newer)

omit [DecidableEq ν] in
/-- The path that an operation makes or fills. -/
def targets : Op ν φ → List (List ν)
  | .write p _ | .mkdir p => [p]
  | .unlink _ => []
  | .rename _ d => [d]

/-- The paths of a list of operations, the oldest first, where the later ones
leave them. -/
def gathered : List (Op ν φ) → List (List ν)
  | [] => []
  | op :: newer => (targets op).filterMap (forward newer) ++ gathered newer

/-- A path followed forwards keeps to names of its own and of the operations. -/
theorem names_forward {P : ν → Prop} {ops : List (Op ν φ)}
    (h : ∀ op ∈ ops, ∀ p ∈ targets op, ∀ n ∈ p, P n)
    {q q' : List ν} (hq : ∀ n ∈ q, P n) (hf : forward ops q = some q') : ∀ n ∈ q', P n := by
  induction ops generalizing q with
  | nil =>
    cases hf
    exact hq
  | cons op newer ih =>
    obtain ⟨q₁, hstep, hrest⟩ := Option.bind_eq_some_iff.mp hf
    refine ih (fun o ho => h o (List.mem_cons_of_mem _ ho)) ?_ hrest
    cases op with
    | write p c =>
      simp only [step] at hstep
      split_ifs at hstep
      exact Option.some.inj hstep ▸ hq
    | mkdir p => exact Option.some.inj hstep ▸ hq
    | unlink p =>
      simp only [step] at hstep
      split_ifs at hstep
      exact Option.some.inj hstep ▸ hq
    | rename s d =>
      simp only [step] at hstep
      split_ifs at hstep
      · rw [← Option.some.inj hstep]
        exact fun n hn => (List.mem_append.mp hn).elim
          (h (.rename s d) (by simp) d (by simp [targets]) n) fun hr =>
          hq n (List.mem_of_mem_drop hr)
      · exact Option.some.inj hstep ▸ hq

theorem names_gathered {P : ν → Prop} {ops : List (Op ν φ)}
    (h : ∀ op ∈ ops, ∀ p ∈ targets op, ∀ n ∈ p, P n)
    {q : List ν} (hq : q ∈ gathered ops) : ∀ n ∈ q, P n := by
  induction ops with
  | nil => simp [gathered] at hq
  | cons op newer ih =>
    have hnewer : ∀ o ∈ newer, ∀ p ∈ targets o, ∀ n ∈ p, P n :=
      fun o ho => h o (List.mem_cons_of_mem _ ho)
    rcases List.mem_append.mp hq with hq | hq
    · obtain ⟨p, hp, hf⟩ := List.mem_filterMap.mp hq
      exact names_forward hnewer (h op (by simp) p hp) hf
    · exact ih hnewer hq

theorem forward_append_singleton (ops : List (Op ν φ)) (op : Op ν φ) (q : List ν) :
    forward (ops ++ [op]) q = (forward ops q).bind (step op) := by
  induction ops generalizing q with
  | nil => cases h : step op q <;> simp [forward, h]
  | cons o ops ih =>
    rw [List.cons_append, forward, forward, Option.bind_assoc]
    exact congrArg _ (funext ih)

theorem gathered_append_singleton (ops : List (Op ν φ)) (op : Op ν φ) :
    gathered (ops ++ [op]) = (gathered ops).filterMap (step op) ++ targets op := by
  induction ops with
  | nil => simp [gathered, forward]
  | cons o ops ih =>
    have hf : forward (ops ++ [op]) = fun q => (forward ops q).bind (step op) :=
      funext (forward_append_singleton ops op)
    simp [gathered, ih, hf, List.filterMap_append, List.filterMap_filterMap]

/-- The count of operations up to the one that made the directory found. -/
def createdAt : Except Miss (Found ν φ) → Nat
  | .ok (.made k) => k
  | _ => 0

theorem createdAt_le (ops : List (Op ν φ)) (q : List ν) :
    createdAt (resolve ops q) ≤ ops.length := by
  induction ops generalizing q with
  | nil => simp [resolve, createdAt]
  | cons op older ih =>
    cases op <;> simp only [resolve, List.length_cons] <;> split_ifs <;>
      first
      | exact Nat.le_succ_of_le (ih _)
      | simp [createdAt]

/-- A name in a directory is found by looking at the names its base directory
has and at the operations since the directory was made. -/
def Gathered (base : Fs ν φ) (ops : List (Op ν φ)) (d : List ν) (n : ν) : Prop :=
  d ++ [n] ∈ gathered (ops.reverse.drop (createdAt (resolve ops d))) ∨
    ∃ r, resolve ops d = .ok (.based r) ∧ base (r ++ [n]) ≠ none ∧
      forward ops.reverse (r ++ [n]) = some (d ++ [n])

/-- If the newest operation only carries a directory and a name in it along,
what gathered the name before gathers it now. -/
theorem Gathered.cons {base : Fs ν φ} {op : Op ν φ} {older : List (Op ν φ)} {d e : List ν} {n : ν}
    (h : Gathered base older e n) (hr : resolve (op :: older) d = resolve older e)
    (hs : step op (e ++ [n]) = some (d ++ [n])) : Gathered base (op :: older) d n := by
  have hle : createdAt (resolve older e) ≤ older.reverse.length := by
    rw [List.length_reverse]
    exact createdAt_le older e
  unfold Gathered at h ⊢
  rw [hr, List.reverse_cons]
  rcases h with h | ⟨r, hb, hex, hf⟩
  · left
    rw [List.drop_append_of_le_length hle, gathered_append_singleton, List.mem_append]
    exact .inl (List.mem_filterMap.mpr ⟨e ++ [n], h, hs⟩)
  · right
    exact ⟨r, hb, hex, by rw [forward_append_singleton, hf]; exact hs⟩

/-- If the newest operation makes or fills the name itself, it is gathered. -/
theorem Gathered.target {base : Fs ν φ} {op : Op ν φ} {older : List (Op ν φ)} {d e : List ν} {n : ν}
    (hr : resolve (op :: older) d = resolve older e) (ht : d ++ [n] ∈ targets op) :
    Gathered base (op :: older) d n := by
  have hle : createdAt (resolve older e) ≤ older.reverse.length := by
    rw [List.length_reverse]
    exact createdAt_le older e
  left
  rw [hr, List.reverse_cons, List.drop_append_of_le_length hle, gathered_append_singleton,
    List.mem_append]
  exact .inr ht

theorem gathered_of_child {base : Fs ν φ} (hw : WellFormed base) {ops : List (Op ν φ)}
    (h : Valid base ops) {d : List ν} {n : ν} (hd : after base ops d = some .dir)
    (hc : after base ops (d ++ [n]) ≠ none) : Gathered base ops d n := by
  induction ops generalizing d with
  | nil => exact .inr ⟨d, rfl, hc, rfl⟩
  | cons op older ih =>
    obtain ⟨hv, he⟩ := h
    have hwo := hw.after hv
    have hne (p : List ν) : d ++ [n] ≠ p → p <+: d ++ [n] → p <+: d := fun hn hp =>
      (prefix_snoc.mp hp).resolve_right fun e => hn e.symm
    cases op with
    | write p c =>
      have hdp : d ≠ p := by
        rintro rfl
        simp [after, apply] at hd
      simp only [after, apply, if_neg hdp] at hd
      have hpd : ¬ p <+: d := fun hpre => by
        obtain ⟨r, hr, rfl⟩ := exists_tail hpre hdp
        simp [hwo.none_below hr he.2] at hd
      have hr : resolve (.write p c :: older) d = resolve older d := by
        simp only [resolve, if_neg hdp, if_neg hpd]
      by_cases hq : d ++ [n] = p
      · exact .target hr (by simp [targets, hq])
      · simp only [after, apply, if_neg hq] at hc
        have hpq : ¬ p <+: d ++ [n] := fun hpre => hpd (hne p hq hpre)
        exact (ih hv hd hc).cons hr (by simp [step, hpq])
    | mkdir p =>
      by_cases hdp : d = p
      · subst hdp
        simp only [after, apply, List.append_right_eq_self, List.cons_ne_self, if_false] at hc
        exact absurd (hwo.none_below_none (by simp) he.2) hc
      · simp only [after, apply, if_neg hdp] at hd
        have hpd : ¬ p <+: d := fun hpre => by
          obtain ⟨r, hr, rfl⟩ := exists_tail hpre hdp
          simp [hwo.none_below_none hr he.2] at hd
        have hr : resolve (.mkdir p :: older) d = resolve older d := by
          simp only [resolve, if_neg hdp, if_neg hpd]
        by_cases hq : d ++ [n] = p
        · exact .target hr (by simp [targets, hq])
        · simp only [after, apply, if_neg hq] at hc
          exact (ih hv hd hc).cons hr (by simp [step])
    | unlink p =>
      have hdp : d ≠ p := by
        rintro rfl
        simp [after, apply] at hd
      simp only [after, apply, if_neg hdp] at hd
      have hpd : ¬ p <+: d := fun hpre => by
        obtain ⟨r, hr, rfl⟩ := exists_tail hpre hdp
        simp [hwo.none_below_childless he.2.2 hr] at hd
      have hq : d ++ [n] ≠ p := by
        rintro rfl
        simp [after, apply] at hc
      simp only [after, apply, if_neg hq] at hc
      have hpq : ¬ p <+: d ++ [n] := fun hpre => hpd (hne p hq hpre)
      exact (ih hv hd hc).cons (by simp only [resolve, if_neg hpd]) (by simp [step, hpq])
    | rename s t =>
      by_cases htd : t <+: d
      · have htq : t <+: d ++ [n] := htd.trans (List.prefix_append _ _)
        simp only [after, apply, if_pos htd] at hd
        simp only [after, apply, if_pos htq, drop_snoc n htd, ← List.append_assoc] at hc
        have hback : t ++ (d.drop t.length ++ [n]) = d ++ [n] := by
          rw [← List.append_assoc, ← List.prefix_iff_eq_append.mp htd]
          simp
        refine (ih hv hd hc).cons (by simp only [resolve, if_pos htd]) ?_
        simp [step, hback]
      · by_cases hq : d ++ [n] = t
        · have hsd : ¬ s <+: d := fun hpre => he.1 (hq ▸ hpre.trans (List.prefix_append _ _))
          have hr : resolve (.rename s t :: older) d = resolve older d := by
            simp only [resolve, if_neg htd, if_neg hsd]
          exact .target hr (by simp [targets, hq])
        · have htq : ¬ t <+: d ++ [n] := fun hpre => htd (hne t hq hpre)
          have hsq : ¬ s <+: d ++ [n] := fun hpre => by simp [after, apply, htq, hpre] at hc
          have hsd : ¬ s <+: d := fun hpre => hsq (hpre.trans (List.prefix_append _ _))
          simp only [after, apply, if_neg htd, if_neg hsd] at hd
          simp only [after, apply, if_neg htq, if_neg hsq] at hc
          exact (ih hv hd hc).cons (by simp only [resolve, if_neg htd, if_neg hsd])
            (by simp [step, htq, hsq])

end PathFs
