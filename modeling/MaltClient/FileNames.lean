import MaltClient.GoPath

/-! Paths as lists of file names, and how they are spelled. -/

namespace GoText

abbrev FileName := { n : GoString // Name n }

/-- What `filepath.Rel` makes of a path below the root. -/
def relative (p : List FileName) : GoString := join (p.map Subtype.val)

/-- The names that the system reads in a relative path. -/
def components (path : GoString) : Option (List FileName) :=
  (split path).mapM fun n => if h : Name n then some ⟨n, h⟩ else none

theorem plain_relative (p : List FileName) : ∀ n ∈ p.map Subtype.val, Plain n := by
  intro n hn
  obtain ⟨m, -, rfl⟩ := List.mem_map.mp hn
  exact m.2.plain

variable {p : List FileName}

theorem map_val_ne_nil (hp : p ≠ []) : p.map Subtype.val ≠ [] :=
  fun h => hp (List.map_eq_nil_iff.mp h)

theorem relative_injective : Function.Injective relative := by
  intro p q h
  exact List.map_injective_iff.mpr Subtype.val_injective (join_injective (plain_relative p)
    (plain_relative q) h)

theorem split_relative (hp : p ≠ []) : split (relative p) = p.map Subtype.val :=
  split_join (map_val_ne_nil hp) fun n hn => (plain_relative p n hn).2

theorem components_relative (hp : p ≠ []) : components (relative p) = some p := by
  rw [components, split_relative hp]
  clear hp
  induction p with
  | nil => rfl
  | cons n p ih =>
    rw [List.map_cons, List.mapM_cons, ih, dif_pos n.2]
    rfl

theorem relative_ne_dot (hp : p ≠ []) : relative p ≠ dot := by
  intro he
  have hcomponents := components_relative hp
  rw [he] at hcomponents
  have hnone : components dot = none := by decide +kernel
  rw [hnone] at hcomponents
  cases hcomponents

theorem clean_relative_slash (hp : p ≠ []) : clean (relative p ++ [slash]) = relative p := by
  have hnames : ∀ n ∈ p.map Subtype.val, Name n := by
    intro n hn
    obtain ⟨m, -, rfl⟩ := List.mem_map.mp hn
    exact m.2
  have hne := map_val_ne_nil hp
  have hsplit : split (relative p ++ [slash]) = p.map Subtype.val ++ [[]] := by
    rw [split_append_slash, split_relative hp]
    rfl
  have hhead : ((relative p ++ [slash]).head? == some slash) = false := by
    have hnot := head?_join_ne_slash (plain_relative p)
    have hnil : relative p ≠ [] := join_ne_nil hne (plain_relative p)
    rw [List.head?_append_of_ne_nil _ hnil]
    exact beq_eq_false_iff_ne.mpr hnot
  have hout : cleanParts false (p.map Subtype.val ++ [[]]) = p.map Subtype.val := by
    rw [cleanParts, List.foldl_append, foldl_cleanStep_names hnames]
    simp [cleanStep]
  simp only [clean, hhead, hsplit, hout, Bool.false_eq_true, if_false, if_neg hne]
  rfl

theorem dir_relative (p : List FileName) (n : FileName) :
    dir (relative (p ++ [n])) = if p = [] then dot else relative p := by
  have hdrop (r : FileName) : r.val.rdropWhile (fun c => c ≠ slash) = [] := by
    rw [List.rdropWhile_eq_nil_iff]
    intro c hc
    simp only [decide_eq_true_eq]
    intro he
    exact r.2.plain.2 (he ▸ hc)
  by_cases hp : p = []
  · subst hp
    rw [if_pos rfl, dir]
    have hone : relative ([] ++ [n]) = n.val := rfl
    rw [hone, hdrop n]
    rfl
  · have hjoin : relative (p ++ [n]) = (relative p ++ [slash]) ++ n.val := by
      rw [relative, List.map_append, join_append (map_val_ne_nil hp) (by simp)]
      simp [relative, join]
    have hprefix :
      (relative (p ++ [n])).rdropWhile (fun c => c ≠ slash) = relative p ++ [slash] := by
      rw [hjoin, List.rdropWhile, List.reverse_append, List.dropWhile_append_of_pos]
      · simp
      · intro c hc
        simp only [decide_eq_true_eq]
        intro he
        exact n.2.plain.2 (he ▸ List.mem_reverse.mp hc)
    rw [if_neg hp, dir, hprefix, clean_relative_slash hp]

end GoText
