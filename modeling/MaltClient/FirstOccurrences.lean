import Mathlib

/-! The first occurrences of wanted keys in a list, and orders in which what a
key needs stands before it. -/

namespace FirstOccurrences

variable {α κ : Type*} [DecidableEq κ]

section

variable (key : α → κ) (wanted : κ → Prop) [DecidablePred wanted]

/-- The elements with a wanted key that has not been seen, each key once. -/
def firsts : List κ → List α → List α
  | _, [] => []
  | seen, a :: l =>
    if wanted (key a) ∧ key a ∉ seen then a :: firsts (seen ++ [key a]) l else firsts seen l

end

variable {key : α → κ} {wanted : κ → Prop} [DecidablePred wanted] {seen : List κ} {l l' : List α}
  {a : α} {k : κ}

theorem firsts_append : firsts key wanted seen (l ++ l') =
    firsts key wanted seen l ++ firsts key wanted (seen ++ (firsts key wanted seen l).map key)
      l' := by
  induction l generalizing seen with
  | nil => simp [firsts]
  | cons a l ih =>
    rw [List.cons_append, firsts, firsts]
    split_ifs with h
    · rw [ih, List.cons_append, List.map_cons, List.append_assoc, List.singleton_append]
    · exact ih

theorem mem_firsts (h : a ∈ firsts key wanted seen l) : a ∈ l ∧ wanted (key a) ∧ key a ∉ seen := by
  induction l generalizing seen with
  | nil => simp [firsts] at h
  | cons b l ih =>
    rw [firsts] at h
    split_ifs at h with hb
    · rcases List.mem_cons.mp h with rfl | h
      · exact ⟨List.mem_cons_self, hb⟩
      · obtain ⟨hm, hk, hs⟩ := ih h
        exact ⟨List.mem_cons_of_mem _ hm, hk, fun hin => hs (List.mem_append_left _ hin)⟩
    · obtain ⟨hm, hrest⟩ := ih h
      exact ⟨List.mem_cons_of_mem _ hm, hrest⟩

theorem key_mem_firsts (h : a ∈ l) (hk : wanted (key a)) (hs : key a ∉ seen) :
    key a ∈ (firsts key wanted seen l).map key := by
  induction l generalizing seen with
  | nil => simp at h
  | cons b l ih =>
    rw [firsts]
    rcases List.mem_cons.mp h with rfl | h
    · rw [if_pos ⟨hk, hs⟩]
      exact List.mem_cons_self
    · split_ifs
      · by_cases he : key a = key b
        · rw [he]
          exact List.mem_cons_self
        · refine List.mem_cons_of_mem _ (ih h ?_)
          simp [hs, he]
      · exact ih h hs

end FirstOccurrences
