import Mathlib

/-! Parts of a list between two positions, and its parts of one length. -/

namespace Slices

variable {α : Type*} {l : List α} {a b c d x y : Nat}

def slice (l : List α) (a b : Nat) : List α := (l.drop a).take (b - a)

theorem length_slice (h : b ≤ l.length) : (slice l a b).length = b - a := by
  rw [slice, List.length_take, List.length_drop]
  omega

theorem slice_self (l : List α) (a : Nat) : slice l a a = [] := by simp [slice]

theorem slice_append (hab : a ≤ b) (hbd : b ≤ d) : slice l a b ++ slice l b d = slice l a d := by
  have hsplit : d - a = (b - a) + (d - b) := by omega
  have hdrop : l.drop b = (l.drop a).drop (b - a) := by rw [List.drop_drop, Nat.add_sub_cancel' hab]
  rw [slice, slice, slice, hdrop, hsplit, List.take_add]

theorem slice_slice (hy : y ≤ b - a) : slice (slice l a b) x y = slice l (a + x) (a + y) := by
  have hlength : a + y - (a + x) = y - x := by omega
  rw [slice, slice, slice, List.drop_take, List.take_take, List.drop_drop, hlength]
  congr 1
  omega

/-- A range is what it has of one part, followed by what it has after it. -/
theorem slice_part_append {k : Nat} (hstart : a < k * c + c) :
    slice l (max a (k * c)) (min (k * c + c) b) ++ slice l (max a ((k + 1) * c)) b =
      slice l (max a (k * c)) b := by
  have hmax : max a (k * c + c) = k * c + c := by omega
  rw [Nat.succ_mul, hmax]
  rcases Nat.le_total (k * c + c) b with hle | hle
  · rw [Nat.min_eq_left hle, slice_append (by omega) hle]
  · have hnil : slice l (k * c + c) b = [] := by
      rw [slice, Nat.sub_eq_zero_of_le hle, List.take_zero]
    rw [Nat.min_eq_right hle, hnil, List.append_nil]

/-- The part with a number, of the given length except perhaps at the end. -/
def chunk (c : Nat) (l : List α) (i : Nat) : List α := slice l (i * c) (min (i * c + c) l.length)

def chunkCount (c : Nat) (l : List α) : Nat := (l.length + c - 1) / c

def chunks (c : Nat) (l : List α) : List (List α) := (List.range (chunkCount c l)).map (chunk c l)

theorem length_chunk (c : Nat) (l : List α) (i : Nat) :
    (chunk c l i).length = min (i * c + c) l.length - i * c :=
  length_slice (Nat.min_le_right _ _)

theorem chunks_nil (c : Nat) : chunks c ([] : List α) = [] := by
  have hcount : chunkCount c ([] : List α) = 0 := by
    rw [chunkCount, List.length_nil, Nat.zero_add]
    rcases Nat.eq_zero_or_pos c with rfl | hc
    · rfl
    · exact Nat.div_eq_of_lt (by omega)
  rw [chunks, hcount]
  rfl

theorem chunks_cons (hc : 0 < c) (hl : l ≠ []) : chunks c l = l.take c :: chunks c (l.drop c) := by
  have hpos := List.length_pos_of_ne_nil hl
  have hcount : chunkCount c l = chunkCount c (l.drop c) + 1 := by
    rw [chunkCount, chunkCount, List.length_drop]
    rcases Nat.le_total l.length c with hle | hle
    · have hone : (l.length + c - 1) / c = 1 := by
        apply Nat.div_eq_of_lt_le <;> omega
      have hzero : (l.length - c + c - 1) / c = 0 := Nat.div_eq_of_lt (by omega)
      rw [hone, hzero]
    · have hsum : l.length + c - 1 = (l.length - c + c - 1) + c := by omega
      rw [hsum, Nat.add_div_right _ hc]
  have hfirst : chunk c l 0 = l.take c := by
    rw [chunk, Nat.zero_mul, Nat.zero_add, slice, List.drop_zero, Nat.sub_zero]
    rcases Nat.le_total c l.length with hle | hle
    · rw [Nat.min_eq_left hle]
    · rw [Nat.min_eq_right hle, List.take_length, List.take_of_length_le hle]
  have hrest (i : Nat) : chunk c l (i + 1) = chunk c (l.drop c) i := by
    have hstart : (i + 1) * c = c + i * c := by ring
    have hwidth :
      min (c + i * c + c) l.length - (c + i * c) = min (i * c + c)
        (l.length - c) - i * c := by omega
    rw [chunk, chunk, slice, slice, hstart, List.drop_drop, List.length_drop, hwidth]
  rw [chunks, hcount, List.range_succ_eq_map, List.map_cons, List.map_map, hfirst, chunks]
  congr 1
  exact List.map_congr_left fun i _ => hrest i

theorem length_chunks (c : Nat) (l : List α) :
    (chunks c l).length = chunkCount c l := by simp [chunks]

/-- Parts of one length, except that the last one may be shorter. -/
inductive Chunked (c : Nat) : List (List α) → Prop
  | last {d : List α} (hpos : 0 < d.length) (hle : d.length ≤ c) : Chunked c [d]
  | cons {d : List α} {ds : List (List α)} (hfull : d.length = c) (hds : Chunked c ds) :
      Chunked c (d :: ds)

theorem chunks_of_le (hc : 0 < c) (hl : l ≠ []) (hle : l.length ≤ c) : chunks c l = [l] := by
  rw [chunks_cons hc hl, List.take_of_length_le hle, List.drop_of_length_le hle, chunks_nil]

theorem chunked_chunks (hc : 0 < c) (hl : l ≠ []) : Chunked c (chunks c l) := by
  induction hn : l.length using Nat.strong_induction_on generalizing l with
  | _ n ih =>
    have hpos := List.length_pos_of_ne_nil hl
    by_cases hle : l.length ≤ c
    · rw [chunks_of_le hc hl hle]
      exact .last hpos hle
    · have hrest : l.drop c ≠ [] := List.ne_nil_of_length_pos (by rw [List.length_drop]; omega)
      rw [chunks_cons hc hl]
      refine .cons (by rw [List.length_take]; omega) (ih _ ?_ hrest rfl)
      rw [List.length_drop]
      omega

theorem Chunked.length_flatten_pos {ds : List (List α)} (hc : 0 < c) (h : Chunked c ds) :
    0 < ds.flatten.length := by
  cases h with
  | last hpos hle => simpa using hpos
  | cons hfull hds =>
    rw [List.flatten_cons, List.length_append]
    omega

theorem Chunked.length_pos {ds : List (List α)} (h : Chunked c ds) : 0 < ds.length := by
  cases h <;> simp

theorem Chunked.length_flatten {ds : List (List α)} (h : Chunked c ds) :
    (ds.length - 1) * c < ds.flatten.length ∧ ds.flatten.length ≤ ds.length * c := by
  induction h with
  | last hpos hle => simpa using ⟨hpos, hle⟩
  | @cons d ds hfull hds ih =>
    obtain ⟨n, hn⟩ := Nat.exists_eq_add_of_le' hds.length_pos
    rw [hn, Nat.add_sub_cancel, Nat.succ_mul] at ih
    have hall : (n + 1 + 1) * c = n * c + c + c := by ring
    have hfront : (n + 1) * c = n * c + c := by ring
    rw [List.flatten_cons, List.length_append, List.length_cons, hfull, hn, Nat.add_sub_cancel,
      hall, hfront]
    omega

theorem Chunked.chunks_flatten {ds : List (List α)} (hc : 0 < c) (h : Chunked c ds) :
    chunks c ds.flatten = ds := by
  induction h with
  | last hpos hle =>
    rw [List.flatten_singleton]
    exact chunks_of_le hc (List.ne_nil_of_length_pos hpos) hle
  | @cons d ds hfull hds ih =>
    have hne : d ++ ds.flatten ≠ [] :=
      List.append_ne_nil_of_left_ne_nil (List.ne_nil_of_length_pos (by omega)) _
    rw [List.flatten_cons, chunks_cons hc hne, List.take_left' hfull, List.drop_left' hfull, ih]

theorem flatten_chunks (hc : 0 < c) (l : List α) : (chunks c l).flatten = l := by
  induction hn : l.length using Nat.strong_induction_on generalizing l with
  | _ n ih =>
    by_cases hl : l = []
    · rw [hl, chunks_nil, List.flatten_nil]
    · have hpos := List.length_pos_of_ne_nil hl
      have hrest := ih (l.drop c).length (by rw [List.length_drop]; omega) (l.drop c) rfl
      rw [chunks_cons hc hl, List.flatten_cons, hrest, List.take_append_drop]

theorem getElem?_chunks {i : Nat} (hi : i < chunkCount c l) :
    (chunks c l)[i]? = some (chunk c l i) := by
  rw [chunks, List.getElem?_map, List.getElem?_range hi]
  rfl

end Slices
