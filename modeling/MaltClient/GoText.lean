import Mathlib

/-! Go strings as the sequences that a `range` loop decodes: Unicode scalars,
and single bytes that are not part of valid UTF-8. The functions are those of
the same name in `strings`, `unicode` and `utf8`, for the slash as separator. -/

namespace GoText

inductive Rune where
  | char (c : Char)
  | bad (b : UInt8)
  deriving DecidableEq, Repr

abbrev GoString := List Rune

instance : LawfulBEq GoString := inferInstance

def text (s : String) : GoString := s.toList.map Rune.char

def slash : Rune := .char '/'

def nul : Char := Char.ofNat 0

def Rune.isValid : Rune → Bool
  | .char _ => true
  | .bad _ => false

def isSpace : Rune → Bool
  | .char c =>
    let n := c.toNat
    (9 ≤ n && n ≤ 13) || n == 0x20 || n == 0x85 || n == 0xA0 || n == 0x1680 ||
      (0x2000 ≤ n && n ≤ 0x200a) || n == 0x2028 || n == 0x2029 || n == 0x202f ||
      n == 0x205f || n == 0x3000
  | .bad _ => false

def trimSpace (s : GoString) : GoString := (s.dropWhile isSpace).rdropWhile isSpace

def validString (s : GoString) : Bool := s.all Rune.isValid

def containsRune (s : GoString) (c : Char) : Bool := s.contains (Rune.char c)

/-- What `encoding/json` keeps of a string: each invalid byte becomes the
replacement character. -/
def jsonText (s : GoString) : GoString :=
  s.map fun r => if r.isValid then r else .char (Char.ofNat 0xFFFD)

variable {s p : GoString} {r : Rune} {ps qs : List GoString}

theorem jsonText_eq_self (h : validString s = true) : jsonText s = s := by
  have hr : ∀ r ∈ s, r.isValid = true := List.all_eq_true.mp h
  conv_rhs => rw [← List.map_id s]
  apply List.map_congr_left
  intro r hm
  simp [hr r hm]

theorem dropWhile_eq_self_iff_head {p : Rune → Bool} :
    s.dropWhile p = s ↔ ∀ r ∈ s.head?, p r = false := by
  cases s with
  | nil => simp
  | cons r s =>
    cases hp : p r with
    | false => simp [hp]
    | true =>
      simp only [List.dropWhile_cons, hp, if_true, List.head?_cons, Option.mem_def,
        Option.some.injEq, forall_eq', Bool.true_eq_false, iff_false]
      intro h
      have := (List.dropWhile_suffix (l := s) p).length_le
      rw [h, List.length_cons] at this
      omega

theorem head?_dropWhile_not {p : Rune → Bool} (h : r ∈ (s.dropWhile p).head?) : p r = false := by
  have hid : (s.dropWhile p).dropWhile p = s.dropWhile p := List.dropWhile_idempotent p s
  exact dropWhile_eq_self_iff_head.mp hid r h

theorem head?_rdropWhile {p : Rune → Bool} (h : r ∈ (s.rdropWhile p).head?) : r ∈ s.head? := by
  obtain ⟨t, ht⟩ := List.rdropWhile_prefix p (l := s)
  rw [← ht]
  cases hs : s.rdropWhile p with
  | nil => simp [hs] at h
  | cons a l => simpa [hs] using h

/-- Trimming is the identity on a trimmed string, so a value that has been
normalized once is not changed by normalizing it again. -/
theorem trimSpace_trimSpace (s : GoString) : trimSpace (trimSpace s) = trimSpace s := by
  have hhead : (trimSpace s).dropWhile isSpace = trimSpace s :=
    dropWhile_eq_self_iff_head.mpr fun r hr => head?_dropWhile_not (head?_rdropWhile hr)
  conv_lhs => rw [trimSpace, hhead]
  exact List.rdropWhile_idempotent isSpace (s.dropWhile isSpace)

theorem rdropWhile_eq_self_iff_last {p : Rune → Bool} :
    s.rdropWhile p = s ↔ ∀ r ∈ s.getLast?, p r = false := by
  rw [List.rdropWhile, List.reverse_eq_iff, dropWhile_eq_self_iff_head, List.head?_reverse]

theorem trimSpace_eq_self (hh : ∀ r ∈ s.head?, isSpace r = false)
    (hl : ∀ r ∈ s.getLast?, isSpace r = false) : trimSpace s = s := by
  rw [trimSpace, dropWhile_eq_self_iff_head.mpr hh, rdropWhile_eq_self_iff_last.mpr hl]

theorem ends_of_trimSpace (h : trimSpace s = s) :
    (∀ r ∈ s.head?, isSpace r = false) ∧ ∀ r ∈ s.getLast?, isSpace r = false := by
  constructor
  · intro r hr
    rw [← h] at hr
    exact head?_dropWhile_not (head?_rdropWhile hr)
  · rw [← rdropWhile_eq_self_iff_last]
    conv_lhs => rw [← h]
    rw [trimSpace, List.rdropWhile_idempotent, ← trimSpace, h]

def split : GoString → List GoString
  | [] => [[]]
  | r :: rs =>
    if r = slash then [] :: split rs
    else
      match split rs with
      | [] => [[r]]
      | p :: ps => (r :: p) :: ps

def join : List GoString → GoString
  | [] => []
  | [p] => p
  | p :: ps => p ++ slash :: join ps

theorem split_ne_nil (s : GoString) : split s ≠ [] := by
  cases s with
  | nil => simp [split]
  | cons r rs =>
    rw [split]
    split_ifs
    · simp
    · cases split rs <;> simp

theorem join_cons_of_ne_nil (h : ps ≠ []) :
    join (p :: ps) = p ++ slash :: join ps := by
  cases ps with
  | nil => exact absurd rfl h
  | cons q qs => rfl

theorem join_cons_cons (p q : GoString) (ps : List GoString) :
    join (p :: q :: ps) = p ++ slash :: join (q :: ps) := rfl

theorem join_append (hp : ps ≠ []) (hq : qs ≠ []) :
    join (ps ++ qs) = join ps ++ slash :: join qs := by
  induction ps with
  | nil => exact absurd rfl hp
  | cons p ps ih =>
    cases ps with
    | nil => exact join_cons_of_ne_nil hq
    | cons r ps =>
      have hi := ih (by simp)
      rw [List.cons_append, join_cons_of_ne_nil (by simp), hi, join_cons_cons, List.append_assoc,
        List.cons_append]

theorem join_split (s : GoString) : join (split s) = s := by
  induction s with
  | nil => rfl
  | cons r rs ih =>
    by_cases hr : r = slash
    · subst hr
      simp [split, join_cons_of_ne_nil (split_ne_nil rs), ih]
    · cases hs : split rs with
      | nil => exact absurd hs (split_ne_nil rs)
      | cons p ps =>
        rw [hs] at ih
        cases ps with
        | nil => simpa [split, hr, hs, join] using ih
        | cons q qs => simpa [split, hr, hs, join] using ih

theorem split_of_notMem (h : slash ∉ p) : split p = [p] := by
  induction p with
  | nil => rfl
  | cons r rs ih =>
    have hr : r ≠ slash := fun e => h (by simp [e])
    have hrs : slash ∉ rs := fun e => h (by simp [e])
    simp [split, hr, ih hrs]

theorem split_append_slash (s t : GoString) : split (s ++ slash :: t) = split s ++ split t := by
  induction s with
  | nil => simp [split]
  | cons r rs ih =>
    by_cases hr : r = slash
    · simp [split, hr, ih]
    · cases hs : split rs with
      | nil => exact absurd hs (split_ne_nil rs)
      | cons p ps => simp [split, hr, ih, hs]

theorem split_join (hne : ps ≠ []) (hs : ∀ p ∈ ps, slash ∉ p) :
    split (join ps) = ps := by
  induction ps with
  | nil => exact absurd rfl hne
  | cons p ps ih =>
    have hp := split_of_notMem (hs p (by simp))
    cases ps with
    | nil => simpa [join] using hp
    | cons q qs =>
      rw [join_cons_cons, split_append_slash, hp, ih (by simp) (fun x hx => hs x (by simp [hx]))]
      rfl

theorem slash_notMem_of_mem_split (h : p ∈ split s) : slash ∉ p := by
  induction s generalizing p with
  | nil => simp_all [split]
  | cons r rs ih =>
    by_cases hr : r = slash
    · simp only [split, hr, if_true, List.mem_cons] at h
      rcases h with rfl | h
      · simp
      · exact ih h
    · cases hs : split rs with
      | nil => exact absurd hs (split_ne_nil rs)
      | cons q qs =>
        simp only [split, hr, if_false, hs, List.mem_cons] at h
        rcases h with rfl | h
        · have hq := ih (p := q) (by simp [hs])
          simp [hq, Ne.symm hr]
        · exact ih (by simp [hs, h])

/-- A name that can stand between two slashes. -/
def Plain (p : GoString) : Prop := p ≠ [] ∧ slash ∉ p

instance (p : GoString) : Decidable (Plain p) := inferInstanceAs (Decidable (_ ∧ _))

theorem join_ne_nil (hne : ps ≠ []) (hs : ∀ p ∈ ps, Plain p) : join ps ≠ [] := by
  cases ps with
  | nil => exact absurd rfl hne
  | cons p ps =>
    have hp := (hs p (by simp)).1
    cases ps with
    | nil => simpa [join] using hp
    | cons q qs => simp [join_cons_cons]

/-- Lists of plain names are determined by their slash-joined spelling. -/
theorem join_injective (hp : ∀ p ∈ ps, Plain p) (hq : ∀ q ∈ qs, Plain q) (h : join ps = join qs) :
    ps = qs := by
  by_cases hpe : ps = []
  · by_cases hqe : qs = []
    · rw [hpe, hqe]
    · exact absurd (by rw [← h, hpe, join]) (join_ne_nil hqe hq)
  · by_cases hqe : qs = []
    · exact absurd (by rw [h, hqe, join]) (join_ne_nil hpe hp)
    · have he := congrArg split h
      rwa [split_join hpe (fun p hm => (hp p hm).2), split_join hqe (fun q hm => (hq q hm).2)] at he

/-- A spelled path lies strictly below another exactly when the list of its
names properly extends the other's. -/
theorem join_slash_prefix_iff {v a : List GoString} (hv : ∀ p ∈ v, Plain p) (ha : ∀ p ∈ a, Plain p)
    (hne : a ≠ []) : join a ++ [slash] <+: join v ↔ ∃ r, r ≠ [] ∧ v = a ++ r := by
  constructor
  · rintro ⟨t, ht⟩
    have hve : v ≠ [] := by
      rintro rfl
      simp [join] at ht
    have he := congrArg split ht
    rw [List.append_assoc, List.singleton_append, split_append_slash,
      split_join hne (fun p hm => (ha p hm).2), split_join hve (fun p hm => (hv p hm).2)] at he
    exact ⟨split t, split_ne_nil t, he.symm⟩
  · rintro ⟨r, hr, rfl⟩
    exact ⟨join r, by rw [join_append hne hr]; simp⟩

theorem head?_join (hp : p ≠ []) : (join (p :: ps)).head? = p.head? := by
  cases ps with
  | nil => rfl
  | cons q qs => rw [join_cons_cons, List.head?_append_of_ne_nil _ hp]

theorem getLast?_join (hp : p ≠ []) :
    (join (ps ++ [p])).getLast? = p.getLast? := by
  induction ps with
  | nil => rfl
  | cons q ps ih =>
    have hne : join (ps ++ [p]) ≠ [] := by
      intro he
      rw [he, List.getLast?_nil] at ih
      exact hp (List.getLast?_eq_none_iff.mp ih.symm)
    rw [List.cons_append, join_cons_of_ne_nil (by simp), List.getLast?_append_of_ne_nil _ (by simp),
      List.getLast?_cons_of_ne_nil hne, ih]

theorem trimSpace_join (h : ∀ p ∈ ps, p ≠ [] ∧ trimSpace p = p) :
    trimSpace (join ps) = join ps := by
  cases ps with
  | nil => rfl
  | cons p qs =>
    apply trimSpace_eq_self
    · rw [head?_join (h p (by simp)).1]
      exact (ends_of_trimSpace (h p (by simp)).2).1
    · obtain ⟨rs, r, hr⟩ := List.eq_nil_or_concat' (p :: qs) |>.resolve_left (by simp)
      have hm := h r (by rw [hr]; simp)
      rw [hr, getLast?_join hm.1]
      exact (ends_of_trimSpace hm.2).2

/-- The bytes of a string, by which Go compares strings. -/
def bytes (s : GoString) : List Nat :=
  s.flatMap fun
    | .char c => (String.utf8EncodeChar c).map UInt8.toNat
    | .bad b => [b.toNat]

def utf8 (s : GoString) : List UInt8 := (bytes s).map UInt8.ofNat

def leBytes : List Nat → List Nat → Bool
  | [], _ => true
  | _ :: _, [] => false
  | a :: s, b :: t => a < b || (a == b && leBytes s t)

theorem leBytes_total (s t : List Nat) : leBytes s t = true ∨ leBytes t s = true := by
  induction s generalizing t with
  | nil => simp [leBytes]
  | cons a s ih =>
    cases t with
    | nil => simp [leBytes]
    | cons b t =>
      simp only [leBytes, Bool.or_eq_true, decide_eq_true_eq, Bool.and_eq_true, beq_iff_eq]
      rcases Nat.lt_trichotomy a b with h | h | h
      · exact .inl (.inl h)
      · rcases ih t with hst | hts
        · exact .inl (.inr ⟨h, hst⟩)
        · exact .inr (.inr ⟨h.symm, hts⟩)
      · exact .inr (.inl h)

theorem leBytes_trans {s t u : List Nat} (h : leBytes s t = true) (h' : leBytes t u = true) :
    leBytes s u = true := by
  induction s generalizing t u with
  | nil => simp [leBytes]
  | cons a s ih =>
    cases t with
    | nil => simp [leBytes] at h
    | cons b t =>
      cases u with
      | nil => simp [leBytes] at h'
      | cons c u =>
        simp only [leBytes, Bool.or_eq_true, decide_eq_true_eq, Bool.and_eq_true, beq_iff_eq]
          at h h' ⊢
        rcases h with h | ⟨rfl, h⟩
        · rcases h' with h' | ⟨rfl, -⟩
          · exact .inl (h.trans h')
          · exact .inl h
        · rcases h' with h' | ⟨rfl, h'⟩
          · exact .inl h'
          · exact .inr ⟨rfl, ih h h'⟩

theorem leBytes_antisymm {s t : List Nat} (h : leBytes s t = true) (h' : leBytes t s = true) :
    s = t := by
  induction s generalizing t with
  | nil =>
    cases t with
    | nil => rfl
    | cons b t => simp [leBytes] at h'
  | cons a s ih =>
    cases t with
    | nil => simp [leBytes] at h
    | cons b t =>
      simp only [leBytes, Bool.or_eq_true, decide_eq_true_eq, Bool.and_eq_true, beq_iff_eq] at h h'
      rcases h with h | ⟨rfl, h⟩
      · omega
      · rcases h' with h' | ⟨-, h'⟩
        · omega
        · rw [ih h h']

theorem eq_map_char_of_valid (h : validString s = true) :
    ∃ cs : List Char, s = cs.map Rune.char := by
  induction s with
  | nil => exact ⟨[], rfl⟩
  | cons r s ih =>
    simp only [validString, List.all_cons, Bool.and_eq_true] at h
    obtain ⟨cs, rfl⟩ := ih h.2
    cases r with
    | char c => exact ⟨c :: cs, rfl⟩
    | bad b => simp [Rune.isValid] at h

theorem bytes_map_char (cs : List Char) :
    bytes (cs.map Rune.char) = (cs.flatMap String.utf8EncodeChar).map UInt8.toNat := by
  simp [bytes, List.flatMap_map, List.map_flatMap]

theorem bytes_injective {t : GoString} (hs : validString s = true) (ht : validString t = true)
    (h : bytes s = bytes t) : s = t := by
  obtain ⟨cs, rfl⟩ := eq_map_char_of_valid hs
  obtain ⟨ds, rfl⟩ := eq_map_char_of_valid ht
  rw [bytes_map_char, bytes_map_char] at h
  have hflat := List.map_injective_iff.mpr (fun _ _ => UInt8.toNat_inj.mp) h
  have hbytes : (String.ofList cs).toByteArray = (String.ofList ds).toByteArray := by
    simp [List.utf8Encode, hflat]
  rw [String.ofList_inj.mp (String.toByteArray_inj.mp hbytes)]

/-- Sort by the bytes of a name, as `slices.SortFunc` with `strings.Compare` does. -/
def sortOn {α : Type} (name : α → GoString) (l : List α) : List α :=
  l.insertionSort fun a b => leBytes (bytes (name a)) (bytes (name b)) = true

section sortOn

variable {α : Type} {name : α → GoString}

instance : Std.Total fun a b : α => leBytes (bytes (name a)) (bytes (name b)) = true :=
  ⟨fun a b => leBytes_total (bytes (name a)) (bytes (name b))⟩

instance : IsTrans α fun a b => leBytes (bytes (name a)) (bytes (name b)) = true :=
  ⟨fun _ _ _ => leBytes_trans⟩

theorem sortOn_perm (name : α → GoString) (l : List α) : (sortOn name l).Perm l :=
  List.perm_insertionSort _ l

theorem sortOn_pairwise (name : α → GoString) (l : List α) :
    (sortOn name l).Pairwise fun a b => leBytes (bytes (name a)) (bytes (name b)) = true :=
  List.pairwise_insertionSort _ l

/-- There is one sorted list of given elements with distinct names. -/
theorem eq_sortOn_of_perm {l l' : List α} (hperm : l'.Perm l)
    (hsorted : l'.Pairwise fun a b => leBytes (bytes (name a)) (bytes (name b)) = true)
    (hvalid : ∀ a ∈ l, validString (name a) = true) (hnodup : (l.map name).Nodup) :
    l' = sortOn name l := by
  have hperm' : l'.Perm (sortOn name l) := hperm.trans (sortOn_perm name l).symm
  refine hperm'.eq_of_pairwise (fun a b ha hb hab hba => ?_) hsorted (sortOn_pairwise name l)
  have ha' : a ∈ l := hperm.subset ha
  have hb' : b ∈ l := (sortOn_perm name l).subset hb
  have hname : name a = name b :=
    bytes_injective (hvalid a ha') (hvalid b hb') (leBytes_antisymm hab hba)
  exact List.inj_on_of_nodup_map hnodup ha' hb' hname

theorem sortOn_eq_of_perm {l l' : List α} (hperm : l.Perm l')
    (hvalid : ∀ a ∈ l, validString (name a) = true)
    (hnodup : (l.map name).Nodup) : sortOn name l' = sortOn name l :=
  eq_sortOn_of_perm ((sortOn_perm name l').trans hperm.symm) (sortOn_pairwise name l') hvalid hnodup

theorem map_sortOn {β : Type} {name' : β → GoString} {f : α → β} (h : ∀ a, name' (f a) = name a)
    (l : List α) : (sortOn name l).map f = sortOn name' (l.map f) :=
  List.map_insertionSort _ _ f l fun a _ b _ => by rw [h, h]

end sortOn

end GoText
