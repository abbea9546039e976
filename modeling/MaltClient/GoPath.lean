import MaltClient.GoText

/-! Slash paths: lexical cleaning as in Go's `path` package, and the reading of
a clean relative path as the list of its names. -/

namespace GoText

def dot : GoString := text "."

def dotDot : GoString := text ".."

/-- One element of a path handled by `path.Clean`. The elements kept so far
stand in reverse, the last one first. -/
def cleanStep (rooted : Bool) (out : List GoString) (seg : GoString) : List GoString :=
  if seg = [] ∨ seg = dot then out
  else if seg = dotDot then
    match out with
    | [] => if rooted then [] else [dotDot]
    | top :: rest => if top = dotDot then dotDot :: top :: rest else rest
  else seg :: out

def cleanParts (rooted : Bool) (parts : List GoString) : List GoString :=
  (parts.foldl (cleanStep rooted) []).reverse

def clean (s : GoString) : GoString :=
  let rooted := s.head? == some slash
  let out := cleanParts rooted (split s)
  if rooted then slash :: join out
  else if out = [] then dot
  else join out

/-- `filepath.Dir`: what stands before the last name, cleaned. -/
def dir (s : GoString) : GoString := clean (s.rdropWhile fun r => r ≠ slash)

/-- `filepath.Base` -/
def base (s : GoString) : GoString :=
  if s = [] then dot
  else
    let last := (s.rdropWhile fun r => r = slash).rtakeWhile fun r => r ≠ slash
    if last = [] then [slash] else last

def hasPrefix (s p : GoString) : Bool := p.isPrefixOf s

def isAbs (s : GoString) : Bool := hasPrefix s [slash]

/-- `path.Join`: empty elements are left out, and the rest is cleaned. -/
def pathJoin (elems : List GoString) : GoString :=
  let elems := elems.filter fun e => e ≠ []
  if elems = [] then [] else clean (join elems)

/-- A directory entry name: plain, and neither of the two reserved names. -/
def Name (p : GoString) : Prop := Plain p ∧ p ≠ dot ∧ p ≠ dotDot

instance (p : GoString) : Decidable (Name p) := inferInstanceAs (Decidable (_ ∧ _))

variable {p s d : GoString} {out parts ps : List GoString} {rooted : Bool} {r : Rune}

theorem Name.plain (h : Name p) : Plain p := h.1

theorem hasPrefix_iff : hasPrefix s p = true ↔ p <+: s :=
  List.isPrefixOf_iff_prefix

theorem isAbs_iff : isAbs s = true ↔ s.head? = some slash := by
  rw [isAbs, hasPrefix_iff]
  cases s with
  | nil => simp
  | cons r s => simp [List.cons_prefix_cons, eq_comm]

theorem hasPrefix_self_append (p t : GoString) : hasPrefix (p ++ t) p = true :=
  hasPrefix_iff.mpr (List.prefix_append p t)

theorem base_ne_nil (s : GoString) : base s ≠ [] := by
  by_cases hnil : s = []
  · rw [base, if_pos hnil]
    decide
  · rw [base, if_neg hnil]
    dsimp only
    split_ifs with hlast
    · simp
    · exact hlast

theorem slash_notMem_dotDot : slash ∉ dotDot := by decide

/-- The elements kept by cleaning, in reverse: names above a run of `..`,
and no `..` at all below a root. -/
def CleanShape (rooted : Bool) (out : List GoString) : Prop :=
  ∃ names k, out = names ++ List.replicate k dotDot ∧ (∀ n ∈ names, Name n) ∧
    (rooted = true → k = 0)

theorem cleanShape_step {seg : GoString} (hs : slash ∉ seg)
    (h : CleanShape rooted out) : CleanShape rooted (cleanStep rooted out seg) := by
  obtain ⟨names, k, rfl, hnames, hroot⟩ := h
  by_cases hskip : seg = [] ∨ seg = dot
  · exact ⟨names, k, by simp [cleanStep, hskip], hnames, hroot⟩
  by_cases hup : seg = dotDot
  · subst hup
    cases names with
    | nil =>
      cases k with
      | zero =>
        cases rooted with
        | true => exact ⟨[], 0, by simp [cleanStep, hskip], by simp, fun _ => rfl⟩
        | false => exact ⟨[], 1, by simp [cleanStep, hskip], by simp, by simp⟩
      | succ k =>
        have hr : rooted ≠ true := fun hr => absurd (hroot hr) (by simp)
        exact ⟨[], k + 2, by simp [cleanStep, hskip, List.replicate_succ], by simp,
          fun e => absurd e hr⟩
    | cons n names =>
      have hn : n ≠ dotDot := (hnames n (by simp)).2.2
      exact ⟨names, k, by simp [cleanStep, hskip, hn], fun m hm => hnames m (by simp [hm]), hroot⟩
  · have hname : Name seg := ⟨⟨fun e => hskip (.inl e), hs⟩, fun e => hskip (.inr e), hup⟩
    exact ⟨seg :: names, k, by simp [cleanStep, hskip, hup], by simpa using ⟨hname, hnames⟩, hroot⟩

theorem cleanShape_foldl (hs : ∀ p ∈ parts, slash ∉ p)
    (h : CleanShape rooted out) : CleanShape rooted (parts.foldl (cleanStep rooted) out) := by
  induction parts generalizing out with
  | nil => exact h
  | cons p parts ih =>
    exact ih (fun q hq => hs q (by simp [hq])) (cleanShape_step (hs p (by simp)) h)

theorem cleanStep_skip {seg : GoString} (h : seg = [] ∨ seg = dot) :
    cleanStep rooted out seg = out := by
  simp [cleanStep, h]

theorem cleanStep_name (h : Name p) : cleanStep rooted out p = p :: out := by
  obtain ⟨⟨hne, -⟩, hdot, hdd⟩ := h
  simp [cleanStep, hne, hdot, hdd]

theorem cleanStep_dotDot_cons (top : GoString) :
    cleanStep rooted (top :: out) dotDot = if top = dotDot then dotDot :: top :: out else out := by
  have hskip : ¬ (dotDot = [] ∨ dotDot = dot) := by decide
  simp [cleanStep, hskip]

theorem foldl_cleanStep_names (hp : ∀ p ∈ ps, Name p) :
    ps.foldl (cleanStep rooted) out = ps.reverse ++ out := by
  induction ps generalizing out with
  | nil => rfl
  | cons p ps ih =>
    rw [List.foldl_cons, ih fun q hq => hp q (by simp [hq]), cleanStep_name (hp p (by simp))]
    simp

theorem head?_join_ne_slash (hp : ∀ p ∈ ps, Plain p) :
    (join ps).head? ≠ some slash := by
  cases ps with
  | nil => simp [join]
  | cons p ps =>
    obtain ⟨hne, hns⟩ := hp p (by simp)
    cases p with
    | nil => exact absurd rfl hne
    | cons r rs =>
      have hr : r ≠ slash := fun e => hns (by simp [e])
      cases ps with
      | nil => simpa [join] using hr
      | cons q qs => simpa [join] using hr

theorem clean_join (hne : ps ≠ []) (hp : ∀ p ∈ ps, Name p) :
    clean (join ps) = join ps := by
  have hrel : ((join ps).head? == some slash) = false := by
    simpa using head?_join_ne_slash fun p hm => (hp p hm).plain
  have hsplit : split (join ps) = ps := split_join hne fun p hm => (hp p hm).plain.2
  have hout : cleanParts false ps = ps := by
    simp [cleanParts, foldl_cleanStep_names hp]
  simp [clean, hrel, hsplit, hout, hne]

theorem clean_slash_join (hp : ∀ p ∈ ps, Name p) :
    clean (slash :: join ps) = slash :: join ps := by
  have hsplit : split (slash :: join ps) = [] :: split (join ps) := by simp [split]
  have hout : cleanParts true ([] :: split (join ps)) = ps := by
    cases ps with
    | nil => decide
    | cons q qs =>
      rw [split_join (by simp) fun p hm => (hp p hm).plain.2]
      simp [cleanParts, foldl_cleanStep_names hp, cleanStep]
  simp [clean, hsplit, hout]

/-- The characters of a list of elements, each with a slash. -/
def pathWeight (ps : List GoString) : Nat := (ps.map fun p => p.length + 1).sum

theorem pathWeight_split (s : GoString) : pathWeight (split s) = s.length + 1 := by
  induction s with
  | nil => rfl
  | cons r s ih =>
    rw [split]
    split_ifs with hr
    · simp only [pathWeight, List.map_cons, List.sum_cons, List.length_nil, List.length_cons]
        at ih ⊢
      omega
    · cases hs : split s with
      | nil => exact absurd hs (split_ne_nil s)
      | cons p ps =>
        rw [hs] at ih
        simp only [pathWeight, List.map_cons, List.sum_cons, List.length_cons] at ih ⊢
        omega

theorem pathWeight_cleanStep (out : List GoString) (seg : GoString) :
    pathWeight (cleanStep true out seg) ≤ pathWeight out + (if seg = [] then 0
      else seg.length + 1) := by
  unfold cleanStep
  by_cases hskip : seg = [] ∨ seg = dot
  · rw [if_pos hskip]
    omega
  have hne : seg ≠ [] := fun h => hskip (.inl h)
  rw [if_neg hskip, if_neg hne]
  by_cases hup : seg = dotDot
  · rw [if_pos hup]
    cases out with
    | nil => simp [pathWeight]
    | cons top rest =>
      dsimp only
      by_cases htop : top = dotDot
      · rw [if_pos htop]
        simp only [pathWeight, List.map_cons, List.sum_cons, hup]
        omega
      · rw [if_neg htop]
        simp only [pathWeight, List.map_cons, List.sum_cons]
        omega
  · rw [if_neg hup]
    simp only [pathWeight, List.map_cons, List.sum_cons]
    omega

theorem pathWeight_foldl_cleanStep (parts out : List GoString) :
    pathWeight (parts.foldl (cleanStep true) out) ≤ pathWeight out + pathWeight parts := by
  induction parts generalizing out with
  | nil => simp [pathWeight]
  | cons p parts ih =>
    have hstep := pathWeight_cleanStep out p
    have hrest := ih (cleanStep true out p)
    have hp : (if p = [] then 0 else p.length + 1) ≤ p.length + 1 := by split_ifs <;> omega
    simp only [List.foldl_cons, pathWeight, List.map_cons, List.sum_cons] at hstep hrest ⊢
    omega

theorem length_join_le (ps : List GoString) : (join ps).length ≤ pathWeight ps - 1 := by
  induction ps with
  | nil => rfl
  | cons p ps ih =>
    cases ps with
    | nil => simp [join, pathWeight]
    | cons q qs =>
      rw [join_cons_cons]
      simp only [pathWeight, List.map_cons, List.sum_cons, List.length_append, List.length_cons]
        at ih ⊢
      omega

theorem length_clean_le (h : s.head? = some slash) : (clean s).length ≤ s.length := by
  cases s with
  | nil => cases h
  | cons r t =>
    cases h
    have hsplit : split (slash :: t) = [] :: split t := by simp [split]
    have hfirst : cleanStep true [] [] = [] := by simp [cleanStep]
    have hweight := pathWeight_foldl_cleanStep (split t) []
    rw [pathWeight_split] at hweight
    have hlength := length_join_le (cleanParts true (split (slash :: t)))
    have hperm : pathWeight (cleanParts true (split (slash :: t))) =
        pathWeight ((split t).foldl (cleanStep true) []) := by
      rw [cleanParts, hsplit, List.foldl_cons, hfirst, pathWeight, List.map_reverse,
        List.sum_reverse, pathWeight]
    have hnil : pathWeight ([] : List GoString) = 0 := rfl
    simp only [clean, List.head?_cons, beq_self_eq_true, if_true, List.length_cons]
    omega

theorem exists_names_of_clean_rooted (h : s.head? = some slash) :
    ∃ ps, (∀ p ∈ ps, Name p) ∧ clean s = slash :: join ps := by
  have hr : (s.head? == some slash) = true := by simp [h]
  have hshape : CleanShape true ((split s).foldl (cleanStep true) []) :=
    cleanShape_foldl (fun p hm => slash_notMem_of_mem_split hm) ⟨[], 0, rfl, by simp, by simp⟩
  obtain ⟨names, k, hout, hnames, hk⟩ := hshape
  rw [hk rfl, List.replicate_zero, List.append_nil] at hout
  refine ⟨names.reverse, by simpa using hnames, ?_⟩
  simp [clean, hr, cleanParts, hout]

theorem mem_of_mem_split (hp : p ∈ split s) (hr : r ∈ p) : r ∈ s := by
  induction s generalizing p with
  | nil =>
    obtain rfl : p = [] := by simpa [split] using hp
    exact hr
  | cons a s ih =>
    rw [split] at hp
    split_ifs at hp with ha
    · rcases List.mem_cons.mp hp with rfl | hp
      · cases hr
      · exact List.mem_cons_of_mem a (ih hp hr)
    · cases hs : split s with
      | nil => exact absurd hs (split_ne_nil s)
      | cons q qs =>
        rw [hs] at hp ih
        rcases List.mem_cons.mp hp with rfl | hp
        · rcases List.mem_cons.mp hr with rfl | hr
          · exact List.mem_cons_self
          · exact List.mem_cons_of_mem a (ih List.mem_cons_self hr)
        · exact List.mem_cons_of_mem a (ih (List.mem_cons_of_mem q hp) hr)

theorem mem_join (h : r ∈ join ps) : r = slash ∨ ∃ p ∈ ps, r ∈ p := by
  induction ps with
  | nil => cases h
  | cons p ps ih =>
    cases ps with
    | nil => exact .inr ⟨p, List.mem_cons_self, h⟩
    | cons q qs =>
      rw [join_cons_cons] at h
      rcases List.mem_append.mp h with h | h
      · exact .inr ⟨p, List.mem_cons_self, h⟩
      · rcases List.mem_cons.mp h with h | h
        · exact .inl h
        · rcases ih h with h | ⟨m, hm, hr⟩
          · exact .inl h
          · exact .inr ⟨m, List.mem_cons_of_mem p hm, hr⟩

theorem mem_foldl_cleanStep (h : p ∈ parts.foldl (cleanStep rooted) out) : p ∈ out ∨ p ∈ parts := by
  induction parts generalizing out with
  | nil => exact .inl h
  | cons q parts ih =>
    rcases ih h with h | h
    · have hstep : p ∈ out ∨ p = q := by
        unfold cleanStep at h
        by_cases hskip : q = [] ∨ q = dot
        · rw [if_pos hskip] at h
          exact .inl h
        rw [if_neg hskip] at h
        by_cases hup : q = dotDot
        · rw [if_pos hup] at h
          cases out with
          | nil =>
            cases rooted with
            | true => simp at h
            | false => exact .inr ((List.mem_singleton.mp h).trans hup.symm)
          | cons top rest =>
            by_cases htop : top = dotDot
            · simp only [if_pos htop] at h
              rcases List.mem_cons.mp h with h | h
              · exact .inr (h.trans hup.symm)
              · exact .inl h
            · simp only [if_neg htop] at h
              exact .inl (List.mem_cons_of_mem top h)
        · rw [if_neg hup] at h
          exact (List.mem_cons.mp h).symm
      rcases hstep with h | h
      · exact .inl h
      · exact .inr (h ▸ List.mem_cons_self)
    · exact .inr (List.mem_cons_of_mem q h)

theorem mem_clean_rooted (h : s.head? = some slash) (hr : r ∈ clean s) : r ∈ s := by
  have hslash : slash ∈ s := List.mem_of_mem_head? h
  have hrooted : (s.head? == some slash) = true := by simp [h]
  simp only [clean, hrooted, if_true] at hr
  rcases List.mem_cons.mp hr with rfl | hr
  · exact hslash
  · rcases mem_join hr with rfl | ⟨p, hp, hr⟩
    · exact hslash
    · rw [cleanParts, List.mem_reverse] at hp
      have hsplit : p ∈ split s := (mem_foldl_cleanStep hp).resolve_left List.not_mem_nil
      exact mem_of_mem_split hsplit hr

theorem plain_dotDot : Plain dotDot := ⟨by decide, slash_notMem_dotDot⟩

theorem pathJoin_name (hps : ∀ p ∈ ps, Name p) {name : GoString} (hname : Name name) :
    pathJoin [join ps, name] = join (ps ++ [name]) := by
  have hall : ∀ p ∈ ps ++ [name], Name p := by
    intro p hp
    rcases List.mem_append.mp hp with hp | hp
    · exact hps p hp
    · rw [List.mem_singleton.mp hp]
      exact hname
  have hne : name ≠ [] := hname.plain.1
  by_cases hnil : ps = []
  · subst hnil
    have hfilter : [join [], name].filter (fun e => e ≠ []) = [name] := by simp [join, hne]
    rw [pathJoin, hfilter, if_neg (by simp)]
    exact clean_join (by simp) hall
  · have hparts : join ps ≠ [] := join_ne_nil hnil fun p hp => (hps p hp).plain
    have hfilter :
      [join ps, name].filter (fun e => e ≠ []) = [join ps, name] := by simp [hparts, hne]
    have hjoined : join [join ps, name] = join (ps ++ [name]) := by
      rw [join_append hnil (by simp)]
      rfl
    rw [pathJoin, hfilter, if_neg (by simp), hjoined]
    exact clean_join (by simp) hall

/-- Names below any directory: its own elements are cleaned and the names stand
after them. -/
theorem pathJoin_names (hd : d ≠ []) (hne : ps ≠ []) (hps : ∀ p ∈ ps, Name p) :
    pathJoin [d, join ps] =
      (if d.head? = some slash then [slash] else []) ++
        join (cleanParts (d.head? == some slash) (split d) ++ ps) := by
  have hplain : ∀ p ∈ ps, Plain p := fun p hp => (hps p hp).plain
  have hjoin : join ps ≠ [] := join_ne_nil hne hplain
  have hfilter : [d, join ps].filter (fun e => e ≠ []) = [d, join ps] := by simp [hd, hjoin]
  have hhead : (join [d, join ps]).head? = d.head? := by
    cases d with
    | nil => exact absurd rfl hd
    | cons r rest => rfl
  have hsplit : split (join [d, join ps]) = split d ++ ps := by
    rw [join_cons_cons, split_append_slash]
    change split d ++ split (join ps) = _
    rw [split_join hne fun p hp => (hplain p hp).2]
  have hparts (rooted : Bool) :
    cleanParts rooted (split d ++ ps) = cleanParts rooted (split d) ++ ps := by
    rw [cleanParts, List.foldl_append, foldl_cleanStep_names hps, List.reverse_append,
      List.reverse_reverse, cleanParts]
  rw [pathJoin, hfilter, if_neg (by simp), clean, hhead, hsplit, hparts]
  by_cases hrooted : d.head? = some slash
  · simp [hrooted]
  · simp [hrooted, hne]

theorem plain_cleanParts (h : p ∈ cleanParts rooted (split d)) : Plain p := by
  have hempty : CleanShape rooted [] := ⟨[], 0, rfl, by simp, fun _ => rfl⟩
  obtain ⟨names, k, hshape, hnames, -⟩ := cleanShape_foldl (fun q hq =>
    slash_notMem_of_mem_split hq) hempty
  rw [cleanParts, List.mem_reverse, hshape] at h
  rcases List.mem_append.mp h with h | h
  · exact (hnames p h).plain
  · rw [List.eq_of_mem_replicate h]
    exact plain_dotDot

/-- A parent that is left stays in front of what comes after it. -/
theorem getLast?_foldl_cleanStep (parts : List GoString) (h : out.getLast? = some dotDot) :
    (parts.foldl (cleanStep false) out).getLast? = some dotDot := by
  induction parts generalizing out with
  | nil => exact h
  | cons seg parts ih =>
    refine ih ?_
    cases out with
    | nil => cases h
    | cons top rest =>
      have hrest : top ≠ dotDot → rest.getLast? = some dotDot := by
        intro htop
        cases rest with
        | nil => exact absurd (Option.some.inj h) htop
        | cons r rest => exact h
      by_cases hskip : seg = [] ∨ seg = dot
      · rw [cleanStep_skip hskip, h]
      by_cases hup : seg = dotDot
      · rw [hup, cleanStep_dotDot_cons]
        split_ifs with htop
        · exact h
        · exact hrest htop
      · rw [cleanStep, if_neg hskip, if_neg hup]
        exact h

theorem exists_join_dotDot (hrel : s.head? ≠ some slash)
    (h : ((split s).foldl (cleanStep false) []).getLast? = some dotDot) :
    ∃ rest, (∀ p ∈ rest, Plain p) ∧ clean s = join (dotDot :: rest) := by
  have hr : (s.head? == some slash) = false := by simpa using hrel
  have hhead :
    (cleanParts false (split s)).head? = some dotDot := by rw [cleanParts, List.head?_reverse, h]
  cases hparts : cleanParts false (split s) with
  | nil => simp [hparts] at hhead
  | cons p rest =>
    obtain rfl : p = dotDot := by simpa [hparts] using hhead
    refine ⟨rest, fun p hp => plain_cleanParts (hparts ▸ List.mem_cons_of_mem _ hp), ?_⟩
    simp [clean, hr, hparts]

/-- Cleaning twice keeps such a parent. -/
theorem clean_clean_dotDot (hrel : s.head? ≠ some slash)
    (h : ((split s).foldl (cleanStep false) []).getLast? = some dotDot) :
    clean (clean s) = dotDot ∨ dotDot ++ [slash] <+: clean (clean s) := by
  obtain ⟨rest, hrest, hclean⟩ := exists_join_dotDot hrel h
  have hplain : ∀ p ∈ dotDot :: rest, Plain p := List.forall_mem_cons.mpr ⟨plain_dotDot, hrest⟩
  have hsplit : split (clean s) = dotDot :: rest := by
    rw [hclean, split_join (by simp) fun p hp => (hplain p hp).2]
  obtain ⟨rest', -, hclean'⟩ := exists_join_dotDot (hclean ▸ head?_join_ne_slash hplain)
    (hsplit ▸ getLast?_foldl_cleanStep rest rfl)
  rw [hclean']
  cases rest' with
  | nil => exact .inl rfl
  | cons p rest' => exact .inr ⟨join (p :: rest'), by rw [join_cons_cons]; simp⟩

theorem pathJoin_names_injective (hd : d ≠ []) {qs : List GoString} (hp : ps ≠ []) (hq : qs ≠ [])
    (hps : ∀ p ∈ ps, Name p) (hqs : ∀ q ∈ qs, Name q)
    (h : pathJoin [d, join ps] = pathJoin [d, join qs]) : ps = qs := by
  rw [pathJoin_names hd hp hps, pathJoin_names hd hq hqs] at h
  have hplain {rs : List GoString} (hrs : ∀ r ∈ rs, Name r) :
      ∀ r ∈ cleanParts (d.head? == some slash) (split d) ++ rs, Plain r := by
    intro r hr
    rcases List.mem_append.mp hr with hr | hr
    · exact plain_cleanParts hr
    · exact (hrs r hr).plain
  exact List.append_cancel_left (join_injective (hplain hps) (hplain hqs)
    (List.append_cancel_left h))

/-! ### Strings given byte by byte -/

/-- A rune of one byte. -/
def Rune.isByte : Rune → Bool
  | .char c => c.toNat < 128
  | .bad b => 128 ≤ b.toNat

/-- A string that is not decoded. Every sequence of bytes has this form in exactly
one way. -/
def Bytewise (s : GoString) : Prop := ∀ r ∈ s, r.isByte = true

instance (s : GoString) : Decidable (Bytewise s) :=
  inferInstanceAs (Decidable (∀ r ∈ s, r.isByte = true))

def Rune.byte : Rune → Nat
  | .char c => c.toNat
  | .bad b => b.toNat

theorem utf8EncodeChar_ascii {c : Char} (h : c.toNat < 128) :
    (String.utf8EncodeChar c).map UInt8.toNat = [c.toNat] := by
  have hv : c.val.toNat ≤ 127 := Nat.le_of_lt_succ h
  simp only [String.utf8EncodeChar, hv, if_true]
  simp
  omega

theorem bytes_of_bytewise (h : Bytewise s) : bytes s = s.map Rune.byte := by
  rw [bytes, List.map_eq_flatMap]
  refine List.flatMap_congr fun r hr => ?_
  have hbyte := h r hr
  cases r with
  | bad b => rfl
  | char c => exact utf8EncodeChar_ascii (by simpa [Rune.isByte] using hbyte)

theorem Rune.byte_injective {r' : Rune} (h : r.isByte = true) (h' : r'.isByte = true)
    (heq : r.byte = r'.byte) : r = r' := by
  cases r with
  | char c =>
    cases r' with
    | char c' => rw [Char.toNat_inj.mp heq]
    | bad b' =>
      simp only [Rune.isByte, decide_eq_true_eq, Rune.byte] at h h' heq
      omega
  | bad b =>
    cases r' with
    | char c' =>
      simp only [Rune.isByte, decide_eq_true_eq, Rune.byte] at h h' heq
      omega
    | bad b' => rw [UInt8.toNat_inj.mp heq]

theorem bytes_injective_of_bytewise {t : GoString} (hs : Bytewise s) (ht : Bytewise t)
    (h : bytes s = bytes t) : s = t := by
  rw [bytes_of_bytewise hs, bytes_of_bytewise ht] at h
  induction s generalizing t with
  | nil =>
    cases t with
    | nil => rfl
    | cons r' t => simp at h
  | cons r s ih =>
    cases t with
    | nil => simp at h
    | cons r' t =>
      obtain ⟨hr, hrest⟩ := List.cons_eq_cons.mp h
      rw [Rune.byte_injective (hs r List.mem_cons_self) (ht r' List.mem_cons_self) hr,
        ih (fun q hq => hs q (List.mem_cons_of_mem r hq))
          (fun q hq => ht q (List.mem_cons_of_mem r' hq)) hrest]

end GoText
